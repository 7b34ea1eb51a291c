import BtcPool.Network.Departures
import BtcPool.Network.Dialogue

/-!
# Requests are answered, and shares booked once

A Stratum V1 session answers each request it reads once, with its id and in order, as long as it
goes on (`requests_answered`). In both protocols a submit is booked exactly once, as accepted or as
rejected, the answer says which, and nothing but a submit is booked (`submits_settled`).
-/

namespace BtcPool

open Bitcoin Effect

/-! ## Bookings -/

namespace Effect

variable {μ : Type}

/-- A share that is booked, and whether as accepted. -/
def booking : Effect μ → Option Bool
  | stats (.accepted _ _ _ _) => some true
  | stats (.rejected _ _) => some false
  | _ => none

/-- What effects book, in order. -/
def bookings (effects : List (Effect μ)) : List Bool := effects.filterMap booking

theorem bookings_append (a b : List (Effect μ)) : bookings (a ++ b) = bookings a ++ bookings b :=
  List.filterMap_append

theorem AllRoutine.bookings_eq {effects : List (Effect μ)} (h : AllRoutine effects) :
    bookings effects = [] := by
  refine List.filterMap_eq_nil_iff.mpr fun e he => ?_
  have hroutine := h e he
  cases e with
  | stats event => cases event <;> first | rfl | exact hroutine.elim
  | _ => rfl

theorem bookings_acceptEffects (submitResult : Except PoolError BlockSubmitOutcome)
    (sessionId worker : Str) (credit : UInt64) (share : AcceptedShare) :
    bookings (acceptEffects (μ := μ) submitResult sessionId worker credit share) = [true] := by
  unfold acceptEffects
  dsimp only
  split
  · rfl
  · cases submitResult <;> rfl

end Effect

/-- What follows the handler books nothing. -/
theorem Concludes.bookings_eq {σ μ : Type} {effects : List (Effect μ)} {out : Outcome σ (Effect μ)}
    (h : Concludes effects out) : bookings out.outputs = bookings effects := by
  cases h with
  | goesOn tail houtputs htail hlive =>
    rw [houtputs, bookings_append, htail.bookings_eq, List.append_nil]
  | ends before after houtputs hbefore hafter hdead =>
    have hend : bookings (.stats .minerDisconnected :: after) = bookings after := rfl
    rw [houtputs, bookings_append, bookings_append, hend, hbefore.bookings_eq, hafter.bookings_eq,
      List.append_nil, List.append_nil]

/-! ## Settlements -/

/-- A submit under its key, what its turn booked and what it answered. -/
structure Settlement (κ : Type) where
  key : κ
  booked : List Bool
  answers : List (κ × Bool)
  deriving DecidableEq

/-- The submit was booked once and answered accordingly. -/
def Settlement.Answered {κ : Type} (t : Settlement κ) : Prop :=
  ∃ accepted, t.booked = [accepted] ∧ t.answers = [(t.key, accepted)]

/-- The submit was booked once, and not answered otherwise. -/
def Settlement.Booked {κ : Type} (t : Settlement κ) : Prop :=
  ∃ accepted, t.booked = [accepted] ∧ (t.answers = [(t.key, accepted)] ∨ t.answers = [])

theorem Settlement.Answered.booked {κ : Type} {t : Settlement κ} (h : t.Answered) : t.Booked := by
  obtain ⟨accepted, hbooked, hanswers⟩ := h
  exact ⟨accepted, hbooked, .inl hanswers⟩

section Settling

variable {σ ι μ κ : Type} (p : Process σ ι (Effect μ)) (submit : σ → ι → Option κ)
  (verdict : μ → Option (κ × Bool))

/-- What a turn settles, if it is a submit. -/
def settlements (s : σ) (i : ι) : List (Settlement κ) :=
  (submit s i).toList.map fun key =>
    ⟨key, bookings (p.step s i).outputs, (messages (p.step s i).outputs).filterMap verdict⟩

/-- A turn books a submit once and says so, unless it ends the session first; other turns book
nothing. -/
structure Settles (s : σ) (i : ι) : Prop where
  other : submit s i = none → bookings (p.step s i).outputs = []
  submit : ∀ key, submit s i = some key → ∃ accepted, bookings (p.step s i).outputs = [accepted] ∧
    ((messages (p.step s i).outputs).filterMap verdict = [(key, accepted)] ∨
      (messages (p.step s i).outputs).filterMap verdict = [] ∧ (p.step s i).live = false)

/-- What a run books is what its submits are settled for, one by one; all of them are answered while
the session goes on, and all but the last otherwise. -/
structure Settled (s : σ) (inputs : List ι) : Prop where
  bookings_eq : bookings (p.run s inputs).outputs =
    (p.collect (settlements p submit verdict) s inputs).flatMap Settlement.booked
  booked : ∀ t ∈ p.collect (settlements p submit verdict) s inputs, t.Booked
  answered : ∀ t ∈ (p.collect (settlements p submit verdict) s inputs).dropLast, t.Answered
  live : (p.run s inputs).live →
    ∀ t ∈ p.collect (settlements p submit verdict) s inputs, t.Answered

variable {p submit verdict}

theorem settled (h : ∀ s i, Settles p submit verdict s i) (s : σ) (inputs : List ι) :
    Settled p submit verdict s inputs := by
  have hmeets : p.Meets (fun _ _ => True) s inputs :=
    Process.meets_of_forall (fun _ _ _ => trivial) s
  have hrun := Process.collect_invariant (p := p) (C := fun _ _ => True)
    (f := settlements p submit verdict)
    (P := fun seen past _ => bookings past = seen.flatMap Settlement.booked ∧
      ∀ t ∈ seen, t.Answered)
    (Q := fun seen past => bookings past = seen.flatMap Settlement.booked ∧
      (∀ t ∈ seen, t.Booked) ∧ ∀ t ∈ seen.dropLast, t.Answered)
    (fun ⟨hbooked, hall⟩ => ⟨hbooked, fun t ht => (hall t ht).booked,
      fun t ht => hall t (List.mem_of_mem_dropLast ht)⟩)
    (fun {seen past s i} ⟨hbooked, hall⟩ _ => ?_) [] ⟨rfl, by simp⟩ hmeets
  · obtain ⟨⟨hbooked, hall, hinit⟩, hlive⟩ := hrun
    exact ⟨hbooked, hall, hinit, fun hl => (hlive hl).2⟩
  · cases hsubmit : submit s i with
    | none =>
      have hnone : settlements p submit verdict s i = [] := by simp [settlements, hsubmit]
      rw [hnone, List.append_nil, bookings_append, (h s i).other hsubmit, List.append_nil]
      exact ⟨fun _ => ⟨hbooked, hall⟩, hbooked, fun t ht => (hall t ht).booked,
        fun t ht => hall t (List.mem_of_mem_dropLast ht)⟩
    | some key =>
      obtain ⟨accepted, hone, hanswer⟩ := (h s i).submit key hsubmit
      have hsettled : settlements p submit verdict s i =
          [⟨key, [accepted], (messages (p.step s i).outputs).filterMap verdict⟩] := by
        simp [settlements, hsubmit, hone]
      have hmore : bookings (past ++ (p.step s i).outputs) =
          (seen ++ settlements p submit verdict s i).flatMap Settlement.booked := by
        rw [bookings_append, hbooked, hone, hsettled, List.flatMap_append]
        rfl
      refine ⟨fun hlive => ⟨hmore, ?_⟩, hmore, ?_, ?_⟩
      · rw [hsettled]
        refine List.forall_mem_append.mpr ⟨hall, List.forall_mem_singleton.mpr ⟨accepted, rfl, ?_⟩⟩
        rcases hanswer with hanswer | ⟨-, hdead⟩
        · exact hanswer
        · exact absurd hlive (by simp [hdead])
      · rw [hsettled]
        refine List.forall_mem_append.mpr ⟨fun t ht => (hall t ht).booked,
          List.forall_mem_singleton.mpr ⟨accepted, rfl, ?_⟩⟩
        exact hanswer.imp id fun ⟨hnone, _⟩ => hnone
      · rw [hsettled, List.dropLast_concat]
        exact hall

end Settling

/-! ## Stratum V1 -/

namespace Sv1

/-- The request a message answers. -/
def Message.replyId : Message → Option RequestId
  | .ok id _ => some id
  | .err id _ => some id
  | .subscribe id _ _ _ => some id
  | .configure id _ _ _ _ => some id
  | .setDifficulty _ => none
  | .notify _ => none

/-- The request a message answers with a verdict. -/
def Message.verdict : Message → Option (RequestId × Bool)
  | .ok id result => some (id, result)
  | .err id _ => some (id, false)
  | _ => none

/-- The request a line makes, which is to be answered. -/
def Line.requestId : Line → Option RequestId
  | .badParams id _ => some id
  | .request id _ => some id
  | _ => none

/-- The id of the request an input brings. -/
def Input.requestId (input : Input) : Option RequestId :=
  match input.event with
  | .line line => line.requestId
  | _ => none

/-- The id of the submit an input brings, if it is looked at. -/
def Input.submitId (input : Input) : Option RequestId :=
  match input.event with
  | .line (.request id (.submit _)) => if input.env.rateOk then some id else none
  | _ => none

/-- The messages answer one request, if the session goes on. -/
def Handled.Replies (handled : Handled) (asked : List RequestId) : Prop :=
  ∀ ms, handled.result = .messages ms → ms.filterMap Message.replyId = asked

namespace Session

variable {s : Session} {env : Env Message} {effects : List (Effect Message)} {α : Type}
  {view : Message → Option α}

theorem messages_finish (s : Session) (effects : List (Effect Message)) :
    messages (s.finish effects).outputs = messages effects := by
  unfold finish
  simp

/-- The end of a turn says nothing but a difficulty. -/
theorem messages_applyRetarget (hview : ∀ d, view (.setDifficulty d) = none) :
    (messages (s.applyRetarget env effects).outputs).filterMap view =
      (messages effects).filterMap view := by
  have hsent : ∀ d,
      (messages (sendMessages env.written [Message.setDifficulty d]).1).filterMap view = [] := by
    intro d
    refine List.filterMap_eq_nil_iff.mpr fun m hm => ?_
    have hmem := (messages_sendMessages env.written [Message.setDifficulty d]).1.subset hm
    rw [List.mem_singleton.mp hmem, hview]
  unfold applyRetarget
  dsimp only
  split
  · rfl
  · split
    · simp only [messages_append, List.filterMap_append, hsent, messages_worker, List.append_nil]
    · simp only [messages_finish, messages_append, List.filterMap_append, hsent, messages_worker,
        List.append_nil]

/-- What is said of the messages to be sent: all of it, or a first part of it when the session
ends. -/
theorem messages_sendThenRetarget (hview : ∀ d, view (.setDifficulty d) = none) (env : Env Message)
    (s : Session) (hquiet : messages effects = []) (ms : List Message) :
    (messages (s.sendThenRetarget env effects ms).outputs).filterMap view = ms.filterMap view ∨
      (messages (s.sendThenRetarget env effects ms).outputs).filterMap view <+: ms.filterMap view ∧
        (s.sendThenRetarget env effects ms).live = false := by
  obtain ⟨hfirst, hall⟩ := messages_sendMessages env.written ms
  unfold sendThenRetarget
  dsimp only
  split
  · rename_i hok
    left
    rw [messages_applyRetarget hview, messages_append, hquiet, List.nil_append, hall hok]
  · right
    rw [messages_finish, messages_append, hquiet, List.nil_append]
    exact ⟨hfirst.filterMap view, rfl⟩

/-! ### Requests -/

theorem welcome_replies (id : RequestId) : (s.welcome env id effects).Replies [id] := by
  unfold welcome
  dsimp only
  split
  · rintro ms ⟨⟩
    rfl
  · split
    · rintro ms ⟨⟩
    · rintro ms ⟨⟩
      rfl

theorem handleAuthorize_replies (A : AddressLib) (id : RequestId) (worker : Str) :
    (handleAuthorize A env s id worker).Replies [id] := by
  unfold handleAuthorize
  split
  · rintro ms ⟨⟩
    rfl
  · split
    · rintro ms ⟨⟩
      rfl
    · split
      · rintro ms ⟨⟩
        rfl
      · split
        · exact welcome_replies id
        · dsimp only
          split
          · rintro ms ⟨⟩
          · exact welcome_replies id

theorem refuse_replies (id : RequestId) (reason : RejectReason) (code : StratumErrCode) :
    (s.refuse id reason code).Replies [id] := by
  unfold refuse
  intro ms hms
  dsimp only at hms
  split at hms
  · cases hms
  · cases hms
    rfl

theorem handleSubmit_replies (H : Bytes → ByteVec 32) (id : RequestId) (params : SubmitParams) :
    (handleSubmit H env s id params).Replies [id] := by
  unfold handleSubmit
  split
  · rintro ms ⟨⟩
    rfl
  · split
    · exact refuse_replies id _ _
    · split
      · exact refuse_replies id _ _
      · dsimp only
        split
        · exact refuse_replies id _ _
        · rintro ms ⟨⟩
          rfl

theorem handleLine_replies (H : Bytes → ByteVec 32) (A : AddressLib) (line : Line) :
    (handleLine H A env s line).Replies line.requestId.toList := by
  unfold handleLine
  split
  · rintro ms ⟨⟩
  · cases line with
    | blank =>
      rintro ms ⟨⟩
      rfl
    | malformed => rintro ms ⟨⟩
    | badParams id error =>
      rintro ms ⟨⟩
      rfl
    | request id message =>
      cases message with
      | configure params =>
        dsimp only
        unfold handleConfigure
        dsimp only
        split <;> (rintro ms ⟨⟩; rfl)
      | subscribe userAgent =>
        rintro ms ⟨⟩
        rfl
      | authorize worker => exact handleAuthorize_replies A id worker
      | submit params => exact handleSubmit_replies H id params
      | suggestDifficulty difficulty =>
        dsimp only
        unfold handleSuggestDifficulty
        rintro ms ⟨⟩
        dsimp only
        split <;> rfl
      | extranonceSubscribe =>
        rintro ms ⟨⟩
        rfl
      | unknown method =>
        rintro ms ⟨⟩
        rfl

/-- A turn answers the request it read, unless it ends the session before. -/
theorem step_replies (H : Bytes → ByteVec 32) (A : AddressLib) (s : Session) (input : Input) :
    (messages (step H A s input).outputs).filterMap Message.replyId = input.requestId.toList ∨
      (messages (step H A s input).outputs).filterMap Message.replyId <+: input.requestId.toList ∧
        (step H A s input).live = false := by
  unfold step Input.requestId
  cases input.event with
  | line line =>
    dsimp only
    have hquiet : messages (handleLine H A input.env s line).effects = [] :=
      messages_handleLine H A input.env s line
    split
    · rename_i ms hms
      have hreplies := handleLine_replies H A line ms hms
      rw [← hreplies]
      exact messages_sendThenRetarget (fun _ => rfl) _ _ hquiet ms
    · right
      rw [messages_finish, hquiet]
      exact ⟨List.nil_prefix, rfl⟩
  | broadcast template clean =>
    dsimp only
    unfold handleBroadcast
    dsimp only
    split
    · split
      · left
        rw [messages_finish]
        rfl
      · refine messages_sendThenRetarget (fun _ => rfl) _ _ ?_ _
        cases clean <;> rfl
    · left
      rw [messages_applyRetarget fun _ => rfl]
      cases clean <;> rfl
  | lagged _ =>
    left
    dsimp only
    rw [messages_applyRetarget fun _ => rfl]
    rfl
  | oversized =>
    left
    dsimp only
    rw [messages_finish]
    rfl
  | closed =>
    left
    dsimp only
    rw [messages_finish]
    rfl

/-- **Every request is answered.** Over any run of a session from any state, the answers it writes
carry the ids of the requests it has read, in the order in which it read them: all of them while the
session goes on, and otherwise a first part of them, from which at most the last one is missing. -/
theorem requests_answered (H : Bytes → ByteVec 32) (A : AddressLib) (s : Session)
    (inputs : List Input) :
    let asked := (process H A).collect (fun _ input => input.requestId.toList) s inputs
    let run := (process H A).run s inputs
    (messages run.outputs).filterMap Message.replyId <+: asked ∧
      asked.length ≤ ((messages run.outputs).filterMap Message.replyId).length + 1 ∧
      (run.live → (messages run.outputs).filterMap Message.replyId = asked) := by
  have hmeets : (process H A).Meets (fun _ _ => True) s inputs :=
    Process.meets_of_forall (fun _ _ _ => trivial) s
  have hrun := Process.collect_invariant (p := process H A) (C := fun _ _ => True)
    (f := fun _ input => input.requestId.toList)
    (P := fun seen past _ => (messages past).filterMap Message.replyId = seen)
    (Q := fun seen past => (messages past).filterMap Message.replyId <+: seen ∧
      seen.length ≤ ((messages past).filterMap Message.replyId).length + 1)
    (fun h => ⟨h ▸ List.prefix_rfl, by rw [h]; exact Nat.le_succ _⟩)
    (fun {seen past s input} h _ => ?_) [] rfl hmeets
  · exact ⟨hrun.1.1, hrun.1.2, hrun.2⟩
  · rw [messages_append, List.filterMap_append, h]
    rcases step_replies H A s input with hall | ⟨hpart, hdead⟩
    · have hstep : (messages ((process H A).step s input).outputs).filterMap Message.replyId =
          input.requestId.toList := hall
      rw [hstep]
      exact ⟨fun _ => rfl, List.prefix_rfl, Nat.le_succ _⟩
    · have hover : ¬ ((process H A).step s input).live := by
        change ¬ (step H A s input).live
        simp [hdead]
      refine ⟨fun hlive => absurd hlive hover, (List.prefix_append_right_inj seen).mpr hpart, ?_⟩
      have hone : input.requestId.toList.length ≤ 1 := by cases input.requestId <;> simp
      rw [List.length_append, List.length_append]
      omega

/-! ### Shares -/

/-- A submit is booked once, and its answer says how. -/
theorem handleSubmit_settles (H : Bytes → ByteVec 32) (env : Env Message) (s : Session)
    (id : RequestId) (params : SubmitParams) :
    ∃ accepted, bookings (handleSubmit H env s id params).effects = [accepted] ∧
      ∀ ms, (handleSubmit H env s id params).result = .messages ms →
        ms.filterMap Message.verdict = [(id, accepted)] := by
  have hrefused : ∀ reason code, ∃ accepted,
      bookings (s.refuse id reason code).effects = [accepted] ∧
      ∀ ms, (s.refuse id reason code).result = .messages ms →
        ms.filterMap Message.verdict = [(id, accepted)] := by
    intro reason code
    refine ⟨false, rfl, fun ms hms => ?_⟩
    unfold refuse at hms
    dsimp only at hms
    split at hms
    · cases hms
    · cases hms
      rfl
  unfold handleSubmit
  split
  · refine ⟨false, rfl, ?_⟩
    rintro ms ⟨⟩
    rfl
  · split
    · exact hrefused _ _
    · split
      · exact hrefused _ _
      · dsimp only
        split
        · exact hrefused _ _
        · refine ⟨true, bookings_acceptEffects _ _ _ _ _, ?_⟩
          rintro ms ⟨⟩
          rfl

theorem step_settles (H : Bytes → ByteVec 32) (A : AddressLib) (s : Session) (input : Input) :
    Settles (process H A) (fun _ input => input.submitId) Message.verdict s input := by
  refine ⟨fun hnone => ?_, fun id hid => ?_⟩
  · rcases step_concludes H A s input with ⟨id, params, hevent, hrate, -⟩ | ⟨effects, hroutine, h⟩
    · rw [Input.submitId, hevent] at hnone
      simp [hrate] at hnone
    · exact h.bookings_eq.trans hroutine.bookings_eq
  · obtain ⟨params, hevent, hrate⟩ : ∃ params,
        input.event = .line (.request id (.submit params)) ∧ input.env.rateOk := by
      unfold Input.submitId at hid
      split at hid
      · rename_i id' params hevent
        split at hid
        · rename_i hrate
          cases hid
          exact ⟨params, hevent, hrate⟩
        · cases hid
      · cases hid
    have hhandled : handleLine H A input.env s (.request id (.submit params)) =
        handleSubmit H input.env s id params := by
      rw [handleLine, if_neg (by simp [hrate])]
    obtain ⟨accepted, hbooked, hanswer⟩ := handleSubmit_settles H input.env s id params
    have hquiet : messages (handleSubmit H input.env s id params).effects = [] := by
      rw [← hhandled]
      exact messages_handleLine H A input.env s _
    change ∃ accepted, bookings (step H A s input).outputs = [accepted] ∧ _
    unfold process
    dsimp only
    unfold step
    rw [hevent]
    dsimp only
    rw [hhandled]
    refine ⟨accepted, ?_, ?_⟩
    · split
      · exact (sendThenRetarget_concludes _ _ _ _).bookings_eq.trans hbooked
      · exact (finish_concludes _ _).bookings_eq.trans hbooked
    · split
      · rename_i ms hms
        have hview : ∀ d, Message.verdict (.setDifficulty d) = none := fun _ => rfl
        rcases messages_sendThenRetarget hview input.env
          (handleSubmit H input.env s id params).session hquiet ms with hall | ⟨hpart, hdead⟩
        · rw [hall, hanswer ms hms]
          exact .inl rfl
        · rw [hanswer ms hms] at hpart
          rw [← List.nil_append [(id, accepted)], List.prefix_concat_iff, List.nil_append] at hpart
          rcases hpart with hone | hnil
          · exact .inl hone
          · exact .inr ⟨List.prefix_nil.mp hnil, hdead⟩
      · rw [messages_finish, hquiet]
        exact .inr ⟨rfl, rfl⟩

end Session

end Sv1

/-! ## Stratum V2 -/

namespace Sv2

/-- The submit a message answers, by its sequence number. -/
def Message.verdict : Message → Option (UInt32 × Bool)
  | .submitSharesSuccess _ seq _ => some (seq, true)
  | .submitSharesError _ seq _ => some (seq, false)
  | _ => none

/-- The sequence number of the submit an input brings, if it is looked at. -/
def Session.submitSeq (s : Session) (input : Input) : Option UInt32 :=
  match input.event with
  | .frame payloadLen (.submitExtended (.ok submit)) =>
    if payloadLen ≤ s.guard.maxMessageBytes ∧ input.env.rateOk ∧ s.channelOpen then
      some submit.sequenceNumber
    else none
  | _ => none

namespace Session

variable {W : Wire} {s : Session} {env : Surroundings} {effects : List (Effect Message)}

/-- A submit was booked once; it was answered if the session is to go on, and else not otherwise. -/
def Settling (seq : UInt32) (handled : Handled) : Prop :=
  ∃ accepted, bookings handled.effects = [accepted] ∧
    ((messages handled.effects).filterMap Message.verdict = [(seq, accepted)] ∨
      (messages handled.effects).filterMap Message.verdict = [] ∧
        ∃ reason, handled.flow = .disconnect reason)

theorem say_settling {seq : UInt32} {accepted : Bool} {message : Message}
    (hbooked : bookings effects = [accepted]) (hquiet : messages effects = [])
    (hverdict : message.verdict = some (seq, accepted)) (name : String) :
    Settling seq (say W env s effects message name) := by
  refine ⟨accepted, ?_⟩
  unfold say
  split
  · refine ⟨?_, .inl ?_⟩
    · rw [bookings_append, hbooked]
      rfl
    · simp [hquiet, hverdict]
  · exact ⟨hbooked, .inr ⟨by rw [hquiet]; rfl, _, rfl⟩⟩
  · exact ⟨hbooked, .inr ⟨by rw [hquiet]; rfl, _, rfl⟩⟩

theorem refuse_settling (W : Wire) (env : Surroundings) (s : Session) (seq : UInt32)
    (reason : RejectReason) (code : String) : Settling seq (refuse W env s seq reason code) := by
  unfold refuse
  dsimp only
  split
  · exact ⟨false, rfl, .inr ⟨rfl, _, rfl⟩⟩
  · exact say_settling rfl rfl rfl _

theorem handleSubmit_settling (W : Wire) (H : Bytes → ByteVec 32) (env : Surroundings) (s : Session)
    (hopen : s.channelOpen) (submit : SubmitExtended) :
    Settling submit.sequenceNumber (handleSubmit W H env s (.ok submit)) := by
  unfold handleSubmit
  rw [if_neg (by simp [hopen])]
  dsimp only
  split
  · exact refuse_settling _ _ _ _ _ _
  · split
    · exact refuse_settling _ _ _ _ _ _
    · split
      · exact refuse_settling _ _ _ _ _ _
      · split
        · exact refuse_settling _ _ _ _ _ _
        · exact say_settling (bookings_acceptEffects _ _ _ _ _) (messages_acceptEffects _ _ _ _ _)
            rfl _

theorem bookings_handleSubmit_error (W : Wire) (H : Bytes → ByteVec 32) (env : Surroundings)
    (s : Session) {decoded : Except String SubmitExtended}
    (h : s.channelOpen = false ∨ ∃ e, decoded = .error e) :
    bookings (handleSubmit W H env s decoded).effects = [] := by
  unfold handleSubmit
  split
  · rfl
  · rename_i hopen
    rcases h with h | ⟨e, rfl⟩
    · exact absurd (by simpa using h) hopen
    · rfl

theorem messages_finish (s : Session) (effects : List (Effect Message)) :
    messages (s.finish effects).outputs = messages effects := by
  unfold finish
  simp

/-- The end of a turn says nothing about shares. -/
theorem verdicts_applyRetarget :
    (messages (applyRetarget W env s effects).outputs).filterMap Message.verdict =
      (messages effects).filterMap Message.verdict := by
  unfold applyRetarget
  split
  · rfl
  · dsimp only
    split
    · rfl
    · split
      · simp [Message.verdict]
      · simp [messages_finish]

theorem step_settles (W : Wire) (H : Bytes → ByteVec 32) (A : AddressLib) (s : Session)
    (input : Input) : Settles (process W H A) submitSeq Message.verdict s input := by
  refine ⟨fun hnone => ?_, fun seq hseq => ?_⟩
  · change bookings (step W H A s input).outputs = []
    rcases step_concludes W H A s input with
      ⟨payloadLen, decoded, hevent, hsize, hrate, h⟩ | ⟨effects, hroutine, h⟩
    · refine h.bookings_eq.trans (bookings_handleSubmit_error W H input.env s ?_)
      cases decoded with
      | error e => exact .inr ⟨e, rfl⟩
      | ok submit =>
        left
        rw [submitSeq, hevent] at hnone
        simpa [hsize, hrate] using hnone
    · exact h.bookings_eq.trans hroutine.bookings_eq
  · obtain ⟨payloadLen, submit, hevent, hsize, hrate, hopen, rfl⟩ : ∃ payloadLen submit,
        input.event = .frame payloadLen (.submitExtended (.ok submit)) ∧
        payloadLen ≤ s.guard.maxMessageBytes ∧ input.env.rateOk ∧ s.channelOpen ∧
        submit.sequenceNumber = seq := by
      unfold submitSeq at hseq
      split at hseq
      · rename_i payloadLen submit hevent
        split at hseq
        · rename_i hlooked
          exact ⟨payloadLen, submit, hevent, hlooked.1, hlooked.2.1, hlooked.2.2,
            Option.some.inj hseq⟩
        · cases hseq
      · cases hseq
    have hok : s.guard.checkMessageSize payloadLen = .ok () := by
      simp [SessionGuard.checkMessageSize, ensure, hsize]
    have hhandled := handleMessage_of_rateOk W H A s (.submitExtended (.ok submit)) hrate
    dsimp only at hhandled
    obtain ⟨accepted, hbooked, hanswer⟩ := handleSubmit_settling W H input.env s hopen submit
    unfold process
    dsimp only
    unfold step
    rw [hevent]
    dsimp only
    rw [hok]
    dsimp only
    rw [hhandled]
    refine ⟨accepted, ?_, ?_⟩
    · split
      · exact (applyRetarget_concludes _ _ _ _).bookings_eq.trans hbooked
      · exact (finish_concludes _ _).bookings_eq.trans hbooked
    · split
      · rename_i hflow
        rw [verdicts_applyRetarget]
        rcases hanswer with hanswer | ⟨-, reason, hover⟩
        · exact .inl hanswer
        · rw [hflow] at hover
          cases hover
      · rw [messages_finish]
        exact hanswer.imp (fun h => h) fun h => ⟨h.1, rfl⟩

end Session

end Sv2

/-- **Every share is booked once.** Over any run of a session of either protocol from any state:
what it books is what its submits are booked for, one by one and in order. Each submit that is
looked at is booked exactly once, as accepted or as rejected. Its answer has the submit's id or
sequence number, and says that the share was accepted exactly if it was booked so; only the last one
can be missing, if the session is over. -/
theorem submits_settled (W : Sv2.Wire) (H : Bytes → ByteVec 32) (A : AddressLib) :
    (∀ s inputs, Settled (Sv1.Session.process H A) (fun _ input => input.submitId)
      Sv1.Message.verdict
      s inputs) ∧
    ∀ s inputs, Settled (Sv2.Session.process W H A) Sv2.Session.submitSeq Sv2.Message.verdict s
      inputs :=
  ⟨settled (Sv1.Session.step_settles H A), settled (Sv2.Session.step_settles W H A)⟩

end BtcPool
