import BtcPool.Network.Pool
import BtcPool.Network.Work
import BtcPool.Protocol.Agreement

/-!
# The previous hash a device works on

A Stratum V2 job that is not a future one carries no previous hash: the device hashes it under the
one announced last. It is the right one as long as the session has seen every clean job before it,
in order. Two things break that. A receiver that falls behind is told how many deliveries it missed,
and the session goes on with the next one (`missed_prev_hash`). And the template a session reads
when it starts may be newer than the deliveries that wait for it. The nBits come with the previous
hash, so a template that changes them on one tip must not reach the device as such a job either.

`Orderly` excludes these three. `Tracks` is the invariant of the sessions they are excluded for:
either the next delivery is clean, or the template held and the previous hash announced are on the
tip the session has reached.
-/

namespace BtcPool

open Bitcoin Broadcast

namespace Sv2.Channel

variable {S : Setup} {engine : TemplateEngine} {next : ℕ} {c : Channel}

/-! ## What the device was told -/

theorem lastAnnounced_append (announced : Option SetNewPrevHash) (a b : List (Effect Message)) :
    lastAnnounced announced (a ++ b) = lastAnnounced (lastAnnounced announced a) b :=
  List.foldl_append

theorem lastAnnounced_of_workless {effects : List (Effect Message)} (h : Workless isWork effects)
    (announced : Option SetNewPrevHash) : lastAnnounced announced effects = announced := by
  induction effects generalizing announced with
  | nil => rfl
  | cons e effects ih =>
    obtain ⟨he, hrest⟩ := List.forall_mem_cons.mp h
    have hfirst : lastAnnounced announced (e :: effects) = lastAnnounced announced effects := by
      rw [lastAnnounced, List.foldl_cons]
      split
      · cases he
      · rfl
    rw [hfirst]
    exact ih hrest announced

/-- The previous hash of a template, as the device was told it. -/
def Announces (template : JobTemplate) (announced : Option SetNewPrevHash) : Prop :=
  ∃ msg, announced = some msg ∧ stratumPrevhashToInternal template.prevHash = .ok msg.prevHash

/-- A future job that was sent is followed by the previous hash of its template. -/
theorem announces_sendJob {W : Wire} {env : Surroundings} {s : Session} {template : JobTemplate}
    {cleared : Bool} {effects after : List (Effect Message)}
    (hok : (Session.sendJob W env s template true cleared effects).1 = true)
    (hafter : Workless isWork after) (announced : Option SetNewPrevHash) :
    Announces template (lastAnnounced announced
      ((Session.sendJob W env s template true cleared effects).2.2 ++ after)) := by
  obtain ⟨more, hmore, -, hsent⟩ := Session.sendJob_future W env s effects template
    cleared
  obtain ⟨job, newJob, setPrev, action, ⟨⟨identity, -, hbuilt⟩, -⟩, hprev, rfl⟩ := hsent hok
  refine ⟨setPrev, ?_, ?_⟩
  · rw [hmore, lastAnnounced_append, lastAnnounced_of_workless hafter, lastAnnounced_append]
    rfl
  · simp only [buildSetNewPrevHash, bind_eq_ok] at hprev
    obtain ⟨prev, hinternal, hrest⟩ := hprev
    split at hrest
    · cases hrest
    · cases hrest
      rw [← hbuilt.prevHash, hinternal]

/-! ## The invariant -/

/-- The template held is on the tip reached, and so is the device, if its channel is open. -/
def Told (engine : TemplateEngine) (next : ℕ) (c : Channel) : Prop :=
  ∃ template, c.session.pendingTemplate = some template ∧
    keyAt JobBroadcast.tip engine.queue next = some template.prevHash ∧
    (c.session.channelOpen → Announces template c.announced)

/-- The next delivery is a clean job. -/
def FreshNext (engine : TemplateEngine) (next : ℕ) : Prop :=
  (∃ b, engine.queue[next]? = some b ∧ b.clean = true) ∨
    next = engine.queue.length ∧ engine.currentTemplate = none

/-- What holds of a session at a position of the channel: either a clean job will tell its device
the tip, or the device was told the tip reached. -/
def Tracks (engine : TemplateEngine) (next : ℕ) (c : Channel) : Prop :=
  FreshNext engine next ∨ Told engine next c

/-- A job that comes without nBits has those the device was told last. -/
def KnowsBits (c : Channel) (b : JobBroadcast) : Prop :=
  b.clean = false → c.session.channelOpen = true → ∀ announced ∈ c.announced,
    ∀ nbits ∈ fromStrRadix16 32 b.template.bits, announced.nbits = UInt32.ofNat nbits

instance decidableKnowsBits (c : Channel) (b : JobBroadcast) : Decidable (KnowsBits c b) :=
  inferInstanceAs (Decidable (b.clean = false → c.session.channelOpen = true →
    ∀ announced ∈ c.announced, ∀ nbits ∈ fromStrRadix16 32 b.template.bits,
      announced.nbits = UInt32.ofNat nbits))

/-- A delivery that leaves the device right about its jobs: a job whose nBits it was told, if it is
not clean, and a report of missed jobs of which none was clean, or after which a clean one comes. -/
def OrderlyDelivery (engine : TemplateEngine) (link : Link Channel) :
    Option (Received JobBroadcast) → Prop
  | some (.item b) => ∀ c ∈ link.phase.session, KnowsBits c b
  | some (.lagged _) => (∀ b ∈ missed jobBroadcastCap engine.jobTx link.next, b.clean = false) ∨
    ∀ b ∈ engine.jobTx[engine.jobTx.length - jobBroadcastCap]?, b.clean = true
  | none => True

instance decidableOrderlyDelivery (engine : TemplateEngine) (link : Link Channel) :
    (received : Option (Received JobBroadcast)) → Decidable (OrderlyDelivery engine link received)
  | some (.item b) => inferInstanceAs (Decidable (∀ c ∈ link.phase.session, KnowsBits c b))
  | some (.lagged _) => inferInstanceAs (Decidable
    ((∀ b ∈ missed jobBroadcastCap engine.jobTx link.next, b.clean = false) ∨
      ∀ b ∈ engine.jobTx[engine.jobTx.length - jobBroadcastCap]?, b.clean = true))
  | none => inferInstanceAs (Decidable True)

/-- What a session that tracks the channel has to be spared: a template read ahead of a delivery of
another tip that is not clean, and deliveries that are not orderly. -/
def Orderly (engine : TemplateEngine) (link : Link Channel) :
    LinkEvent PeerEvent Surroundings → Prop
  | .start _ _ _ => ∀ b ∈ engine.queue[link.next]?, b.clean = true ∨
    (engine.currentTemplate.map fun t => t.prevHash) = some b.tip
  | .receive _ => OrderlyDelivery engine link
    ((recv jobBroadcastCap engine.jobTx link.next).map Prod.fst)
  | .turn _ _ => True

instance decidableOrderly (engine : TemplateEngine) (link : Link Channel) :
    (event : LinkEvent PeerEvent Surroundings) → Decidable (Orderly engine link event)
  | .start _ _ _ => inferInstanceAs (Decidable (∀ b ∈ engine.queue[link.next]?, b.clean = true ∨
    (engine.currentTemplate.map fun t => t.prevHash) = some b.tip))
  | .receive _ => inferInstanceAs (Decidable (OrderlyDelivery engine link
    ((recv jobBroadcastCap engine.jobTx link.next).map Prod.fst)))
  | .turn _ _ => inferInstanceAs (Decidable True)

theorem FreshNext.writeTemplate (h : FreshNext engine next)
    (result : Except PoolError GbtResult) :
    FreshNext (engine.writeTemplate S.H result) next := by
  obtain ⟨more, hmore⟩ := engine.queue_writeTemplate S.H result
  rcases h with ⟨b, hb, hclean⟩ | ⟨hnext, hnone⟩
  · refine Or.inl ⟨b, ?_, hclean⟩
    rw [hmore, List.getElem?_append_left (List.getElem?_eq_some_iff.mp hb).1, hb]
  · -- with no template to compare with, whatever is written next is clean
    have hsend : next = engine.send.queue.length := hnext.trans (by rw [engine.queue_send])
    rcases TemplateEngine.writeTemplate_cases S.H engine result with hr | ⟨rules, ⟨-, -, hr⟩ |
      ⟨-, hr | ⟨gbt, template, -, hr⟩⟩⟩ <;> rw [hr]
    · exact Or.inr ⟨hsend, hnone⟩
    · exact Or.inr ⟨hsend, rfl⟩
    · exact Or.inr ⟨hsend, hnone⟩
    · have hqueue := TemplateEngine.queue_publish
        { engine.send with unsupportedRules := rules } rfl template
      have hclean : TemplateEngine.shouldForceClean
          (engine.send.currentTemplate.map fun t => t.prevHash) template.prevHash = true := by
        have hcurrent : engine.send.currentTemplate = none := hnone
        rw [hcurrent]
        rfl
      refine Or.inl ⟨⟨template, _⟩, ?_, hclean⟩
      rw [hqueue, hsend]
      exact List.getElem?_concat_length

theorem FreshNext.send (h : FreshNext engine next) : FreshNext engine.send next := by
  rw [FreshNext, engine.queue_send]
  exact h

theorem Told.writeTemplate (h : Told engine next c) (hnext : next ≤ engine.queue.length)
    (result : Except PoolError GbtResult) : Told (engine.writeTemplate S.H result) next c := by
  obtain ⟨template, hpending, htip, hannounced⟩ := h
  obtain ⟨more, hmore⟩ := engine.queue_writeTemplate S.H result
  exact ⟨template, hpending, by rw [hmore, keyAt_append hnext, htip], hannounced⟩

theorem Told.send (h : Told engine next c) : Told engine.send next c := by
  rw [Told, engine.queue_send]
  exact h

theorem tracks_new (hengine : engine.Inv S.H) (hnext : next ≤ engine.queue.length)
    (horderly : ∀ b ∈ engine.queue[next]?, b.clean = true ∨
      (engine.currentTemplate.map fun t => t.prevHash) = some b.tip)
    (sessionId : Str) (extranoncePrefix : Bytes) (now : Instant) :
    Tracks engine next (S.sv2.new sessionId extranoncePrefix now engine.currentTemplate) := by
  cases hb : engine.queue[next]? with
  | none =>
    obtain rfl : next = engine.queue.length :=
      le_antisymm hnext (List.getElem?_eq_none_iff.mp hb)
    cases hcurrent : engine.currentTemplate with
    | none => exact Or.inl (Or.inr ⟨rfl, hcurrent⟩)
    | some template =>
      refine Or.inr ⟨template, rfl, hengine.keyAt_current hcurrent, fun hopen => by cases hopen⟩
  | some b =>
    cases hclean : b.clean with
    | true => exact Or.inl (Or.inl ⟨b, hb, hclean⟩)
    | false =>
      obtain ⟨template, hcurrent, htip⟩ := Option.map_eq_some_iff.mp
        ((horderly b hb).resolve_left (by simp [hclean]))
      rw [hcurrent]
      refine Or.inr ⟨template, rfl, ?_, fun hopen => by cases hopen⟩
      rw [hengine.linked next b hb hclean, htip]

/-- A frame may open the channel, but tells the device nothing else. -/
theorem Told.frame (h : Told engine next c) {payloadLen : ℕ} {frame : Frame} {env : Surroundings}
    (hlive : (c.step S (.frame payloadLen frame) env).live) :
    Told engine next (c.step S (.frame payloadLen frame) env).state := by
  obtain ⟨template, hpending, htip, hannounced⟩ := h
  obtain ⟨effects, after, hout, hafter, -, hgoes⟩ := Session.step_frame S.W S.H S.A env c.session
    payloadLen frame
  obtain ⟨rfl, hflow, hsame⟩ := hgoes hlive
  change Told engine next ⟨(c.session.step S.W S.H S.A ⟨.frame payloadLen frame, env⟩).state,
    lastAnnounced c.announced (c.session.step S.W S.H S.A ⟨.frame payloadLen frame, env⟩).outputs⟩
  rw [hout]
  rcases Session.handleMessage_opens S.W S.H S.A env c.session frame with hrests | ⟨-, hopens⟩
  · refine ⟨template, ?_, htip, fun hopen => ?_⟩
    · rw [hsame.template, hrests.same.template, hpending]
    · rw [lastAnnounced_of_workless (hrests.effects.append hafter)]
      rw [hsame.channel, hrests.same.channel] at hopen
      exact hannounced hopen
  · cases hopens with
    | rests heffects hkept hchannel =>
      refine ⟨template, by rw [hsame.template, hkept, hpending], htip, fun hopen => ?_⟩
      rw [lastAnnounced_of_workless (heffects.append hafter)]
      rw [hsame.channel, hchannel.resolve_right (by simp [hpending])] at hopen
      exact hannounced hopen
    | first template' before opened hpending' hopened hbefore heq =>
      obtain rfl : template = template' := Option.some.inj (hpending.symm.trans hpending')
      rw [heq] at hflow hsame
      have hok : (Session.sendJob S.W env opened template true false before).1 = true := by
        by_contra hfailed
        simp [hfailed] at hflow
      refine ⟨template, ?_, htip, fun _ => ?_⟩
      · rw [hsame.template, (Session.sameWork_sendJob ..).template, hopened]
      · rw [heq]
        exact announces_sendJob hok hafter c.announced

/-- Before a delivery that is not clean, the device is on its tip. -/
theorem Tracks.told (hengine : engine.Inv S.H) (h : Tracks engine next c) {b : JobBroadcast}
    (hb : engine.queue[next]? = some b) (hclean : b.clean = false)
    (hopen : c.session.channelOpen = true) : Announces b.template c.announced := by
  have htold : Told engine next c := by
    refine h.resolve_left ?_
    rintro (⟨b', hb', hclean'⟩ | ⟨rfl, -⟩)
    · rw [hb] at hb'
      rw [← Option.some.inj hb', hclean] at hclean'
      cases hclean'
    · simp at hb
  obtain ⟨template, -, htip, hannounced⟩ := htold
  have hsame : template.prevHash = b.template.prevHash := by
    rw [hengine.linked next b hb hclean] at htip
    exact (Option.some.inj htip).symm
  rw [Announces, ← hsame]
  exact hannounced hopen

/-- A delivery keeps the session on the tip of what was delivered. -/
theorem Tracks.item (hengine : engine.Inv S.H) (h : Tracks engine next c) {b : JobBroadcast}
    (hb : engine.queue[next]? = some b) {env : Surroundings}
    (hlive : (c.step S (.broadcast b.template b.clean) env).live) :
    Told engine (next + 1) (c.step S (.broadcast b.template b.clean) env).state := by
  have htip : keyAt JobBroadcast.tip engine.queue (next + 1) = some b.template.prevHash :=
    keyAt_succ hb
  change Told engine (next + 1)
    ⟨(Session.handleBroadcast S.W env c.session b.template b.clean).state,
      lastAnnounced c.announced
        (Session.handleBroadcast S.W env c.session b.template b.clean).outputs⟩
  cases hopen : c.session.channelOpen with
  | false =>
    obtain ⟨s', effects, hout, -, hpending, hclosed⟩ :=
      Session.handleBroadcast_of_closed S.W env hopen
      b.template b.clean
    obtain ⟨after, -, -, hsame⟩ := Session.applyRetarget_adds S.W env s' effects
    rw [hout]
    refine ⟨b.template, hsame.template.trans hpending, htip, fun h => ?_⟩
    rw [hsame.channel, hclosed] at h
    cases h
  | true =>
    obtain ⟨s', after, -, hafter, hout, hgoes⟩ := Session.handleBroadcast_of_open S.W env hopen
      b.template b.clean
    obtain ⟨hok, hpending⟩ := hgoes hlive
    rw [hout]
    refine ⟨b.template, hpending, htip, fun _ => ?_⟩
    cases hclean : b.clean with
    | true =>
      rw [hclean] at hok
      exact announces_sendJob hok hafter c.announced
    | false =>
      -- nothing was announced, and nothing had to be: the job is on the tip the device was told
      have hkept : lastAnnounced c.announced
          ((Session.sendJob S.W env s' b.template false false []).2.2 ++ after) = c.announced := by
        rw [lastAnnounced_append, lastAnnounced_of_workless hafter]
        rcases Session.sendJob_immediate S.W env s' [] b.template with
          ⟨-, heffects⟩ | ⟨job, newJob, -, -, heffects⟩ <;> rw [heffects] <;> rfl
      rw [hkept]
      exact h.told hengine hb hclean hopen

/-- A session that missed deliveries goes on from where the channel still reaches. -/
theorem Tracks.lagged (hengine : engine.Inv S.H) (h : Tracks engine next c) {missed' next' : ℕ}
    (hrecv : recv jobBroadcastCap engine.jobTx next = some (.lagged missed', next'))
    (horderly : (∀ b ∈ missed jobBroadcastCap engine.jobTx next, b.clean = false) ∨
      ∀ b ∈ engine.jobTx[engine.jobTx.length - jobBroadcastCap]?, b.clean = true)
    (env : Surroundings) : Tracks engine next' (c.step S (.lagged missed') env).state := by
  obtain ⟨hlate, rfl⟩ := recv_lagged hrecv
  have hcap : 0 < jobBroadcastCap := by decide
  have hqueue := engine.jobTx_le_queue
  obtain ⟨b, hb⟩ : ∃ b, engine.jobTx[engine.jobTx.length - jobBroadcastCap]? = some b :=
    ⟨_, List.getElem?_eq_getElem (by omega)⟩
  rcases horderly with hmissed | hhead
  · -- what was missed is in the queue where it was in the channel
    have hsettled : Broadcast.Settled JobBroadcast.clean engine.queue next
        (engine.jobTx.length - jobBroadcastCap) :=
      (settled_append (Nat.sub_le _ _)).mpr (settled_of_missed hmissed)
    have htold : Told engine next c := by
      refine h.resolve_left ?_
      rintro (⟨b', hb', hclean'⟩ | ⟨rfl, -⟩)
      · rw [hsettled next b' le_rfl (by omega) hb'] at hclean'
        cases hclean'
      · omega
    obtain ⟨template, hpending, htip, hannounced⟩ := htold
    obtain ⟨after, hout, hafter, hsame⟩ := Session.applyRetarget_adds S.W env c.session []
    refine Or.inr ⟨template, hsame.template.trans hpending, ?_, fun hopen => ?_⟩
    · rw [hengine.linked.keyAt_eq (by omega) (by omega) hsettled, htip]
    · change Announces template
        (lastAnnounced c.announced (Session.applyRetarget S.W env c.session []).outputs)
      rw [hout, List.nil_append, lastAnnounced_of_workless hafter]
      exact hannounced (hsame.channel ▸ hopen)
  · exact Or.inl (Or.inl ⟨b, TemplateEngine.queue_of_jobTx hb, hhead b hb⟩)

theorem tracks_keeps (S : Setup) : S.sv2.Keeps S.H Orderly Tracks where
  writeTemplate := by
    intro engine next c result _ hnext h
    exact h.imp (fun h => h.writeTemplate result) fun h =>
      h.writeTemplate (hnext.trans engine.jobTx_le_queue) result
  send := fun _ _ h => h.imp (fun h => h.send) fun h => h.send
  start := fun hengine hnext horderly =>
    tracks_new hengine (hnext.trans (TemplateEngine.jobTx_le_queue _)) horderly _ _ _
  receive := by
    intro engine next next' c received env hengine hrecv horderly h hlive
    rw [Orderly, hrecv] at horderly
    cases received with
    | item b =>
      obtain ⟨hb, rfl⟩ := recv_item hrecv
      exact Or.inr (h.item hengine (TemplateEngine.queue_of_jobTx hb) hlive)
    | lagged missed' => exact h.lagged hengine hrecv horderly env
  turn := by
    intro engine next c peer env _ _ _ h hlive
    cases peer with
    | frame payloadLen frame => exact h.imp id fun h => h.frame hlive
    | closed => cases hlive

end Sv2.Channel

/-! ## Immediate jobs -/

/-- In every run of the pool in which each Stratum V2 session is spared what `Orderly` names: when a
session sends a job that is not a future one, the previous hash its device was told last is that of
the job's template, and the header the device hashes is the one the validator rebuilds. -/
theorem immediate_jobs_on_announced (S : Setup) {events : List Pool.Event} {event : Pool.Event}
    (horderly : (Pool.process S).Meets (Pool.OnSv2 Sv2.Channel.Orderly) (Pool.new S)
      (events ++ [event])) {pool : Pool}
    (hpool : pool = ((Pool.process S).run (Pool.new S) events).state) {i : ℕ}
    {newJob : Sv2.NewExtendedMiningJob}
    (hout : .sv2 i (.send (.newExtendedMiningJob newJob)) ∈ (Pool.step S pool event).outputs)
    (himmediate : newJob.minNtime.isSome) :
    ∃ link c template job announced, pool.sv2[i]? = some link ∧ link.phase = .running c ∧
      .sv2 i (.core (.issue template job false c.session.difficulty)) ∈
        (Pool.step S pool event).outputs ∧
      c.announced = some announced ∧
      Sv2.stratumPrevhashToInternal template.prevHash = .ok announced.prevHash ∧
      ∀ submit bits, submit.extranonce.length = c.session.extranonceSize →
        submit.version = rolledVersion template.version (some versionRollingMask) bits →
        reconstructHeader S.H (submit.shareParams job.jobId) job c.session.extranoncePrefix =
          .ok (Sv2.deviceHeader S.H newJob announced c.session.extranoncePrefix submit) := by
  obtain ⟨hmeets, hlast⟩ := Process.meets_concat.mp horderly
  have hnow : Pool.OnSv2 Sv2.Channel.Orderly pool event := hpool ▸ hlast (Pool.live_run S _ _)
  obtain ⟨hengine, hholds⟩ := Pool.sv2_holds (Sv2.Channel.tracks_keeps S) hmeets
  rw [← hpool] at hengine hholds
  rcases Pool.output_of_step hout with ⟨_, _, heq, -⟩ | ⟨j, e, heq, event', rfl, hmem⟩
  · cases heq
  · cases heq
    obtain ⟨ev, link, rfl, hlink, hmem⟩ := Frontend.output_of_step hmem
    obtain ⟨c, hphase, hsource⟩ := Frontend.output_of_linkStep hmem
    have htracks := (hholds link (List.mem_of_getElem? hlink)).2 c hphase
    rcases hsource with ⟨env, received, next, rfl, hrecv, hdone⟩ | ⟨peer, env, rfl, hdone⟩
    · obtain ⟨template, job, hevent, hopen, hsent, hissued⟩ :=
        Sv2.Session.immediate_of_step hdone himmediate
      cases received with
      | lagged missed => cases hevent
      | item b =>
        have hb := TemplateEngine.queue_of_jobTx (recv_item hrecv).1
        obtain ⟨rfl, hclean⟩ := Sv2.Event.broadcast.inj hevent
        obtain ⟨announced, hannounced, hprev⟩ := htracks.told hengine hb hclean hopen
        have hknows : Sv2.Channel.KnowsBits c b := by
          have hdelivery := hnow link hlink
          rw [Sv2.Channel.Orderly, hrecv] at hdelivery
          exact hdelivery c (Phase.eq_running.mpr hphase)
        have hissue : Effect.core (.issue b.template job false c.session.difficulty) ∈
            (S.sv2.linkStep pool.engine link (.receive env)).2 := by
          unfold Frontend.linkStep
          simp only [hphase, hrecv]
          exact hissued
        refine ⟨link, c, b.template, job, announced, hlink, hphase, ?_, hannounced, hprev, ?_⟩
        · exact List.mem_map.mpr ⟨_, Frontend.mem_step hlink hissue, rfl⟩
        · intro submit bits hlen hversion
          obtain ⟨gbt, hbuild⟩ := hengine.built b (List.mem_of_getElem? hb)
          obtain ⟨identity, -, hbuilt⟩ := hsent.built
          exact deviceHeader_of_prevHash (buildJobTemplate_spec S.H hbuild) hbuilt hsent.message
            hprev (hknows hclean hopen announced hannounced) ⟨rfl, hlen⟩ hversion
    · obtain ⟨template, job, hevent, -⟩ := Sv2.Session.immediate_of_step hdone himmediate
      cases peer <;> cases hevent

/-- The output is a job that is not a future one. -/
def Pool.Output.isImmediateJob : Pool.Output → Bool
  | .sv2 0 (.send (.newExtendedMiningJob newJob)) => newJob.minNtime.isSome
  | _ => false

theorem Pool.Output.exists_of_isImmediateJob (outputs : List Pool.Output)
    (h : outputs.any Pool.Output.isImmediateJob) : ∃ newJob,
      .sv2 0 (.send (.newExtendedMiningJob newJob)) ∈ outputs ∧ newJob.minNtime.isSome := by
  obtain ⟨out, hmem, hjob⟩ := List.any_eq_true.mp h
  unfold isImmediateJob at hjob
  split at hjob
  · exact ⟨_, hmem, hjob⟩
  · cases hjob

/-- A device that opened its channel, and the template refreshed on the same tip. -/
theorem immediate_jobs_on_announced_regtest :
    let events := .refresh (.ok regtestGbt) :: Sv2.regtestEvents ++ [.refresh (.ok regtestGbt)]
    let pool := ((Pool.process regtestSetup).run (Pool.new regtestSetup) events).state
    ∃ newJob link c announced job, ∃ template : JobTemplate,
      .sv2 0 (.send (.newExtendedMiningJob newJob)) ∈
        (Pool.step regtestSetup pool Sv2.regtestReceive).outputs ∧
      newJob.minNtime.isSome ∧ pool.sv2[0]? = some link ∧ link.phase = .running c ∧
      c.announced = some announced ∧
      Sv2.stratumPrevhashToInternal template.prevHash = .ok announced.prevHash ∧
      let submit := { Sv2.regtestSubmit with
        version := template.version, extranonce := List.replicate c.session.extranonceSize 0 }
      reconstructHeader regtestSetup.H (submit.shareParams job.jobId) job
          c.session.extranoncePrefix =
        .ok (Sv2.deviceHeader regtestSetup.H newJob announced c.session.extranoncePrefix
          submit) := by
  intro events pool
  obtain ⟨newJob, hout, himmediate⟩ := Pool.Output.exists_of_isImmediateJob
    (Pool.step regtestSetup pool Sv2.regtestReceive).outputs (by decide +kernel)
  have horderly : (Pool.process regtestSetup).Meets (Pool.OnSv2 Sv2.Channel.Orderly)
      (Pool.new regtestSetup) (events ++ [Sv2.regtestReceive]) := by
    decide +kernel
  obtain ⟨link, c, template, job, announced, hlink, hphase, -, hannounced, hprev, hheader⟩ :=
    immediate_jobs_on_announced regtestSetup horderly rfl hout himmediate
  exact ⟨newJob, link, c, announced, job, template, hout, himmediate, hlink, hphase, hannounced,
    hprev, hheader _ none List.length_replicate rfl⟩

/-- A template of the block after that. -/
def nextGbt : GbtResult := { regtestGbt with prevHash := List.replicate 64 '1' }

/-- A device whose session misses the first of 65 templates of a new tip, the clean one, and gets a
job of the new tip while it works on the old one. -/
theorem missed_prev_hash :
    let events := .refresh (.ok regtestGbt) :: Sv2.regtestEvents ++
      List.replicate 65 (.refresh (.ok nextGbt)) ++ [Sv2.regtestReceive]
    let pool := ((Pool.process regtestSetup).run (Pool.new regtestSetup) events).state
    ∃ newJob link c delivered announced,
      .sv2 0 (.send (.newExtendedMiningJob newJob)) ∈
        (Pool.step regtestSetup pool Sv2.regtestReceive).outputs ∧
      newJob.minNtime.isSome ∧ pool.sv2[0]? = some link ∧ link.phase = .running c ∧
      pool.engine.jobTx[link.next]? = some delivered ∧ c.announced = some announced ∧
      Sv2.stratumPrevhashToInternal delivered.template.prevHash ≠ .ok announced.prevHash := by
  intro events pool
  obtain ⟨newJob, hout, himmediate⟩ := Pool.Output.exists_of_isImmediateJob
    (Pool.step regtestSetup pool Sv2.regtestReceive).outputs (by decide +kernel)
  have hstate : pool.sv2[0]?.any fun link => link.phase.session.any fun c =>
      pool.engine.jobTx[link.next]?.any fun delivered => c.announced.any fun announced =>
        decide (Sv2.stratumPrevhashToInternal delivered.template.prevHash ≠
          .ok announced.prevHash) := by
    decide +kernel
  obtain ⟨link, hlink, hlink'⟩ := (Option.any_eq_true _ _).mp hstate
  obtain ⟨c, hc, hc'⟩ := (Option.any_eq_true _ _).mp hlink'
  obtain ⟨delivered, hdelivered, hdelivered'⟩ := (Option.any_eq_true _ _).mp hc'
  obtain ⟨announced, hannounced, hne⟩ := (Option.any_eq_true _ _).mp hdelivered'
  exact ⟨newJob, link, c, delivered, announced, hout, himmediate, hlink, Phase.eq_running.mp hc,
    hdelivered, hannounced, of_decide_eq_true hne⟩

end BtcPool
