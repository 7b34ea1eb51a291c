import BtcPool.Mining.Headers
import BtcPool.Network.Session

/-!
# Negotiating version bits

`ConfigureParams::parse` of `protocol/sv1.rs` over JSON values, and what `handle_configure` answers
to a request after others. A request asks for rolling, names a mask or none, and may ask for a
number of bits; `rollable` and `Grants` say what it should get by itself.

A session remembers what is left of the bits of BIP 320 after every request so far, granted or not
(`narrowed`), and the number of bits asked for is cut to 32 bits. So the answer is the one the
request should get by itself exactly if neither matters (`Unconstrained`).
-/

namespace BtcPool.Sv1

open Bitcoin

/-! ## Requests -/

/-- A JSON value. -/
inductive Json
  | null
  | bool (b : Bool)
  /-- A number that is an unsigned integer of 64 bits. -/
  | u64 (n : UInt64)
  /-- Any other number. -/
  | number
  | string (s : Str)
  | array (elements : List Json)
  | object (members : List (Str × Json))

namespace Json

/-- The elements of a value that is an array. -/
def asArray : Json → Option (List Json)
  | array elements => some elements
  | _ => none

/-- The members of a value that is an object. -/
def asObject : Json → Option (List (Str × Json))
  | object members => some members
  | _ => none

/-- The text of a value that is a string. -/
def asStr : Json → Option Str
  | string s => some s
  | _ => none

/-- The number of a value that is one. -/
def asU64 : Json → Option UInt64
  | u64 n => some n
  | _ => none

/-- The value of a member of an object. -/
def get (members : List (Str × Json)) (key : String) : Option Json := members.lookup key.toList

end Json

namespace ConfigureParams

/-- The extensions a request asks for; none if they are not a list. -/
def extensions (params : Json) : List Json :=
  ((params.asArray.bind fun a => a.head?).bind Json.asArray).getD []

/-- The parameters of the extensions; none if they are not an object. -/
def extParams (params : Json) : List (Str × Json) :=
  ((params.asArray.bind fun a => a[1]?).bind Json.asObject).getD []

/-- The mask a request names. -/
def namedMask (params : Json) : Option (Option UInt32) :=
  ((Json.get (extParams params) "version-rolling.mask").bind Json.asStr).map fun maskStr =>
    (fromStrRadix16 32 maskStr).map UInt32.ofNat

/-- The number of bits a request asks for. -/
def askedBits (params : Json) : Option UInt64 :=
  (Json.get (extParams params) "version-rolling.min-bit-count").bind Json.asU64

/-- One extension of the request. The minimum difficulty a miner asks for is read by no one. -/
def parseExtension (params : Json) (result : ConfigureParams) (ext : Json) : ConfigureParams :=
  match ext.asStr with
  | none => result
  | some name =>
    if name = "version-rolling".toList then
      { result with
        versionRolling := true
        versionRollingMask := match namedMask params with
          | some mask => mask
          | none => result.versionRollingMask
        versionRollingMinBitCount := match askedBits params with
          | some minBits => some minBits.toUInt32
          | none => result.versionRollingMinBitCount }
    else if name = "subscribe-extranonce".toList then { result with subscribeExtranonce := true }
    else result

/-- Every value is a request: what it lacks has a default. -/
def parse (params : Json) : ConfigureParams :=
  (extensions params).foldl (parseExtension params) ⟨false, none, none, false⟩

/-- Whether a request asks to roll the version. -/
def asksRolling (params : Json) : Bool :=
  (extensions params).any fun ext => ext.asStr = some "version-rolling".toList

/-- What is read of the mask and the number of bits once an extension asked for rolling. -/
def Reads (params : Json) (result : ConfigureParams) : Prop :=
  result.versionRollingMask = (if result.versionRolling then (namedMask params).join else none) ∧
    result.versionRollingMinBitCount =
      if result.versionRolling then (askedBits params).map UInt64.toUInt32 else none

theorem reads_parseExtension {params : Json} {result : ConfigureParams} (h : Reads params result)
    (ext : Json) : Reads params (parseExtension params result ext) ∧
      (parseExtension params result ext).versionRolling =
        (result.versionRolling || decide (ext.asStr = some "version-rolling".toList)) := by
  unfold parseExtension
  cases hext : ext.asStr with
  | none => exact ⟨h, by simp⟩
  | some name =>
    dsimp only
    split
    · rename_i hname
      refine ⟨⟨?_, ?_⟩, by simp [hname]⟩
      · obtain ⟨hmask, -⟩ := h
        rw [if_pos rfl]
        dsimp only
        cases hnamed : namedMask params with
        | some mask => rfl
        | none =>
          rw [hnamed] at hmask
          simpa using hmask
      · obtain ⟨-, hbits⟩ := h
        rw [if_pos rfl]
        dsimp only
        cases hasked : askedBits params with
        | some minBits => rfl
        | none =>
          rw [hasked] at hbits
          simpa using hbits
    · rename_i hname
      have hother : decide (some name = some "version-rolling".toList) = false := by
        simpa using hname
      rw [hother, Bool.or_false]
      split
      · exact ⟨h, rfl⟩
      · exact ⟨h, rfl⟩

theorem reads_foldl {params : Json} {result : ConfigureParams} (h : Reads params result)
    (exts : List Json) : Reads params (exts.foldl (parseExtension params) result) ∧
      (exts.foldl (parseExtension params) result).versionRolling =
        (result.versionRolling ||
          exts.any fun ext => ext.asStr = some "version-rolling".toList) := by
  induction exts generalizing result with
  | nil => exact ⟨h, by simp⟩
  | cons ext exts ih =>
    obtain ⟨hreads, hrolling⟩ := reads_parseExtension h ext
    obtain ⟨hreads', hrolling'⟩ := ih hreads
    refine ⟨hreads', ?_⟩
    rw [List.foldl_cons, hrolling', hrolling, List.any_cons, Bool.or_assoc]

/-- What the parser makes of a request for rolling. -/
theorem parse_of_asksRolling {params : Json} (h : asksRolling params) :
    (parse params).versionRolling = true ∧
      (parse params).versionRollingMask = (namedMask params).join ∧
      (parse params).versionRollingMinBitCount = (askedBits params).map UInt64.toUInt32 := by
  have hdefault : Reads params ⟨false, none, none, false⟩ := ⟨rfl, rfl⟩
  obtain ⟨⟨hmask, hbits⟩, hrolling⟩ := reads_foldl hdefault (extensions params)
  have hasks : (parse params).versionRolling = true := hrolling.trans h
  refine ⟨hasks, hmask.trans (if_pos hasks), hbits.trans (if_pos hasks)⟩

/-! ## What a request should get by itself -/

/-- The bits of BIP 320 that the request leaves in. -/
def rollable (params : Json) : UInt32 :=
  match (namedMask params).join with
  | some mask => mask &&& Bitcoin.versionRollingMask
  | none => Bitcoin.versionRollingMask

/-- There are bits left, as many as asked for. -/
def Grants (params : Json) : Prop :=
  rollable params ≠ 0 ∧
    ∀ minBits, askedBits params = some minBits → minBits.toNat ≤ Session.countOnes (rollable params)

end ConfigureParams

/-- The mask a response names: the text has it only if rolling is enabled. -/
def Message.advertisedMask : Message → Option UInt32
  | .configure _ rolling mask _ _ => if rolling then some mask else none
  | _ => none

open ConfigureParams

/-- The answer to a request for rolling, and what is enabled after it, are what it should get by
itself. -/
structure Session.AnswersAlone (s : Session) (id : RequestId) (params : Json) : Prop where
  enabled : (s.handleConfigure id (parse params)).session.versionRollingEnabled ↔ Grants params
  advertised : ∃ answer, (s.handleConfigure id (parse params)).result = .messages [answer] ∧
    ((Grants params ∧ answer.advertisedMask = some (rollable params)) ∨
      (¬ Grants params ∧ answer.advertisedMask = none))

/-! ## What earlier requests leave -/

/-- The mask of a session after a request. -/
def ConfigureParams.narrow (mask : UInt32) (params : ConfigureParams) : UInt32 :=
  if params.versionRolling then
    match params.versionRollingMask with
    | some m => m &&& mask
    | none => mask
  else mask

/-- The bits of BIP 320 in every mask named by requests for rolling. -/
def ConfigureParams.narrowed (earlier : List ConfigureParams) : UInt32 :=
  earlier.foldl narrow Bitcoin.versionRollingMask

/-- Nothing asked for before, and no high bit of the number asked for, is in the way of a request:
if it deserves rolling by itself, the bits it leaves in are in all masks named before; and if it
asks for 2³² bits or more, the low 32 bits of that number are still more than the bits left. -/
structure ConfigureParams.Unconstrained (earlier : List ConfigureParams) (params : Json) :
    Prop where
  mask : Grants params → ∀ e ∈ earlier, e.versionRolling →
    ∀ m, e.versionRollingMask = some m → rollable params &&& ~~~m = 0
  count : ∀ minBits, askedBits params = some minBits → 2 ^ 32 ≤ minBits.toNat →
    rollable params &&& narrowed earlier = 0 ∨
      Session.countOnes (rollable params &&& narrowed earlier) < minBits.toNat % 2 ^ 32

namespace ConfigureParams

theorem and_eq_self_iff {a b : UInt32} : a &&& b = a ↔ a &&& ~~~b = 0 := by
  constructor
  · intro h
    rw [← h, UInt32.and_assoc, UInt32.and_not_self, UInt32.and_zero]
  · exact and_eq_self_of_and_not

theorem and_and_eq_self_iff {a b c : UInt32} : a &&& (b &&& c) = a ↔ a &&& b = a ∧ a &&& c = a := by
  constructor
  · intro h
    constructor
    · rw [← h, UInt32.and_assoc, UInt32.and_comm (b &&& c), ← UInt32.and_assoc b, UInt32.and_self]
    · rw [← h, UInt32.and_assoc, UInt32.and_assoc b, UInt32.and_self]
  · rintro ⟨hb, hc⟩
    rw [← UInt32.and_assoc, hb, hc]

/-- The bits of one more request are kept if they were kept and it leaves them in. -/
theorem and_narrow_eq_iff {bits mask : UInt32} {e : ConfigureParams} :
    bits &&& narrow mask e = bits ↔ bits &&& mask = bits ∧
      (e.versionRolling → ∀ m, e.versionRollingMask = some m → bits &&& ~~~m = 0) := by
  unfold narrow
  by_cases hrolling : e.versionRolling
  · rw [if_pos hrolling]
    cases hm : e.versionRollingMask with
    | none => simp
    | some m =>
      dsimp only
      rw [and_and_eq_self_iff, and_comm]
      simp [hrolling, and_eq_self_iff]
  · simp [hrolling]

theorem and_narrowed_eq_iff {bits : UInt32} (hbits : bits &&& Bitcoin.versionRollingMask = bits)
    (earlier : List ConfigureParams) :
    bits &&& narrowed earlier = bits ↔ ∀ e ∈ earlier, e.versionRolling →
      ∀ m, e.versionRollingMask = some m → bits &&& ~~~m = 0 := by
  unfold narrowed
  induction earlier using List.reverseRecOn with
  | nil => simp [hbits]
  | append_singleton earlier e ih =>
    rw [List.foldl_append, List.foldl_cons, List.foldl_nil, and_narrow_eq_iff, ih]
    simp [or_imp, forall_and]

theorem narrowed_and_mask (earlier : List ConfigureParams) :
    narrowed earlier &&& Bitcoin.versionRollingMask = narrowed earlier := by
  unfold narrowed
  induction earlier using List.reverseRecOn with
  | nil => exact UInt32.and_self
  | append_singleton earlier e ih =>
    rw [List.foldl_append, List.foldl_cons, List.foldl_nil]
    generalize earlier.foldl narrow Bitcoin.versionRollingMask = mask at ih
    unfold narrow
    split
    · split
      · rw [UInt32.and_assoc, ih]
      · exact ih
    · exact ih

theorem rollable_and_mask (params : Json) :
    rollable params &&& Bitcoin.versionRollingMask = rollable params := by
  unfold rollable
  split
  · rw [UInt32.and_assoc, UInt32.and_self]
  · exact UInt32.and_self

/-- What a request is left with after others. -/
theorem narrow_narrowed {params : Json} (h : asksRolling params) (earlier : List ConfigureParams) :
    narrow (narrowed earlier) (parse params) = rollable params &&& narrowed earlier := by
  obtain ⟨hrolling, hmask, -⟩ := parse_of_asksRolling h
  unfold narrow rollable
  rw [if_pos hrolling, hmask]
  split
  · rw [UInt32.and_assoc, UInt32.and_comm Bitcoin.versionRollingMask, narrowed_and_mask]
  · rw [UInt32.and_comm, narrowed_and_mask]

end ConfigureParams

namespace Session

theorem countOnes_le (n : UInt32) : countOnes n ≤ 32 := by
  unfold countOnes
  exact (List.countP_le_length).trans_eq (List.length_range)

theorem countOnes_and_le (m n : UInt32) : countOnes (m &&& n) ≤ countOnes m := by
  unfold countOnes
  refine List.countP_mono_left fun i _ h => ?_
  rw [UInt32.toNat_and, Nat.testBit_and, Bool.and_eq_true] at h
  exact h.1

/-- The test the session makes of the bits left, with the number asked for cut to 32 bits. -/
def GrantsLeft (params : Json) (left : UInt32) : Prop :=
  left ≠ 0 ∧ ∀ minBits, askedBits params = some minBits → minBits.toNat % 2 ^ 32 ≤ countOnes left

theorem grantsLeft_of_grants {params : Json} (h : Grants params) :
    GrantsLeft params (rollable params) :=
  ⟨h.1, fun minBits hasked => (Nat.mod_le _ _).trans (h.2 minBits hasked)⟩

theorem lt_of_grants {params : Json} (h : Grants params) {minBits : UInt64}
    (hasked : askedBits params = some minBits) : minBits.toNat < 2 ^ 32 := by
  have hle := (h.2 minBits hasked).trans (countOnes_le _)
  omega

/-- Without the high bits in the way, a request that should not get rolling does not get it. -/
theorem not_grantsLeft {params : Json} (h : ¬ Grants params) {mask : UInt32}
    (hcount : ∀ minBits, askedBits params = some minBits → 2 ^ 32 ≤ minBits.toNat →
      rollable params &&& mask = 0 ∨
        countOnes (rollable params &&& mask) < minBits.toNat % 2 ^ 32) :
    ¬ GrantsLeft params (rollable params &&& mask) := by
  rintro ⟨hne, hbits⟩
  refine h ⟨fun hzero => hne (by rw [hzero, UInt32.zero_and]), fun minBits hasked => ?_⟩
  have hle := hbits minBits hasked
  by_cases hwide : 2 ^ 32 ≤ minBits.toNat
  · rcases hcount minBits hasked hwide with hzero | hlt
    · exact absurd hzero hne
    · omega
  · rw [Nat.mod_eq_of_lt (by omega)] at hle
    exact hle.trans (countOnes_and_le _ _)

/-- Whether a request for rolling is granted with the bits left to it. -/
theorem handleConfigure_of_rolling (s : Session) (id : RequestId) {params : ConfigureParams}
    (h : params.versionRolling = true) :
    let handled := s.handleConfigure id params
    let left := narrow s.versionRollingMask params
    handled.session.versionRollingMask = left ∧
    (handled.session.versionRollingEnabled ↔ left ≠ 0 ∧
      ∀ minBits, params.versionRollingMinBitCount = some minBits →
        minBits.toNat ≤ countOnes left) ∧
    ∃ answer, handled.result = .messages [answer] ∧
      answer.advertisedMask = if handled.session.versionRollingEnabled then some left
        else none := by
  unfold handleConfigure narrow
  rw [if_pos h, if_pos h]
  refine ⟨rfl, ?_, _, rfl, rfl⟩
  dsimp only
  cases params.versionRollingMask <;> cases params.versionRollingMinBitCount <;> simp [and_comm]

/-! ## Turns -/

variable {H : Bytes → ByteVec 32} {A : AddressLib} {env : Env Message} {s : Session}

theorem mask_handleConfigure (s : Session) (id : RequestId) (params : ConfigureParams) :
    (s.handleConfigure id params).session.versionRollingMask =
      narrow s.versionRollingMask params := by
  by_cases h : params.versionRolling
  · exact (s.handleConfigure_of_rolling id h).1
  · unfold handleConfigure narrow
    rw [if_neg h, if_neg h]

theorem mask_refuse (id : RequestId) (reason : RejectReason) (code : StratumErrCode) :
    (s.refuse id reason code).session.versionRollingMask = s.versionRollingMask := rfl

theorem mask_handleSubmit (id : RequestId) (params : SubmitParams) :
    (handleSubmit H env s id params).session.versionRollingMask = s.versionRollingMask := by
  unfold handleSubmit
  split
  · rfl
  · split
    · exact mask_refuse _ _ _
    · split
      · exact mask_refuse _ _ _
      · dsimp only
        split
        · exact mask_refuse _ _ _
        · rfl

theorem mask_welcome (id : RequestId) (effects : List (Effect Message)) :
    (s.welcome env id effects).session.versionRollingMask = s.versionRollingMask := by
  unfold welcome
  dsimp only
  split
  · rfl
  · split <;> rfl

theorem mask_handleAuthorize (id : RequestId) (worker : Str) :
    (handleAuthorize A env s id worker).session.versionRollingMask = s.versionRollingMask := by
  unfold handleAuthorize
  split
  · rfl
  · split
    · rfl
    · split
      · rfl
      · split
        · exact mask_welcome _ _
        · dsimp only
          split
          · rfl
          · exact mask_welcome _ _

theorem mask_applyRetarget (effects : List (Effect Message)) :
    (s.applyRetarget env effects).state.versionRollingMask = s.versionRollingMask := by
  unfold applyRetarget
  dsimp only
  split
  · rfl
  · split <;> rfl

theorem mask_sendThenRetarget (effects : List (Effect Message)) (messages : List Message) :
    (s.sendThenRetarget env effects messages).state.versionRollingMask = s.versionRollingMask := by
  unfold sendThenRetarget
  dsimp only
  split
  · exact mask_applyRetarget _
  · rfl

theorem mask_handleBroadcast (template : JobTemplate) (clean : Bool) :
    (handleBroadcast env s template clean).state.versionRollingMask = s.versionRollingMask := by
  have hcleared : (if clean then { s with shareSet := s.shareSet.clear }
      else s).versionRollingMask = s.versionRollingMask := by
    split <;> rfl
  unfold handleBroadcast
  dsimp only
  split
  · split
    · exact hcleared
    · exact (mask_sendThenRetarget _ _).trans hcleared
  · exact (mask_applyRetarget _).trans hcleared

end Session

/-- The requests among the inputs. -/
def Input.configures (input : Input) : List ConfigureParams :=
  match input.event with
  | .line (.request _ (.configure params)) => [params]
  | _ => []

namespace Session

variable {H : Bytes → ByteVec 32} {A : AddressLib} {env : Env Message} {s : Session}

/-- A line that is a request narrows the mask; no other line touches it. -/
theorem mask_handleLine (hrate : env.rateOk = true) (line : Line) :
    (handleLine H A env s line).session.versionRollingMask =
      (Input.configures ⟨.line line, env⟩).foldl narrow s.versionRollingMask := by
  unfold handleLine
  rw [if_neg (by simp [hrate])]
  cases line with
  | blank => rfl
  | malformed => rfl
  | badParams id error => rfl
  | request id message =>
    cases message with
    | configure params => exact mask_handleConfigure s id params
    | subscribe userAgent => rfl
    | authorize worker => exact mask_handleAuthorize id worker
    | submit params => exact mask_handleSubmit id params
    | suggestDifficulty difficulty => rfl
    | extranonceSubscribe => rfl
    | unknown method => rfl

theorem mask_step {input : Input} (hlive : (step H A s input).live) :
    (step H A s input).state.versionRollingMask =
      input.configures.foldl narrow s.versionRollingMask := by
  obtain ⟨event, env⟩ := input
  cases event with
  | line line =>
    revert hlive
    unfold step
    dsimp only
    split
    · rename_i messages hresult
      intro _
      have hrate : env.rateOk = true := by
        by_contra hrate
        unfold handleLine at hresult
        rw [if_pos (by simpa using hrate)] at hresult
        cases hresult
      rw [mask_sendThenRetarget, mask_handleLine hrate]
    · exact fun hlive => by cases hlive
  | broadcast template clean => exact mask_handleBroadcast template clean
  | lagged missed => exact mask_applyRetarget []
  | oversized => cases hlive
  | closed => cases hlive

/-- The mask of a session is what all its requests left. -/
theorem mask_run (s : Session) {inputs : List Input} (hlive : ((process H A).run s inputs).live) :
    ((process H A).run s inputs).state.versionRollingMask =
      (inputs.flatMap Input.configures).foldl narrow s.versionRollingMask := by
  induction inputs generalizing s with
  | nil => rfl
  | cons input inputs ih =>
    by_cases hstep : ((process H A).step s input).live
    · rw [Process.run_cons_of_live hstep] at hlive ⊢
      rw [List.flatMap_cons, List.foldl_append, ← mask_step hstep]
      exact ih _ hlive
    · rw [Process.run_cons_of_not_live hstep] at hlive
      exact absurd hlive hstep

/-- **When the answer to a request depends on that request alone.** In any run of a session,
whatever was sent and asked for before, the answer to a request for rolling is the one it should get
by itself exactly if the requests before it and the high bits of the number it asks for are not in
the way. -/
theorem answersAlone_iff (H : Bytes → ByteVec 32) (A : AddressLib) (cfg : Config)
    (network : Network) (sessionId : Str) (extranonce1 : Bytes) (template : Option JobTemplate)
    (now : Instant) (inputs : List Input)
    (hlive : ((process H A).run (new cfg network sessionId extranonce1 template now) inputs).live)
    (id : RequestId) (params : Json) (hasks : asksRolling params) :
    AnswersAlone ((process H A).run (new cfg network sessionId extranonce1 template now)
        inputs).state id params ↔
      Unconstrained (inputs.flatMap Input.configures) params := by
  have hmask := mask_run (new cfg network sessionId extranonce1 template now) hlive
  change _ = narrowed (inputs.flatMap Input.configures) at hmask
  generalize ((process H A).run (new cfg network sessionId extranonce1 template now)
    inputs).state = s at hmask ⊢
  generalize inputs.flatMap Input.configures = earlier at hmask ⊢
  obtain ⟨hrolling, -, hbits⟩ := parse_of_asksRolling hasks
  obtain ⟨-, henabled, answer, hanswer, hadvertised⟩ := s.handleConfigure_of_rolling id hrolling
  rw [hmask, narrow_narrowed hasks, hbits] at henabled
  rw [hmask, narrow_narrowed hasks] at hadvertised
  have hkept := and_narrowed_eq_iff (rollable_and_mask params) earlier
  have hleft : (s.handleConfigure id (parse params)).session.versionRollingEnabled ↔
      GrantsLeft params (rollable params &&& narrowed earlier) := by
    rw [henabled]
    unfold GrantsLeft
    cases askedBits params <;> simp [UInt64.toNat_toUInt32]
  by_cases hgrants : Grants params
  · constructor
    · intro halone
      refine ⟨fun _ => hkept.mp ?_, fun minBits hasked hwide => ?_⟩
      · obtain ⟨answer', hanswer', ⟨-, hsome⟩ | ⟨hnot, -⟩⟩ := halone.advertised
        · obtain rfl : answer = answer' := by simpa using hanswer.symm.trans hanswer'
          rw [hadvertised, if_pos (halone.enabled.mpr hgrants), Option.some_inj] at hsome
          exact hsome
        · exact absurd hgrants hnot
      · exact absurd (lt_of_grants hgrants hasked) (by omega)
    · intro hfree
      have hall := hkept.mpr (hfree.mask hgrants)
      rw [hall] at hleft hadvertised
      have hon := hleft.mpr (grantsLeft_of_grants hgrants)
      rw [if_pos hon] at hadvertised
      exact ⟨iff_of_true hon hgrants, answer, hanswer, Or.inl ⟨hgrants, hadvertised⟩⟩
  · constructor
    · intro halone
      refine ⟨fun h => absurd h hgrants, fun minBits hasked _ => ?_⟩
      by_contra hmany
      rw [not_or, not_lt] at hmany
      refine hgrants (halone.enabled.mp (hleft.mpr ⟨hmany.1, fun minBits' hasked' => ?_⟩))
      obtain rfl : minBits' = minBits := Option.some.inj (hasked'.symm.trans hasked)
      exact hmany.2
    · intro hfree
      have hoff := mt hleft.mp (not_grantsLeft hgrants hfree.count)
      rw [if_neg hoff] at hadvertised
      exact ⟨iff_of_false hoff hgrants, answer, hanswer, Or.inr ⟨hgrants, hadvertised⟩⟩

end Session

/-! ## Requests of a regtest session -/

/-- A request for rolling with the members of its second parameter. -/
def rollingParams (members : List (Str × Json)) : Json :=
  .array [.array [.string "version-rolling".toList], .object members]

/-- The parameter that names the mask. -/
def maskMember (mask : String) : Str × Json :=
  ("version-rolling.mask".toList, .string mask.toList)

/-- The parameter that names the number of bits wanted. -/
def minBitCountMember (n : UInt64) : Str × Json := ("version-rolling.min-bit-count".toList, .u64 n)

/-- A session that was sent a request. -/
def regtestConfigured (members : List (Str × Json)) : Outcome Session (Effect Message) :=
  (Session.process zeroHash regtestAddresses).run regtestSession
    [.regtest (.configure (parse (rollingParams members)))]

/-- A narrow request leaves in the bits a narrower one asks for. -/
theorem answersAlone_iff_narrower :
    Session.AnswersAlone (regtestConfigured [maskMember "00ffffff"]).state "7".toList
      (rollingParams [maskMember "00006000", minBitCountMember 2]) := by
  refine (Session.answersAlone_iff zeroHash regtestAddresses regtestConfig .regtest "s".toList
    [1, 2, 3, 4] (some regtestTemplate) 0
    [.regtest (.configure (parse (rollingParams [maskMember "00ffffff"])))] (by decide +kernel)
    "7".toList _ (by decide)).mpr ⟨fun _ e he _ m hm => ?_, fun minBits hasked hwide => ?_⟩
  · obtain rfl : e = parse (rollingParams [maskMember "00ffffff"]) := List.mem_singleton.mp he
    have hmask : (parse (rollingParams [maskMember "00ffffff"])).versionRollingMask =
        some 0x00ffffff := by decide +kernel
    obtain rfl : 0x00ffffff = m := Option.some.inj (hmask.symm.trans hm)
    decide +kernel
  · have htwo : askedBits (rollingParams [maskMember "00006000", minBitCountMember 2]) =
        some 2 := by
      decide +kernel
    obtain rfl : 2 = minBits := Option.some.inj (htwo.symm.trans hasked)
    exact absurd hwide (by decide)

/-- A request for two bits of a mask with one is refused, and the next request, for anything, is
granted that one bit; and a request for 2³² bits is granted. -/
theorem configure_remembers :
    ((regtestConfigured [maskMember "00002000", minBitCountMember 2]).state.versionRollingEnabled =
        false ∧
      Grants (rollingParams []) ∧ rollable (rollingParams []) = Bitcoin.versionRollingMask ∧
      ¬ Session.AnswersAlone
        (regtestConfigured [maskMember "00002000", minBitCountMember 2]).state "7".toList
        (rollingParams [])) ∧
    ¬ Grants (rollingParams [minBitCountMember 4294967296]) ∧
    ¬ Session.AnswersAlone regtestSession "7".toList
      (rollingParams [minBitCountMember 4294967296]) := by
  have hnone : askedBits (rollingParams []) = none := by decide +kernel
  have hgrants : Grants (rollingParams []) := by
    refine ⟨by decide +kernel, fun minBits hasked => ?_⟩
    rw [hnone] at hasked
    cases hasked
  have hasked : askedBits (rollingParams [minBitCountMember 4294967296]) = some 4294967296 := by
    decide +kernel
  have hnot : ¬ Grants (rollingParams [minBitCountMember 4294967296]) := by
    intro h
    exact absurd (h.2 _ hasked) (by decide +kernel)
  refine ⟨⟨by decide +kernel, hgrants, by decide +kernel, fun halone => ?_⟩, hnot, fun halone => ?_⟩
  · obtain ⟨answer, hanswer, ⟨-, hsome⟩ | ⟨hn, -⟩⟩ := halone.advertised
    · have htold : (Session.handleConfigure
          (regtestConfigured [maskMember "00002000", minBitCountMember 2]).state "7".toList
          (parse (rollingParams []))).result =
            .messages [.configure "7".toList true 0x00002000 1 false] := by decide +kernel
      obtain rfl : Message.configure "7".toList true 0x00002000 1 false = answer := by
        simpa using htold.symm.trans hanswer
      exact absurd hsome (by decide +kernel)
    · exact hn hgrants
  · exact hnot (halone.enabled.mp (by decide +kernel))

end BtcPool.Sv1
