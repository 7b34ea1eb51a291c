import BtcPool.Bitcoin.HashDifficulty
import BtcPool.Protocol.Sv2.Dialogue

/-!
# Targets and the device's bound

A target is a number that three modules write and compare in different byte orders: big-endian in
the templates, against a little-endian hash in the validator, little-endian on the wire of Stratum
V2. They agree as numbers (`targets_exact`).

A device that opens a channel declares the easiest target it can work with. The answer to the open
keeps to it. A later retarget does not look at it again, so the targets sent on the channel are
within the bound exactly if those of the difficulties it is retargeted to are. A retarget never
makes the difficulty less than the floor: if the target of the floor is within the bound, every
target sent on the channel is (`targets_le_maxTarget`). Otherwise a retarget may ease the target
beyond what the device declared (`setTarget_above_maxTarget`).
-/

namespace BtcPool.Sv2

open Bitcoin

/-! ## Targets as numbers -/

@[simp] theorem leNat_reverseVec (v : ByteVec 32) :
    leNat (reverseVec v).toList = beNat v.toList := rfl

theorem beNat_reverseVec (v : ByteVec 32) : beNat (reverseVec v).toList = leNat v.toList := by
  change leNat v.toList.reverse.reverse = _
  rw [List.reverse_reverse]

theorem sv2TargetLe_iff (a b : ByteVec 32) : sv2TargetLe a b ↔ leNat a.toList ≤ leNat b.toList := by
  rw [sv2TargetLe, lexLe_iff (by simp), beNat_reverseVec, beNat_reverseVec]

theorem leNat_difficultyToSv2Target (d : UInt64) :
    leNat (difficultyToSv2Target d).toList = diff1 / max d.toNat 1 := by
  rw [difficultyToSv2Target, leNat_reverseVec, beNat_difficultyToTarget]

/-- A higher difficulty is a smaller target. -/
theorem leNat_difficultyToSv2Target_anti {a b : UInt64} (h : a.toNat ≤ b.toNat) :
    leNat (difficultyToSv2Target b).toList ≤ leNat (difficultyToSv2Target a).toList := by
  rw [leNat_difficultyToSv2Target, leNat_difficultyToSv2Target]
  exact Nat.div_le_div_left (max_le_max_right 1 h) (by omega)

/-- The target of a difficulty is the difficulty-one target divided by it, rounded down, and the
long division that computes it never overflows; a hash meets a target exactly if its value is at
most the target's; a higher difficulty never has an easier target on the wire. -/
theorem targets_exact (d : UInt64) (value : ByteVec 32) {divisor : UInt64} (hdivisor : divisor ≠ 0)
    (hash target : ByteVec 32) {d₁ d₂ : UInt64} (hle : d₁ ≤ d₂) :
    beNat (difficultyToTarget d).toList = diff1 / max d.toNat 1 ∧
    divBeU256ByU64Checked value divisor = some (divBeU256ByU64 value divisor).toList ∧
    (meetsTarget hash target ↔ leNat hash.toList ≤ beNat target.toList) ∧
    sv2TargetLe (difficultyToSv2Target d₂) (difficultyToSv2Target d₁) := by
  refine ⟨beNat_difficultyToTarget d, divBeU256ByU64Checked_eq value hdivisor,
    meetsTarget_iff hash target, ?_⟩
  exact (sv2TargetLe_iff _ _).mpr (leNat_difficultyToSv2Target_anti (UInt64.le_iff_toNat_le.mp hle))

/-- The largest divisor, and two neighbouring difficulties. -/
theorem targets_exact_max :
    divBeU256ByU64Checked diff1Target (UInt64.ofNat (2 ^ 64 - 1)) =
      some (divBeU256ByU64 diff1Target (UInt64.ofNat (2 ^ 64 - 1))).toList ∧
    sv2TargetLe (difficultyToSv2Target 65536) (difficultyToSv2Target 65535) := by
  have h := targets_exact 65536 diff1Target (show UInt64.ofNat (2 ^ 64 - 1) ≠ 0 by decide)
    diff1Target diff1Target (show (65535 : UInt64) ≤ 65536 by decide)
  exact ⟨h.2.1, h.2.2.2⟩

theorem View.openTarget_le (v : View) (maxTarget : ByteVec 32) :
    leNat (v.openTarget maxTarget).toList ≤ leNat maxTarget.toList := by
  unfold openTarget
  split
  · rename_i hle
    exact (sv2TargetLe_iff _ _).mp hle
  · exact le_rfl

/-! ## The targets of a turn -/

/-- The target a message tells. -/
def Message.target : Message → Option (ByteVec 32)
  | .openExtendedSuccess _ _ target _ _ => some target
  | .setTarget _ target => some target
  | _ => none

theorem Message.Plain.target {m : Message} (h : m.Plain) : m.target = none := by
  cases m <;> first | rfl | exact h.elim

theorem target_eq_none_of_cons {newJob : NewExtendedMiningJob} {more : List Message}
    (h : ∀ m ∈ more, m.Plain) : ∀ m ∈ .newExtendedMiningJob newJob :: more, m.target = none := by
  intro m hm
  rcases List.mem_cons.mp hm with rfl | hm
  · rfl
  · exact (h m hm).target

/-- The message that says a channel is open. -/
def Message.isSuccess : Message → Bool
  | .openExtendedSuccess _ _ _ _ _ => true
  | _ => false

theorem Message.Plain.not_isSuccess {m : Message} (h : m.Plain) : ¬ m.isSuccess := by
  cases m <;> first | exact Bool.false_ne_true | exact h.elim

section Turns

variable {W : Wire} {offered : JobTemplate → Prop} {v v' : View} {asked : Option OpenExtended}
  {ms : List Message}

/-- The only target of an answer is that of a channel that opens. -/
theorem Answer.target_eq (h : Answer W offered v asked v' ms) {m : Message} (hm : m ∈ ms)
    {target : ByteVec 32} (ht : m.target = some target) :
    m.isSuccess ∧ v.channelOpen = false ∧
      ∃ o, asked = some o ∧ target = v.openTarget o.maxTarget := by
  cases h with
  | plain hplain =>
    rw [(hplain m hm).target] at ht
    cases ht
  | @opened o hclosed =>
    obtain rfl := List.mem_singleton.mp hm
    exact ⟨rfl, hclosed, o, rfl, (Option.some.inj ht).symm⟩
  | @started o job newJob more hclosed _ hmore =>
    rcases List.mem_cons.mp hm with rfl | hm
    · exact ⟨rfl, hclosed, o, rfl, (Option.some.inj ht).symm⟩
    · rw [target_eq_none_of_cons hmore m hm] at ht
      cases ht
  | pushed _ _ _ hmore =>
    rw [target_eq_none_of_cons hmore m hm] at ht
    cases ht
  | held => cases hm

/-- A channel that says it is open is. -/
theorem Answer.channelOpen_of_success (h : Answer W offered v asked v' ms) {m : Message}
    (hm : m ∈ ms) (hsuccess : m.isSuccess) : v'.channelOpen := by
  cases h with
  | plain hplain => exact absurd hsuccess (hplain m hm).not_isSuccess
  | opened => rfl
  | started => rfl
  | pushed hopen => exact hopen
  | held => cases hm

theorem Answer.channelOpen_of_open (h : Answer W offered v asked v' ms) (hopen : v.channelOpen) :
    v'.channelOpen := by
  cases h <;> first | exact hopen | rfl

theorem Answer.current (h : Answer W offered v asked v' ms) : v'.current = v.current := by
  cases h <;> rfl

theorem Retargeted.channelOpen (h : Retargeted v v' ms) : v'.channelOpen = v.channelOpen := by
  cases h <;> rfl

theorem Retargeted.not_isSuccess (h : Retargeted v v' ms) : ∀ m ∈ ms, ¬ m.isSuccess := by
  cases h <;> simp [Message.isSuccess]

/-- The target of a retarget is that of the difficulty it moves to, and there is one if it moves. -/
theorem Retargeted.target_iff (h : Retargeted v v' ms) (target : ByteVec 32) :
    (∃ m ∈ ms, m.target = some target) ↔
      v'.current ≠ v.current ∧ target = difficultyToSv2Target v'.current := by
  cases h with
  | unchanged => simp
  | changed hopen hne hlow hhigh channelId =>
    simp [Message.target, hne, eq_comm]

theorem Retargeted.le_current (h : Retargeted v v' ms) (hmoved : v'.current ≠ v.current) :
    v.cfg.minDifficulty.toNat ≤ v'.current.toNat := by
  cases h with
  | unchanged => exact absurd rfl hmoved
  | changed _ _ hlow => exact hlow

end Turns

/-- If a channel opens, the bound its device declares leaves room for the difficulty. -/
def View.LeavesRoom (v : View) (asked : Option OpenExtended) (ms : List Message) : Prop :=
  (∃ m ∈ ms, m.isSuccess) → ∀ o ∈ asked,
    sv2TargetLe (difficultyToSv2Target v.difficulty) o.maxTarget

/-- Where there is room, a channel opens with the target of the difficulty. -/
theorem Answer.target_of_leavesRoom {W : Wire} {offered : JobTemplate → Prop} {v v' : View}
    {asked : Option OpenExtended} {ms part : List Message} (h : Answer W offered v asked v' ms)
    (hroom : v.LeavesRoom asked part) {m : Message} (hm : m ∈ ms) (hpart : m ∈ part)
    {target : ByteVec 32} (ht : m.target = some target) :
    target = difficultyToSv2Target v.difficulty := by
  obtain ⟨hsuccess, -, o, hasked, rfl⟩ := h.target_eq hm ht
  exact if_pos (hroom ⟨m, hpart, hsuccess⟩ o hasked)

/-! ## Runs -/

namespace Session

variable {W : Wire} {H : Bytes → ByteVec 32} {A : AddressLib} {s : Session}

/-- A device that gets its channel declared a bound that leaves room for the session's
difficulty. -/
def Unclamped (W : Wire) (H : Bytes → ByteVec 32) (A : AddressLib) (s : Session) (input : Input) :
    Prop :=
  s.view.LeavesRoom input.asked (Effect.messages (step W H A s input).outputs)

instance (W : Wire) (H : Bytes → ByteVec 32) (A : AddressLib) (s : Session) (input : Input) :
    Decidable (s.Unclamped W H A input) :=
  inferInstanceAs (Decidable
    ((∃ m ∈ Effect.messages (step W H A s input).outputs, m.isSuccess) → ∀ o ∈ input.asked,
      sv2TargetLe (difficultyToSv2Target s.view.difficulty) o.maxTarget))

/-- The difficulty a turn retargets to. -/
def retargets (W : Wire) (H : Bytes → ByteVec 32) (A : AddressLib) (s : Session) (input : Input) :
    List UInt64 :=
  let out := step W H A s input
  if out.live ∧ out.state.vardiff.current ≠ s.vardiff.current then [out.state.vardiff.current]
  else []

theorem turn_any (W : Wire) (H : Bytes → ByteVec 32) (A : AddressLib) (s : Session)
    (input : Input) :
    Turn W (fun _ => True) s.view input.asked (step W H A s input) :=
  step_turn fun _ _ _ => trivial

/-- The targets of a turn are that of a channel it opens and that of the difficulty it retargets
to. -/
theorem step_targets (W : Wire) (H : Bytes → ByteVec 32) (A : AddressLib) (s : Session)
    (input : Input) :
    (∀ m ∈ Effect.messages (step W H A s input).outputs, ∀ target, m.target = some target →
      (s.channelOpen = false ∧ ∃ o, input.asked = some o ∧ target = s.view.openTarget o.maxTarget) ∨
      ∃ d ∈ retargets W H A s input, target = difficultyToSv2Target d) ∧
    ∀ d ∈ retargets W H A s input, ∃ m ∈ Effect.messages (step W H A s input).outputs,
      m.target = some (difficultyToSv2Target d) := by
  cases turn_any W H A s input with
  | ended hanswer hdead hpart =>
    refine ⟨fun m hm target ht => Or.inl (hanswer.target_eq (hpart.subset hm) ht).2, ?_⟩
    simp [retargets, hdead]
  | @continued v₁ ms₁ ms₂ hanswer hret hlive hall =>
    have hsome : ∀ target, (∃ m ∈ ms₂, m.target = some target) ↔
        ∃ d ∈ retargets W H A s input, target = difficultyToSv2Target d := by
      intro target
      rw [hret.target_iff, hanswer.current]
      change (_ ≠ s.vardiff.current ∧ _) ↔ _
      unfold retargets
      simp only [hlive, true_and]
      split
      · rename_i hmoved
        simp [view, hmoved]
      · rename_i hsame
        simp [view, hsame]
    refine ⟨fun m hm target ht => ?_, fun d hd => ?_⟩
    · rw [hall] at hm
      rcases List.mem_append.mp hm with hm | hm
      · exact Or.inl (hanswer.target_eq hm ht).2
      · exact Or.inr ((hsome target).mp ⟨m, hm, ht⟩)
    · obtain ⟨m, hm, ht⟩ := (hsome (difficultyToSv2Target d)).mpr ⟨d, hd, rfl⟩
      exact ⟨m, hall ▸ List.mem_append_right _ hm, ht⟩

/-- A turn retargets to no difficulty below the floor. -/
theorem le_of_mem_retargets {input : Input} {d : UInt64} (h : d ∈ retargets W H A s input) :
    s.view.cfg.minDifficulty.toNat ≤ d.toNat := by
  unfold retargets at h
  dsimp only at h
  split at h
  · rename_i hmoved
    obtain rfl := List.mem_singleton.mp h
    cases turn_any W H A s input with
    | ended _ hdead => simp [hdead] at hmoved
    | @continued v₁ _ _ hanswer hret =>
      have hcfg : v₁.cfg = s.view.cfg := congrArg Prod.fst hanswer.settings
      have hcurrent : v₁.current = s.vardiff.current := hanswer.current
      rw [← hcfg]
      exact hret.le_current (hcurrent ▸ hmoved.2)
  · cases h

/-- An open channel stays open. -/
theorem channelOpen_step {input : Input} (hopen : s.channelOpen)
    (hlive : (step W H A s input).live) : (step W H A s input).state.channelOpen := by
  cases turn_any W H A s input with
  | ended _ hdead => simp [hdead] at hlive
  | continued hanswer hret =>
    exact hret.channelOpen.trans (hanswer.channelOpen_of_open hopen)

/-- So does one that opens in the turn. -/
theorem channelOpen_of_success {input : Input}
    (hsuccess : ∃ m ∈ Effect.messages (step W H A s input).outputs, m.isSuccess)
    (hlive : (step W H A s input).live) : (step W H A s input).state.channelOpen := by
  obtain ⟨m, hm, hsuccess⟩ := hsuccess
  cases turn_any W H A s input with
  | ended _ hdead => simp [hdead] at hlive
  | continued hanswer hret _ hall =>
    rw [hall] at hm
    have hfirst : m ∈ _ := (List.mem_append.mp hm).resolve_right fun h =>
      hret.not_isSuccess m h hsuccess
    exact hret.channelOpen.trans (hanswer.channelOpen_of_success hfirst hsuccess)

/-- Every target among the messages is at most a bound. -/
def TargetsLe (bound : ℕ) (ms : List Message) : Prop :=
  ∀ m ∈ ms, ∀ target, m.target = some target → leNat target.toList ≤ bound

theorem targetsLe_append {bound : ℕ} {ms ms' : List Message} :
    TargetsLe bound (ms ++ ms') ↔ TargetsLe bound ms ∧ TargetsLe bound ms' :=
  List.forall_mem_append

/-- A turn keeps to a bound exactly if its retarget does, if a channel that opens does. -/
theorem step_targetsLe_iff {bound : ℕ} {input : Input}
    (hfirst : s.channelOpen = false → ∀ o, input.asked = some o →
      leNat (s.view.openTarget o.maxTarget).toList ≤ bound) :
    TargetsLe bound (Effect.messages (step W H A s input).outputs) ↔
      ∀ d ∈ retargets W H A s input, leNat (difficultyToSv2Target d).toList ≤ bound := by
  obtain ⟨htargets, hsent⟩ := step_targets W H A s input
  constructor
  · intro hle d hd
    obtain ⟨m, hm, ht⟩ := hsent d hd
    exact hle m hm _ ht
  · intro hle m hm target ht
    rcases htargets m hm target ht with ⟨hclosed, o, hasked, rfl⟩ | ⟨d, hd, rfl⟩
    · exact hfirst hclosed o hasked
    · exact hle d hd

/-- So does a run, if its first turn does and what comes after it. -/
theorem cons_targetsLe_iff {bound : ℕ} {input : Input} {inputs : List Input}
    (hfirst : TargetsLe bound (Effect.messages (step W H A s input).outputs) ↔
      ∀ d ∈ retargets W H A s input, leNat (difficultyToSv2Target d).toList ≤ bound)
    (hrest : (step W H A s input).live →
      (TargetsLe bound
          (Effect.messages ((process W H A).run (step W H A s input).state inputs).outputs) ↔
        ∀ d ∈ (process W H A).collect (retargets W H A) (step W H A s input).state inputs,
          leNat (difficultyToSv2Target d).toList ≤ bound)) :
    TargetsLe bound (Effect.messages ((process W H A).run s (input :: inputs)).outputs) ↔
      ∀ d ∈ (process W H A).collect (retargets W H A) s (input :: inputs),
        leNat (difficultyToSv2Target d).toList ≤ bound := by
  rw [Process.collect, List.forall_mem_append, ← hfirst]
  by_cases hlive : ((process W H A).step s input).live
  · rw [Process.run_cons_of_live hlive, if_pos hlive, Effect.messages_append, targetsLe_append]
    exact and_congr_right fun _ => hrest hlive
  · rw [Process.run_cons_of_not_live hlive, if_neg hlive]
    exact (and_iff_left (List.forall_mem_nil _)).symm

/-- On an open channel every run does. -/
theorem run_targetsLe_iff (bound : ℕ) (hopen : s.channelOpen) (inputs : List Input) :
    TargetsLe bound (Effect.messages ((process W H A).run s inputs).outputs) ↔
      ∀ d ∈ (process W H A).collect (retargets W H A) s inputs,
        leNat (difficultyToSv2Target d).toList ≤ bound := by
  induction inputs generalizing s with
  | nil => simp [Process.run, Process.collect, TargetsLe]
  | cons input inputs ih =>
    refine cons_targetsLe_iff (step_targetsLe_iff fun hclosed => ?_) fun hlive =>
      ih (channelOpen_step hopen hlive)
    simp [hopen] at hclosed

/-- No retarget of a run goes below the floor. -/
theorem le_of_mem_collect_retargets {d : UInt64} {inputs : List Input}
    (h : d ∈ (process W H A).collect (retargets W H A) s inputs) :
    s.view.cfg.minDifficulty.toNat ≤ d.toNat := by
  have hrun := Process.collect_invariant (p := process W H A) (C := fun _ _ => True)
    (f := retargets W H A)
    (P := fun seen _ s' => s'.view.cfg = s.view.cfg ∧
      ∀ d ∈ seen, s.view.cfg.minDifficulty.toNat ≤ d.toNat)
    (Q := fun seen _ => ∀ d ∈ seen, s.view.cfg.minDifficulty.toNat ≤ d.toNat)
    (fun hP => hP.2) ?_ [] ⟨rfl, by simp⟩
    (Process.meets_of_forall (fun _ _ _ => trivial) s : (process W H A).Meets _ s inputs)
  · exact hrun.1 d h
  · rintro seen past s' input ⟨hcfg, hseen⟩ -
    have hall : ∀ d ∈ seen ++ retargets W H A s' input,
        s.view.cfg.minDifficulty.toNat ≤ d.toNat :=
      List.forall_mem_append.mpr ⟨hseen, fun d hd => hcfg ▸ le_of_mem_retargets hd⟩
    refine ⟨fun hlive => ⟨?_, hall⟩, hall⟩
    cases turn_any W H A s' input with
    | ended _ hdead =>
      have hlive : (step W H A s' input).live = true := hlive
      simp [hdead] at hlive
    | continued hanswer hret =>
      exact (congrArg Prod.fst (hret.settings.trans hanswer.settings)).trans hcfg

/-- In every run in which a device opens a channel, every target it is sent on it is at most the one
it declared exactly if those of the difficulties the channel is retargeted to are; and they all are,
if the target of the configured floor is. -/
theorem targets_le_maxTarget (W : Wire) (H : Bytes → ByteVec 32) (A : AddressLib) (cfg : Config)
    (network : Network) (sessionId : Str) (extranoncePrefix : Bytes) (template : Option JobTemplate)
    (now : Instant) (before : List Input) (input : Input) (after : List Input) {o : OpenExtended}
    (hasked : input.asked = some o) :
    let start := (process W H A).run
      (new cfg network sessionId extranoncePrefix template now) before
    start.live →
    (∃ m ∈ Effect.messages (step W H A start.state input).outputs, m.isSuccess) →
    let ms := Effect.messages ((process W H A).run start.state (input :: after)).outputs
    ((∀ m ∈ ms, ∀ target, m.target = some target →
        leNat target.toList ≤ leNat o.maxTarget.toList) ↔
      ∀ d ∈ (process W H A).collect (retargets W H A) start.state (input :: after),
        sv2TargetLe (difficultyToSv2Target d) o.maxTarget) ∧
    (sv2TargetLe (difficultyToSv2Target cfg.vardiff.minDifficulty) o.maxTarget →
      ∀ m ∈ ms, ∀ target, m.target = some target →
        leNat target.toList ≤ leNat o.maxTarget.toList) := by
  intro start hlive hsuccess ms
  have hfirst : ∀ o', input.asked = some o' →
      leNat (start.state.view.openTarget o'.maxTarget).toList ≤ leNat o.maxTarget.toList := by
    intro o' ho'
    obtain rfl := Option.some.inj (hasked.symm.trans ho')
    exact start.state.view.openTarget_le o.maxTarget
  have hiff : TargetsLe (leNat o.maxTarget.toList) ms ↔
      ∀ d ∈ (process W H A).collect (retargets W H A) start.state (input :: after),
        sv2TargetLe (difficultyToSv2Target d) o.maxTarget := by
    simp only [sv2TargetLe_iff]
    exact cons_targetsLe_iff (step_targetsLe_iff fun _ => hfirst) fun hl =>
      run_targetsLe_iff _ (channelOpen_of_success hsuccess hl) after
  refine ⟨hiff, fun hfloor => hiff.mpr fun d hd => ?_⟩
  have hcfg : start.state.view.cfg = cfg.vardiff := congrArg Prod.fst (run_settings _ before hlive)
  have hlow := le_of_mem_collect_retargets hd
  rw [hcfg] at hlow
  rw [sv2TargetLe_iff] at hfloor ⊢
  exact (leNat_difficultyToSv2Target_anti hlow).trans hfloor

/-! ## A regtest channel -/

/-- An open that declares the target of a difficulty. -/
def openDeclaring (difficulty : UInt64) : Input :=
  .regtest (.openExtended (.ok
    { requestId := 1, userIdentity := regtestPayout.address,
      maxTarget := difficultyToSv2Target difficulty, minExtranonceSize := 4 }))

/-- A share a minute after the start, from a device that finds many. -/
def fastShare : Input :=
  ⟨.frame 100 (.submitExtended (.ok regtestSubmit)),
    { toEnv := { Env.regtest "1".toList with now := secs 60, rate := fun _ => 1000 }
      extranonceCounter := 1, nextChannelId := 1 }⟩

/-- A device that declares the target of difficulty one gets it, and after its first share that of
four. -/
theorem targets_le_maxTarget_regtest :
    let ms := Effect.messages ((process .exact zeroHash regtestAddresses).run
      ((process .exact zeroHash regtestAddresses).run regtestSession [regtestSetup]).state
      [openDeclaring 1, fastShare]).outputs
    ms.filterMap Message.target = [difficultyToSv2Target 1, difficultyToSv2Target 4] ∧
    ∀ m ∈ ms, ∀ target, m.target = some target →
      leNat target.toList ≤ leNat (difficultyToSv2Target 1).toList :=
  ⟨by decide +kernel, (targets_le_maxTarget .exact zeroHash regtestAddresses regtestConfig .regtest
    "s".toList [1, 2, 3, 4] (some regtestTemplate) 0 [regtestSetup] (openDeclaring 1) [fastShare]
      rfl
    (by decide +kernel) (by decide +kernel)).2 (by decide +kernel)⟩

/-- A device declares the target of difficulty 1000 and gets it. Its first share moves the
difficulty from one to four, and the pool sends it the target of four, which is above the one it
declared. -/
theorem setTarget_above_maxTarget :
    let out := (process .exact zeroHash regtestAddresses).run
      ((process .exact zeroHash regtestAddresses).run regtestSession [regtestSetup]).state
      [openDeclaring 1000, fastShare]
    out.live ∧ (∃ requestId channelId size bytes,
      .openExtendedSuccess requestId channelId (difficultyToSv2Target 1000) size bytes ∈
        Effect.messages out.outputs) ∧
    (∃ channelId, .setTarget channelId (difficultyToSv2Target 4) ∈ Effect.messages out.outputs) ∧
    leNat (difficultyToSv2Target 1000).toList < leNat (difficultyToSv2Target 4).toList := by
  refine ⟨by decide +kernel, ⟨1, 1, 4, [0, 0, 0, 1], by decide +kernel⟩, ⟨1, by decide +kernel⟩,
    by decide +kernel⟩

end Session

end BtcPool.Sv2
