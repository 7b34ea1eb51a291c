import BtcPool.Config
import BtcPool.Network.Dialogue
import BtcPool.Protocol.Sv2.Targets

/-!
# The range of the assigned difficulties

A session is assigned a difficulty on three ways: the initial one of the configuration, a hint of
the miner, and retargets. Only a retarget looks at both the floor and the difficulty of the block,
and only if that is at least one. So the range `InRange` is kept in a run if the initial difficulty
is in it, no hint is above the difficulty of the block, and no template has a difficulty below one
(`difficulties_in_range`); each of the three is needed (`difficulty_out_of_range`).

`Assigned` notes what is assigned and the template held then. Everything advertised and every stamp
on a job is one of the difficulties noted, if no Stratum V2 device declares a bound that its
session's difficulty has to give way to.
-/

namespace BtcPool

open Bitcoin

/-- A difficulty a session was assigned, with the template it held. -/
structure Assigned where
  difficulty : UInt64
  template : Option JobTemplate

/-- The difficulty is one of those noted. -/
def Known (seen : List Assigned) (difficulty : UInt64) : Prop :=
  ∃ a ∈ seen, a.difficulty = difficulty

theorem Known.append {seen : List Assigned} {difficulty : UInt64} (h : Known seen difficulty)
    (more : List Assigned) : Known (seen ++ more) difficulty := by
  obtain ⟨a, ha, rfl⟩ := h
  exact ⟨a, List.mem_append_left _ ha, rfl⟩

/-- What a difficulty that moved is noted as. -/
def moved (before after : UInt64) (template : Option JobTemplate) : List Assigned :=
  if after ≠ before then [⟨after, template⟩] else []

/-- What is noted of a session: all of it in the range, and all the difficulties it holds. -/
structure Noted (cfg : VardiffConfig) (seen : List Assigned) (difficulty current : UInt64)
    (template : Option JobTemplate) (jobs : IssuedJobs) : Prop where
  inRange : ∀ a ∈ seen, InRange cfg a.template a.difficulty
  current : current = difficulty
  known : Known seen difficulty
  template : ∀ t, template = some t → AtLeastOne t
  stamped : ∀ entry ∈ jobs.entries, Known seen entry.difficulty

section Noted

variable {cfg : VardiffConfig} {seen : List Assigned} {difficulty current : UInt64}
  {template : Option JobTemplate} {jobs : IssuedJobs}

theorem Noted.issue (h : Noted cfg seen difficulty current template jobs) (job : StratumJob)
    (clean : Bool) :
    Noted cfg seen difficulty current template (jobs.issue job clean difficulty) := by
  refine ⟨h.inRange, h.current, h.known, h.template, fun entry hmem => ?_⟩
  rcases IssuedJobs.eq_of_mem_issue hmem with rfl | ⟨old, hold, rfl⟩
  · exact h.known
  · exact h.stamped old hold

theorem Noted.drop (h : Noted cfg seen difficulty current template jobs) {jobs' : IssuedJobs}
    (hjobs : jobs' = jobs ∨ jobs' = jobs.clear) :
    Noted cfg seen difficulty current template jobs' :=
  ⟨h.inRange, h.current, h.known, h.template,
    fun entry hmem => h.stamped entry (IssuedJobs.subset_of_eq_or_clear hjobs entry hmem)⟩

theorem Noted.hold (h : Noted cfg seen difficulty current template jobs) {t : JobTemplate}
    (ht : template = some t ∨ AtLeastOne t) : Noted cfg seen difficulty current (some t) jobs := by
  refine ⟨h.inRange, h.current, h.known, ?_, h.stamped⟩
  intro t' ht'
  obtain rfl := Option.some.inj ht'
  exact ht.elim (h.template t) id

/-- A difficulty in the range is assigned, and noted if it is another one. -/
theorem Noted.assign (h : Noted cfg seen difficulty current template jobs) {d : UInt64}
    (hd : InRange cfg template d) {more : List Assigned}
    (hmore : more = [⟨d, template⟩] ∨ more = moved difficulty d template) :
    Noted cfg (seen ++ more) d d template jobs := by
  have hin : ∀ a ∈ more, a = ⟨d, template⟩ := by
    rcases hmore with rfl | rfl
    · simp
    · unfold moved
      split <;> simp
  have hknown : Known (seen ++ more) d := by
    rcases hmore with rfl | rfl
    · exact ⟨⟨d, template⟩, by simp, rfl⟩
    · by_cases hsame : d = difficulty
      · have hbefore := h.known.append (moved difficulty d template)
        rwa [← hsame] at hbefore ⊢
      · exact ⟨⟨d, template⟩, by simp [moved, hsame], rfl⟩
  refine ⟨fun a ha => ?_, rfl, hknown, h.template, fun e he => (h.stamped e he).append _⟩
  rcases List.mem_append.mp ha with ha | ha
  · exact h.inRange a ha
  · rw [hin a ha]
    exact hd

end Noted

/-- A hint up to the difficulty of the block becomes a difficulty in the range. -/
theorem inRange_clampU64 {cfg : VardiffConfig} (hcfg : cfg.minDifficulty ≤ cfg.maxDifficulty)
    {template : Option JobTemplate} {hint : UInt64}
    (hhint : ∀ n, exactDifficulty template = some n →
      (hint.toNat : ℚ) ≤ max (cfg.minDifficulty.toNat : ℚ) n) :
    InRange cfg template (clampU64 hint cfg.minDifficulty cfg.maxDifficulty) := by
  obtain ⟨hlow, hhigh⟩ := clampU64_mem (x := hint) hcfg
  rw [UInt64.le_iff_toNat_le] at hlow hhigh
  refine ⟨hlow, hhigh.trans (le_max_right _ _), fun n hn => ?_⟩
  unfold clampU64
  split_ifs with h1 h2
  · exact le_max_left _ _
  · refine le_trans ?_ (hhint n hn)
    rw [UInt64.lt_iff_toNat_lt] at h2
    exact_mod_cast h2.le
  · exact hhint n hn

/-- What every step notes and tells, a whole run does: the difficulties noted stay in the range, and
everything told was noted. -/
theorem run_notes {σ ι μ : Type} {p : Process σ ι (Effect μ)} {C : σ → ι → Prop}
    {cfg : VardiffConfig} (assigned : σ → ι → List Assigned) (noted : List Assigned → σ → Prop)
    {told : List Assigned → List μ → Prop} (htold : ∀ seen, told seen [])
    (happend : ∀ {seen more ms ms'}, told seen ms → told (seen ++ more) ms' →
      told (seen ++ more) (ms ++ ms'))
    (hrange : ∀ {seen s}, noted seen s → ∀ a ∈ seen, InRange cfg a.template a.difficulty)
    (hstep : ∀ {seen s input}, C s input → noted seen s →
      ((p.step s input).live → noted (seen ++ assigned s input) (p.step s input).state) ∧
      (∀ a ∈ seen ++ assigned s input, InRange cfg a.template a.difficulty) ∧
      told (seen ++ assigned s input) (Effect.messages (p.step s input).outputs))
    {s : σ} {inputs : List ι} (hinputs : p.Meets C s inputs) {start : Assigned}
    (hs : noted [start] s) :
    let seen := start :: p.collect assigned s inputs
    let out := p.run s inputs
    ((∀ a ∈ seen, InRange cfg a.template a.difficulty) ∧
      told seen (Effect.messages out.outputs)) ∧
    (out.live → noted seen out.state) := by
  have hrun := Process.collect_invariant (f := assigned)
    (P := fun seen past s => noted seen s ∧ told seen (Effect.messages past))
    (Q := fun seen past => (∀ a ∈ seen, InRange cfg a.template a.difficulty) ∧
      told seen (Effect.messages past))
    (fun hP => ⟨hrange hP.1, hP.2⟩) ?_ [start] ⟨hs, htold _⟩ hinputs
  · exact ⟨hrun.1, fun hlive => (hrun.2 hlive).1⟩
  · intro seen past s input hP hinput
    obtain ⟨hnoted, hin, hsaid⟩ := hstep hinput hP.1
    have hall : told (seen ++ assigned s input)
        (Effect.messages (past ++ (p.step s input).outputs)) := by
      rw [Effect.messages_append]
      exact happend hP.2 hsaid
    exact ⟨fun hlive => ⟨hnoted hlive, hall⟩, hin, hall⟩

/-! ## Stratum V1 -/

namespace Sv1

/-- The difficulties a message tells. -/
def Message.advertised : Message → Option UInt64
  | .setDifficulty difficulty => some difficulty
  | .configure _ _ _ minDifficulty _ => some minDifficulty
  | _ => none

theorem Message.Plain.advertised {m : Message} (h : m.Plain) : m.advertised = none := by
  cases m <;> first | rfl | exact h.elim

/-- Everything the messages tell is noted. -/
def Advertised (seen : List Assigned) (ms : List Message) : Prop :=
  ∀ m ∈ ms, ∀ d, m.advertised = some d → Known seen d

theorem Advertised.append {seen more : List Assigned} {ms ms' : List Message}
    (h : Advertised seen ms) (h' : Advertised (seen ++ more) ms') :
    Advertised (seen ++ more) (ms ++ ms') := by
  intro m hm d hd
  rcases List.mem_append.mp hm with hm | hm
  · exact (h m hm d hd).append more
  · exact h' m hm d hd

theorem advertised_nil (seen : List Assigned) : Advertised seen [] := List.forall_mem_nil _

/-- What is noted of a session, read off its view. -/
def View.Noted (cfg : VardiffConfig) (seen : List Assigned) (v : View) : Prop :=
  v.cfg = cfg ∧ BtcPool.Noted cfg seen v.difficulty v.current v.template v.jobs

/-- What a hint is noted as. -/
def View.noteHint (v : View) (hint : Option UInt64) : List Assigned :=
  (hint.map fun hint => ⟨v.hinted hint, v.template⟩).toList

/-- What a handler leaves is noted, and so is what it tells. -/
theorem Answer.noted {cfg : VardiffConfig} (hcfg : cfg.minDifficulty ≤ cfg.maxDifficulty)
    {v v' : View} {hint : Option UInt64} {ms : List Message} (h : Answer AtLeastOne v hint v' ms)
    (hhint : ∀ d, hint = some d → ∀ n, exactDifficulty v.template = some n →
      (d.toNat : ℚ) ≤ max (v.cfg.minDifficulty.toNat : ℚ) n)
    {seen : List Assigned} (hv : v.Noted cfg seen) :
    v'.Noted cfg (seen ++ v.noteHint hint) ∧ Advertised (seen ++ v.noteHint hint) ms := by
  obtain ⟨rfl, hn⟩ := hv
  -- without a hint a handler tells the difficulty of the session at most
  have hsame : ∀ {v' : View} {ms : List Message}, v'.Noted v.cfg seen →
      (∀ m ∈ ms, ∀ d, m.advertised = some d → d = v.difficulty) →
      v'.Noted v.cfg (seen ++ v.noteHint none) ∧ Advertised (seen ++ v.noteHint none) ms := by
    intro v' ms hnoted hms
    have hnothing : seen ++ v.noteHint none = seen := List.append_nil _
    rw [hnothing]
    exact ⟨hnoted, fun m hm d hd => hms m hm d hd ▸ hn.known⟩
  have hplain : ∀ {ms : List Message}, (∀ m ∈ ms, m.Plain) →
      ∀ m ∈ ms, ∀ d, m.advertised = some d → d = v.difficulty := by
    intro ms hms m hm d hd
    rw [(hms m hm).advertised] at hd
    cases hd
  cases h with
  | plain hms => exact hsame ⟨rfl, hn⟩ (hplain hms)
  | subscribed hms => exact hsame ⟨rfl, hn⟩ (hplain hms)
  | configured => exact hsame ⟨rfl, hn⟩ (by simp [Message.advertised])
  | hinted request hint =>
    have hassigned := hn.assign (inRange_clampU64 hcfg (hhint hint rfl)) (Or.inl rfl)
    refine ⟨⟨rfl, hassigned⟩, ?_⟩
    intro m hm d hd
    split at hm
    · rcases List.mem_cons.mp hm with rfl | hm
      · cases hd
      · obtain rfl := List.mem_singleton.mp hm
        cases hd
        exact hassigned.known
    · obtain rfl := List.mem_singleton.mp hm
      cases hd
  | greeted _ hjobs => exact hsame ⟨rfl, hn.drop hjobs⟩ (by simp [Message.advertised])
  | welcomed _ hjobs htemplate request job _ =>
    exact hsame ⟨rfl, ((hn.drop hjobs).hold htemplate).issue job true⟩
      (by simp [Message.advertised])
  | pushed _ hoffered job _ clean =>
    exact hsame ⟨rfl, (hn.hold (Or.inr hoffered)).issue job clean⟩ (by simp [Message.advertised])
  | held hoffered => exact hsame ⟨rfl, hn.hold (Or.inr hoffered)⟩ (by simp)

theorem Answer.difficulty {offered : JobTemplate → Prop} {v v' : View} {hint : Option UInt64}
    {ms : List Message} (h : Answer offered v hint v' ms) :
    v'.difficulty = (hint.map v.hinted).getD v.difficulty := by
  cases h <;> rfl

theorem Retargeted.noted {cfg : VardiffConfig} {v v' : View} {ms : List Message}
    (h : Retargeted v v' ms) {seen : List Assigned} (hv : v.Noted cfg seen) :
    v'.Noted cfg (seen ++ moved v.difficulty v'.difficulty v'.template) ∧
      Advertised (seen ++ moved v.difficulty v'.difficulty v'.template) ms := by
  obtain ⟨rfl, hn⟩ := hv
  cases h with
  | unchanged =>
    have hnothing : seen ++ moved v.difficulty v.difficulty v.template = seen := by simp [moved]
    rw [hnothing]
    exact ⟨⟨rfl, hn⟩, advertised_nil seen⟩
  | changed hlow hhigh =>
    have hassigned := hn.assign (inRange_of_le_top hn.template hlow hhigh) (Or.inr rfl)
    refine ⟨⟨rfl, hassigned⟩, ?_⟩
    intro m hm d hd
    obtain rfl := List.mem_singleton.mp hm
    cases hd
    exact hassigned.known

namespace Session

/-- The difficulties assigned in a turn: that of a hint, then that of a retarget. -/
def assigned (H : Bytes → ByteVec 32) (A : AddressLib) (s : Session) (input : Input) :
    List Assigned :=
  let out := step H A s input
  s.view.noteHint input.hint ++
    if out.live then
      moved ((input.hint.map s.view.hinted).getD s.difficulty) out.state.difficulty
        out.state.currentTemplate
    else []

/-- A hint is not above the difficulty of the block, and no template is easier than difficulty
one. -/
structure Moderate (s : Session) (input : Input) : Prop where
  hint : ∀ hint, input.hint = some hint → ∀ n, exactDifficulty s.currentTemplate = some n →
    (hint.toNat : ℚ) ≤ max (s.vardiff.cfg.minDifficulty.toNat : ℚ) n
  templates : input.Offers AtLeastOne

theorem step_noted {cfg : VardiffConfig} (hcfg : cfg.minDifficulty ≤ cfg.maxDifficulty)
    {H : Bytes → ByteVec 32} {A : AddressLib} {s : Session} {input : Input}
    (hinput : s.Moderate input) {seen : List Assigned} (hs : s.view.Noted cfg seen) :
    ((step H A s input).live →
      (step H A s input).state.view.Noted cfg (seen ++ assigned H A s input)) ∧
    (∀ a ∈ seen ++ assigned H A s input, InRange cfg a.template a.difficulty) ∧
    Advertised (seen ++ assigned H A s input) (Effect.messages (step H A s input).outputs) := by
  cases step_turn (H := H) (A := A) hinput.templates with
  | ended hanswer hdead hpart =>
    obtain ⟨hnoted, htold⟩ := hanswer.noted hcfg hinput.hint hs
    have hlist : assigned H A s input = s.view.noteHint input.hint := by simp [assigned, hdead]
    rw [hlist]
    refine ⟨fun hlive => ?_, hnoted.2.inRange, fun m hm => htold m (hpart.subset hm)⟩
    simp [hdead] at hlive
  | @continued v₁ ms₁ ms₂ hanswer hret hlive hall =>
    obtain ⟨hnoted, htold⟩ := hanswer.noted hcfg hinput.hint hs
    obtain ⟨hnoted', htold'⟩ := hret.noted hnoted
    have hlist : seen ++ assigned H A s input = seen ++ s.view.noteHint input.hint ++
        moved v₁.difficulty (step H A s input).state.view.difficulty
          (step H A s input).state.view.template := by
      rw [List.append_assoc, assigned, if_pos hlive, hanswer.difficulty]
      rfl
    rw [hlist, hall]
    exact ⟨fun _ => hnoted', hnoted'.2.inRange, htold.append htold'⟩

/-- A run whose steps are all moderate notes only difficulties in the range. -/
theorem run_noted {cfg : VardiffConfig} (hcfg : cfg.minDifficulty ≤ cfg.maxDifficulty)
    {H : Bytes → ByteVec 32} {A : AddressLib} {s : Session} {inputs : List Input}
    (hinputs : (process H A).Meets Moderate s inputs) {start : Assigned}
    (hs : s.view.Noted cfg [start]) :
    let seen := start :: (process H A).collect (assigned H A) s inputs
    let out := (process H A).run s inputs
    ((∀ a ∈ seen, InRange cfg a.template a.difficulty) ∧
      Advertised seen (Effect.messages out.outputs)) ∧
    (out.live → out.state.view.Noted cfg seen) := by
  exact run_notes (assigned H A) (fun seen s => s.view.Noted cfg seen) advertised_nil
    Advertised.append (fun h => h.2.inRange) (fun hinput h => step_noted hcfg hinput h) hinputs hs

end Session

end Sv1

/-! ## Stratum V2 -/

namespace Sv2

/-- Every target the messages tell is that of a difficulty noted. -/
def Advertised (seen : List Assigned) (ms : List Message) : Prop :=
  ∀ m ∈ ms, ∀ target, m.target = some target →
    ∃ d, Known seen d ∧ target = difficultyToSv2Target d

theorem Advertised.append {seen more : List Assigned} {ms ms' : List Message}
    (h : Advertised seen ms) (h' : Advertised (seen ++ more) ms') :
    Advertised (seen ++ more) (ms ++ ms') := by
  intro m hm target ht
  rcases List.mem_append.mp hm with hm | hm
  · obtain ⟨d, hd, htarget⟩ := h m hm target ht
    exact ⟨d, hd.append more, htarget⟩
  · exact h' m hm target ht

theorem advertised_nil (seen : List Assigned) : Advertised seen [] := List.forall_mem_nil _

/-- What is noted of a session, read off its view. -/
def View.Noted (cfg : VardiffConfig) (seen : List Assigned) (v : View) : Prop :=
  v.cfg = cfg ∧ BtcPool.Noted cfg seen v.difficulty v.current v.template v.jobs

section Turns

variable {W : Wire} {cfg : VardiffConfig} {v v' : View} {asked : Option OpenExtended}
  {ms part : List Message} {seen : List Assigned}

theorem Answer.difficulty {offered : JobTemplate → Prop} (h : Answer W offered v asked v' ms) :
    v'.difficulty = v.difficulty := by
  cases h <;> rfl

theorem Answer.noted (h : Answer W AtLeastOne v asked v' ms) (hv : v.Noted cfg seen) :
    v'.Noted cfg seen := by
  obtain ⟨rfl, hn⟩ := hv
  cases h with
  | plain => exact ⟨rfl, hn⟩
  | opened => exact ⟨rfl, hn⟩
  | @started _ job => exact ⟨rfl, hn.issue job true⟩
  | @pushed _ job _ _ _ hoffered _ _ clean =>
    exact ⟨rfl, (hn.hold (Or.inr hoffered)).issue job clean⟩
  | held hoffered => exact ⟨rfl, hn.hold (Or.inr hoffered)⟩

/-- What an answer tells is the difficulty of the session, where a channel that opens leaves room
for it. -/
theorem Answer.advertised {offered : JobTemplate → Prop} (h : Answer W offered v asked v' ms)
    (hsub : part ⊆ ms) {all : List Message} (hall : part ⊆ all) (hroom : v.LeavesRoom asked all)
    (hknown : Known seen v.difficulty) : Advertised seen part :=
  fun _ hm _ ht => ⟨v.difficulty, hknown, h.target_of_leavesRoom hroom (hsub hm) (hall hm) ht⟩

theorem Retargeted.noted (h : Retargeted v v' ms) (hv : v.Noted cfg seen) :
    v'.Noted cfg (seen ++ moved v.difficulty v'.difficulty v'.template) ∧
      Advertised (seen ++ moved v.difficulty v'.difficulty v'.template) ms := by
  obtain ⟨rfl, hn⟩ := hv
  cases h with
  | unchanged =>
    have hnothing : seen ++ moved v.difficulty v.difficulty v.template = seen := by simp [moved]
    rw [hnothing]
    exact ⟨⟨rfl, hn⟩, advertised_nil seen⟩
  | @changed d _ _ hlow hhigh =>
    have hassigned := hn.assign (inRange_of_le_top hn.template hlow hhigh) (Or.inr rfl)
    refine ⟨⟨rfl, hassigned⟩, ?_⟩
    intro m hm target ht
    obtain rfl := List.mem_singleton.mp hm
    cases ht
    exact ⟨d, hassigned.known, rfl⟩

end Turns

namespace Session

/-- The difficulty assigned in a turn, by a retarget. -/
def assigned (W : Wire) (H : Bytes → ByteVec 32) (A : AddressLib) (s : Session) (input : Input) :
    List Assigned :=
  let out := step W H A s input
  if out.live then moved s.difficulty out.state.difficulty out.state.pendingTemplate else []

/-- A device that gets its channel leaves room for the difficulty of its session, and no template is
easier than difficulty one. -/
structure Moderate (W : Wire) (H : Bytes → ByteVec 32) (A : AddressLib) (s : Session)
    (input : Input) : Prop where
  opens : s.Unclamped W H A input
  templates : input.Offers AtLeastOne

theorem step_noted {cfg : VardiffConfig} {W : Wire} {H : Bytes → ByteVec 32} {A : AddressLib}
    {s : Session} {input : Input} (hinput : s.Moderate W H A input) {seen : List Assigned}
    (hs : s.view.Noted cfg seen) :
    ((step W H A s input).live →
      (step W H A s input).state.view.Noted cfg (seen ++ assigned W H A s input)) ∧
    (∀ a ∈ seen ++ assigned W H A s input, InRange cfg a.template a.difficulty) ∧
    Advertised (seen ++ assigned W H A s input)
      (Effect.messages (step W H A s input).outputs) := by
  cases step_turn (W := W) (H := H) (A := A) (s := s) hinput.templates with
  | ended hanswer hdead hpart =>
    have hlist : seen ++ assigned W H A s input = seen := by simp [assigned, hdead]
    rw [hlist]
    refine ⟨fun hlive => ?_, hs.2.inRange,
      hanswer.advertised hpart.subset (List.Subset.refl _) hinput.opens hs.2.known⟩
    simp [hdead] at hlive
  | @continued v₁ ms₁ ms₂ hanswer hret hlive hall =>
    obtain ⟨hnoted, htold⟩ := hret.noted (hanswer.noted hs)
    have hlist : seen ++ assigned W H A s input = seen ++
        moved v₁.difficulty (step W H A s input).state.view.difficulty
          (step W H A s input).state.view.template := by
      rw [assigned, if_pos hlive, hanswer.difficulty]
      rfl
    have hanswered : Advertised seen ms₁ :=
      hanswer.advertised (List.Subset.refl _) (hall ▸ List.subset_append_left ms₁ ms₂) hinput.opens
        hs.2.known
    rw [hlist, hall]
    exact ⟨fun _ => hnoted, hnoted.2.inRange, hanswered.append htold⟩

/-- A run whose steps are all moderate notes only difficulties in the range. -/
theorem run_noted {cfg : VardiffConfig} {W : Wire} {H : Bytes → ByteVec 32} {A : AddressLib}
    {s : Session} {inputs : List Input} (hinputs : (process W H A).Meets (Moderate W H A) s inputs)
    {start : Assigned} (hs : s.view.Noted cfg [start]) :
    let seen := start :: (process W H A).collect (assigned W H A) s inputs
    let out := (process W H A).run s inputs
    ((∀ a ∈ seen, InRange cfg a.template a.difficulty) ∧
      Advertised seen (Effect.messages out.outputs)) ∧
    (out.live → out.state.view.Noted cfg seen) := by
  exact run_notes (assigned W H A) (fun seen s => s.view.Noted cfg seen) advertised_nil
    Advertised.append (fun h => h.2.inRange) (fun hinput h => step_noted hinput h) hinputs hs

end Session

end Sv2

/-! ## Both protocols -/

theorem noted_start {cfg : VardiffConfig} {template : Option JobTemplate} {initial : UInt64}
    (hstart : InRange cfg template initial) (htemplate : ∀ t, template = some t → AtLeastOne t) :
    Noted cfg [⟨initial, template⟩] initial initial template .new :=
  ⟨by simpa using hstart, rfl, ⟨_, List.mem_singleton_self _, rfl⟩, htemplate, by simp⟩

/-- The configuration is one the pool starts with, its initial difficulty is in the range, and the
template held at the start is not easier than difficulty one. Then in every run without a hint above
the difficulty of the block, without an easier template and without a channel opened for a device
that leaves no room for the difficulty, every difficulty assigned is in the range for the template
held then, everything advertised and every stamp is one that was assigned, and the difficulty of the
session is the working one of its `Vardiff`. -/
theorem difficulties_in_range {c : LoadedConfig} (hc : c.validate = .ok ())
    {template : Option JobTemplate}
    (hstart : InRange c.vardiff template c.pool.initialDifficulty)
    (htemplate : ∀ t, template = some t → AtLeastOne t) :
    (∀ H A network sessionId extranonce1 now inputs,
      let s := Sv1.Session.new c.toConfig network sessionId extranonce1 template now
      let out := (Sv1.Session.process H A).run s inputs
      let seen := ⟨c.pool.initialDifficulty, template⟩ ::
        (Sv1.Session.process H A).collect (Sv1.Session.assigned H A) s inputs
      (Sv1.Session.process H A).Meets Sv1.Session.Moderate s inputs →
      (∀ a ∈ seen, InRange c.vardiff a.template a.difficulty) ∧
      Sv1.Advertised seen (Effect.messages out.outputs) ∧
      (out.live → (∀ entry ∈ out.state.issuedJobs.entries, Known seen entry.difficulty) ∧
        out.state.vardiff.current = out.state.difficulty)) ∧
    (∀ W H A network sessionId extranoncePrefix now inputs,
      let s := Sv2.Session.new c.toConfig network sessionId extranoncePrefix template now
      let out := (Sv2.Session.process W H A).run s inputs
      let seen := ⟨c.pool.initialDifficulty, template⟩ ::
        (Sv2.Session.process W H A).collect (Sv2.Session.assigned W H A) s inputs
      (Sv2.Session.process W H A).Meets (Sv2.Session.Moderate W H A) s inputs →
      (∀ a ∈ seen, InRange c.vardiff a.template a.difficulty) ∧
      Sv2.Advertised seen (Effect.messages out.outputs) ∧
      (out.live → (∀ entry ∈ out.state.issuedJobs.entries, Known seen entry.difficulty) ∧
        out.state.vardiff.current = out.state.difficulty)) := by
  have hnew := noted_start hstart htemplate
  constructor
  · intro H A network sessionId extranonce1 now inputs s out seen hinputs
    have hs : s.view.Noted c.vardiff [⟨c.pool.initialDifficulty, template⟩] := ⟨rfl, hnew⟩
    obtain ⟨⟨hrange, htold⟩, hlive⟩ :=
      Sv1.Session.run_noted (LoadedConfig.validate_eq_ok.mp hc).difficulties hinputs hs
    exact ⟨hrange, htold, fun h => ⟨(hlive h).2.stamped, (hlive h).2.current⟩⟩
  · intro W H A network sessionId extranoncePrefix now inputs s out seen hinputs
    have hs : s.view.Noted c.vardiff [⟨c.pool.initialDifficulty, template⟩] := ⟨rfl, hnew⟩
    obtain ⟨⟨hrange, htold⟩, hlive⟩ := Sv2.Session.run_noted hinputs hs
    exact ⟨hrange, htold, fun h => ⟨(hlive h).2.stamped, (hlive h).2.current⟩⟩

/-! ## Regtest sessions -/

/-- The regtest template with a target of difficulty one. -/
def unitTemplate : JobTemplate :=
  { regtestTemplate with bits := "1d00ffff".toList, networkTarget := diff1Target }

/-- A request a minute after the start, while the engine has that template and the miner's rate is
estimated high. -/
def unitInput (message : Sv1.ClientMessage) : Sv1.Input :=
  ⟨.line (.request "7".toList message),
    { Env.regtest "1".toList with
      engineTemplate := some unitTemplate, now := secs 60, rate := fun _ => 1000 }⟩

/-- The regtest template with a target of difficulty 256. -/
def hardTemplate : JobTemplate :=
  { regtestTemplate with
    bits := "1c00ffff".toList, networkTarget := placeBytes 5 [0xff, 0xff] (by decide) }

/-- A retarget from one to four while a block has difficulty 256. -/
theorem difficulties_in_range_regtest :
    let s := Sv2.Session.new regtestConfig .regtest "s".toList [1, 2, 3, 4] (some hardTemplate) 0
    let inputs := [Sv2.regtestSetup, Sv2.Session.openDeclaring 1, Sv2.Session.fastShare]
    let seen := ⟨1, some hardTemplate⟩ ::
      (Sv2.Session.process .exact zeroHash regtestAddresses).collect
        (Sv2.Session.assigned .exact zeroHash regtestAddresses) s inputs
    let out := (Sv2.Session.process .exact zeroHash regtestAddresses).run s inputs
    seen.map (fun a => a.difficulty) = [1, 4] ∧
      (∀ a ∈ seen, InRange regtestConfig.vardiff a.template a.difficulty) ∧
      (Effect.messages out.outputs).filterMap Sv2.Message.target =
        [Sv2.difficultyToSv2Target 1, Sv2.difficultyToSv2Target 4] ∧
      Sv2.Advertised seen (Effect.messages out.outputs) := by
  intro s inputs seen out
  have hopens : (Sv2.Session.process .exact zeroHash regtestAddresses).Meets
      (Sv2.Session.Unclamped .exact zeroHash regtestAddresses) s inputs := by
    decide +kernel
  have htemplates : (Sv2.Session.process .exact zeroHash regtestAddresses).Meets
      (fun _ input => input.Offers AtLeastOne) s inputs := by
    refine Process.meets_of_forall (fun input hmem _ template clean h => ?_) _
    simp only [inputs, List.mem_cons, List.not_mem_nil, or_false] at hmem
    rcases hmem with rfl | rfl | rfl <;> cases h
  have hmoderate : (Sv2.Session.process .exact zeroHash regtestAddresses).Meets
      (Sv2.Session.Moderate .exact zeroHash regtestAddresses) s inputs :=
    (hopens.and htemplates).mono fun h => ⟨h.1, h.2⟩
  have hheld : ∀ t, some hardTemplate = some t → AtLeastOne t := by
    rintro t ⟨⟩
    decide +kernel
  obtain ⟨hrange, htold, -⟩ := (difficulties_in_range validate_regtestLoaded (by decide +kernel)
    hheld).2 .exact zeroHash regtestAddresses .regtest "s".toList [1, 2, 3, 4] 0 inputs hmoderate
  exact ⟨by decide +kernel, hrange, by decide +kernel, htold⟩

/-- Difficulties out of the range on each of the three ways, on pools that started: an initial
difficulty of one below a floor of 16; a hint of 1000 while a block has difficulty one; and a
retarget to four while a block has a difficulty far below one. -/
theorem difficulty_out_of_range :
    let floored : LoadedConfig :=
      { regtestLoaded with vardiff := { regtestLoaded.vardiff with minDifficulty := 16 } }
    let told := fun (config : Config) template inputs => Effect.messages
      ((Sv1.Session.process zeroHash regtestAddresses).run
        (.new config .regtest "s".toList [1, 2, 3, 4] (some template) 0)
        ([unitInput (.subscribe none), unitInput (.authorize regtestPayout.address)] ++
          inputs)).outputs
    floored.validate = .ok () ∧ regtestLoaded.validate = .ok () ∧
    .setDifficulty 1 ∈ told floored.toConfig unitTemplate [] ∧
    ¬ InRange floored.vardiff (some unitTemplate) 1 ∧
    .setDifficulty 1000 ∈ told regtestConfig unitTemplate [unitInput (.suggestDifficulty 1000)] ∧
    ¬ InRange regtestConfig.vardiff (some unitTemplate) 1000 ∧
    .setDifficulty 4 ∈ told regtestConfig regtestTemplate [unitInput (.submit Sv1.regtestSubmit)] ∧
    ¬ InRange regtestConfig.vardiff (some regtestTemplate) 4 := by
  decide +kernel

end BtcPool
