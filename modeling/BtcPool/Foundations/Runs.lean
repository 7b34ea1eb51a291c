import Mathlib.Data.List.Basic

/-!
# Runs of machines and processes

A `Machine` is a transition system with named actions: what may happen in a state, and what comes of
it. A `Process` is a program that takes one input at a time, produces outputs and may stop. A
process refines a machine (`Refinement`) when the actions recorded in the outputs of a step are a
run of the machine from the abstraction of the state before it to the abstraction of the state after
it.

The rules: `Machine.Run.invariant` for invariants that may look at the actions so far, `Run.append`,
and `Refinement.run`, which carries a refinement from steps to whole runs whose steps all meet a
condition.
-/

namespace BtcPool

/-! ## Machines -/

/-- A transition system with named actions. -/
structure Machine (σ α : Type*) where
  Enabled : σ → α → Prop
  next : σ → α → σ

namespace Machine

variable {σ α : Type*} {m : Machine σ α}

/-- The actions of a list are enabled one after the other. -/
inductive Run (m : Machine σ α) : σ → List α → σ → Prop
  | nil (s : σ) : Run m s [] s
  | cons {s t : σ} {a : α} {as : List α} (ha : m.Enabled s a) (h : Run m (m.next s a) as t) :
    Run m s (a :: as) t

theorem Run.single {s : σ} {a : α} (ha : m.Enabled s a) : m.Run s [a] (m.next s a) :=
  .cons ha (.nil _)

theorem Run.append {s t u : σ} {as bs : List α} (h : m.Run s as t) (h' : m.Run t bs u) :
    m.Run s (as ++ bs) u := by
  induction h with
  | nil _ => exact h'
  | cons ha _ ih => exact .cons ha (ih h')

/-- A property of the actions so far and the state reached that every enabled action keeps. -/
theorem Run.invariant {P : List α → σ → Prop}
    (hstep : ∀ {past s a}, P past s → m.Enabled s a → P (past ++ [a]) (m.next s a))
    {s t : σ} {as : List α} (h : m.Run s as t) (h0 : P [] s) : P as t := by
  have hfrom : ∀ {s t as}, m.Run s as t → ∀ past, P past s → P (past ++ as) t := by
    intro s t as h
    induction h with
    | nil _ => simp
    | cons ha _ ih =>
      intro past hpast
      simpa using ih (past ++ [_]) (hstep hpast ha)
  exact hfrom h [] h0

end Machine

/-! ## Processes -/

/-- What one step of a process, or a run of it, comes to. -/
structure Outcome (σ ο : Type*) where
  state : σ
  outputs : List ο
  live : Bool

theorem Outcome.eq_of_live {σ ο : Type*} {out : Outcome σ ο} (h : out.live = true) :
    out = ⟨out.state, out.outputs, true⟩ := by
  obtain ⟨state, outputs, live⟩ := out
  cases h
  rfl

/-- A program that takes one input at a time. -/
structure Process (σ ι ο : Type*) where
  step : σ → ι → Outcome σ ο

namespace Process

variable {σ ι ο : Type*}

/-- The run on a list of inputs; what comes after the process has stopped is not read. -/
def run (p : Process σ ι ο) (s : σ) : List ι → Outcome σ ο
  | [] => { state := s, outputs := [], live := true }
  | i :: is =>
    let out := p.step s i
    if out.live then
      let rest := p.run out.state is
      { rest with outputs := out.outputs ++ rest.outputs }
    else out

/-- Every step of the run meets a condition on its input and the state before it. -/
def Meets (p : Process σ ι ο) (C : σ → ι → Prop) (s : σ) : List ι → Prop
  | [] => True
  | i :: is => C s i ∧ ((p.step s i).live → p.Meets C (p.step s i).state is)

instance decidableMeets (p : Process σ ι ο) (C : σ → ι → Prop) [∀ s i, Decidable (C s i)] (s : σ) :
    (inputs : List ι) → Decidable (p.Meets C s inputs)
  | [] => inferInstanceAs (Decidable True)
  | i :: inputs =>
    have := decidableMeets p C (p.step s i).state inputs
    inferInstanceAs (Decidable (C s i ∧ ((p.step s i).live → p.Meets C (p.step s i).state inputs)))

variable {p : Process σ ι ο} {C : σ → ι → Prop}

theorem run_cons_of_live {s : σ} {i : ι} {is : List ι} (h : (p.step s i).live) :
    p.run s (i :: is) = { p.run (p.step s i).state is with
      outputs := (p.step s i).outputs ++ (p.run (p.step s i).state is).outputs } := by
  rw [run, if_pos h]

theorem run_cons_of_not_live {s : σ} {i : ι} {is : List ι} (h : ¬ (p.step s i).live) :
    p.run s (i :: is) = p.step s i := by
  rw [run, if_neg h]

theorem run_singleton (s : σ) (i : ι) : p.run s [i] = p.step s i := by
  rcases h : p.step s i with ⟨state, outputs, live⟩
  cases live <;> simp [run, h]

/-- What an observer of the steps notes down over a run. -/
def collect {β : Type*} (p : Process σ ι ο) (f : σ → ι → List β) (s : σ) : List ι → List β
  | [] => []
  | i :: is => f s i ++ if (p.step s i).live then p.collect f (p.step s i).state is else []

/-- A property of what was noted, the outputs so far and the state, kept by every step after which
the process goes on, and what it says about notes and outputs alone, kept by every step. -/
theorem collect_invariant {β : Type*} {f : σ → ι → List β} {P : List β → List ο → σ → Prop}
    {Q : List β → List ο → Prop} (hPQ : ∀ {seen past s}, P seen past s → Q seen past)
    (hstep : ∀ {seen past s i}, P seen past s → C s i →
      ((p.step s i).live → P (seen ++ f s i) (past ++ (p.step s i).outputs) (p.step s i).state) ∧
      Q (seen ++ f s i) (past ++ (p.step s i).outputs))
    {s : σ} {inputs : List ι} (seen : List β) (h0 : P seen [] s) (hC : p.Meets C s inputs) :
    Q (seen ++ p.collect f s inputs) (p.run s inputs).outputs ∧
      ((p.run s inputs).live →
        P (seen ++ p.collect f s inputs) (p.run s inputs).outputs (p.run s inputs).state) := by
  have hfrom : ∀ {inputs : List ι} {s : σ} {seen : List β} {past : List ο}, P seen past s →
      p.Meets C s inputs →
      Q (seen ++ p.collect f s inputs) (past ++ (p.run s inputs).outputs) ∧
        ((p.run s inputs).live → P (seen ++ p.collect f s inputs)
          (past ++ (p.run s inputs).outputs) (p.run s inputs).state) := by
    intro inputs
    induction inputs with
    | nil =>
      intro s seen past hP _
      simpa [run, collect] using ⟨hPQ hP, hP⟩
    | cons i inputs ih =>
      intro s seen past hP hC
      obtain ⟨hlive, hQ⟩ := hstep hP hC.1
      by_cases hl : (p.step s i).live
      · rw [run_cons_of_live hl, collect, if_pos hl, ← List.append_assoc, ← List.append_assoc]
        exact ih (hlive hl) (hC.2 hl)
      · rw [run_cons_of_not_live hl, collect, if_neg hl, List.append_nil]
        exact ⟨hQ, fun h => absurd h hl⟩
  simpa using hfrom h0 hC

/-- A property of the outputs so far and the state, kept by every step after which the process goes
on, and what it says about the outputs alone, kept by every step. -/
theorem run_invariant {P : List ο → σ → Prop} {Q : List ο → Prop}
    (hPQ : ∀ {past s}, P past s → Q past)
    (hstep : ∀ {past s i}, P past s → C s i →
      ((p.step s i).live → P (past ++ (p.step s i).outputs) (p.step s i).state) ∧
      Q (past ++ (p.step s i).outputs))
    {s : σ} {inputs : List ι} (h0 : P [] s) (hC : p.Meets C s inputs) :
    Q (p.run s inputs).outputs ∧
      ((p.run s inputs).live → P (p.run s inputs).outputs (p.run s inputs).state) :=
  -- nothing is noted
  collect_invariant (f := fun _ _ => ([] : List Empty)) (P := fun _ past s => P past s)
    (Q := fun _ past => Q past) hPQ hstep [] h0 hC

/-- A property of the state alone, kept by every step after which the process goes on. -/
theorem run_state {P : σ → Prop}
    (hstep : ∀ {s i}, P s → C s i → (p.step s i).live → P (p.step s i).state) {s : σ}
    {inputs : List ι} (h0 : P s) (hC : p.Meets C s inputs) (hlive : (p.run s inputs).live) :
    P (p.run s inputs).state :=
  (run_invariant (P := fun _ s => P s) (Q := fun _ => True) (fun _ => trivial)
    (fun hP hC => ⟨hstep hP hC, trivial⟩) h0 hC).2 hlive

/-- Inputs come at times that do not decrease. A property of the time, the outputs so far and the
state that every step keeps, and that no lapse of time takes away. -/
theorem run_timed {time : ι → ℕ} {P : ℕ → List ο → σ → Prop}
    (hmono : ∀ {t t' past s}, t ≤ t' → P t past s → P t' past s)
    (hstep : ∀ {past s i}, P (time i) past s →
      P (time i) (past ++ (p.step s i).outputs) (p.step s i).state)
    {s : σ} {inputs : List ι} (h0 : P 0 [] s) (hsorted : (inputs.map time).Pairwise (· ≤ ·)) :
    ∃ t, P t (p.run s inputs).outputs (p.run s inputs).state := by
  have hfrom : ∀ {inputs : List ι} {s : σ} {past : List ο} {t : ℕ}, P t past s →
      (t :: inputs.map time).Pairwise (· ≤ ·) →
      ∃ t', P t' (past ++ (p.run s inputs).outputs) (p.run s inputs).state := by
    intro inputs
    induction inputs with
    | nil =>
      intro s past t hP _
      exact ⟨t, by simpa [run] using hP⟩
    | cons i inputs ih =>
      intro s past t hP hsorted
      rw [List.map_cons, List.pairwise_cons] at hsorted
      have hnext := hstep (hmono (hsorted.1 _ List.mem_cons_self) hP)
      by_cases hl : (p.step s i).live
      · rw [run_cons_of_live hl, ← List.append_assoc]
        exact ih hnext hsorted.2
      · rw [run_cons_of_not_live hl]
        exact ⟨_, hnext⟩
  have hstart : (0 :: inputs.map time).Pairwise (· ≤ ·) :=
    List.pairwise_cons.mpr ⟨fun _ _ => Nat.zero_le _, hsorted⟩
  simpa using hfrom h0 hstart

/-- A process that never stops in a step never stops. -/
theorem live_run (h : ∀ s i, (p.step s i).live) (s : σ) (inputs : List ι) :
    (p.run s inputs).live := by
  induction inputs generalizing s with
  | nil => rfl
  | cons i inputs ih =>
    rw [run_cons_of_live (h s i)]
    exact ih _

theorem meets_concat {s : σ} {inputs : List ι} {i : ι} :
    p.Meets C s (inputs ++ [i]) ↔
      p.Meets C s inputs ∧ ((p.run s inputs).live → C (p.run s inputs).state i) := by
  induction inputs generalizing s with
  | nil => simp [Meets, run]
  | cons j inputs ih =>
    rw [List.cons_append, Meets, Meets]
    by_cases hl : (p.step s j).live
    · rw [run_cons_of_live hl, ih]
      tauto
    · rw [run_cons_of_not_live hl]
      tauto

theorem Meets.mono {D : σ → ι → Prop} (hCD : ∀ {s i}, C s i → D s i) {s : σ} {inputs : List ι}
    (h : p.Meets C s inputs) : p.Meets D s inputs := by
  induction inputs generalizing s with
  | nil => trivial
  | cons i inputs ih => exact ⟨hCD h.1, fun hlive => ih (h.2 hlive)⟩

theorem Meets.and {D : σ → ι → Prop} {s : σ} {inputs : List ι} (hC : p.Meets C s inputs)
    (hD : p.Meets D s inputs) : p.Meets (fun s i => C s i ∧ D s i) s inputs := by
  induction inputs generalizing s with
  | nil => trivial
  | cons i inputs ih => exact ⟨⟨hC.1, hD.1⟩, fun hlive => ih (hC.2 hlive) (hD.2 hlive)⟩

/-- A condition that every input meets in every state. -/
theorem meets_of_forall {inputs : List ι} (h : ∀ i ∈ inputs, ∀ s, C s i) (s : σ) :
    p.Meets C s inputs := by
  induction inputs generalizing s with
  | nil => trivial
  | cons i inputs ih =>
    refine ⟨h i (by simp) s, fun _ => ih (fun j hj => h j (by simp [hj])) _⟩

end Process

/-! ## Refinement -/

/-- The process refines the machine in every step whose input meets the condition `C`: the actions
recorded in the outputs are a run of the machine, which ends in the abstraction of the new state if
the process goes on. -/
structure Refinement {σ ι ο τ α : Type*} (p : Process σ ι ο) (m : Machine τ α)
    (C : σ → ι → Prop) where
  abs : σ → τ
  action : ο → Option α
  Inv : σ → Prop
  step : ∀ {s i}, Inv s → C s i → ∃ t, m.Run (abs s) ((p.step s i).outputs.filterMap action) t ∧
    ((p.step s i).live → t = abs (p.step s i).state ∧ Inv (p.step s i).state)

namespace Refinement

variable {σ ι ο τ α : Type*} {p : Process σ ι ο} {m : Machine τ α} {C : σ → ι → Prop}

/-- The actions recorded in the run of a process. -/
def trace (r : Refinement p m C) (s : σ) (is : List ι) : List α :=
  (p.run s is).outputs.filterMap r.action

/-- A run whose steps all meet the condition is a run of the machine. -/
theorem run (r : Refinement p m C) {s : σ} {is : List ι} (h : r.Inv s) (hC : p.Meets C s is) :
    ∃ t, m.Run (r.abs s) (r.trace s is) t ∧
      ((p.run s is).live → t = r.abs (p.run s is).state ∧ r.Inv (p.run s is).state) := by
  induction is generalizing s with
  | nil => exact ⟨_, .nil _, fun _ => ⟨rfl, h⟩⟩
  | cons i is ih =>
    obtain ⟨t, hrun, hlive⟩ := r.step h hC.1
    unfold trace
    by_cases hl : (p.step s i).live
    · obtain ⟨rfl, hinv⟩ := hlive hl
      obtain ⟨u, hrun', hlive'⟩ := ih hinv (hC.2 hl)
      rw [Process.run_cons_of_live hl, List.filterMap_append]
      exact ⟨u, hrun.append hrun', hlive'⟩
    · rw [Process.run_cons_of_not_live hl]
      exact ⟨t, hrun, hlive⟩

end Refinement

end BtcPool
