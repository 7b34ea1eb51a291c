import Mathlib.Algebra.BigOperators.Group.List.Basic
import Mathlib.Algebra.Ring.Nat
import Mathlib.Data.Nat.Notation

/-!
# Tasks that share memory

A task makes one atomic operation on the shared memory at a time and keeps the rest to itself. A
list holds the tasks in flight; which of them moves next is for the schedule to say.

`alone` runs a task to its end with nothing in between. The rules for tasks in flight say what a
move of one of them changes: the members of the list (`mem_advance`), sums over it (`sum_advance`)
and counts (`countP_set_add`).
-/

namespace BtcPool.Tasks

variable {σ τ : Type*}

/-- Run a task with no other operation in between, for at most a number of operations. -/
def alone (step : σ → τ → σ × Option τ) : ℕ → σ → τ → σ × Option τ
  | 0, s, t => (s, some t)
  | n + 1, s, t =>
    match step s t with
    | (s, some t) => alone step n s t
    | (s, none) => (s, none)

/-- The tasks in flight once one of them has moved. A task that has ended leaves. -/
def advance (tasks : List τ) (i : ℕ) : Option τ → List τ
  | some t => tasks.set i t
  | none => tasks.eraseIdx i

theorem mem_advance {tasks : List τ} {i : ℕ} {t : Option τ} {u : τ} (h : u ∈ advance tasks i t) :
    u ∈ tasks ∨ t = some u := by
  cases t with
  | none => exact .inl (List.mem_of_mem_eraseIdx h)
  | some t => exact (List.mem_or_eq_of_mem_set h).imp id fun h => congrArg some h.symm

/-- A sum over the tasks in flight changes by what the moving task contributes. -/
theorem sum_advance (f : τ → ℕ) {tasks : List τ} {i : ℕ} {t : τ} (h : tasks[i]? = some t)
    (t' : Option τ) :
    ((advance tasks i t').map f).sum + f t = (tasks.map f).sum + t'.elim 0 f := by
  induction tasks generalizing i with
  | nil => cases h
  | cons u tasks ih =>
    cases i with
    | zero =>
      cases h
      cases t' <;> simp [advance] <;> omega
    | succ i =>
      have hrest := ih h
      cases t' <;> simp [advance] at hrest ⊢ <;> omega

/-- A count over the tasks in flight changes by what the moving task contributes. -/
theorem countP_set_add (p : τ → Bool) {tasks : List τ} {i : ℕ} {t : τ} (h : tasks[i]? = some t)
    (t' : τ) :
    (tasks.set i t').countP p + (if p t then 1 else 0) =
      tasks.countP p + if p t' then 1 else 0 := by
  obtain ⟨hi, rfl⟩ := List.getElem?_eq_some_iff.mp h
  have hle : (if p tasks[i] then 1 else 0) ≤ tasks.countP p := by
    split
    · exact List.countP_pos_iff.mpr ⟨_, List.getElem_mem hi, ‹_›⟩
    · exact Nat.zero_le _
  rw [List.countP_set hi]
  omega

end BtcPool.Tasks
