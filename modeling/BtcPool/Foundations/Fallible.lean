import Mathlib.Init

/-!
# Fallible computations

Programs that return `Except` are sequences of checks and steps that may fail. `ensure` is a check;
the lemmas say what a sequence that succeeded went through (`bind_eq_ok`, `ensure_eq_ok`,
`ok_of_mapError`, `length_of_mapM_eq_ok`), so a program is taken apart without unfolding the monad.
-/

namespace BtcPool

variable {ε ε' α β : Type}

/-- Fail with `e` unless `c` holds. -/
def ensure (c : Prop) [Decidable c] (e : ε) : Except ε Unit := if c then .ok () else .error e

@[simp] theorem ensure_eq_ok {c : Prop} [Decidable c] {e : ε} {u : Unit} :
    ensure c e = .ok u ↔ c := by
  by_cases hc : c <;> simp [ensure, hc]

@[simp] theorem bind_eq_ok {x : Except ε α} {f : α → Except ε β} {b : β} :
    (x >>= f) = .ok b ↔ ∃ a, x = .ok a ∧ f a = .ok b := by
  cases x <;> simp [bind, Except.bind]

@[simp] theorem pure_eq_ok {a b : α} : (pure a : Except ε α) = .ok b ↔ a = b := by
  simp [pure, Except.pure]

theorem exists_of_isOk {x : Except ε α} (h : x.isOk) : ∃ a, x = .ok a := by
  cases x with
  | error e => cases h
  | ok a => exact ⟨a, rfl⟩

/-- Changing the error of a step does not change its value. -/
theorem ok_of_mapError {g : ε → ε'} {x : Except ε α} {a : α} (h : x.mapError g = .ok a) :
    x = .ok a := by
  cases x with
  | error e => cases h
  | ok b => exact congrArg Except.ok (Except.ok.inj h)

/-- A step made for every element gives one value for every element. -/
theorem length_of_mapM_eq_ok {f : α → Except ε β} {l : List α} {r : List β}
    (h : l.mapM f = .ok r) : r.length = l.length := by
  induction l generalizing r with
  | nil =>
    rw [List.mapM_nil, pure_eq_ok] at h
    simp [← h]
  | cons a l ih =>
    simp only [List.mapM_cons, bind_eq_ok, pure_eq_ok] at h
    obtain ⟨b, -, bs, hbs, rfl⟩ := h
    simp [ih hbs]

end BtcPool
