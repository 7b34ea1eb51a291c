import Mathlib.Tactic.Linarith
import Mathlib.Tactic.Ring

/-!
# Machine operations that may overflow

The operations of unsigned registers of `w` bits, as partial functions on `ℕ`. Each is defined
exactly when the register can hold the result: a shift to the left loses no bit, a shift amount is
below the width, a divisor is not zero, a cast drops nothing. A program written with them is defined
on an input exactly when none of its operations overflows there, and then agrees with the program
that computes modulo `2 ^ w` (`mod_of_shl`).
-/

namespace BtcPool.Checked

/-- A shift to the left that loses no bit. -/
def shl (w x n : ℕ) : Option ℕ := if n < w ∧ x * 2 ^ n < 2 ^ w then some (x * 2 ^ n) else none

/-- A shift to the right by less than the width. -/
def shr (w x n : ℕ) : Option ℕ := if n < w then some (x / 2 ^ n) else none

/-- A division that does not divide by zero. -/
def div (x y : ℕ) : Option ℕ := if y = 0 then none else some (x / y)

/-- A remainder that does not divide by zero. -/
def rem (x y : ℕ) : Option ℕ := if y = 0 then none else some (x % y)

/-- A cast to an unsigned type of `w` bits. -/
def cast (w : ℕ) (x : ℤ) : Option ℕ := if 0 ≤ x ∧ x.toNat < 2 ^ w then some x.toNat else none

theorem shl_of_lt {w x n : ℕ} (hn : n < w) (h : x * 2 ^ n < 2 ^ w) : shl w x n = some (x * 2 ^ n) :=
  if_pos ⟨hn, h⟩

theorem shr_of_lt {w n : ℕ} (x : ℕ) (hn : n < w) : shr w x n = some (x / 2 ^ n) := if_pos hn

theorem div_of_pos {y : ℕ} (x : ℕ) (hy : 0 < y) : div x y = some (x / y) := if_neg (by omega)

theorem rem_of_pos {y : ℕ} (x : ℕ) (hy : 0 < y) : rem x y = some (x % y) := if_neg (by omega)

theorem cast_of_lt {w : ℕ} {x : ℤ} (h0 : 0 ≤ x) (h : x.toNat < 2 ^ w) : cast w x = some x.toNat :=
  if_pos ⟨h0, h⟩

/-- A shift that loses no bit is the shift of a register. -/
theorem mod_of_shl {w x n y : ℕ} (h : shl w x n = some y) : (x <<< n) % 2 ^ w = y := by
  unfold shl at h
  split at h
  · rename_i hfits
    cases h
    rw [Nat.shiftLeft_eq, Nat.mod_eq_of_lt hfits.2]
  · cases h

theorem shiftRight_of_shr {w x n y : ℕ} (h : shr w x n = some y) : x >>> n = y := by
  unfold shr at h
  split at h
  · cases h
    exact Nat.shiftRight_eq_div_pow x n
  · cases h

theorem div_of_div {x y z : ℕ} (h : div x y = some z) : x / y = z := by
  unfold div at h
  split at h
  · cases h
  · exact Option.some.inj h

theorem toNat_of_cast {w : ℕ} {x : ℤ} {y : ℕ} (h : cast w x = some y) :
    x.toNat = y ∧ y < 2 ^ w := by
  unfold cast at h
  split at h
  · rename_i hfits
    cases h
    exact ⟨rfl, hfits.2⟩
  · cases h

end BtcPool.Checked
