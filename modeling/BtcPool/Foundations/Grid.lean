import Mathlib.Algebra.Order.Group.Nat
import Mathlib.Tactic.Common

/-!
# Grids

A grid cuts the natural numbers into half-open cells `[start t, start t + span t)`. What falls into
one cell has one start (`Grid.mem_cell_iff`), and a cell ends before the next one starts
(`Grid.end_le`). Cells need not be of one width: `Grid.mixed` cuts into coarse cells and some of
these, as a predicate says, into fine ones.
-/

namespace BtcPool

/-- A partition of time into cells, each with its start and span. -/
structure Grid where
  start : ℕ → ℕ
  span : ℕ → ℕ
  start_le : ∀ t, start t ≤ t
  lt_end : ∀ t, t < start t + span t
  cell : ∀ {s t}, start s ≤ t → t < start s + span s → start t = start s ∧ span t = span s

namespace Grid

variable (G : Grid) {s t : ℕ}

theorem span_pos (t : ℕ) : 0 < G.span t := by
  have hle := G.start_le t
  have hlt := G.lt_end t
  omega

theorem start_start (t : ℕ) : G.start (G.start t) = G.start t :=
  (G.cell le_rfl (lt_of_le_of_lt (G.start_le t) (G.lt_end t))).1

theorem span_start (t : ℕ) : G.span (G.start t) = G.span t :=
  (G.cell le_rfl (lt_of_le_of_lt (G.start_le t) (G.lt_end t))).2

theorem mem_cell_iff : G.start s ≤ t ∧ t < G.start s + G.span s ↔ G.start t = G.start s := by
  constructor
  · rintro ⟨hle, hlt⟩
    exact (G.cell hle hlt).1
  · intro h
    have hspan : G.span t = G.span s := by rw [← G.span_start t, h, G.span_start]
    rw [← h, ← hspan]
    exact ⟨G.start_le t, G.lt_end t⟩

/-- Cells do not overlap. -/
theorem end_le (h : G.start s < G.start t) : G.start s + G.span s ≤ G.start t := by
  by_contra hlt
  have hinside : G.start (G.start t) = G.start s := (G.cell h.le (by omega)).1
  rw [G.start_start] at hinside
  omega

/-! ## Coarse and fine cells -/

section Mixed

variable (fine coarse : ℕ) (P : ℕ → Prop) [DecidablePred P]

/-- The width of the cell of a number: coarse where the predicate holds of the coarse cell's
index. -/
def mixedSpan (t : ℕ) : ℕ := if P (t / coarse) then coarse else fine

variable {fine coarse}

theorem mixedSpan_dvd (hdvd : fine ∣ coarse) (t : ℕ) : mixedSpan fine coarse P t ∣ coarse := by
  unfold mixedSpan
  split
  · exact Nat.dvd_refl coarse
  · exact hdvd

/-- Within a cell the coarse index does not change, and so neither does the width. -/
theorem mixedSpan_eq (hdvd : fine ∣ coarse) {s t : ℕ}
    (h : t / mixedSpan fine coarse P s = s / mixedSpan fine coarse P s) :
    mixedSpan fine coarse P t = mixedSpan fine coarse P s := by
  obtain ⟨k, hk⟩ := mixedSpan_dvd P hdvd s
  have hindex : t / coarse = s / coarse := by
    conv_lhs => rw [hk]
    conv_rhs => rw [hk]
    rw [← Nat.div_div_eq_div_mul, ← Nat.div_div_eq_div_mul, h]
  unfold mixedSpan
  rw [hindex]

/-- The grid with coarse cells where `P` says so and fine ones elsewhere. -/
def mixed (hcoarse : 0 < coarse) (hdvd : fine ∣ coarse) : Grid where
  start t := t / mixedSpan fine coarse P t * mixedSpan fine coarse P t
  span := mixedSpan fine coarse P
  start_le t := Nat.div_mul_le_self t _
  lt_end t := Nat.lt_div_mul_add (Nat.pos_of_dvd_of_pos (mixedSpan_dvd P hdvd t) hcoarse)
  cell {s t} hle hlt := by
    have hpos := Nat.pos_of_dvd_of_pos (mixedSpan_dvd P hdvd s) hcoarse
    have hquotient : t / mixedSpan fine coarse P s = s / mixedSpan fine coarse P s :=
      Nat.div_eq_of_lt_le hle (by rwa [Nat.succ_mul])
    have hspan := mixedSpan_eq P hdvd hquotient
    exact ⟨by rw [hspan, hquotient], hspan⟩

end Mixed

end Grid

end BtcPool
