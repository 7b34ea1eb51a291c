import Mathlib.Algebra.Order.Field.Basic
import Mathlib.Algebra.BigOperators.Group.List.Basic
import Mathlib.Algebra.Order.BigOperators.Group.List
import Mathlib.Analysis.SpecialFunctions.Exp
import Mathlib.Tactic.Linarith
import Mathlib.Tactic.FieldSimp
import Mathlib.Tactic.Positivity

/-!
# Decaying averages

An average that is moved towards a rate `r` by a proportion `p` becomes `(f + r p) / (1 + p)`
(`toward`). Its distance from the rate shrinks by `1 + p` (`toward_sub`), so that it stays between
the rates it has seen and converges to a steady one whatever the proportions. The proportion of a
stretch of time `x`, counted in time constants, is `1 - 1 / exp x` (`Exponential.proportion`), which
is at most `x`.

Averages that are too small are set to zero (`cut`). A decay in many steps with a cut in each of
them is one decay with a cut at the end (`cut_iterate`), and cutting a sum or its terms makes a
difference of one cut for each term at most (`sum_cut_le`, `cut_sum_le`).
-/

namespace BtcPool

variable {K : Type*} [Field K] [LinearOrder K]

/-- What decaying averages use of the exponential function. -/
structure Exponential (K : Type*) [Field K] [LinearOrder K] where
  exp : K → K
  monotone : Monotone exp
  exp_neg : ∀ x, exp (-x) = 1 / exp x
  one_add_le : ∀ x, 1 + x ≤ exp x

/-- The real exponential. -/
noncomputable def Exponential.real : Exponential ℝ where
  exp := Real.exp
  monotone := Real.exp_monotone
  exp_neg x := by rw [Real.exp_neg, one_div]
  one_add_le x := by
    rw [add_comm]
    exact Real.add_one_le_exp x

namespace Exponential

variable (E : Exponential K)

/-- The part of an average that is replaced in a stretch of time. -/
def proportion (x : K) : K := 1 - 1 / E.exp x

theorem proportion_eq (x : K) : E.proportion x = 1 - E.exp (-x) := by
  rw [proportion, E.exp_neg]

variable [IsStrictOrderedRing K]

theorem one_le_exp {x : K} (hx : 0 ≤ x) : 1 ≤ E.exp x :=
  (le_add_of_nonneg_right hx).trans (E.one_add_le x)

theorem proportion_nonneg {x : K} (hx : 0 ≤ x) : 0 ≤ E.proportion x := by
  have hle : 1 / E.exp x ≤ 1 :=
    div_le_one_of_le₀ (E.one_le_exp hx) (zero_le_one.trans (E.one_le_exp hx))
  exact sub_nonneg.mpr hle

theorem proportion_le (x : K) : E.proportion x ≤ x := by
  have hle := E.one_add_le (-x)
  rw [proportion_eq]
  linarith

/-- A proportion is no smaller than that of an exponential that grows by `1 + x` only. -/
theorem le_proportion {x : K} (hx : 0 ≤ x) : x / (1 + x) ≤ E.proportion x := by
  have hpos : 0 < 1 + x := by positivity
  have hle : 1 / E.exp x ≤ 1 / (1 + x) := one_div_le_one_div_of_le hpos (E.one_add_le x)
  calc x / (1 + x) = 1 - 1 / (1 + x) := by field_simp; ring
    _ ≤ E.proportion x := sub_le_sub_left hle 1

theorem proportion_mono {x y : K} (hxy : x ≤ y) : E.proportion x ≤ E.proportion y := by
  rw [proportion_eq, proportion_eq]
  exact sub_le_sub_left (E.monotone (neg_le_neg hxy)) 1

theorem proportion_pos {x : K} (hx : 0 < x) : 0 < E.proportion x := by
  have hone : 1 < E.exp x := lt_of_lt_of_le (lt_add_of_pos_right 1 hx) (E.one_add_le x)
  exact sub_pos.mpr ((div_lt_one (zero_lt_one.trans hone)).mpr hone)

end Exponential

namespace Decay

/-! ## One step -/

/-- The average, moved towards a rate by a proportion. -/
def toward {K : Type*} [Field K] (p r f : K) : K := (f + r * p) / (1 + p)

theorem toward_zero {K : Type*} [Field K] (p f : K) : toward p 0 f = f * (1 / (1 + p)) := by
  rw [toward, zero_mul, add_zero, mul_one_div]

section Step

variable [IsStrictOrderedRing K] {p r f : K}

theorem toward_sub (hp : 0 ≤ p) : toward p r f - r = (f - r) / (1 + p) := by
  have hpos : (1 + p) ≠ 0 := by positivity
  rw [toward]
  field_simp
  ring

theorem toward_nonneg (hp : 0 ≤ p) (hr : 0 ≤ r) (hf : 0 ≤ f) : 0 ≤ toward p r f := by
  unfold toward
  positivity

theorem toward_le (hp : 0 ≤ p) (hr : 0 ≤ r) (hf : 0 ≤ f) : toward p r f ≤ f + r * p := by
  have hnum : 0 ≤ f + r * p := by positivity
  exact div_le_self hnum (le_add_of_nonneg_right hp)

/-- An average is at least what a smaller proportion makes of zero. -/
theorem toward_zero_le {p' : K} (hr : 0 ≤ r) (hf : 0 ≤ f) (hp : 0 ≤ p) (hpp : p ≤ p') :
    toward p r 0 ≤ toward p' r f := by
  have hle : r * p ≤ r * p' := mul_le_mul_of_nonneg_left hpp hr
  have hfp : 0 ≤ f * p := mul_nonneg hf hp
  rw [toward, toward, div_le_div_iff₀ (by linarith) (by linarith)]
  linarith

theorem factor_nonneg (hp : 0 ≤ p) : 0 ≤ 1 / (1 + p) := by positivity

theorem factor_le_one (hp : 0 ≤ p) : 1 / (1 + p) ≤ 1 :=
  div_le_one_of_le₀ (le_add_of_nonneg_right hp) (by positivity)

end Step

/-! ## Cutting off -/

/-- A value, or zero if it is too small. -/
def cut (ε x : K) : K := if x < ε then 0 else x

variable {ε x q : K}

theorem cut_of_lt (h : x < ε) : cut ε x = 0 := if_pos h

theorem cut_of_le (h : ε ≤ x) : cut ε x = x := if_neg (not_lt.mpr h)

theorem cut_zero (hε : 0 < ε) : cut ε 0 = (0 : K) := cut_of_lt hε

theorem cut_nonneg (hx : 0 ≤ x) : 0 ≤ cut ε x := by
  unfold cut
  split
  · exact le_rfl
  · exact hx

theorem cut_le (hx : 0 ≤ x) : cut ε x ≤ x := by
  unfold cut
  split
  · exact hx
  · exact le_rfl

theorem cut_cut (hε : 0 < ε) (x : K) : cut ε (cut ε x) = cut ε x := by
  rcases lt_or_ge x ε with hlt | hle
  · rw [cut_of_lt hlt, cut_zero hε]
  · rw [cut_of_le hle, cut_of_le hle]

variable [IsStrictOrderedRing K]

theorem le_cut_add (hε : 0 ≤ ε) (x : K) : x ≤ cut ε x + ε := by
  rcases lt_or_ge x ε with hlt | hle
  · rw [cut_of_lt hlt, zero_add]
    exact hlt.le
  · rw [cut_of_le hle]
    exact le_add_of_nonneg_right hε

/-- Decaying in steps with a cut in each of them is decaying at once with one cut. -/
theorem cut_iterate (hε : 0 < ε) (hq : 0 ≤ q) (hq1 : q ≤ 1) (hx : 0 ≤ x) (n : ℕ) :
    cut ε ((fun y => cut ε (y * q))^[n] x) = cut ε (x * q ^ n) := by
  induction n generalizing x with
  | zero => rw [Function.iterate_zero_apply, pow_zero, mul_one]
  | succ n ih =>
    rw [Function.iterate_succ_apply, ih (cut_nonneg (mul_nonneg hx hq)), pow_succ', ← mul_assoc]
    rcases lt_or_ge (x * q) ε with hlt | hle
    · -- once it was cut it stays below
      have hle : x * q * q ^ n ≤ x * q :=
        mul_le_of_le_one_right (mul_nonneg hx hq) (pow_le_one₀ hq hq1)
      rw [cut_of_lt hlt, zero_mul, cut_zero hε, cut_of_lt (hle.trans_lt hlt)]
    · rw [cut_of_le hle]

/-- What is alike after a cut is alike after a further decay and a cut. -/
theorem cut_mul_congr {x y q : K} (hε : 0 < ε) (hx : 0 ≤ x) (hy : 0 ≤ y) (hq1 : q ≤ 1)
    (h : cut ε x = cut ε y) : cut ε (x * q) = cut ε (y * q) := by
  have hless : ∀ {z : K}, 0 ≤ z → z < ε → cut ε (z * q) = 0 := fun hz hlt =>
    cut_of_lt ((mul_le_of_le_one_right hz hq1).trans_lt hlt)
  rcases lt_or_ge x ε with hxlt | hxle <;> rcases lt_or_ge y ε with hylt | hyle
  · rw [hless hx hxlt, hless hy hylt]
  · rw [cut_of_lt hxlt, cut_of_le hyle] at h
    exact absurd (h ▸ hyle) (not_le.mpr hε)
  · rw [cut_of_le hxle, cut_of_lt hylt] at h
    exact absurd (h ▸ hxle) (not_le.mpr hε)
  · rw [cut_of_le hxle, cut_of_le hyle] at h
    rw [h]

/-! ## Sums -/

/-- Cutting the terms of a sum leaves no more than cutting the sum. -/
theorem sum_cut_le {xs : List K} (hxs : ∀ x ∈ xs, 0 ≤ x) :
    (xs.map (cut ε)).sum ≤ cut ε xs.sum := by
  rcases lt_or_ge xs.sum ε with hlt | hle
  · have hnone : ∀ y ∈ xs.map (cut ε), y = 0 := by
      intro y hy
      obtain ⟨x, hx, rfl⟩ := List.mem_map.mp hy
      exact cut_of_lt ((List.single_le_sum hxs x hx).trans_lt hlt)
    rw [List.sum_eq_zero hnone, cut_of_lt hlt]
  · rw [cut_of_le hle]
    have hterms := List.sum_le_sum (f := cut ε) (g := id) fun x hx => cut_le (hxs x hx)
    rwa [List.map_id] at hterms

/-- And less by one cut for each of its terms at most. -/
theorem cut_sum_le (hε : 0 ≤ ε) {xs : List K} (hxs : ∀ x ∈ xs, 0 ≤ x) :
    cut ε xs.sum ≤ (xs.map (cut ε)).sum + xs.length * ε := by
  refine (cut_le (List.sum_nonneg hxs)).trans ?_
  induction xs with
  | nil => simp
  | cons x xs ih =>
    have hrest := ih fun y hy => hxs y (List.mem_cons_of_mem x hy)
    have hterm := le_cut_add hε x
    rw [List.sum_cons, List.map_cons, List.sum_cons, List.length_cons, Nat.cast_succ, add_mul,
      one_mul]
    linarith

end Decay

end BtcPool
