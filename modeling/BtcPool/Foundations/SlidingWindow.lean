import Mathlib.Data.List.Basic
import Mathlib.Data.Nat.Basic
import Mathlib.Order.Interval.Set.Defs

/-!
# Sliding windows

Events are counted while they are less than a fixed width old. A record that forgets old events can
stand for the whole history (`StandsFor`): from now on it counts the same. Evicting what no longer
counts, or the whole record once nothing of it does, keeps that, and so does noting a new event.

If an event is let in only while fewer than a limit count, then no stretch of time in which any two
events are less than the width apart holds more than the limit (`countP_concat_le`). The half-open
intervals of that width are such stretches.
-/

namespace BtcPool.SlidingWindow

variable {width now later : ℕ} {history kept times : List ℕ}

/-- The times that still count. -/
def counting (width now : ℕ) (times : List ℕ) : List ℕ := times.filter fun t => now < t + width

theorem counting_append (width now : ℕ) (times more : List ℕ) :
    counting width now (times ++ more) = counting width now times ++ counting width now more :=
  List.filter_append times more

/-- What counts later counts now. -/
theorem counting_counting (h : now ≤ later) (times : List ℕ) :
    counting width later (counting width now times) = counting width later times := by
  rw [counting, counting, List.filter_filter]
  refine List.filter_congr fun t _ => ?_
  rw [← Bool.decide_and, decide_eq_decide]
  omega

/-! ## Records that stand for a history -/

/-- What was kept counts as the whole history does, from now on. -/
def StandsFor (width now : ℕ) (history kept : List ℕ) : Prop :=
  ∀ later, now ≤ later → counting width later kept = counting width later history

namespace StandsFor

theorem refl (width now : ℕ) (history : List ℕ) : StandsFor width now history history :=
  fun _ _ => rfl

theorem mono (h : StandsFor width now history kept) (hle : now ≤ later) :
    StandsFor width later history kept :=
  fun t ht => h t (le_trans hle ht)

theorem evict (h : StandsFor width now history kept) :
    StandsFor width now history (counting width now kept) := by
  intro later hlater
  rw [counting_counting hlater, h later hlater]

/-- A record of which nothing counts may be dropped. -/
theorem drop (h : StandsFor width now history kept) (hnone : counting width now kept = []) :
    StandsFor width now history [] := by
  have hevicted := h.evict
  rwa [hnone] at hevicted

theorem push (h : StandsFor width now history kept) (t : ℕ) :
    StandsFor width now (history ++ [t]) (kept ++ [t]) := by
  intro later hlater
  rw [counting_append, h later hlater, counting_append]

end StandsFor

/-! ## Bounds -/

/-- Any two times of a stretch are less than the width apart. -/
def Narrow (width : ℕ) (p : ℕ → Prop) : Prop := ∀ t t', p t → p t' → t' < t + width

theorem narrow_Ico (width a : ℕ) : Narrow width (· ∈ Set.Ico a (a + width)) := by
  rintro t t' ⟨hlo, -⟩ ⟨-, hhi⟩
  omega

theorem narrow_Ioc (width a : ℕ) : Narrow width (· ∈ Set.Ioc a (a + width)) := by
  rintro t t' ⟨hlo, -⟩ ⟨-, hhi⟩
  omega

/-- An event let in while there is room overfills no narrow stretch. -/
theorem countP_concat_le {p : ℕ → Prop} [DecidablePred p] (hp : Narrow width p) {limit : ℕ}
    (h : history.countP p ≤ limit) (hroom : (counting width now history).length < limit) :
    (history ++ [now]).countP p ≤ limit := by
  rw [List.countP_append, List.countP_singleton]
  by_cases hnow : p now
  · -- whatever shares the stretch with the new event still counts
    have hle : history.countP p ≤ (counting width now history).length := by
      rw [counting, ← List.countP_eq_length_filter]
      refine List.countP_mono_left fun t _ ht => ?_
      rw [decide_eq_true_eq] at ht ⊢
      exact hp t now ht hnow
    rw [if_pos (decide_eq_true hnow)]
    omega
  · rw [if_neg (by simpa using hnow)]
    exact h

end BtcPool.SlidingWindow
