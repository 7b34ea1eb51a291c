import Mathlib.Data.List.DropRight

/-!
# The most recent elements

A queue of bounded length holds the last elements of what was pushed onto it (`List.rtake`). It is
kept to its length in one of two ways: the oldest element leaves before a new one is pushed onto a
full queue (`makeRoom_concat`), or the new one is pushed and what is too much leaves after it
(`trim_concat`). Either way the queue of a history with one more element is the queue of the history
with the element pushed onto it.
-/

namespace BtcPool.Recents

variable {α β : Type*} {n : ℕ} {l : List α} {x : α}

theorem length_rtake (l : List α) (n : ℕ) : (l.rtake n).length = min n l.length := by
  rw [List.rtake, List.length_drop]
  omega

theorem rtake_suffix (l : List α) (n : ℕ) : l.rtake n <:+ l := List.drop_suffix _ _

theorem rtake_of_length_le (h : l.length ≤ n) : l.rtake n = l := by
  rw [List.rtake, Nat.sub_eq_zero_of_le h, List.drop_zero]

theorem map_rtake (f : α → β) (l : List α) (n : ℕ) : (l.rtake n).map f = (l.map f).rtake n := by
  rw [List.rtake, List.rtake, List.map_drop, List.length_map]

theorem tail_rtake_succ (h : n < l.length) : (l.rtake (n + 1)).tail = l.rtake n := by
  rw [List.rtake, List.tail_drop, List.rtake]
  congr 1
  omega

/-- The ends of the queue are the ends of the history that are short enough. -/
theorem suffix_rtake_iff {t : List α} : t <:+ l.rtake n ↔ t <:+ l ∧ t.length ≤ n := by
  constructor
  · intro h
    have hlength := h.length_le
    rw [length_rtake] at hlength
    exact ⟨h.trans (rtake_suffix l n), by omega⟩
  · rintro ⟨h, hlength⟩
    refine List.suffix_of_suffix_length_le h (rtake_suffix l n) ?_
    rw [length_rtake]
    exact le_min hlength h.length_le

/-- An element is among the last `n` if fewer than `n` came after one of its occurrences. -/
theorem mem_rtake_iff : x ∈ l.rtake n ↔ ∃ after, x :: after <:+ l ∧ after.length < n := by
  have hmem : x ∈ l.rtake n ↔ ∃ after, x :: after <:+ l.rtake n := by
    constructor
    · intro h
      obtain ⟨before, after, heq⟩ := List.append_of_mem h
      exact ⟨after, before, heq.symm⟩
    · rintro ⟨after, h⟩
      exact h.subset List.mem_cons_self
  simp only [hmem, suffix_rtake_iff, List.length_cons, Nat.succ_le_iff]

/-- The oldest element leaves a full queue, and the new one is pushed. -/
theorem makeRoom_concat (hn : 0 < n) (l : List α) (x : α) :
    (if n ≤ (l.rtake n).length then (l.rtake n).tail else l.rtake n) ++ [x] =
      (l ++ [x]).rtake n := by
  obtain ⟨m, rfl⟩ : ∃ m, n = m + 1 := ⟨n - 1, by omega⟩
  rw [List.rtake_concat_succ, length_rtake]
  congr 1
  by_cases hfull : m < l.length
  · rw [if_pos (by omega), tail_rtake_succ hfull]
  · rw [if_neg (by omega), rtake_of_length_le (by omega), rtake_of_length_le (by omega)]

/-- The new element is pushed, and what is too much leaves. -/
theorem trim_concat (l : List α) (n : ℕ) (x : α) :
    (l.rtake n ++ [x]).rtake n = (l ++ [x]).rtake n := by
  cases n with
  | zero => simp
  | succ n =>
    rw [List.rtake_concat_succ, List.rtake_concat_succ]
    congr 1
    rw [List.rtake, List.rtake, List.rtake, List.drop_drop, List.length_drop]
    congr 1
    omega

end BtcPool.Recents
