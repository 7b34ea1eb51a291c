import Mathlib.Data.List.Basic

/-!
# Histories

The events a component has seen, the oldest first. A component that keeps a counter or a time
forgets most of its history; what its state stands for is said with the history:

* `Ordered`: the times of the events do not decrease;
* `Occurs`: the event came right after those of a list;
* `SinceLast`: the history, cut at the last event of a kind.

Whether an event is of a kind may depend on all that came before it. The lemmas say what one more
event does to each, and that there is only one way to cut (`SinceLast.unique`).
-/

namespace BtcPool.History

variable {ε τ : Type*}

/-! ## Times -/

section Times

variable [LE τ] (time : ε → τ)

/-- The times of the events do not decrease, and none is before the start. -/
def Ordered (start : τ) (events : List ε) : Prop := (start :: events.map time).Pairwise (· ≤ ·)

instance [DecidableLE τ] (start : τ) (events : List ε) : Decidable (Ordered time start events) :=
  inferInstanceAs (Decidable (List.Pairwise _ _))

variable {time} {start t : τ} {past : List ε} {e : ε}

theorem Ordered.of_concat (h : Ordered time start (past ++ [e])) : Ordered time start past := by
  unfold Ordered at h ⊢
  rw [List.map_append, ← List.cons_append] at h
  exact (List.pairwise_append.mp h).1

/-- No time in the history is after the event that follows it. -/
theorem Ordered.le_time (h : Ordered time start (past ++ [e])) (ht : t ∈ start :: past.map time) :
    t ≤ time e := by
  unfold Ordered at h
  rw [List.map_append, ← List.cons_append] at h
  exact (List.pairwise_append.mp h).2.2 t ht (time e) (by simp)

end Times

/-! ## Occurrences -/

/-- The event came when those of `past` had come. -/
def Occurs (events past : List ε) (e : ε) : Prop := past ++ [e] <+: events

variable {events past before since : List ε} {e last : ε}

theorem not_occurs_nil : ¬ Occurs [] past e := by
  intro h
  simpa using List.prefix_nil.mp h

theorem Occurs.mem (h : Occurs events past e) : e ∈ events := h.subset (by simp)

theorem occurs_concat :
    Occurs (events ++ [last]) past e ↔ past = events ∧ e = last ∨ Occurs events past e := by
  constructor
  · intro h
    rcases List.prefix_concat_iff.mp h with heq | h
    · obtain ⟨rfl, hlast⟩ := List.append_inj' heq rfl
      exact Or.inl ⟨rfl, by simpa using hlast⟩
    · exact Or.inr h
  · rintro (⟨rfl, rfl⟩ | h)
    · exact List.prefix_rfl
    · exact h.trans (List.prefix_append _ _)

/-! ## The last event of a kind -/

variable (P : List ε → ε → Prop)

/-- The history is cut after the last event of the kind, or before its first event if there is
none. -/
structure SinceLast (events before since : List ε) : Prop where
  split : events = before ++ since
  ends : before = [] ∨ ∃ past e, before = past ++ [e] ∧ P past e
  none_since : ∀ part e, Occurs since part e → ¬ P (before ++ part) e

variable {P}

theorem sinceLast_nil : SinceLast P [] [] [] :=
  ⟨rfl, Or.inl rfl, fun _ _ h => absurd h not_occurs_nil⟩

theorem sinceLast_concat (h : P events last) :
    SinceLast P (events ++ [last]) (events ++ [last]) [] :=
  ⟨by simp, Or.inr ⟨events, last, rfl, h⟩, fun _ _ h => absurd h not_occurs_nil⟩

theorem SinceLast.concat (h : SinceLast P events before since) (hother : ¬ P events last) :
    SinceLast P (events ++ [last]) before (since ++ [last]) := by
  refine ⟨by rw [h.split, List.append_assoc], h.ends, fun part e hoccurs => ?_⟩
  rcases occurs_concat.mp hoccurs with ⟨rfl, rfl⟩ | hoccurs
  · rwa [← h.split]
  · exact h.none_since part e hoccurs

/-- A later cut would be at an event of the kind that the earlier one has missed. -/
theorem SinceLast.not_earlier {before' since' : List ε} (h : SinceLast P events before since)
    (h' : SinceLast P events before' since') : before' <+: before := by
  have hsplit : before <+: before' ∨ before' <+: before :=
    List.prefix_or_prefix_of_prefix (h.split ▸ List.prefix_append _ _)
      (h'.split ▸ List.prefix_append _ _)
  rcases hsplit with ⟨extra, hextra⟩ | hle
  · rcases List.eq_nil_or_concat extra with rfl | ⟨part, e, rfl⟩
    · simp [← hextra]
    · rcases h'.ends with hnil | ⟨past, e', hlast, hkind⟩
      · simp [hnil] at hextra
      · rw [List.concat_eq_append] at hextra
        have hcut : (before ++ part) ++ [e] = past ++ [e'] := by rw [← hlast, ← hextra]; simp
        obtain ⟨rfl, he⟩ := List.append_inj' hcut rfl
        obtain rfl : e = e' := by simpa using he
        -- the event belongs to what came since the earlier cut
        have hsince : since = (part ++ [e]) ++ since' := by
          have := h.split.symm.trans h'.split
          rw [hlast] at this
          simpa using this
        exact absurd hkind (h.none_since part e (hsince ▸ List.prefix_append _ _))
  · exact hle

theorem SinceLast.unique {before' since' : List ε} (h : SinceLast P events before since)
    (h' : SinceLast P events before' since') : before = before' ∧ since = since' := by
  obtain rfl : before = before' :=
    (h'.not_earlier h).eq_of_length_le (h.not_earlier h').length_le
  exact ⟨rfl, List.append_cancel_left (h.split.symm.trans h'.split)⟩

end BtcPool.History
