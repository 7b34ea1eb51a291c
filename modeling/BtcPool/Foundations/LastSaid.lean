import Mathlib.Data.List.Basic

/-!
# What was said last

A party that announces a value now and then, among other messages: `lastSaid` is the value it
announced last. `SaidBefore` says of a message that it went out while a value was the last one
announced. Both are about everything said so far, and only grow with it. `Preceded` says of every
message that it fits with all that was said before it.
-/

namespace BtcPool

variable {μ τ : Type*} (said : μ → Option τ)

/-- The value announced last. -/
def lastSaid (ms : List μ) : Option τ := (ms.filterMap said).getLast?

/-- A message of a kind went out while the value was the last one announced. -/
def SaidBefore (kind : μ → Prop) (value : τ) (ms : List μ) : Prop :=
  ∃ before m after, ms = before ++ m :: after ∧ kind m ∧ lastSaid said before = some value

variable {said}

@[simp] theorem lastSaid_nil : lastSaid said [] = none := rfl

theorem lastSaid_append (ms ms' : List μ) :
    lastSaid said (ms ++ ms') = (lastSaid said ms').or (lastSaid said ms) := by
  rw [lastSaid, List.filterMap_append, List.getLast?_append]
  rfl

/-- Other messages change nothing. -/
theorem lastSaid_append_of_none {ms ms' : List μ} (h : ∀ m ∈ ms', said m = none) :
    lastSaid said (ms ++ ms') = lastSaid said ms := by
  have hnone : ms'.filterMap said = [] := List.filterMap_eq_nil_iff.mpr h
  rw [lastSaid_append, lastSaid, hnone]
  rfl

theorem lastSaid_append_cons {ms ms' : List μ} {m : μ} {value : τ} (hm : said m = some value)
    (h : ∀ m ∈ ms', said m = none) : lastSaid said (ms ++ m :: ms') = some value := by
  have hsplit : ms ++ m :: ms' = (ms ++ [m]) ++ ms' := by simp
  rw [hsplit, lastSaid_append_of_none h, lastSaid, List.filterMap_append]
  simp [hm]

theorem SaidBefore.append {kind : μ → Prop} {value : τ} {ms : List μ}
    (h : SaidBefore said kind value ms) (ms' : List μ) :
    SaidBefore said kind value (ms ++ ms') := by
  obtain ⟨before, m, after, rfl, hm, hlast⟩ := h
  exact ⟨before, m, after ++ ms', by simp, hm, hlast⟩

/-! ## What precedes a message -/

/-- Every message of the list meets `P` with all that was said before it, `past` included. -/
def Preceded (P : List μ → μ → Prop) (past : List μ) : List μ → Prop
  | [] => True
  | m :: ms => P past m ∧ Preceded P (past ++ [m]) ms

instance decidablePreceded (P : List μ → μ → Prop) [∀ past m, Decidable (P past m)]
    (past : List μ) :
    (ms : List μ) → Decidable (Preceded P past ms)
  | [] => inferInstanceAs (Decidable True)
  | m :: ms =>
    have := decidablePreceded P (past ++ [m]) ms
    inferInstanceAs (Decidable (P past m ∧ Preceded P (past ++ [m]) ms))

theorem preceded_append {P : List μ → μ → Prop} {past ms ms' : List μ} :
    Preceded P past (ms ++ ms') ↔ Preceded P past ms ∧ Preceded P (past ++ ms) ms' := by
  induction ms generalizing past with
  | nil => simp [Preceded]
  | cons m ms ih =>
    rw [List.cons_append, Preceded, Preceded, ih, and_assoc, List.append_assoc]
    rfl

theorem preceded_concat {P : List μ → μ → Prop} {past ms : List μ} {m : μ} :
    Preceded P past (ms ++ [m]) ↔ Preceded P past ms ∧ P (past ++ ms) m := by
  rw [preceded_append]
  exact and_congr_right fun _ => and_iff_left trivial

end BtcPool
