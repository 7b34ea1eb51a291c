import Mathlib.Algebra.BigOperators.Group.List.Basic
import Mathlib.Data.List.Nodup

/-!
# Tables as lists of rows

A table is the list of its rows, with a key computed from each. `upsert` inserts a row or, where one
with its key stands already, merges the two in place. The quantities read off a table are sums over
its rows (`(rows.map g).sum`): merging by addition, an upsert adds what it inserts (`sum_upsert`),
and so does a whole list of upserts (`sum_upsertAll`). Keys stay unique (`nodup_insertOrIgnore`).
-/

namespace BtcPool.Rows

variable {ρ κ ν : Type*} [DecidableEq κ]

/-- Insert a row, or merge it into the row with its key. -/
def upsert (key : ρ → κ) (merge : ρ → ρ → ρ) (row : ρ) : List ρ → List ρ
  | [] => [row]
  | r :: rows => if key r = key row then merge r row :: rows else r :: upsert key merge row rows

/-- Upsert the rows of a list one after the other. -/
def upsertAll (key : ρ → κ) (merge : ρ → ρ → ρ) (new rows : List ρ) : List ρ :=
  new.foldl (fun rows row => upsert key merge row rows) rows

/-- Insert a row unless one with its key stands. -/
def insertOrIgnore (key : ρ → κ) (row : ρ) (rows : List ρ) : List ρ :=
  upsert key (fun old _ => old) row rows

variable {key : ρ → κ} {merge : ρ → ρ → ρ} {row : ρ} {rows : List ρ}

theorem sum_upsert [AddCommMonoid ν] {g : ρ → ν}
    (hg : ∀ r ∈ rows, key r = key row → g (merge r row) = g r + g row) :
    ((upsert key merge row rows).map g).sum = (rows.map g).sum + g row := by
  induction rows with
  | nil => simp [upsert]
  | cons r rows ih =>
    by_cases hr : key r = key row
    · simp only [upsert, if_pos hr, List.map_cons, List.sum_cons, hg r List.mem_cons_self hr]
      exact add_right_comm _ _ _
    · have hrest := ih fun r hmem => hg r (List.mem_cons_of_mem _ hmem)
      simp only [upsert, if_neg hr, List.map_cons, List.sum_cons, hrest]
      exact (add_assoc _ _ _).symm

theorem sum_upsertAll [AddCommMonoid ν] {g : ρ → ν}
    (hg : ∀ r row, key r = key row → g (merge r row) = g r + g row) (new rows : List ρ) :
    ((upsertAll key merge new rows).map g).sum = (rows.map g).sum + (new.map g).sum := by
  induction new generalizing rows with
  | nil => simp [upsertAll]
  | cons row new ih =>
    have hrest := ih (upsert key merge row rows)
    rw [sum_upsert fun r _ hr => hg r row hr] at hrest
    rw [List.map_cons, List.sum_cons, ← add_assoc, ← hrest]
    rfl

/-- A row of the table after an upsert is an old one, the new one, or the two merged. -/
theorem mem_upsert {r : ρ} (h : r ∈ upsert key merge row rows) :
    r ∈ rows ∨ r = row ∨ ∃ old ∈ rows, key old = key row ∧ r = merge old row := by
  induction rows with
  | nil => exact .inr (.inl (by simpa [upsert] using h))
  | cons s rows ih =>
    by_cases hs : key s = key row
    · simp only [upsert, if_pos hs, List.mem_cons] at h
      rcases h with rfl | h
      · exact .inr (.inr ⟨s, by simp, hs, rfl⟩)
      · exact .inl (by simp [h])
    · simp only [upsert, if_neg hs, List.mem_cons] at h
      rcases h with rfl | h
      · exact .inl (by simp)
      · rcases ih h with h | h | ⟨old, hold, h⟩
        · exact .inl (by simp [h])
        · exact .inr (.inl h)
        · exact .inr (.inr ⟨old, by simp [hold], h⟩)

/-- A row of the table after a list of upserts has what the old ones and the new ones have, if
merging rows of one key keeps it. -/
theorem forall_upsertAll {P : ρ → Prop}
    (hmerge : ∀ r row, key r = key row → P r → P row → P (merge r row))
    {new : List ρ} (hnew : ∀ r ∈ new, P r) (hrows : ∀ r ∈ rows, P r) :
    ∀ r ∈ upsertAll key merge new rows, P r := by
  induction new generalizing rows with
  | nil => exact hrows
  | cons row new ih =>
    have hrow : P row := hnew row (by simp)
    refine ih (fun r hr => hnew r (by simp [hr])) fun r hr => ?_
    rcases mem_upsert hr with hr | rfl | ⟨old, hold, hkey, rfl⟩
    · exact hrows r hr
    · exact hrow
    · exact hmerge _ _ hkey (hrows old hold) hrow

/-! ## Keys -/

section Keys

variable (hkey : ∀ r row, key r = key row → key (merge r row) = key r)

include hkey

/-- An upsert brings at most one new key, at the end. -/
theorem map_key_upsert : (upsert key merge row rows).map key =
    if key row ∈ rows.map key then rows.map key else rows.map key ++ [key row] := by
  induction rows with
  | nil => rfl
  | cons r rows ih =>
    by_cases hr : key r = key row
    · simp [upsert, hr, hkey r row hr]
    · have hr' : key row ≠ key r := Ne.symm hr
      simp only [upsert, if_neg hr, List.map_cons, ih, List.mem_cons, hr', false_or]
      split <;> rfl

theorem nodup_upsert (h : (rows.map key).Nodup) :
    ((upsert key merge row rows).map key).Nodup := by
  rw [map_key_upsert hkey]
  split
  · exact h
  · rename_i hnew
    rw [← List.concat_eq_append]
    exact h.concat hnew

theorem mem_map_key_upsert {k : κ} :
    k ∈ (upsert key merge row rows).map key ↔ k ∈ rows.map key ∨ k = key row := by
  rw [map_key_upsert hkey]
  split
  · rename_i hmem
    exact ⟨.inl, fun h => h.elim id fun heq => heq ▸ hmem⟩
  · rw [List.mem_append, List.mem_singleton]

theorem nodup_upsertAll {new : List ρ} (h : (rows.map key).Nodup) :
    ((upsertAll key merge new rows).map key).Nodup := by
  induction new generalizing rows with
  | nil => exact h
  | cons row new ih => exact ih (nodup_upsert hkey h)

theorem mem_map_key_upsertAll {new : List ρ} {k : κ} :
    k ∈ (upsertAll key merge new rows).map key ↔ k ∈ rows.map key ∨ k ∈ new.map key := by
  induction new generalizing rows with
  | nil => simp [upsertAll]
  | cons row new ih =>
    rw [List.map_cons, List.mem_cons, ← or_assoc, ← mem_map_key_upsert hkey]
    exact ih

end Keys

/-! ## Insertion -/

theorem insertOrIgnore_of_mem {r : ρ} (hr : r ∈ rows) (hkey : key r = key row) :
    insertOrIgnore key row rows = rows := by
  induction rows with
  | nil => simp at hr
  | cons s rows ih =>
    unfold insertOrIgnore upsert
    by_cases hs : key s = key row
    · rw [if_pos hs]
    · rw [if_neg hs]
      rcases List.mem_cons.mp hr with rfl | hr
      · exact absurd hkey hs
      · exact congrArg (s :: ·) (ih hr)

theorem insertOrIgnore_of_notMem (h : key row ∉ rows.map key) :
    insertOrIgnore key row rows = rows ++ [row] := by
  induction rows with
  | nil => rfl
  | cons s rows ih =>
    rw [List.map_cons, List.mem_cons, not_or] at h
    unfold insertOrIgnore upsert
    rw [if_neg (Ne.symm h.1)]
    exact congrArg (s :: ·) (ih h.2)

/-- The table after an insertion: the old one, or the old one and the row at its end. -/
theorem insertOrIgnore_cases (key : ρ → κ) (row : ρ) (rows : List ρ) :
    (key row ∈ rows.map key ∧ insertOrIgnore key row rows = rows) ∨
      (key row ∉ rows.map key ∧ insertOrIgnore key row rows = rows ++ [row]) := by
  by_cases h : key row ∈ rows.map key
  · obtain ⟨r, hr, hkey⟩ := List.mem_map.mp h
    exact .inl ⟨h, insertOrIgnore_of_mem hr hkey⟩
  · exact .inr ⟨h, insertOrIgnore_of_notMem h⟩

theorem nodup_insertOrIgnore (h : (rows.map key).Nodup) :
    ((insertOrIgnore key row rows).map key).Nodup :=
  nodup_upsert (fun _ _ _ => rfl) h

omit [DecidableEq κ] in
/-- A table with unique keys, split at one of its rows. -/
theorem exists_split_of_nodup (h : (rows.map key).Nodup) {r : ρ} (hr : r ∈ rows) :
    ∃ before after, rows = before ++ r :: after ∧ (∀ q ∈ before, key q ≠ key r) ∧
      ∀ q ∈ after, key q ≠ key r := by
  obtain ⟨before, after, rfl⟩ := List.append_of_mem hr
  rw [List.map_append, List.map_cons, List.nodup_append] at h
  obtain ⟨-, hcons, hdisjoint⟩ := h
  refine ⟨before, after, rfl, ?_, ?_⟩
  · exact fun q hq => hdisjoint _ (List.mem_map_of_mem hq) _ List.mem_cons_self
  · exact fun q hq heq => (List.nodup_cons.mp hcons).1 (heq ▸ List.mem_map_of_mem hq)

omit [DecidableEq κ] in
/-- Looking a key up in a table with unique keys. -/
theorem find?_eq_some_iff_of_nodup [BEq κ] [LawfulBEq κ] (h : (rows.map key).Nodup) {k : κ}
    {r : ρ} :
    rows.find? (fun q => key q == k) = some r ↔ r ∈ rows ∧ key r = k := by
  constructor
  · intro hfind
    exact ⟨List.mem_of_find?_eq_some hfind, by simpa using List.find?_some hfind⟩
  · rintro ⟨hr, rfl⟩
    obtain ⟨before, after, rfl, hbefore, -⟩ := exists_split_of_nodup h hr
    refine List.find?_eq_some_iff_append.mpr ⟨by simp, before, after, rfl, fun q hq => ?_⟩
    simpa using hbefore q hq

/-- In a table with unique keys one row has the key of a given one, so a sum over that key is that
row's. -/
theorem sum_ite_key_eq [AddCommMonoid ν] {g : ρ → ν} (h : (rows.map key).Nodup) {r : ρ}
    (hr : r ∈ rows) : (rows.map fun q => if key q = key r then g q else 0).sum = g r := by
  obtain ⟨before, after, rfl, hbefore, hafter⟩ := exists_split_of_nodup h hr
  have hzero : ∀ l : List ρ, (∀ q ∈ l, key q ≠ key r) →
      (l.map fun q => if key q = key r then g q else 0).sum = 0 := by
    intro l hl
    refine List.sum_eq_zero fun a ha => ?_
    obtain ⟨q, hq, rfl⟩ := List.mem_map.mp ha
    exact if_neg (hl q hq)
  rw [List.map_append, List.map_cons, List.sum_append, List.sum_cons, hzero before hbefore,
    hzero after hafter, if_pos rfl, zero_add, add_zero]

omit [DecidableEq κ] in
theorem sum_map_filter [AddCommMonoid ν] {g : ρ → ν} {p : ρ → Bool} (rows : List ρ) :
    ((rows.filter p).map g).sum = (rows.map fun r => if p r then g r else 0).sum := by
  rw [List.sum_map_ite (fun r => p r = true) g fun _ => 0, List.map_const', List.sum_replicate,
    nsmul_zero, add_zero]
  simp only [Bool.decide_eq_true]

/-- A sum over the rows of one key, of which a condition that the key decides leaves all or none. -/
theorem sum_filter_key [AddCommMonoid ν] {g : ρ → ν} {k : κ} {p : ρ → Prop} [DecidablePred p]
    {P : Prop} [Decidable P] (h : ∀ r ∈ rows, key r = k → (p r ↔ P)) :
    ((rows.filter fun r => p r).map fun r => if key r = k then g r else 0).sum =
      if P then (rows.map fun r => if key r = k then g r else 0).sum else 0 := by
  simp only [sum_map_filter, decide_eq_true_eq]
  split
  · rename_i hP
    congr 1
    refine List.map_congr_left fun r hr => ?_
    by_cases hk : key r = k
    · rw [if_pos ((h r hr hk).mpr hP)]
    · rw [if_neg hk, ite_self]
  · rename_i hP
    refine List.sum_eq_zero fun a ha => ?_
    obtain ⟨r, hr, rfl⟩ := List.mem_map.mp ha
    by_cases hk : key r = k
    · rw [if_neg fun hp => hP ((h r hr hk).mp hp)]
    · rw [if_neg hk, ite_self]

section Parts

variable {σ : Type*} {parts : List σ} {member : σ → ρ → Bool} {whole : ρ → Bool}

omit [DecidableEq κ] in
/-- A sum over rows of which each is in one part, part by part. -/
theorem sum_eq_sum_parts [AddCommMonoid ν] {g : ρ → ν}
    (h : ∀ r ∈ rows, (parts.countP fun part => member part r) = if whole r then 1 else 0) :
    (rows.map fun r => if whole r then g r else 0).sum =
      (parts.map fun part => (rows.map fun r => if member part r then g r else 0).sum).sum := by
  induction rows with
  | nil => simp
  | cons r rows ih =>
    have hrow : (parts.map fun part => if member part r then g r else 0).sum =
        if whole r then g r else 0 := by
      rw [← sum_map_filter, List.map_const', List.sum_replicate, ← List.countP_eq_length_filter,
        h r List.mem_cons_self]
      split
      · exact one_nsmul (g r)
      · exact zero_nsmul (g r)
    simp only [List.map_cons, List.sum_cons]
    rw [List.sum_map_add, hrow, ih fun q hq => h q (List.mem_cons_of_mem r hq)]

end Parts

end BtcPool.Rows
