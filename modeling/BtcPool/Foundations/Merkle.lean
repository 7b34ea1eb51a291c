import Mathlib.Algebra.Ring.Nat
import Mathlib.Data.Set.Function
import Mathlib.Data.List.Basic
import Mathlib.Data.List.Induction

/-!
# Merkle trees over an arbitrary node function

The root of a list of leaves, level by level: neighbours are paired, and the last element of a
level of odd length longer than one is paired with itself (`pairUp`, `root`). The path of the
first leaf is the list of its siblings, one a level (`siblings`), and folding a leaf with its
siblings gives the root, for every number of leaves (`root_cons`). The siblings do not depend on
the first leaf, so a path can be computed before the leaf is known.

A node is in practice the hash of the two children together. `pathRoot H pair leaf branch` hashes
a leaf and folds it with a branch that way, and `pathInputs` lists everything hashed on the way.
When `H` is injective on these inputs the root determines the leaf and the branch
(`pathRoot_inj`); branches of different lengths need leaves that are not themselves pairs.
-/

namespace BtcPool.Merkle

/-! ## Levels and roots -/

section Levels

variable {α : Type*} (node : α → α → α)

/-- The next level: neighbours paired, a last element without a neighbour paired with itself. -/
def pairUp : List α → List α
  | [] => []
  | [a] => [node a a]
  | a :: b :: t => node a b :: pairUp t

theorem length_pairUp : ∀ l : List α, (pairUp node l).length = (l.length + 1) / 2
  | [] => by simp [pairUp]
  | [_] => by simp [pairUp]
  | a :: b :: t => by
    simp only [pairUp, List.length_cons, length_pairUp t]
    omega

/-- The root of a list of leaves; the empty list has none. -/
def root : List α → Option α
  | [] => none
  | [a] => some a
  | a :: b :: t => root (pairUp node (a :: b :: t))
termination_by l => l.length
decreasing_by
  rw [length_pairUp, List.length_cons, List.length_cons]
  omega

/-- The siblings of the first leaf from the bottom up, given the leaves after it. -/
def siblings : List α → List α
  | [] => []
  | b :: t => b :: siblings (pairUp node t)
termination_by l => l.length
decreasing_by
  rw [length_pairUp, List.length_cons]
  omega

@[simp] theorem siblings_nil : siblings node [] = [] := by rw [siblings]

@[simp] theorem siblings_cons (b : α) (t : List α) :
    siblings node (b :: t) = b :: siblings node (pairUp node t) := by rw [siblings]

/-- Folding the first leaf with its siblings gives the root. -/
theorem root_cons (a : α) (t : List α) :
    root node (a :: t) = some ((siblings node t).foldl node a) := by
  induction hn : t.length using Nat.strongRecOn generalizing a t with
  | ind n ih =>
    cases t with
    | nil => simp [root]
    | cons b t =>
      have hlt : (pairUp node t).length < n := by
        rw [length_pairUp, ← hn, List.length_cons]
        omega
      rw [root, pairUp, ih _ hlt (node a b) (pairUp node t) rfl, siblings_cons, List.foldl_cons]

/-- A first leaf has one sibling for each level above it. -/
theorem length_siblings_le (t : List α) {k : ℕ} (h : t.length < 2 ^ k) :
    (siblings node t).length ≤ k := by
  induction k generalizing t with
  | zero =>
    have : t = [] := List.length_eq_zero_iff.mp (by simpa using h)
    simp [this]
  | succ k ih =>
    cases t with
    | nil => simp
    | cons b t =>
      have hlt : (pairUp node t).length < 2 ^ k := by
        rw [length_pairUp]
        rw [List.length_cons, Nat.pow_succ] at h
        omega
      have := ih _ hlt
      simp only [siblings_cons, List.length_cons]
      omega

end Levels

/-! ## Paths of a hash function -/

section Paths

variable {α β : Type*} (H : β → α) (pair : α → α → β)

/-- Hash a leaf and fold it with a branch, every step the hash of the two together. -/
def pathRoot (leaf : β) (branch : List α) : α :=
  branch.foldl (fun h s => H (pair h s)) (H leaf)

@[simp] theorem pathRoot_nil (leaf : β) : pathRoot H pair leaf [] = H leaf := rfl

@[simp] theorem pathRoot_concat (leaf : β) (branch : List α) (s : α) :
    pathRoot H pair leaf (branch ++ [s]) = H (pair (pathRoot H pair leaf branch) s) := by
  simp [pathRoot]

/-- Everything hashed by `pathRoot`. -/
def pathInputs (leaf : β) (branch : List α) : Set β :=
  {x | x = leaf ∨ ∃ front s, front ++ [s] <+: branch ∧ x = pair (pathRoot H pair leaf front) s}

theorem leaf_mem_pathInputs (leaf : β) (branch : List α) : leaf ∈ pathInputs H pair leaf branch :=
  Or.inl rfl

theorem pair_mem_pathInputs (leaf : β) (branch : List α) (s : α) :
    pair (pathRoot H pair leaf branch) s ∈ pathInputs H pair leaf (branch ++ [s]) :=
  Or.inr ⟨branch, s, List.prefix_rfl, rfl⟩

theorem pathInputs_subset (leaf : β) (branch : List α) (s : α) :
    pathInputs H pair leaf branch ⊆ pathInputs H pair leaf (branch ++ [s]) := by
  rintro x (rfl | ⟨front, t, hp, rfl⟩)
  · exact Or.inl rfl
  · exact Or.inr ⟨front, t, hp.trans (List.prefix_append _ _), rfl⟩

variable {H pair}

/-- A root determines its leaf and branch when the hash is injective on what was hashed. -/
theorem pathRoot_inj (hpair : ∀ {x y x' y'}, pair x y = pair x' y' → x = x' ∧ y = y')
    {leaf leaf' : β} {branch branch' : List α}
    (hinj : Set.InjOn H (pathInputs H pair leaf branch ∪ pathInputs H pair leaf' branch'))
    (hlen : branch.length = branch'.length ∨ ∀ x y, pair x y ≠ leaf ∧ pair x y ≠ leaf')
    (h : pathRoot H pair leaf branch = pathRoot H pair leaf' branch') :
    leaf = leaf' ∧ branch = branch' := by
  -- peel both branches from the root downwards
  induction branch using List.reverseRecOn generalizing branch' with
  | nil =>
    rcases List.eq_nil_or_concat' branch' with rfl | ⟨branch', s', rfl⟩
    · exact ⟨hinj (Or.inl (leaf_mem_pathInputs ..)) (Or.inr (leaf_mem_pathInputs ..)) h, rfl⟩
    · rw [pathRoot_nil, pathRoot_concat] at h
      have := hinj (Or.inl (leaf_mem_pathInputs ..)) (Or.inr (pair_mem_pathInputs ..)) h
      rcases hlen with hlen | hlen
      · simp at hlen
      · exact absurd this.symm (hlen _ _).1
  | append_singleton branch s ih =>
    rcases List.eq_nil_or_concat' branch' with rfl | ⟨branch', s', rfl⟩
    · rw [pathRoot_nil, pathRoot_concat] at h
      have := hinj (Or.inl (pair_mem_pathInputs ..)) (Or.inr (leaf_mem_pathInputs ..)) h
      rcases hlen with hlen | hlen
      · simp at hlen
      · exact absurd this (hlen _ _).2
    · rw [pathRoot_concat, pathRoot_concat] at h
      have hp := hinj (Or.inl (pair_mem_pathInputs ..)) (Or.inr (pair_mem_pathInputs ..)) h
      obtain ⟨hroot, rfl⟩ := hpair hp
      have hinj' : Set.InjOn H (pathInputs H pair leaf branch ∪ pathInputs H pair leaf' branch') :=
        hinj.mono (Set.union_subset_union (pathInputs_subset ..) (pathInputs_subset ..))
      have hlen' : branch.length = branch'.length ∨ ∀ x y, pair x y ≠ leaf ∧ pair x y ≠ leaf' := by
        simpa using hlen
      obtain ⟨hleaf, rfl⟩ := ih hinj' hlen' hroot
      exact ⟨hleaf, rfl⟩

end Paths

end BtcPool.Merkle
