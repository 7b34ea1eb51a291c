import BtcPool.Foundations.Bytes
import BtcPool.Foundations.Merkle

/-!
# The merkle branch of the coinbase

`compute_merkle_branch_raw` computes the siblings of the coinbase before the coinbase is known. Its
loop holds a level of the tree with a placeholder at the position of the coinbase, takes the
sibling of the placeholder and merges the level; a pair with the placeholder in it merges to the
placeholder again.

The double SHA-256 is a parameter `H`. One pass over a level that starts with the placeholder and is
otherwise known takes the next sibling and leaves a level of the same kind (`mergeLevel_known`), so
the loop returns exactly the siblings of the first leaf (`computeMerkleBranchRaw_eq`), after
finitely many passes (`exists_iterate_mergeLevel`).
-/

namespace BtcPool.Bitcoin

variable (H : Bytes → ByteVec 32)

/-- The hash of two nodes: of their 64 bytes. -/
def merkleNode (left right : ByteVec 32) : ByteVec 32 := H (left.toList ++ right.toList)

/-- The variables of the loop. -/
structure BranchState where
  level : List (Option (ByteVec 32))
  pathIndex : ℕ
  branch : List (ByteVec 32)

/-- A level of odd length gets its last element once more. -/
def padLevel (level : List (Option (ByteVec 32))) : List (Option (ByteVec 32)) :=
  if level.length % 2 ≠ 0 then level ++ level.getLast?.toList else level

/-- The node that is hashed together with one of its level. -/
def siblingIndex (pathIndex : ℕ) : ℕ :=
  if pathIndex % 2 = 0 then pathIndex + 1 else pathIndex - 1

/-- The node above two, if both are there. -/
def mergePair : Option (ByteVec 32) → Option (ByteVec 32) → Option (ByteVec 32)
  | some left, some right => some (merkleNode H left right)
  | _, _ => none

/-- The next level, a pair at a time. -/
def nextLevel : List (Option (ByteVec 32)) → List (Option (ByteVec 32))
  | a :: b :: t => mergePair H a b :: nextLevel t
  | _ => []

/-- The body of the loop. -/
def mergeLevel (s : BranchState) : BranchState :=
  let level := padLevel s.level
  { level := nextLevel H level
    pathIndex := s.pathIndex / 2
    branch := s.branch ++ ((level[siblingIndex s.pathIndex]?).join).toList }

theorem length_nextLevel : ∀ l : List (Option (ByteVec 32)), (nextLevel H l).length = l.length / 2
  | [] => by simp [nextLevel]
  | [_] => by simp [nextLevel]
  | a :: b :: t => by
    simp only [nextLevel, List.length_cons, length_nextLevel t]
    omega

theorem length_padLevel_le (l : List (Option (ByteVec 32))) :
    (padLevel l).length ≤ l.length + 1 := by
  unfold padLevel
  split
  · cases l.getLast? <;> simp
  · omega

theorem length_mergeLevel_lt {s : BranchState} (h : 1 < s.level.length) :
    (mergeLevel H s).level.length < s.level.length := by
  have hpad := length_padLevel_le s.level
  simp only [mergeLevel, length_nextLevel]
  omega

/-- Merge levels while there is more than one element. -/
def mergeLoop (s : BranchState) : BranchState :=
  if 1 < s.level.length then mergeLoop (mergeLevel H s) else s
termination_by s.level.length
decreasing_by exact length_mergeLevel_lt H ‹_›

/-- The loop's variables before its first pass: the placeholder and the txids. -/
def branchStart (txids : List (ByteVec 32)) : BranchState where
  level := none :: txids.map some
  pathIndex := 0
  branch := []

/-- The siblings on the way from the coinbase to the root. -/
def computeMerkleBranchRaw (txids : List (ByteVec 32)) : List (ByteVec 32) :=
  if txids.isEmpty then [] else (mergeLoop H (branchStart txids)).branch

/-! ## What the loop computes -/

/-- Padding looks at the end of a level only. -/
theorem padLevel_cons_cons (a b : Option (ByteVec 32)) (t : List (Option (ByteVec 32))) :
    padLevel (a :: b :: t) = a :: b :: padLevel t := by
  have hlen : (a :: b :: t).length % 2 = t.length % 2 := by
    simp only [List.length_cons]
    omega
  rw [padLevel, padLevel, hlen]
  cases t with
  | nil => simp
  | cons c t => split <;> simp

/-- A level of known nodes merges as the levels of a tree do. -/
theorem nextLevel_padLevel : ∀ t : List (ByteVec 32),
    nextLevel H (padLevel (t.map some)) = (Merkle.pairUp (merkleNode H) t).map some
  | [] => by simp [nextLevel, padLevel, Merkle.pairUp]
  | [a] => by simp [nextLevel, padLevel, Merkle.pairUp, mergePair]
  | a :: b :: t => by
    rw [List.map_cons, List.map_cons, padLevel_cons_cons, nextLevel, nextLevel_padLevel t,
      Merkle.pairUp, List.map_cons, mergePair]

/-- One pass over a level whose only unknown node is the first. -/
theorem mergeLevel_known (b : ByteVec 32) (t branch : List (ByteVec 32)) :
    mergeLevel H ⟨none :: (b :: t).map some, 0, branch⟩ =
      ⟨none :: (Merkle.pairUp (merkleNode H) t).map some, 0, branch ++ [b]⟩ := by
  simp only [mergeLevel, List.map_cons, padLevel_cons_cons, nextLevel, mergePair,
    nextLevel_padLevel]
  simp [siblingIndex]

/-- The passes from such a level take the siblings of the first leaf one by one and then stop. -/
theorem exists_iterate_mergeLevel (t branch : List (ByteVec 32)) :
    ∃ n, (∀ m < n, 1 < ((mergeLevel H)^[m] ⟨none :: t.map some, 0, branch⟩).level.length) ∧
      (mergeLevel H)^[n] ⟨none :: t.map some, 0, branch⟩ =
        ⟨[none], 0, branch ++ Merkle.siblings (merkleNode H) t⟩ ∧
      mergeLoop H ⟨none :: t.map some, 0, branch⟩ =
        ⟨[none], 0, branch ++ Merkle.siblings (merkleNode H) t⟩ := by
  induction hlen : t.length using Nat.strongRecOn generalizing t branch with
  | ind k ih =>
    cases t with
    | nil => exact ⟨0, by simp, by simp, by rw [mergeLoop]; simp⟩
    | cons b t =>
      have hlt : (Merkle.pairUp (merkleNode H) t).length < k := by
        rw [Merkle.length_pairUp, ← hlen, List.length_cons]
        omega
      obtain ⟨n, hlong, hiter, hloop⟩ :=
        ih _ hlt (Merkle.pairUp (merkleNode H) t) (branch ++ [b]) rfl
      refine ⟨n + 1, ?_, ?_, ?_⟩
      · intro m hm
        cases m with
        | zero => simp
        | succ m =>
          rw [Function.iterate_succ_apply, mergeLevel_known]
          exact hlong m (by omega)
      · rw [Function.iterate_succ_apply, mergeLevel_known, hiter]
        simp
      · rw [mergeLoop, if_pos (by simp), mergeLevel_known, hloop]
        simp

theorem computeMerkleBranchRaw_eq (txids : List (ByteVec 32)) :
    computeMerkleBranchRaw H txids = Merkle.siblings (merkleNode H) txids := by
  obtain ⟨-, -, -, hloop⟩ := exists_iterate_mergeLevel H txids []
  cases txids with
  | nil => simp [computeMerkleBranchRaw]
  | cons a t =>
    rw [computeMerkleBranchRaw, if_neg (by simp), branchStart, hloop]
    simp

end BtcPool.Bitcoin
