import BtcPool.Network.Regions

/-!
# Search spaces

A session searches the regions that start with its prefix. The prefixes of all sessions come from
one counter of the process: the last bytes of it, as many as the session's width. Every start of a
session takes one, and so does the opening of a Stratum V2 channel, whose width is what the device
leaves of the reserved one.

`searchSpaces_disjoint_iff` says for which sequences of allocations no two sessions can hash the
same region. With equal widths that is a matter of the counter alone; a device that is granted the
whole width searches everything (`whole_width_overlaps`).
-/

namespace BtcPool

open Bitcoin

/-! ## Allocations -/

/-- What takes a prefix. -/
inductive Allocation
  | sv1Start
  | sv2Start
  | sv2Open (minExtranonceSize : ℕ)
  deriving DecidableEq

namespace Allocation

/-- The width of the prefix. -/
def width (cfg : PoolConfig) : Allocation → ℕ
  | sv1Start => cfg.extranonce1Size
  | sv2Start => cfg.extranonce1Size
  | sv2Open minExtranonceSize =>
    cfg.extranonce1Size + cfg.extranonce2Size - max minExtranonceSize 1

/-- Whether the prefix is hashed with: the one a Stratum V2 session starts with never is, it has no
job before its channel is open. -/
def hashes : Allocation → Bool
  | sv2Start => false
  | _ => true

/-- The pool grants the request. -/
def Accepted (cfg : PoolConfig) : Allocation → Prop
  | sv2Open minExtranonceSize =>
    minExtranonceSize ≤ cfg.extranonce1Size + cfg.extranonce2Size
  | _ => True

end Allocation

/-- An allocation and the value of the counter it got. -/
structure Grant where
  allocation : Allocation
  counter : UInt64
  deriving DecidableEq

/-- The counter goes up by one with every allocation. -/
def grants (counter : UInt64) : List Allocation → List Grant
  | [] => []
  | a :: rest => ⟨a, counter⟩ :: grants (counter + 1) rest

/-- The grants that are hashed with, in a process that starts with the counter at one. -/
def searchers (allocations : List Allocation) : List Grant :=
  (grants 1 allocations).filter fun g => g.allocation.hashes

namespace Grant

variable (cfg : PoolConfig)

/-- The bytes the pool fixes. -/
def width (g : Grant) : ℕ := g.allocation.width cfg

/-- The bytes the pool fixes, made from the counter. -/
def extranoncePrefix (g : Grant) : Bytes := generateExtranonce1 g.counter (g.width cfg)

/-- The regions a session with the grant can hash. -/
def searchSpace (g : Grant) : Set Bytes :=
  extensions (cfg.extranonce1Size + cfg.extranonce2Size) (g.extranoncePrefix cfg)

/-- The counters agree in the bytes both prefixes have. -/
def Overlaps (g g' : Grant) : Prop :=
  let w := min (g.width cfg) (g'.width cfg)
  g.counter.toNat / 256 ^ (g.width cfg - w) % 256 ^ w =
    g'.counter.toNat / 256 ^ (g'.width cfg - w) % 256 ^ w

instance (g g' : Grant) : Decidable (g.Overlaps cfg g') :=
  inferInstanceAs (Decidable (_ = _))

variable {cfg} {g g' : Grant}

@[simp] theorem length_extranoncePrefix : (g.extranoncePrefix cfg).length = g.width cfg :=
  length_generateExtranonce1 ..

theorem width_le : g.width cfg ≤ cfg.extranonce1Size + cfg.extranonce2Size := by
  unfold width Allocation.width
  split <;> omega

theorem overlaps_iff : g.Overlaps cfg g' ↔ g.extranoncePrefix cfg <+: g'.extranoncePrefix cfg ∨
    g'.extranoncePrefix cfg <+: g.extranoncePrefix cfg := by
  rw [prefix_or_prefix_iff, length_extranoncePrefix, length_extranoncePrefix, extranoncePrefix,
    extranoncePrefix, take_generateExtranonce1 _ (min_le_left ..),
    take_generateExtranonce1 _ (min_le_right ..), List.reverse_inj, leBytes_eq_iff]
  rfl

theorem disjoint_searchSpace_iff :
    Disjoint (g.searchSpace cfg) (g'.searchSpace cfg) ↔ ¬ g.Overlaps cfg g' := by
  rw [searchSpace, searchSpace, disjoint_extensions_iff (by simpa using width_le)
    (by simpa using width_le), overlaps_iff, not_or]

end Grant

/-! ## Runs of the pool -/

/-- No two sessions can hash the same region, and none has a prefix that is the start of another's
or equal to it, exactly if no two of their counters agree in the bytes both prefixes have. -/
theorem searchSpaces_disjoint_iff (cfg : PoolConfig) (allocations : List Allocation) :
    (searchers allocations).Pairwise (fun g g' =>
      Disjoint (g.searchSpace cfg) (g'.searchSpace cfg) ∧
        ¬ g.extranoncePrefix cfg <+: g'.extranoncePrefix cfg ∧
        ¬ g'.extranoncePrefix cfg <+: g.extranoncePrefix cfg) ↔
    (searchers allocations).Pairwise fun g g' => ¬ g.Overlaps cfg g' := by
  refine List.Pairwise.iff fun g g' => ?_
  rw [Grant.disjoint_searchSpace_iff, ← not_or, ← Grant.overlaps_iff, and_self]

/-- The counters of the grants that follow, while it does not wrap. -/
theorem counter_of_mem_grants {g : Grant} : ∀ {allocations : List Allocation} {counter : UInt64},
    counter.toNat + allocations.length ≤ 2 ^ 64 → g ∈ grants counter allocations →
    counter.toNat ≤ g.counter.toNat ∧ g.counter.toNat < counter.toNat + allocations.length
  | a :: rest, counter, hle, hmem => by
    rw [List.length_cons] at hle ⊢
    rcases List.mem_cons.mp hmem with rfl | hmem
    · exact ⟨le_rfl, by dsimp only; omega⟩
    · -- the last allocation may take the last value, so the next is looked at only if there is one
      have hrest : 0 < rest.length := by
        cases rest with
        | nil => cases hmem
        | cons => simp
      have hnext : (counter + 1).toNat = counter.toNat + 1 := by
        rw [UInt64.toNat_add, UInt64.toNat_one]
        omega
      have ih := counter_of_mem_grants (by omega) hmem
      omega

theorem grants_pairwise_counter : ∀ {allocations : List Allocation} {counter : UInt64},
    counter.toNat + allocations.length ≤ 2 ^ 64 →
    (grants counter allocations).Pairwise fun g g' => g.counter.toNat < g'.counter.toNat
  | [], _, _ => List.Pairwise.nil
  | [_], _, _ => List.pairwise_singleton _ _
  | a :: b :: rest, counter, hle => by
    rw [List.length_cons] at hle
    have hnext : (counter + 1).toNat = counter.toNat + 1 := by
      rw [UInt64.toNat_add, UInt64.toNat_one]
      simp only [List.length_cons] at hle
      omega
    refine List.pairwise_cons.mpr ⟨fun g hg => ?_, grants_pairwise_counter (by omega)⟩
    have hcounter := (counter_of_mem_grants (by omega) hg).1
    dsimp only
    omega

/-- Prefixes of one width do not overlap before the counter has gone through the width. -/
theorem searchSpaces_disjoint_of_width {cfg : PoolConfig} {allocations : List Allocation} {w : ℕ}
    (hwidth : ∀ g ∈ searchers allocations, g.width cfg = w) (hcount : allocations.length < 256 ^ w)
    (hcounter : allocations.length < 2 ^ 64) :
    (searchers allocations).Pairwise fun g g' =>
      Disjoint (g.searchSpace cfg) (g'.searchSpace cfg) := by
  have hle : (1 : UInt64).toNat + allocations.length ≤ 2 ^ 64 := by
    rw [UInt64.toNat_one]
    omega
  refine ((grants_pairwise_counter hle).filter _).imp_of_mem fun {g g'} hg hg' hlt => ?_
  rw [Grant.disjoint_searchSpace_iff, Grant.Overlaps]
  simp only [hwidth g hg, hwidth g' hg', min_self, Nat.sub_self, pow_zero, Nat.div_one]
  have hbound := (counter_of_mem_grants hle (List.mem_filter.mp hg').1).2
  rw [UInt64.toNat_one] at hbound
  rw [Nat.mod_eq_of_lt (by omega), Nat.mod_eq_of_lt (by omega)]
  exact hlt.ne

/-! ## Sessions and their grants -/

section

variable {H : Bytes → ByteVec 32} {A : AddressLib} {W : Sv2.Wire} {cfg : Config} {network : Network}
  {sessionId : Str} {extranonce1 : Bytes} {template : Option JobTemplate} {now : Instant}
  {share : AcceptedShare}

/-- A Stratum V1 session that was started with a grant is credited for its search space. -/
theorem Sv1.Session.region_mem_searchSpace (hA : A.Lawful) {counter : UInt64} {inputs : List Input}
    (h : .accept share ∈ Effect.actions ((process H A).run (new cfg network sessionId
      (generateExtranonce1 counter cfg.pool.extranonce1Size) template now) inputs).outputs)
    (hsize : share.params.extranonce2.length = cfg.pool.extranonce2Size) :
    share.region ∈ Grant.searchSpace cfg.pool ⟨.sv1Start, counter⟩ := by
  rw [(region_eq_iff hA h).mpr hsize]
  refine ⟨List.prefix_append .., ?_⟩
  rw [List.length_append, length_generateExtranonce1, hsize]

/-- A Stratum V2 session is credited for the search space its channel was granted. -/
theorem Sv2.Session.region_mem_searchSpace (hA : A.Lawful)
    (htotal : 1 ≤ cfg.pool.extranonce1Size + cfg.pool.extranonce2Size) {inputs : List Input}
    (h : .accept share ∈ Effect.actions ((process W H A).run
      (new cfg network sessionId extranonce1 template now) inputs).outputs) :
    ∃ input ∈ inputs, ∃ minExtranonceSize,
      (Allocation.sv2Open minExtranonceSize).Accepted cfg.pool ∧ share.region ∈
        Grant.searchSpace cfg.pool ⟨.sv2Open minExtranonceSize, input.env.extranonceCounter⟩ := by
  obtain ⟨hregion, hsize, input, hinput, payloadLen, o, -, hfits, hgranted, hstart⟩ :=
    region_eq hA h
  refine ⟨input, hinput, o.minExtranonceSize.toNat, hfits, ?_⟩
  rw [hregion, hstart]
  refine ⟨List.prefix_append .., ?_⟩
  rw [List.length_append, length_generateExtranonce1, hsize, hgranted]
  omega

end

/-! ## A device that takes the whole width -/

/-- Two devices that ask for the whole reserved width, as large as the example configuration's. -/
def wholeWidth : List Allocation := [.sv2Start, .sv2Open 8, .sv2Start, .sv2Open 8]

/-- Their prefixes are empty, and their search spaces the same. -/
theorem whole_width_overlaps :
    wholeWidth.length < 256 ^ regtestConfig.pool.extranonce1Size ∧
    (∀ a ∈ wholeWidth, a.Accepted regtestConfig.pool) ∧
    ¬ (searchers wholeWidth).Pairwise fun g g' =>
      Disjoint (g.searchSpace regtestConfig.pool) (g'.searchSpace regtestConfig.pool) := by
  have hwidth : 8 ≤ regtestConfig.pool.extranonce1Size + regtestConfig.pool.extranonce2Size := by
    decide
  have haccepted : ∀ a ∈ wholeWidth, a.Accepted regtestConfig.pool := by
    simp only [wholeWidth, List.forall_mem_cons, Allocation.Accepted, hwidth, true_and]
    simp
  refine ⟨by decide, haccepted, fun h => ?_⟩
  have hapart := h.imp Grant.disjoint_searchSpace_iff.mp
  revert hapart
  decide

end BtcPool
