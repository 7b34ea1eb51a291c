import BtcPool.Bitcoin.Template

/-!
# The tripwires of a template

`check_block_weight` and `check_coinbase_value` guard against a template that is not what the node
promises. Both add the numbers of the template with the plain sums of a release build, which are
sums modulo `2 ^ 64` (`checkBlockWeight_eq_ok`, `checkCoinbaseValue_iff`).

`tripwires_exact_iff` says when they decide as the sums of the numbers themselves would: exactly
when these sums stay below `2 ^ 64` (one sum saturates, and its limit is then not the value
declared). The weights and fees of a template are any 64-bit numbers, so a template can be made that
both tripwires let pass (`tripwires_miss`).
-/

namespace BtcPool.Bitcoin

/-- A sum of 64-bit numbers is the sum of the numbers modulo `2 ^ 64`. -/
theorem toNat_sum (l : List UInt64) : l.sum.toNat = (l.map UInt64.toNat).sum % 2 ^ 64 := by
  induction l with
  | nil => rfl
  | cons a l ih =>
    rw [List.sum_cons, List.map_cons, List.sum_cons, UInt64.toNat_add, ih, Nat.add_mod_mod]

namespace GbtResult

variable (gbt : GbtResult)

/-- The weights the node lists. -/
def txWeights : List UInt64 := gbt.transactions.map fun tx => tx.weight

/-- The fees the node lists. -/
def txFees : List UInt64 := gbt.transactions.map fun tx => tx.fee

/-- The weight of the transactions, the header, the count and the reserve of the coinbase. -/
def weightTotal : ℕ := (80 + 3) * 4 + (gbt.txWeights.map UInt64.toNat).sum + coinbaseWeightReserve

/-- The sum of the fees, as a number without a bound. -/
def feeTotal : ℕ := (gbt.txFees.map UInt64.toNat).sum

/-- What the coinbase value is made of. -/
def valueTotal : ℕ := (blockSubsidy gbt.height).toNat + gbt.feeTotal

end GbtResult

variable {gbt : GbtResult}

theorem checkBlockWeight_eq_ok :
    checkBlockWeight gbt = .ok () ↔ gbt.weightTotal % 2 ^ 64 ≤ 4000000 := by
  have hoverhead : ((80 + 3) * 4 : UInt64).toNat = 332 := rfl
  have hreserve : (UInt64.ofNat coinbaseWeightReserve).toNat = 4000 := rfl
  have hmax : maxBlockWeight.toNat = 4000000 := rfl
  have htotal : gbt.weightTotal = 332 + (gbt.txWeights.map UInt64.toNat).sum + 4000 := rfl
  unfold checkBlockWeight
  dsimp only
  rw [ensure_eq_ok, UInt64.le_iff_toNat_le, UInt64.toNat_add, UInt64.toNat_add, toNat_sum,
    hoverhead, hreserve, hmax, htotal]
  change (((332 + (gbt.txWeights.map UInt64.toNat).sum % 2 ^ 64) % 2 ^ 64 + 4000) % 2 ^ 64 ≤
    4000000) ↔ _
  rw [Nat.add_mod_mod, Nat.mod_add_mod]

theorem checkCoinbaseValue_iff :
    checkCoinbaseValue gbt = true ↔
      min ((blockSubsidy gbt.height).toNat + gbt.feeTotal % 2 ^ 64) (2 ^ 64 - 1) ≠
        gbt.coinbaseValue.toNat := by
  unfold checkCoinbaseValue
  dsimp only
  rw [toNat_sum, decide_eq_true_iff]
  rfl

/-- Every partial sum of the numbers is the sum of the numbers themselves. -/
def SumsExactly (l : List UInt64) : Prop :=
  ∀ k, (l.take k).sum.toNat = ((l.take k).map UInt64.toNat).sum

theorem sum_take_le (l : List UInt64) (k : ℕ) :
    ((l.take k).map UInt64.toNat).sum ≤ (l.map UInt64.toNat).sum := by
  conv_rhs => rw [← List.take_append_drop k l, List.map_append, List.sum_append]
  omega

/-- The partial sums are exact if and only if the whole sum stays below `2 ^ 64`. -/
theorem sumsExactly_iff (l : List UInt64) : SumsExactly l ↔ (l.map UInt64.toNat).sum < 2 ^ 64 := by
  constructor
  · intro h
    have hall := h l.length
    rw [List.take_length] at hall
    rw [← hall]
    exact UInt64.toNat_lt _
  · intro h k
    rw [toNat_sum]
    exact Nat.mod_eq_of_lt (lt_of_le_of_lt (sum_take_le l k) h)

/-- The tripwires decide by the sums of the numbers in the template, and no sum they form wraps
around. -/
structure TripwiresExact (gbt : GbtResult) : Prop where
  weight : checkBlockWeight gbt = .ok () ↔ gbt.weightTotal ≤ 4000000
  value : checkCoinbaseValue gbt = true ↔ gbt.valueTotal ≠ gbt.coinbaseValue.toNat
  weightSums : SumsExactly gbt.txWeights
  weightSum : ((80 + 3) * 4 + gbt.txWeights.sum + UInt64.ofNat coinbaseWeightReserve).toNat =
    gbt.weightTotal
  feeSums : SumsExactly gbt.txFees

/-- The tripwires are exact for just those templates whose sums stay below `2 ^ 64`; where the
subsidy takes the sum of the fees beyond that, the value declared must not be the limit the sum is
cut to. -/
theorem tripwires_exact_iff (gbt : GbtResult) :
    TripwiresExact gbt ↔ gbt.weightTotal < 2 ^ 64 ∧ gbt.feeTotal < 2 ^ 64 ∧
      (gbt.valueTotal < 2 ^ 64 ∨ gbt.coinbaseValue.toNat ≠ 2 ^ 64 - 1) := by
  have hvalueLt := gbt.coinbaseValue.toNat_lt
  have hvalue : gbt.valueTotal = (blockSubsidy gbt.height).toNat + gbt.feeTotal := rfl
  constructor
  · intro h
    have hfees := (sumsExactly_iff _).mp h.feeSums
    refine ⟨?_, hfees, ?_⟩
    · rw [← h.weightSum]
      exact UInt64.toNat_lt _
    · -- at the limit a value that is not the sum would go unreported
      by_contra hlimit
      rw [not_or, not_lt, not_not] at hlimit
      have hreported := checkCoinbaseValue_iff.mp (h.value.mpr (by omega))
      have hmod : gbt.feeTotal % 2 ^ 64 = gbt.feeTotal := Nat.mod_eq_of_lt hfees
      rw [hmod] at hreported
      omega
  · rintro ⟨hweight, hfees, hlimit⟩
    have hweights : (gbt.txWeights.map UInt64.toNat).sum < 2 ^ 64 := by
      unfold GbtResult.weightTotal at hweight
      omega
    have hmod : gbt.feeTotal % 2 ^ 64 = gbt.feeTotal := Nat.mod_eq_of_lt hfees
    refine ⟨?_, ?_, (sumsExactly_iff _).mpr hweights, ?_, (sumsExactly_iff _).mpr hfees⟩
    · rw [checkBlockWeight_eq_ok, Nat.mod_eq_of_lt hweight]
    · rw [checkCoinbaseValue_iff, hmod]
      omega
    · have hoverhead : ((80 + 3) * 4 : UInt64).toNat = 332 := rfl
      have hreserve : (UInt64.ofNat coinbaseWeightReserve).toNat = 4000 := rfl
      have htotal : gbt.weightTotal = 332 + (gbt.txWeights.map UInt64.toNat).sum + 4000 := rfl
      rw [UInt64.toNat_add, UInt64.toNat_add, toNat_sum, hoverhead, hreserve, Nat.add_mod_mod,
        Nat.mod_add_mod, ← htotal, Nat.mod_eq_of_lt hweight]

/-- A transaction with half of the range of a 64-bit number as its weight and as its fee. -/
def halfRangeTransaction : GbtTransaction where
  data := []
  txid := List.replicate 64 '0'
  fee := UInt64.ofNat (2 ^ 63)
  weight := UInt64.ofNat (2 ^ 63)

/-- The regtest template with two such transactions. -/
def wrappedGbt : GbtResult :=
  { regtestGbt with
    transactions := [halfRangeTransaction, halfRangeTransaction]
    length_transactions := by decide }

/-- Both sums wrap around to nothing: the template passes as if it had no transactions. -/
theorem tripwires_miss :
    4000000 < wrappedGbt.weightTotal ∧ checkBlockWeight wrappedGbt = .ok () ∧
      wrappedGbt.valueTotal ≠ wrappedGbt.coinbaseValue.toNat ∧
      checkCoinbaseValue wrappedGbt = false := by
  refine ⟨by decide +kernel, by rfl, by decide +kernel, by decide +kernel⟩

end BtcPool.Bitcoin
