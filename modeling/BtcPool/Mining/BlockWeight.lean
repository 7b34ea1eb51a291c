import BtcPool.Bitcoin.Tripwires
import BtcPool.Mining.FoundBlock

/-!
# The weight of a submitted block

The consensus limit on a block is on its weight (BIP141): three times the size without witnesses
plus the size with them. The pool keeps to it in two places. `checkBlockWeight` refuses a template
whose transactions do not leave room for the header, a count of three bytes and the reserve for the
coinbase, and `buildCoinbase` refuses a coinbase that outgrows the reserve once the reserved value
is put into its witness.

`blockWeight` is the weight of a block read off its bytes. `blockWeight_assembleBlockHex` adds the
estimates up: whatever the share, the block assembled for it weighs at most four million, provided
the node's weights are true. The count needs no more than three bytes because so many transactions
of at least 240 weight units would not have passed the first check.
-/

namespace BtcPool.Bitcoin

/-! ## Weights -/

/-- The weight of a transaction, in which its witnesses count once and the rest four times. -/
def Transaction.weight (tx : Transaction) : ℕ := 3 * tx.stripped.length + tx.serialize.length

/-- A block: its header and its transactions. -/
structure Block where
  header : Bytes
  transactions : List Transaction

namespace Block

/-- A block on the wire. -/
def serialize (b : Block) : Bytes := b.header ++ varList Transaction.serialize b.transactions

/-- A block on the wire without the witnesses. -/
def stripped (b : Block) : Bytes := b.header ++ varList Transaction.stripped b.transactions

/-- The weight of a block. -/
def weight (b : Block) : ℕ := 3 * b.stripped.length + b.serialize.length

/-- Header and count are the same in both sizes and so count four times. -/
theorem weight_eq (b : Block) : b.weight =
    4 * (b.header.length + (compactSize b.transactions.length).length) +
      (b.transactions.map Transaction.weight).sum := by
  have hsum : ∀ l : List Transaction, 3 * (l.flatMap Transaction.stripped).length +
      (l.flatMap Transaction.serialize).length = (l.map Transaction.weight).sum := by
    intro l
    induction l with
    | nil => rfl
    | cons tx l ih =>
      simp only [List.flatMap_cons, List.length_append, List.map_cons, List.sum_cons, ← ih,
        Transaction.weight]
      omega
  have h := hsum b.transactions
  simp only [weight, stripped, serialize, varList, List.length_append]
  omega

end Block

/-- Read a block. -/
def readBlock : Reader Block := do
  let header ← readBytes 80
  let transactions ← readVarList readTransaction
  return { header, transactions }

/-- The weight of the block with the given bytes. -/
def blockWeight (bs : Bytes) : Option ℕ := (readBlock.whole bs).map Block.weight

theorem blockWeight_serialize {b : Block} (hheader : b.header.length = 80)
    (hlen : b.transactions.length < 2 ^ 64) (hbounded : ∀ tx ∈ b.transactions, tx.Bounded) :
    blockWeight b.serialize = some b.weight := by
  have hreads : Reads readBlock b.serialize b := by
    refine (reads_bytes_of_length hheader).bind ?_
    exact (reads_varList hlen fun tx htx => reads_transaction (hbounded tx htx)).map _
  rw [blockWeight, hreads.whole]
  rfl

/-! ## The coinbase -/

/-- The reserved value adds a marker, a flag, two counts and its 32 bytes. -/
theorem weight_withWitness_coinbaseTx (s : Bytes) (reward : UInt64) (script : Bytes)
    (wc : Option Bytes) {witness : List Bytes}
    (hw : witness = [] ∨ witness = [witnessReservedValue]) :
    (withWitness (coinbaseTx s reward script wc) witness).weight ≤
      4 * (coinbaseTx s reward script wc).serialize.length + 36 := by
  rw [Transaction.weight, stripped_withWitness_coinbaseTx]
  rcases hw with rfl | rfl
  · have hsame : withWitness (coinbaseTx s reward script wc) [] = coinbaseTx s reward script wc :=
      rfl
    rw [hsame]
    omega
  · have hsegwit :
        (withWitness (coinbaseTx s reward script wc) [witnessReservedValue]).usesSegwit :=
      rfl
    have hstripped : (coinbaseTx s reward script wc).serialize =
        (withWitness (coinbaseTx s reward script wc) [witnessReservedValue]).stripped :=
      (stripped_withWitness_coinbaseTx ..).symm
    have hwitness :
      ((withWitness (coinbaseTx s reward script wc) [witnessReservedValue]).input.flatMap
        fun i => encodeWitness i.witness).length = 34 := by
      simp [withWitness, coinbaseTx, encodeWitness, varList, varBytes, witnessReservedValue,
        compactSize]
    rw [hstripped, Transaction.serialize, if_pos hsegwit, Transaction.stripped]
    simp only [List.length_append, List.length_cons, List.length_nil] at hwitness ⊢
    omega

/-! ## The transactions of a template -/

/-- The transaction's data is a transaction, and the weight the node declares for it is its own. -/
def GbtTransaction.Weighed (t : GbtTransaction) (tx : Transaction) : Prop :=
  tx.Bounded ∧ t.data = tx.serialize ∧ t.weight.toNat = tx.weight

/-- A transaction weighs at most four times its size. -/
theorem Transaction.weight_le (tx : Transaction) : tx.weight ≤ 4 * tx.serialize.length := by
  have hle : tx.stripped.length ≤ tx.serialize.length := by
    unfold serialize
    split
    · simp only [stripped, List.length_append]
      omega
    · exact le_rfl
  unfold weight
  omega

/-- The transactions a template stands for. -/
theorem exists_transactions {l : List GbtTransaction} (h : ∀ t ∈ l, ∃ tx, t.Weighed tx) :
    ∃ txs : List Transaction, txs.length = l.length ∧ (∀ tx ∈ txs, tx.Bounded) ∧
      (l.map fun t => t.data).flatten = txs.flatMap Transaction.serialize ∧
      (l.map fun t => t.weight.toNat).sum = (txs.map Transaction.weight).sum := by
  induction l with
  | nil => exact ⟨[], by simp⟩
  | cons t l ih =>
    obtain ⟨tx, hbounded, hdata, hweight⟩ := h t List.mem_cons_self
    obtain ⟨txs, hlen, hall, hflat, hsum⟩ := ih fun t ht => h t (List.mem_cons_of_mem _ ht)
    refine ⟨tx :: txs, by simp [hlen], ?_, ?_, ?_⟩
    · simpa using ⟨hbounded, hall⟩
    · simp [hdata, hflat]
    · simp [hweight, hsum]

/-- The sum of the declared weights does not wrap around: the transactions lie in memory, in bytes
and, twice as long, in the text they were decoded from. -/
theorem sum_weight_lt {l : List GbtTransaction} (h : ∀ t ∈ l, ∃ tx, t.Weighed tx)
    (hmem : (l.map fun t => t.data.length).sum < 2 ^ 61) :
    (l.map fun t => t.weight.toNat).sum < 2 ^ 63 := by
  have hle : (l.map fun t => t.weight.toNat).sum ≤ 4 * (l.map fun t => t.data.length).sum := by
    clear hmem
    induction l with
    | nil => simp
    | cons t l ih =>
      obtain ⟨tx, -, hdata, hweight⟩ := h t List.mem_cons_self
      have htx := tx.weight_le
      have hrest := ih fun t ht => h t (List.mem_cons_of_mem _ ht)
      simp only [List.map_cons, List.sum_cons]
      rw [← hdata, ← hweight] at htx
      omega
  omega

/-- What the check of a template's weight says about weights that are true. -/
theorem sum_weight_le {gbt : GbtResult} (hcheck : checkBlockWeight gbt = .ok ())
    (hlt : (gbt.transactions.map fun t => t.weight.toNat).sum < 2 ^ 63) :
    332 + (gbt.transactions.map fun t => t.weight.toNat).sum + 4000 ≤ 4000000 := by
  have hle := checkBlockWeight_eq_ok.mp hcheck
  have htotal : gbt.weightTotal = 332 + (gbt.transactions.map fun t => t.weight.toNat).sum +
      4000 := by
    rw [GbtResult.weightTotal, GbtResult.txWeights, List.map_map]
    rfl
  rw [htotal] at hle
  omega

theorem length_le_of_sum {l : List GbtTransaction} (h : ∀ t ∈ l, 240 ≤ t.weight.toNat) :
    240 * l.length ≤ (l.map fun t => t.weight.toNat).sum := by
  induction l with
  | nil => simp
  | cons t l ih =>
    have ht := h t List.mem_cons_self
    have hrest := ih fun t ht => h t (List.mem_cons_of_mem _ ht)
    simp only [List.length_cons, List.map_cons, List.sum_cons]
    omega

theorem checkBlockWeight_of_buildJobTemplate {H : Bytes → ByteVec 32} {gbt : GbtResult}
    {template : JobTemplate} (h : buildJobTemplate H gbt = .ok template) :
    checkBlockWeight gbt = .ok () := by
  simp only [buildJobTemplate, bind_eq_ok] at h
  obtain ⟨_, -, _, -, _, -, ⟨⟩, hcheck, -⟩ := h
  exact hcheck

end BtcPool.Bitcoin

namespace BtcPool

open Bitcoin

/-! ## The block -/

/-- The bytes of the assembled block as a block. -/
theorem hexDecode_assembleBlockHex_block {template : JobTemplate} {payout : PayoutDescriptor}
    {tag : Str} {en1 en2 : ℕ} {job : StratumJob} (hjob : BuiltJob template payout tag en1 en2 job)
    {txs : List Transaction} (htxs : job.transactions.flatten = txs.flatMap Transaction.serialize)
    (hlen : job.transactions.length = txs.length) (hlt : txs.length < 2 ^ 63)
    (header e1 e2 : Bytes) :
    ∃ coinbase : Transaction, coinbase.Bounded ∧ coinbase.weight ≤ 4000 ∧
      hexDecode (assembleBlockHex header (job.assembleCoinbaseInto e1 e2) job.transactions
        job.hasWitnessCommitment) = .ok (Block.mk header (coinbase :: txs)).serialize := by
  obtain ⟨tx, hdecode, -, htx⟩ := hexDecode_assembleBlockHex hjob header e1 e2
  have hsize : (coinbaseTx (encodeBip34Height template.height ++ utf8 tag ++ job.filledRegion e1 e2)
      template.coinbaseValue payout.scriptPubkey template.witnessCommitment).serialize.length * 4 +
        36 ≤ 4000 := by
    rw [← hjob.assembleCoinbaseInto_eq_serialize, StratumJob.length_assembleCoinbaseInto]
    exact hjob.coinbase.weight
  have hwitness : ∀ b : Bool, (if b then [witnessReservedValue] else []) = [] ∨
      (if b then [witnessReservedValue] else []) = [witnessReservedValue] := by decide
  have hcount : (UInt64.ofNat (1 + job.transactions.length)).toNat = txs.length + 1 := by
    rw [UInt64.toNat_ofNat', Nat.mod_eq_of_lt (by omega)]
    omega
  refine ⟨tx, ?_, ?_, ?_⟩
  · rw [htx]
    exact bounded_withWitness_coinbaseTx (by omega) (hwitness _)
  · rw [htx]
    refine (weight_withWitness_coinbaseTx _ _ _ _ (hwitness _)).trans ?_
    omega
  · rw [hdecode, hcount, htxs, Block.serialize, varList, List.length_cons, List.flatMap_cons]
    simp

/-- For every template the pool accepts whose declared weights are the true weights of transactions
of at least 240 weight units, every job made from it and every share of the job, the block assembled
for the share weighs at most four million. -/
theorem blockWeight_assembleBlockHex {H : Bytes → ByteVec 32} {gbt : GbtResult}
    {template : JobTemplate} (htemplate : buildJobTemplate H gbt = .ok template)
    (htrue : ∀ t ∈ gbt.transactions, ∃ tx, t.Weighed tx)
    (hleast : ∀ t ∈ gbt.transactions, 240 ≤ t.weight.toNat)
    (hmem : (gbt.transactions.map fun t => t.data.length).sum < 2 ^ 61)
    {jobId : Str} {payout : PayoutDescriptor} {tag : Str} {en1 en2 : ℕ} {job : StratumJob}
    (hjob : buildJobForPayout jobId template payout tag en1 en2 = .ok job)
    {params : ShareParams} {extranonce1 header : Bytes}
    (hheader : reconstructHeader H params job extranonce1 = .ok header) :
    ∃ bytes weight, hexDecode (assembleBlockHex header
        (job.assembleCoinbaseInto extranonce1 params.extranonce2) job.transactions
        job.hasWitnessCommitment) = .ok bytes ∧
      blockWeight bytes = some weight ∧ weight ≤ 4000000 := by
  have ht := buildJobTemplate_spec H htemplate
  obtain ⟨-, hj⟩ := buildJobForPayout_spec hjob
  obtain ⟨_, prev, _, -, hprev, -, hbytes⟩ := reconstructHeader_eq_ok.mp hheader
  have h80 : header.length = 80 := by
    rw [hbytes, length_headerBytes (by rw [length_wordSwap, length_of_hexDecodeTo hprev])]
  have hdata : job.transactions = gbt.transactions.map fun t => t.data :=
    hj.transactions.trans ht.transactions
  have htotal := sum_weight_le (checkBlockWeight_of_buildJobTemplate htemplate)
    (sum_weight_lt htrue hmem)
  have hfew := length_le_of_sum hleast
  obtain ⟨txs, hlen, hbounded, hflat, hsum⟩ := exists_transactions htrue
  obtain ⟨coinbase, hcb, hcbWeight, hdecode⟩ := hexDecode_assembleBlockHex_block hj
    (by rw [hdata, hflat]) (by rw [hdata, hlen, List.length_map]) (by omega) header extranonce1
    params.extranonce2
  have hcount : (compactSize (txs.length + 1)).length ≤ 3 := by
    unfold compactSize
    split_ifs with h1 h2
    · simp
    · simp
    · omega
    · omega
  refine ⟨_, _, hdecode, blockWeight_serialize h80 ?_ ?_, ?_⟩
  · simp only [List.length_cons]
    omega
  · simpa using ⟨hcb, hbounded⟩
  · rw [Block.weight_eq, h80]
    simp only [List.length_cons, List.map_cons, List.sum_cons, ← hsum]
    omega

/-- A transaction of 84 bytes. -/
def regtestSpend : Transaction := coinbaseTx [1, 2] 1000 regtestPayout.scriptPubkey none

/-- The regtest template with that transaction in it. -/
def regtestSpendGbt : GbtResult :=
  { regtestGbt with
    transactions :=
      [{ data := regtestSpend.serialize, txid := List.replicate 64 '0', fee := 0, weight := 336 }]
    length_transactions := by decide }

theorem weighed_regtestSpend : ∀ t ∈ regtestSpendGbt.transactions, ∃ tx, t.Weighed tx := by
  intro t ht
  obtain rfl : t = ⟨regtestSpend.serialize, List.replicate 64 '0', 0, 336⟩ :=
    List.mem_singleton.mp ht
  exact ⟨regtestSpend, bounded_withWitness_coinbaseTx (by decide +kernel) (Or.inl rfl), rfl,
    by decide +kernel⟩

/-- The template made of it. -/
def regtestSpendTemplate : JobTemplate :=
  (buildJobTemplate zeroHash regtestSpendGbt).toOption.get (by decide +kernel)

/-- A job made of that template. -/
def regtestSpendJob : StratumJob :=
  (buildJobForPayout "1".toList regtestSpendTemplate regtestPayout "/solo/".toList 4 4).toOption.get
    (by decide +kernel)

/-- A share of a job with a transaction. -/
theorem blockWeight_assembleBlockHex_regtest : ∃ header bytes weight,
    reconstructHeader zeroHash (plainParams regtestSpendJob) regtestSpendJob [1, 2, 3, 4] =
      .ok header ∧
    hexDecode (assembleBlockHex header (regtestSpendJob.assembleCoinbaseInto [1, 2, 3, 4] [])
      regtestSpendJob.transactions regtestSpendJob.hasWitnessCommitment) = .ok bytes ∧
    blockWeight bytes = some weight ∧ weight ≤ 4000000 := by
  obtain ⟨header, hheader⟩ := exists_of_isOk (x := reconstructHeader zeroHash
    (plainParams regtestSpendJob) regtestSpendJob [1, 2, 3, 4]) (by decide +kernel)
  have htemplate : buildJobTemplate zeroHash regtestSpendGbt = .ok regtestSpendTemplate := by
    decide +kernel
  have hjob : buildJobForPayout "1".toList regtestSpendTemplate regtestPayout "/solo/".toList 4 4 =
      .ok regtestSpendJob := by
    decide +kernel
  obtain ⟨bytes, weight, h⟩ := blockWeight_assembleBlockHex htemplate weighed_regtestSpend
    (by decide +kernel) (by decide +kernel) hjob hheader
  exact ⟨header, bytes, weight, hheader, h⟩

end BtcPool
