import BtcPool.Bitcoin.Coinbase
import BtcPool.Bitcoin.MerkleBranch
import BtcPool.Bitcoin.Target
import BtcPool.Mining.Identity
import Mathlib.Data.UInt

/-!
# Templates and jobs

How a getblocktemplate result becomes work. `buildJobTemplate` makes the part that does not depend
on a payout, once per refresh; `buildJobForPayout` adds the coinbase that pays to one identity and
gives a `StratumJob`, the job a miner is sent and the validator later rebuilds headers from.

What either returns is said once, in `buildJobTemplate_spec` and `buildJobForPayout_spec`; later
proofs use these and never the definitions. A job carries the fact that its extranonce region lies
inside its coinbase, so filling the region is total. With the region filled to its width the
coinbase is the serialization of `coinbaseTx` with the two parts of the extranonce in the scriptSig
(`assembleCoinbaseInto_eq_serialize`); at any other width the region stays zero.

`merkleRoot_computeMerkleBranchRaw` says that the branch computed without the coinbase leads to the
merkle root of the whole block.
-/

namespace BtcPool.Bitcoin

/-! ## getblocktemplate results -/

/-- A transaction of a template, as the node lists it. -/
structure GbtTransaction where
  data : Bytes
  txid : Str
  fee : UInt64
  weight : UInt64
deriving DecidableEq

/-- A getblocktemplate result. Its transactions are a vector in memory, hence the bound. -/
structure GbtResult where
  version : UInt32
  prevHash : Str
  bits : Str
  curTime : UInt32
  height : UInt64
  coinbaseValue : UInt64
  transactions : List GbtTransaction
  defaultWitnessCommitment : Option Str
  rules : List Str
  vbrequired : UInt32
  length_transactions : transactions.length < 2 ^ 63 := by decide

/-! ## Rules and tripwires -/

/-- The bits a miner may change (BIP320). -/
def versionRollingMask : UInt32 := 0x1fffe000

/-- The consensus rules the pool knows. -/
def supportedGbtRules : List Str := ["csv".toList, "segwit".toList, "taproot".toList]

/-- Equality up to the case of letters. -/
def eqIgnoreAsciiCase (a b : Str) : Bool := a.map Char.toLower == b.map Char.toLower

/-- The name of a rule marked as one a client must understand. -/
def stripBang : Str → Option Str
  | '!' :: name => some name
  | _ => none

/-- The mandatory rules of a template that the pool does not know. -/
def unsupportedGbtRules (gbt : GbtResult) : List Str :=
  let unsupported := (gbt.rules.filterMap stripBang).filter fun name =>
    !(supportedGbtRules.any fun known => eqIgnoreAsciiCase known name)
  let rollableRequired := gbt.vbrequired &&& versionRollingMask
  if rollableRequired ≠ 0 then
    unsupported ++ ["vbrequired:0x".toList ++ hex08 rollableRequired]
  else unsupported

/-- Whether a template says that segwit is in force. -/
def announcesSegwit (rules : List Str) : Bool :=
  rules.any fun rule => eqIgnoreAsciiCase ((stripBang rule).getD rule) "segwit".toList

/-- The weight consensus allows in a block. -/
def maxBlockWeight : UInt64 := 4000000

/-- The new coins of a block at a height. -/
def blockSubsidy (height : UInt64) : UInt64 :=
  let halvings := height / 210000
  if halvings ≥ 64 then 0 else (50 * 100000000) >>> halvings

/-- The node's transactions must leave room for the coinbase. The sums are those of a `u64`. -/
def checkBlockWeight (gbt : GbtResult) : Except PoolError Unit :=
  let txWeight := (gbt.transactions.map fun tx => tx.weight).sum
  let reserve := UInt64.ofNat coinbaseWeightReserve
  let total := (80 + 3) * 4 + txWeight + reserve
  ensure (total ≤ maxBlockWeight)
    (.other (s!"template transactions weigh {txWeight} WU; with block overhead and " ++
      s!"the {reserve} WU coinbase reserve that is {total} WU, " ++
      s!"over the {maxBlockWeight} WU consensus limit"))

/-- Whether the coinbase value is reported not to be the subsidy and the fees. -/
def checkCoinbaseValue (gbt : GbtResult) : Bool :=
  let fees := (gbt.transactions.map fun tx => tx.fee).sum
  let expected := min ((blockSubsidy gbt.height).toNat + fees.toNat) (2 ^ 64 - 1)
  expected ≠ gbt.coinbaseValue.toNat

/-! ## Job templates -/

/-- A template in the form jobs are made from. -/
structure JobTemplate where
  prevHash : Str
  merkleBranch : List Str
  merkleBranchRaw : List (ByteVec 32)
  version : UInt32
  bits : Str
  curTime : UInt32
  height : UInt64
  networkTarget : ByteVec 32
  transactions : List Bytes
  coinbaseValue : UInt64
  witnessCommitment : Option Bytes
deriving DecidableEq

/-- The previous block hash in Stratum order: internal order with every word swapped. -/
def stratumPrevHash (coreHex : Str) : Except PoolError Str := do
  let bytes ← (hexDecode coreHex).mapError fun _ => .other "Invalid prev_hash hex"
  ensure (bytes.length = 32) (.other "prev_hash must be 32 bytes")
  return hexEncode (wordSwap bytes.reverse)

/-- A merkle leaf: the txid in internal byte order. -/
def decodeTxid (txid : Str) : Except PoolError (ByteVec 32) :=
  match h : hexDecodeTo 32 txid with
  | .ok bytes => .ok ⟨bytes.reverse, by rw [List.length_reverse, length_of_hexDecodeTo h]⟩
  | .error e =>
    let shown := String.quote txid.show
    let text := e.text
    .error (.other s!"template txid {shown}: {text}")

/-- The bytes of the witness commitment a template carries. -/
def decodeWitnessCommitment : Option Str → Except PoolError (Option Bytes)
  | none => .ok none
  | some text => do
    let bytes ← (hexDecode text).mapError fun e =>
      let why := e.text
      PoolError.other s!"witness commitment hex: {why}"
    return some bytes

variable (H : Bytes → ByteVec 32)

/-- The checks of a template and what jobs need of it. -/
def buildJobTemplate (gbt : GbtResult) : Except PoolError JobTemplate := do
  let txTxids ← gbt.transactions.mapM fun tx => decodeTxid tx.txid
  let merkleBranchRaw := computeMerkleBranchRaw H txTxids
  let merkleBranch := merkleBranchRaw.map fun h => hexEncode h.toList
  let witnessCommitment ← decodeWitnessCommitment gbt.defaultWitnessCommitment
  ensure (¬ (announcesSegwit gbt.rules ∧ witnessCommitment = none))
    (.other ("template announces the segwit rule but carries no " ++
      "default_witness_commitment; a block built from it would be rejected " ++
      "as bad-witness-merkle-match"))
  checkBlockWeight gbt
  let prevHash ← stratumPrevHash gbt.prevHash
  let networkTarget ← bitsToTarget gbt.bits
  return {
    prevHash, merkleBranch, merkleBranchRaw
    version := gbt.version
    bits := gbt.bits
    curTime := gbt.curTime
    height := gbt.height
    networkTarget
    transactions := gbt.transactions.map fun tx => tx.data
    coinbaseValue := gbt.coinbaseValue
    witnessCommitment }

/-- What a template accepted by the pool is, in terms of the result it was made from. -/
structure BuiltTemplate (gbt : GbtResult) (template : JobTemplate) : Prop where
  version : template.version = gbt.version
  bits : template.bits = gbt.bits
  curTime : template.curTime = gbt.curTime
  height : template.height = gbt.height
  coinbaseValue : template.coinbaseValue = gbt.coinbaseValue
  transactions : template.transactions = gbt.transactions.map fun tx => tx.data
  merkleBranch : template.merkleBranch = template.merkleBranchRaw.map fun h => hexEncode h.toList
  merkleBranchRaw : ∃ txids, gbt.transactions.mapM (fun tx => decodeTxid tx.txid) = .ok txids ∧
    template.merkleBranchRaw = computeMerkleBranchRaw H txids
  prevHash : ∃ bytes, hexDecode gbt.prevHash = .ok bytes ∧ bytes.length = 32 ∧
    template.prevHash = hexEncode (wordSwap bytes.reverse)
  networkTarget : ∃ bits, fromStrRadix16 32 gbt.bits = some bits ∧
    compactToTarget (UInt32.ofNat bits) = .ok template.networkTarget

theorem buildJobTemplate_spec {gbt : GbtResult} {template : JobTemplate}
    (h : buildJobTemplate H gbt = .ok template) : BuiltTemplate H gbt template := by
  simp only [buildJobTemplate, stratumPrevHash, bind_eq_ok, ensure_eq_ok, pure_eq_ok] at h
  obtain ⟨txids, htxids, wc, -, -, -, -, -, prev, ⟨bytes, hdecode, -, hlen, rfl⟩, target, htarget,
    rfl⟩ := h
  refine ⟨rfl, rfl, rfl, rfl, rfl, rfl, rfl, ⟨txids, htxids, rfl⟩,
    ⟨bytes, ok_of_mapError hdecode, hlen, rfl⟩, ?_⟩
  unfold bitsToTarget at htarget
  split at htarget
  · cases htarget
  · exact ⟨_, ‹_›, htarget⟩

variable {H} in
/-- The branch of a template has at most one node for each doubling of the transactions. -/
theorem BuiltTemplate.length_merkleBranchRaw_le {gbt : GbtResult} {template : JobTemplate}
    (h : BuiltTemplate H gbt template) : template.merkleBranchRaw.length ≤ 63 := by
  obtain ⟨txids, htxids, hbranch⟩ := h.merkleBranchRaw
  rw [hbranch, computeMerkleBranchRaw_eq]
  apply Merkle.length_siblings_le
  rw [length_of_mapM_eq_ok htxids]
  exact gbt.length_transactions

/-! ## Jobs -/

/-- A job for one payout. The two halves of the coinbase are what a miner is sent; the reserved
extranonce region lies inside the coinbase. -/
structure StratumJob where
  jobId : Str
  prevHash : Str
  coinbase1 : Bytes
  coinbase2 : Bytes
  merkleBranch : List Str
  merkleBranchRaw : List (ByteVec 32)
  version : UInt32
  bits : Str
  curTime : UInt32
  height : UInt64
  networkTarget : ByteVec 32
  coinbaseTemplate : Bytes
  extranonceOffset : ℕ
  extranonce1Len : ℕ
  extranonce2Len : ℕ
  transactions : List Bytes
  payoutAddress : Str
  hasWitnessCommitment : Bool
  region_le : extranonceOffset + (extranonce1Len + extranonce2Len) ≤ coinbaseTemplate.length
deriving DecidableEq

/-- The low half of a job id is a sequence number, the high half the epoch of the process. -/
def nextJobId (epoch seq : UInt64) : Str :=
  let id := epoch ||| (seq &&& 0xffffffff)
  hexEncode (leBytes 8 id.toNat).reverse

/-- The region of a built coinbase lies inside its scriptSig. -/
theorem BuiltCoinbase.region_le {height reward : UInt64} {script : Bytes} {tag : Str} {enTotal : ℕ}
    {wc : Option Bytes} {bytes : Bytes} {offset : ℕ}
    (h : BuiltCoinbase height reward script tag enTotal wc bytes offset) :
    offset + enTotal ≤ bytes.length := by
  have hscript := h.scriptSig
  have hhead := length_coinbaseHead (n := (encodeBip34Height height ++ utf8 tag ++
    List.replicate enTotal 0).length) (by simpa [Nat.add_assoc] using hscript)
  rw [h.bytes_eq, serialize_coinbaseTx, h.offset_eq]
  simp only [List.length_append, List.length_replicate] at hhead ⊢
  omega

/-- Materialize a template for a payout; the id of the job is given. -/
def buildJobForPayout (jobId : Str) (template : JobTemplate) (payout : PayoutDescriptor)
    (coinbaseTag : Str) (extranonce1Len extranonce2Len : ℕ) : Except PoolError StratumJob :=
  match h : buildCoinbase template.height template.coinbaseValue payout.scriptPubkey coinbaseTag
      extranonce1Len extranonce2Len template.witnessCommitment with
  | .error e => .error e
  | .ok (coinbaseBytes, extranonceOffset) =>
    let enTotal := extranonce1Len + extranonce2Len
    .ok {
      jobId
      prevHash := template.prevHash
      coinbase1 := coinbaseBytes.take extranonceOffset
      coinbase2 := coinbaseBytes.drop (extranonceOffset + enTotal)
      merkleBranch := template.merkleBranch
      merkleBranchRaw := template.merkleBranchRaw
      version := template.version
      bits := template.bits
      curTime := template.curTime
      height := template.height
      networkTarget := template.networkTarget
      coinbaseTemplate := coinbaseBytes
      extranonceOffset
      extranonce1Len
      extranonce2Len
      transactions := template.transactions
      payoutAddress := payout.address
      hasWitnessCommitment := template.witnessCommitment.isSome
      region_le := (buildCoinbase_spec h).region_le }

/-- What a job is, in terms of the template and the payout it was made for. -/
structure BuiltJob (template : JobTemplate) (payout : PayoutDescriptor) (tag : Str)
    (en1 en2 : ℕ) (job : StratumJob) : Prop where
  prevHash : job.prevHash = template.prevHash
  coinbase1 : job.coinbase1 = job.coinbaseTemplate.take job.extranonceOffset
  coinbase2 : job.coinbase2 = job.coinbaseTemplate.drop (job.extranonceOffset + (en1 + en2))
  merkleBranch : job.merkleBranch = template.merkleBranch
  merkleBranchRaw : job.merkleBranchRaw = template.merkleBranchRaw
  version : job.version = template.version
  bits : job.bits = template.bits
  curTime : job.curTime = template.curTime
  height : job.height = template.height
  networkTarget : job.networkTarget = template.networkTarget
  extranonce1Len : job.extranonce1Len = en1
  extranonce2Len : job.extranonce2Len = en2
  transactions : job.transactions = template.transactions
  payoutAddress : job.payoutAddress = payout.address
  hasWitnessCommitment : job.hasWitnessCommitment = template.witnessCommitment.isSome
  coinbase : BuiltCoinbase template.height template.coinbaseValue payout.scriptPubkey tag
    (en1 + en2) template.witnessCommitment job.coinbaseTemplate job.extranonceOffset

theorem buildJobForPayout_spec {jobId : Str} {template : JobTemplate} {payout : PayoutDescriptor}
    {tag : Str} {en1 en2 : ℕ} {job : StratumJob}
    (h : buildJobForPayout jobId template payout tag en1 en2 = .ok job) :
    job.jobId = jobId ∧ BuiltJob template payout tag en1 en2 job := by
  unfold buildJobForPayout at h
  split at h
  · cases h
  · rename_i hbuilt
    cases h
    exact ⟨rfl, ⟨rfl, rfl, rfl, rfl, rfl, rfl, rfl, rfl, rfl, rfl, rfl, rfl, rfl, rfl, rfl,
      buildCoinbase_spec hbuilt⟩⟩

/-- The job was built from the template, for some payout and some widths. -/
def BuiltFrom (template : JobTemplate) (job : StratumJob) : Prop :=
  ∃ payout tag en1 en2, BuiltJob template payout tag en1 en2 job

theorem builtFrom_of_ok {jobId : Str} {template : JobTemplate} {payout : PayoutDescriptor}
    {tag : Str} {en1 en2 : ℕ} {job : StratumJob}
    (h : buildJobForPayout jobId template payout tag en1 en2 = .ok job) : BuiltFrom template job :=
  ⟨payout, tag, en1, en2, (buildJobForPayout_spec h).2⟩

/-! ## The coinbase of a share -/

namespace StratumJob

/-- The buffer after the prefix and the miner's extranonce were spliced into the reserved region;
parts that do not fill it exactly leave it as it is. -/
def assembleCoinbaseInto (job : StratumJob) (extranonce1 extranonce2 : Bytes) : Bytes :=
  let cb := job.coinbaseTemplate
  let off := job.extranonceOffset
  let total := job.extranonce1Len + job.extranonce2Len
  let p := extranonce1.length
  let m := extranonce2.length
  if p + m ≠ total then cb else splice (splice cb off extranonce1) (off + p) extranonce2

/-- The merkle root of a block with the given coinbase. -/
def merkleRoot (job : StratumJob) (coinbase : Bytes) : ByteVec 32 :=
  job.merkleBranchRaw.foldl (fun hash branch => H (hash.toList ++ branch.toList)) (H coinbase)

/-- What the reserved region holds when the two parts are spliced in. -/
def filledRegion (job : StratumJob) (extranonce1 extranonce2 : Bytes) : Bytes :=
  if extranonce1.length + extranonce2.length = job.extranonce1Len + job.extranonce2Len then
    extranonce1 ++ extranonce2
  else List.replicate (job.extranonce1Len + job.extranonce2Len) 0

@[simp] theorem length_filledRegion (job : StratumJob) (e1 e2 : Bytes) :
    (job.filledRegion e1 e2).length = job.extranonce1Len + job.extranonce2Len := by
  unfold filledRegion
  split
  · simpa using ‹_›
  · simp

theorem assembleCoinbaseInto_of_length (job : StratumJob) {e1 e2 : Bytes}
    (h : e1.length + e2.length = job.extranonce1Len + job.extranonce2Len) :
    job.assembleCoinbaseInto e1 e2 =
      splice job.coinbaseTemplate job.extranonceOffset (e1 ++ e2) := by
  have hregion := job.region_le
  rw [assembleCoinbaseInto, if_neg (by simp [h]), splice_splice (by omega)]

/-- Everything outside the region is the template's. -/
theorem length_assembleCoinbaseInto (job : StratumJob) (e1 e2 : Bytes) :
    (job.assembleCoinbaseInto e1 e2).length = job.coinbaseTemplate.length := by
  have hregion := job.region_le
  by_cases h : e1.length + e2.length = job.extranonce1Len + job.extranonce2Len
  · rw [assembleCoinbaseInto_of_length job h, length_splice (by simpa [h] using hregion)]
  · rw [assembleCoinbaseInto, if_pos h]

/-- The region of an assembled coinbase, when the parts fill it. -/
theorem region_assembleCoinbaseInto (job : StratumJob) {e1 e2 : Bytes}
    (h : e1.length + e2.length = job.extranonce1Len + job.extranonce2Len) :
    ((job.assembleCoinbaseInto e1 e2).drop job.extranonceOffset).take
      (job.extranonce1Len + job.extranonce2Len) = e1 ++ e2 := by
  have hregion := job.region_le
  have hlen : (e1 ++ e2).length = job.extranonce1Len + job.extranonce2Len := by simpa using h
  rw [assembleCoinbaseInto_of_length job h, ← hlen]
  exact take_drop_splice (by omega)

end StratumJob

namespace BuiltJob

variable {H} {template : JobTemplate} {payout : PayoutDescriptor} {tag : Str} {en1 en2 : ℕ}
  {job : StratumJob}

/-- The coinbase of a share is a serialized transaction, with the filled region in its scriptSig. -/
theorem assembleCoinbaseInto_eq_serialize (hjob : BuiltJob template payout tag en1 en2 job)
    (e1 e2 : Bytes) :
    job.assembleCoinbaseInto e1 e2 =
      (coinbaseTx (encodeBip34Height template.height ++ utf8 tag ++ job.filledRegion e1 e2)
        template.coinbaseValue payout.scriptPubkey template.witnessCommitment).serialize := by
  have hcb := hjob.coinbase
  have htotal : job.extranonce1Len + job.extranonce2Len = en1 + en2 := by
    rw [hjob.extranonce1Len, hjob.extranonce2Len]
  by_cases h : e1.length + e2.length = job.extranonce1Len + job.extranonce2Len
  · rw [StratumJob.assembleCoinbaseInto_of_length job h, StratumJob.filledRegion, if_pos h,
      hcb.bytes_eq, hcb.offset_eq]
    refine splice_serialize_coinbaseTx ?_ ?_ _ _ _
    · simp [h, htotal]
    · simpa using hcb.scriptSig
  · rw [StratumJob.assembleCoinbaseInto, if_pos h, StratumJob.filledRegion, if_neg h, htotal,
      ← hcb.bytes_eq]

/-- The halves a miner is sent, with the parts of the extranonce between them. -/
theorem coinbase_halves (hjob : BuiltJob template payout tag en1 en2 job) {e1 e2 : Bytes}
    (h : e1.length + e2.length = en1 + en2) :
    job.coinbase1 ++ e1 ++ e2 ++ job.coinbase2 = job.assembleCoinbaseInto e1 e2 := by
  have htotal : e1.length + e2.length = job.extranonce1Len + job.extranonce2Len := by
    rw [hjob.extranonce1Len, hjob.extranonce2Len, h]
  rw [StratumJob.assembleCoinbaseInto_of_length job htotal, hjob.coinbase1, hjob.coinbase2, splice]
  simp [h]

end BuiltJob

/-! ## The merkle root -/

/-- For every list of txids and every coinbase, folding the coinbase with the branch that was
computed without it gives the merkle root of the block, and the loop that computes the branch stops
after finitely many passes, with this branch. -/
theorem merkleRoot_computeMerkleBranchRaw (txids : List (ByteVec 32)) (coinbase : Bytes)
    (job : StratumJob) :
    some (StratumJob.merkleRoot H
        { job with merkleBranchRaw := computeMerkleBranchRaw H txids } coinbase) =
      Merkle.root (merkleNode H) (H coinbase :: txids) ∧
    ∃ n, (∀ m < n, 1 < ((mergeLevel H)^[m] (branchStart txids)).level.length) ∧
      ¬ 1 < ((mergeLevel H)^[n] (branchStart txids)).level.length ∧
      ((mergeLevel H)^[n] (branchStart txids)).branch = computeMerkleBranchRaw H txids := by
  refine ⟨?_, ?_⟩
  · rw [Merkle.root_cons, computeMerkleBranchRaw_eq]
    rfl
  · obtain ⟨n, hlong, hiter, -⟩ := exists_iterate_mergeLevel H txids []
    refine ⟨n, hlong, ?_, ?_⟩
    · rw [branchStart, hiter]
      simp
    · rw [branchStart, hiter, computeMerkleBranchRaw_eq]
      simp

/-! ## A regtest template -/

/-- A template of a fresh regtest chain: no transactions, the easiest target, a commitment. -/
def regtestGbt : GbtResult where
  version := 0x20000000
  prevHash := List.replicate 64 '0'
  bits := "207fffff".toList
  curTime := 1700000000
  height := 101
  coinbaseValue := 5000000000
  transactions := []
  defaultWitnessCommitment := some ("6a24aa21a9ed".toList ++ List.replicate 64 '0')
  rules := ["csv".toList, "!segwit".toList, "taproot".toList]
  vbrequired := 0

/-- The template made of it. -/
def regtestTemplate : JobTemplate where
  prevHash := List.replicate 64 '0'
  merkleBranch := []
  merkleBranchRaw := []
  version := 0x20000000
  bits := "207fffff".toList
  curTime := 1700000000
  height := 101
  networkTarget := placeBytes 0 [0x7f, 0xff, 0xff] (by decide)
  transactions := []
  coinbaseValue := 5000000000
  witnessCommitment := some ([0x6a, 0x24, 0xaa, 0x21, 0xa9, 0xed] ++ List.replicate 32 0)

theorem buildJobTemplate_regtestGbt : buildJobTemplate H regtestGbt = .ok regtestTemplate := by
  rfl

/-- A regtest address and its script. -/
def regtestPayout : PayoutDescriptor where
  address := "bcrt1qqurswpc8qurswpc8qurswpc8qurswpc8dxm0gk".toList
  scriptPubkey := [0x00, 0x14] ++ List.replicate 20 0x07

/-- The job made of it for one payout, with four bytes for each side of the extranonce. -/
def regtestJob : StratumJob :=
  (buildJobForPayout "1".toList regtestTemplate regtestPayout "/solo/".toList 4 4).toOption.get
    (by decide +kernel)

theorem buildJobForPayout_regtestTemplate :
    buildJobForPayout "1".toList regtestTemplate regtestPayout "/solo/".toList 4 4 =
      .ok regtestJob := by
  decide +kernel

end BtcPool.Bitcoin
