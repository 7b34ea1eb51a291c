import BtcPool.Mining.Validator

/-!
# Found blocks

What comes of a share whose hash meets the network target.

The validator compares the hash with the share target before it compares it with the network target.
`noBlockLost_iff` says when that order is harmless: every header that meets the network target of a
job is reported as a block, for every hash function and every share, exactly when the network target
is at most the share target. On a chain whose target is easier than the operator's floor the order
loses blocks (`regtest_block_lost`).

`block_wellFormed` is about the blocks that are reported: the text submitted is the header, the
shortest count, the coinbase and the transactions of the template, the coinbase carries the witness
reserved value exactly when it carries the commitment and has the txid the header commits to, and
the hash meets the target of the header's own nBits.
-/

namespace BtcPool

open Bitcoin

/-! ## No block is lost -/

section Lost

/-- Meeting the network target is meeting the share target, for every hash, when the network target
is the smaller one. -/
theorem networkTarget_le_iff (target : ByteVec 32) (d : UInt64) :
    beNat target.toList ≤ beNat (difficultyToTarget d).toList ↔
      beNat target.toList * max d.toNat 1 ≤ diff1 := by
  rw [beNat_difficultyToTarget, Nat.le_div_iff_mul_le (by omega)]

/-- No valid block of the job is thrown away at the difficulty `d`: a share of it that is not
superseded and passes the checks of ntime and version is reported as a block whenever its hash meets
the network target, whatever the hash function. -/
def NoBlockLost (job : StratumJob) (d : UInt64) : Prop :=
  ∀ (H : Bytes → ByteVec 32) (params : ShareParams) (jobEntry : JobEntry) (extranonce1 : Bytes)
    (now : UInt32) (header : Bytes), jobEntry.supersededByClean = false →
    job.curTime ≤ params.ntime → params.ntime.toNat ≤ ntimeCeiling job.curTime now →
    reconstructHeader H params job extranonce1 = .ok header →
    meetsTarget (H header) job.networkTarget →
    ∃ hashDifficulty blockHex,
      validateShareNoDedup H params job jobEntry extranonce1 d now =
        .ok (.block hashDifficulty blockHex (H header))

/-- A share of the job at the earliest time, without rolled bits. -/
def plainParams (job : StratumJob) : ShareParams where
  jobId := job.jobId
  extranonce2 := []
  ntime := job.curTime
  nonce := 0
  versionBits := none
  versionRollingMask := none

/-- For a job whose header can be built, as that of every job of the pool: no block of it is lost at
the difficulty `d` exactly when its network target is at most the share target of `d`. -/
theorem noBlockLost_iff (job : StratumJob) (d : UInt64) {prev : Bytes} {bits : ℕ}
    (hprev : hexDecodeTo 32 job.prevHash = .ok prev)
    (hbits : fromStrRadix16 32 job.bits = some bits) :
    NoBlockLost job d ↔ beNat job.networkTarget.toList * max d.toNat 1 ≤ diff1 := by
  rw [← networkTarget_le_iff]
  constructor
  · intro hblock
    -- the hash that just meets the network target
    let H : Bytes → ByteVec 32 := fun _ =>
      ⟨job.networkTarget.toList.reverse,
        by rw [List.length_reverse, job.networkTarget.toList_length]⟩
    have hvalue : ∀ x, leNat (H x).toList = beNat job.networkTarget.toList := fun _ => rfl
    obtain ⟨header, hheader⟩ : ∃ header,
        reconstructHeader H (plainParams job) job [] = .ok header :=
      ⟨_, reconstructHeader_eq_ok.mpr ⟨job.version, prev, bits, rfl, hprev, hbits, rfl⟩⟩
    have hnow : (plainParams job).ntime.toNat ≤ ntimeCeiling job.curTime job.curTime := by
      have hlt := job.curTime.toNat_lt
      simp only [plainParams, ntimeCeiling, saturatingAdd, min_self]
      omega
    obtain ⟨hd, hex, hok⟩ := hblock H (plainParams job) ⟨job, false, d⟩ [] job.curTime header rfl
      (UInt32.le_refl _) hnow hheader ((meetsTarget_iff ..).mpr (hvalue header).le)
    obtain ⟨header', hvalidated, -⟩ := validateShareNoDedup_eq_ok.mp hok
    exact (hvalue header').ge.trans ((meetsTarget_iff ..).mp hvalidated.meets)
  · intro hle H params jobEntry extranonce1 now header hlive hearly hlate hheader hmeets
    have hnetwork := (meetsTarget_iff ..).mp hmeets
    have hshare : meetsTarget (H header) (difficultyToTarget d) :=
      (meetsTarget_iff ..).mpr (hnetwork.trans hle)
    exact ⟨_, _, validateShareNoDedup_eq_ok.mpr
      ⟨header, ⟨hlive, hearly, hlate, hheader, hshare⟩, (shareResult_of_meets hmeets).symm⟩⟩

theorem regtestJob_fields : hexDecodeTo 32 regtestJob.prevHash = .ok (List.replicate 32 0) ∧
    fromStrRadix16 32 regtestJob.bits = some 0x207fffff := by
  decide +kernel

/-- On regtest a floor of one loses blocks. -/
theorem noBlockLost_iff_regtest : ¬ NoBlockLost regtestJob 1 := by
  rw [noBlockLost_iff regtestJob 1 regtestJob_fields.1 regtestJob_fields.2]
  decide +kernel

/-- At a floor of one, a regtest block whose hash is above the difficulty-one target is refused as a
low share. -/
theorem regtest_block_lost :
    let H : Bytes → ByteVec 32 := fun _ => placeBytes 29 [1] (by decide)
    ∃ header, reconstructHeader H (plainParams regtestJob) regtestJob [1, 2, 3, 4] = .ok header ∧
      meetsTarget (H header) regtestJob.networkTarget ∧
      validateShareNoDedup H (plainParams regtestJob) regtestJob ⟨regtestJob, false, 1⟩
        [1, 2, 3, 4] 1 regtestJob.curTime = .error .lowDifficulty := by
  exact ⟨_, reconstructHeader_eq_ok.mpr ⟨regtestJob.version, _, _, rfl, regtestJob_fields.1,
    regtestJob_fields.2, rfl⟩, by decide +kernel, by decide +kernel⟩

end Lost

/-! ## The fields of a header -/

section Fields

variable {version : UInt32} {prev : Bytes} {root : ByteVec 32} {ntime bits nonce : UInt32}

theorem headerBytes_prev (h : prev.length = 32) :
    ((headerBytes version prev root ntime bits nonce).drop 4).take 32 = prev := by
  simp only [headerBytes, List.append_assoc]
  exact take_drop_middle (length_encodeU32 _) h

theorem headerBytes_root (h : prev.length = 32) :
    ((headerBytes version prev root ntime bits nonce).drop 36).take 32 = root.toList := by
  have hsplit : headerBytes version prev root ntime bits nonce =
      (encodeU32 version ++ prev) ++ (root.toList ++ (encodeU32 ntime ++ encodeU32 bits ++
        encodeU32 nonce)) := by simp [headerBytes]
  rw [hsplit]
  exact take_drop_middle (by simp [h]) root.toList_length

theorem headerBytes_bits (h : prev.length = 32) :
    ((headerBytes version prev root ntime bits nonce).drop 72).take 4 = encodeU32 bits := by
  have hsplit : headerBytes version prev root ntime bits nonce =
      (encodeU32 version ++ prev ++ root.toList ++ encodeU32 ntime) ++
        (encodeU32 bits ++ encodeU32 nonce) := by simp [headerBytes]
  rw [hsplit]
  exact take_drop_middle (by simp [h]) (length_encodeU32 _)

end Fields

/-- The target nBits denotes when its sign bit is clear: a mantissa of three bytes, shifted by whole
bytes. -/
def nBitsTarget (nBits : ℕ) : ℕ := nBits % 2 ^ 24 * 256 ^ (nBits / 2 ^ 24) / 256 ^ 3

theorem compactValue_eq_nBitsTarget {bits : ℕ} (hlt : bits < 2 ^ 32)
    (hsign : bits.testBit 23 = false) : compactValue (UInt32.ofNat bits) = nBitsTarget bits := by
  have hnat : (UInt32.ofNat bits).toNat = bits := by
    rw [UInt32.toNat_ofNat']
    exact Nat.mod_eq_of_lt hlt
  have hexp : compactExponent (UInt32.ofNat bits) = bits / 2 ^ 24 := by
    rw [compactExponent, UInt32.toNat_and, UInt32.toNat_shiftRight, hnat]
    change (bits >>> 24) &&& (2 ^ 8 - 1) = _
    rw [Nat.and_two_pow_sub_one_eq_mod, Nat.shiftRight_eq_div_pow, Nat.mod_eq_of_lt (by omega)]
  have hmant : (compactMantissa (UInt32.ofNat bits)).toNat = bits % 2 ^ 24 := by
    have hbit : bits / 2 ^ 23 % 2 = 0 := by
      rw [Nat.testBit_eq_decide_div_mod_eq] at hsign
      have := of_decide_eq_false hsign
      omega
    rw [compactMantissa, UInt32.toNat_and, hnat]
    change bits &&& (2 ^ 23 - 1) = _
    rw [Nat.and_two_pow_sub_one_eq_mod]
    omega
  rw [compactValue, nBitsTarget, hexp, hmant]

/-! ## The coinbase of a block -/

/-- The count of transactions is written in its shortest form. -/
theorem encodeVarint_eq (n : UInt64) : encodeVarint n = compactSize n.toNat := by
  have hlt := n.toNat_lt
  have h8 : n.toUInt8 = UInt8.ofNat n.toNat := rfl
  unfold encodeVarint compactSize
  simp only [UInt64.lt_iff_toNat_lt, UInt64.le_iff_toNat_le, UInt64.reduceToNat]
  split_ifs with h1 h2 h3
  · rw [h8]
  · rw [UInt64.toNat_toUInt16, Nat.mod_eq_of_lt (by omega)]
  · rw [UInt64.toNat_toUInt32, Nat.mod_eq_of_lt (by omega)]
  · rfl

/-- The coinbase with the given items in the witness of its input. -/
def withWitness (tx : Transaction) (witness : List Bytes) : Transaction :=
  { tx with input := tx.input.map fun i => { i with witness } }

/-- Every count in a coinbase fits when its serialization has a length that fits. -/
theorem bounded_withWitness_coinbaseTx {s : Bytes} {reward : UInt64} {script : Bytes}
    {wc : Option Bytes} {witness : List Bytes}
    (hlen : (coinbaseTx s reward script wc).serialize.length < 2 ^ 64)
    (hw : witness = [] ∨ witness = [witnessReservedValue]) :
    (withWitness (coinbaseTx s reward script wc) witness).Bounded := by
  have hparts := length_parts_coinbaseTx s reward script wc
  have houts : ∀ o ∈ (coinbaseTx s reward script wc).output, o.scriptPubkey.length < 2 ^ 64 :=
    fun o ho => lt_of_le_of_lt (hparts.2 o ho) hlen
  refine ⟨by simp [withWitness, coinbaseTx], ?_, ?_, ?_, ?_, houts⟩
  · cases wc <;> simp [withWitness, coinbaseTx]
  · simpa [withWitness, coinbaseTx] using lt_of_le_of_lt hparts.1 hlen
  · rcases hw with rfl | rfl <;> simp [withWitness, coinbaseTx]
  · rcases hw with rfl | rfl <;> simp [withWitness, coinbaseTx, witnessReservedValue]

/-- The txid does not depend on the witness. -/
theorem stripped_withWitness_coinbaseTx (s : Bytes) (reward : UInt64) (script : Bytes)
    (wc : Option Bytes) (witness : List Bytes) :
    (withWitness (coinbaseTx s reward script wc) witness).stripped =
      (coinbaseTx s reward script wc).serialize := by
  rw [Transaction.stripped_eq_serialize (usesSegwit_coinbaseTx ..)]
  rfl

/-- A coinbase can be read back from its bytes. -/
theorem deserialize_serialize_coinbaseTx {s : Bytes} {reward : UInt64} {script : Bytes}
    {wc : Option Bytes} (hlen : (coinbaseTx s reward script wc).serialize.length < 2 ^ 64) :
    deserialize (coinbaseTx s reward script wc).serialize = some (coinbaseTx s reward script wc) :=
  deserialize_serialize (bounded_withWitness_coinbaseTx hlen (Or.inl rfl))

/-- What the block carries as its coinbase: the hashed one, with the reserved value if committed. -/
theorem blockCoinbase_eq {s : Bytes} {reward : UInt64} {script : Bytes} {wc : Option Bytes}
    (hlen : (coinbaseTx s reward script wc).serialize.length < 2 ^ 64) :
    (if wc.isSome then coinbaseWithWitnessReservedValue (coinbaseTx s reward script wc).serialize
      else none).getD (coinbaseTx s reward script wc).serialize =
    (withWitness (coinbaseTx s reward script wc)
      (if wc.isSome then [witnessReservedValue] else [])).serialize := by
  cases wc with
  | none => rfl
  | some c =>
    simp only [Option.isSome_some, if_true, coinbaseWithWitnessReservedValue,
      deserialize_serialize_coinbaseTx hlen]
    rfl

/-! ## The block that is submitted -/

/-- The block's coinbase pays the value to the script in its first output. -/
def BlockPays (blockHex : Str) (value : UInt64) (scriptPubkey : Bytes) : Prop :=
  ∃ (header : Bytes) (count : ℕ) (tx : Transaction) (rest : Bytes),
    hexDecode blockHex = .ok (header ++ compactSize count ++ tx.serialize ++ rest) ∧
    header.length = 80 ∧ deserialize tx.serialize = some tx ∧
    tx.output.head? = some { value, scriptPubkey }

section Submitted

variable {H : Bytes → ByteVec 32} {gbt : GbtResult} {template : JobTemplate} {jobId : Str}
  {payout : PayoutDescriptor} {tag : Str} {en1 en2 : ℕ} {job : StratumJob} {params : ShareParams}
  {jobEntry : JobEntry} {extranonce1 : Bytes} {d : UInt64} {now : UInt32} {hd : UInt64}
  {blockHex : Str} {hash : ByteVec 32}

/-- A block result stands for a validated header that meets the network target. -/
theorem validated_of_block
    (h : validateShareNoDedup H params job jobEntry extranonce1 d now =
      .ok (.block hd blockHex hash)) :
    ∃ header, Validated H params job jobEntry extranonce1 d now header ∧ hash = H header ∧
      meetsTarget (H header) job.networkTarget ∧
      blockHex = assembleBlockHex header (job.assembleCoinbaseInto extranonce1 params.extranonce2)
        job.transactions job.hasWitnessCommitment := by
  obtain ⟨header, hvalidated, hresult⟩ := validateShareNoDedup_eq_ok.mp h
  unfold shareResult at hresult
  dsimp only at hresult
  split at hresult
  · rename_i hmeets
    cases hresult
    exact ⟨header, hvalidated, rfl, hmeets, rfl⟩
  · cases hresult

/-- The bytes of a submitted block, with the coinbase as a transaction. -/
theorem hexDecode_assembleBlockHex (hjob : BuiltJob template payout tag en1 en2 job)
    (header e1 e2 : Bytes) :
    ∃ tx : Transaction,
      hexDecode (assembleBlockHex header (job.assembleCoinbaseInto e1 e2) job.transactions
        job.hasWitnessCommitment) =
        .ok (header ++ compactSize (UInt64.ofNat (1 + job.transactions.length)).toNat ++
          tx.serialize ++ job.transactions.flatten) ∧
      deserialize tx.serialize = some tx ∧
      tx = withWitness (coinbaseTx (encodeBip34Height template.height ++ utf8 tag ++
          job.filledRegion e1 e2) template.coinbaseValue payout.scriptPubkey
          template.witnessCommitment)
        (if template.witnessCommitment.isSome then [witnessReservedValue] else []) := by
  have hcb := hjob.assembleCoinbaseInto_eq_serialize e1 e2
  have hlen : (coinbaseTx (encodeBip34Height template.height ++ utf8 tag ++ job.filledRegion e1 e2)
      template.coinbaseValue payout.scriptPubkey template.witnessCommitment).serialize.length <
        2 ^ 64 := by
    have hweight := hjob.coinbase.weight
    rw [← hcb, StratumJob.length_assembleCoinbaseInto]
    omega
  refine ⟨_, ?_, deserialize_serialize (bounded_withWitness_coinbaseTx hlen ?_), rfl⟩
  · rw [assembleBlockHex, hexDecode_hexEncode, encodeVarint_eq, hjob.hasWitnessCommitment, hcb,
      blockCoinbase_eq hlen]
  · split
    · exact Or.inr rfl
    · exact Or.inl rfl

/-- A block the pool submits decodes to the hashed header, the shortest count of its transactions,
one coinbase and the transactions of the template, with nothing left over. The coinbase has the txid
the header's merkle root was folded from, and a witness of one item of 32 zero bytes exactly when it
has the commitment output. The hash is at most the target of the header's own nBits. -/
theorem block_wellFormed (htemplate : buildJobTemplate H gbt = .ok template)
    (hsign : ∀ bits, fromStrRadix16 32 gbt.bits = some bits → bits.testBit 23 = false)
    (hjob : buildJobForPayout jobId template payout tag en1 en2 = .ok job)
    (hblock : validateShareNoDedup H params job jobEntry extranonce1 d now =
      .ok (.block hd blockHex hash)) :
    ∃ (header count : Bytes) (tx : Transaction) (input : TxIn),
      hexDecode blockHex = .ok (header ++ count ++ tx.serialize ++
        (gbt.transactions.map fun t => t.data).flatten) ∧
      header.length = 80 ∧ reconstructHeader H params job extranonce1 = .ok header ∧
      hash = H header ∧
      (IsCompactSize (1 + gbt.transactions.length) count ∧
        ∀ other, IsCompactSize (1 + gbt.transactions.length) other → count.length ≤ other.length) ∧
      deserialize tx.serialize = some tx ∧
      tx.computeTxid H = H (job.assembleCoinbaseInto extranonce1 params.extranonce2) ∧
      (header.drop 36).take 32 =
        (job.merkleRoot H (job.assembleCoinbaseInto extranonce1 params.extranonce2)).toList ∧
      tx.input = [input] ∧
      tx.output = { value := gbt.coinbaseValue, scriptPubkey := payout.scriptPubkey } ::
        (template.witnessCommitment.map fun script =>
          { value := 0, scriptPubkey := script }).toList ∧
      (input.witness = [List.replicate 32 0] ↔ tx.output.tail ≠ []) ∧
      (input.witness ≠ [List.replicate 32 0] → input.witness = []) ∧
      leNat hash.toList ≤ nBitsTarget (leNat ((header.drop 72).take 4)) := by
  have ht := buildJobTemplate_spec H htemplate
  obtain ⟨-, hj⟩ := buildJobForPayout_spec hjob
  obtain ⟨header, hvalidated, rfl, hmeets, rfl⟩ := validated_of_block hblock
  obtain ⟨version, prev, bits, -, hprev, hbits, hheader⟩ :=
    reconstructHeader_eq_ok.mp hvalidated.header_eq
  have hprevLen : (wordSwap prev).length = 32 := by
    rw [length_wordSwap, length_of_hexDecodeTo hprev]
  have htxs : job.transactions = gbt.transactions.map fun t => t.data :=
    hj.transactions.trans ht.transactions
  have hcount : job.transactions.length = gbt.transactions.length := by simp [htxs]
  have hbound := gbt.length_transactions
  have hn : (UInt64.ofNat (1 + gbt.transactions.length)).toNat = 1 + gbt.transactions.length := by
    rw [UInt64.toNat_ofNat']
    exact Nat.mod_eq_of_lt (by omega)
  obtain ⟨tx, hdecode, hround, htx⟩ := hexDecode_assembleBlockHex hj header extranonce1
    params.extranonce2
  refine ⟨header, compactSize (1 + gbt.transactions.length), tx, _,
    by rw [hdecode, hcount, hn, htxs], ?_, hvalidated.header_eq, rfl,
    compactSize_shortest (by omega), hround, ?_, ?_, by rw [htx]; rfl, ?_, ?_, ?_, ?_⟩
  · rw [hheader, length_headerBytes hprevLen]
  · rw [Transaction.computeTxid, htx, stripped_withWitness_coinbaseTx,
      hj.assembleCoinbaseInto_eq_serialize]
  · rw [hheader, headerBytes_root hprevLen]
  · rw [htx, ← ht.coinbaseValue]
    rfl
  · rw [htx]
    cases template.witnessCommitment <;>
      simp [withWitness, coinbaseTx, witnessReservedValue]
  · cases template.witnessCommitment <;> simp [witnessReservedValue]
  · obtain ⟨n, hn, htarget⟩ := ht.networkTarget
    have hnb : bits = n := by
      rw [hj.bits, ht.bits, hn] at hbits
      exact (Option.some.inj hbits).symm
    have hlt := fromStrRadix16_lt hn
    have hfield : leNat ((header.drop 72).take 4) = n := by
      rw [hheader, headerBytes_bits hprevLen, encodeU32, leNat_leBytes, hnb, UInt32.toNat_ofNat']
      omega
    rw [hfield, ← compactValue_eq_nBitsTarget hlt (hsign n hn), ← beNat_compactToTarget htarget,
      ← hj.networkTarget]
    exact (meetsTarget_iff ..).mp hmeets

/-- A hash function all of whose values meet every target. -/
def zeroHash : Bytes → ByteVec 32 := fun _ => List.Vector.replicate 32 0

/-- A share of the regtest job that fills its region. -/
def regtestParams : ShareParams := { plainParams regtestJob with extranonce2 := [5, 6, 7, 8] }

theorem validateShareNoDedup_regtestParams : ∃ hd blockHex hash,
    validateShareNoDedup zeroHash regtestParams regtestJob ⟨regtestJob, false, 1⟩ [1, 2, 3, 4] 1
      regtestJob.curTime = .ok (.block hd blockHex hash) := by
  have hzero : ∀ header, meetsTarget (zeroHash header) regtestJob.networkTarget := by
    intro header
    change meetsTarget (List.Vector.replicate 32 0) regtestJob.networkTarget
    decide +kernel
  refine ⟨_, _, _, validateShareNoDedup_eq_ok.mpr ⟨_, ⟨rfl, by decide +kernel, by decide +kernel,
    reconstructHeader_eq_ok.mpr ⟨regtestJob.version, _, _, rfl, regtestJob_fields.1,
      regtestJob_fields.2, rfl⟩, ?_⟩, (shareResult_of_meets (hzero _)).symm⟩⟩
  change meetsTarget (List.Vector.replicate 32 0) (difficultyToTarget 1)
  decide +kernel

/-- The regtest job gives such a block. -/
theorem block_wellFormed_regtest :
    ∃ (header count : Bytes) (tx : Transaction) (input : TxIn) (blockHex : Str),
      hexDecode blockHex = .ok (header ++ count ++ tx.serialize ++ []) ∧ header.length = 80 ∧
      tx.input = [input] ∧ (input.witness = [List.replicate 32 0] ↔ tx.output.tail ≠ []) := by
  obtain ⟨hd, blockHex, hash, hblock⟩ := validateShareNoDedup_regtestParams
  have hbits : fromStrRadix16 32 regtestGbt.bits = some 0x207fffff := by decide +kernel
  have hsign : ∀ bits, fromStrRadix16 32 regtestGbt.bits = some bits → bits.testBit 23 = false := by
    intro bits h
    rw [hbits] at h
    cases h
    decide
  obtain ⟨header, count, tx, input, hdecode, hlen, -, -, -, -, -, -, hinput, -, hwitness, -⟩ :=
    block_wellFormed (buildJobTemplate_regtestGbt zeroHash) hsign buildJobForPayout_regtestTemplate
      hblock
  exact ⟨header, count, tx, input, blockHex, hdecode, hlen, hinput, hwitness⟩

end Submitted

end BtcPool
