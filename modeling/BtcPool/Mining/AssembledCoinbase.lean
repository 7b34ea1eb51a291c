import BtcPool.Mining.FoundBlock

/-!
# The coinbase of a share

A coinbase is built once for a job, with a zeroed region for the extranonce, and filled for every
share: the pool splices the extranonce into the region, a miner puts it between the two halves it
was sent. The offset of the region is arithmetic over a part of variable length; if it were wrong,
pool and miner would agree on the same corrupt coinbase.

`assembled_coinbase_parses` reads the filled coinbase back as a transaction: whatever extranonce
fills the region, it stands at the end of the scriptSig and nothing else has changed.
-/

namespace BtcPool

open Bitcoin

/-- A coinbase that can be built gives a job that holds it. -/
theorem exists_job_of_buildCoinbase (jobId : Str) {template : JobTemplate}
    {payout : PayoutDescriptor}
    {tag : Str} {en1 en2 : ℕ} {bytes : Bytes} {offset : ℕ}
    (h : buildCoinbase template.height template.coinbaseValue payout.scriptPubkey tag en1 en2
      template.witnessCommitment = .ok (bytes, offset)) :
    ∃ job, buildJobForPayout jobId template payout tag en1 en2 = .ok job ∧
      job.coinbaseTemplate = bytes ∧ job.extranonceOffset = offset := by
  unfold buildJobForPayout
  split
  · rename_i e herror
    rw [h] at herror
    cases herror
  · rename_i coinbaseBytes extranonceOffset hbuilt
    rw [h] at hbuilt
    obtain ⟨rfl, rfl⟩ := Prod.mk.inj (Except.ok.inj hbuilt)
    exact ⟨_, rfl, rfl, rfl⟩

section Assembled

variable {template : JobTemplate} {payout : PayoutDescriptor} {tag : Str} {en1 en2 : ℕ}
  {job : StratumJob}

/-- The bytes of a filled coinbase are those of the transaction with the extranonce in its
scriptSig. -/
theorem deserialize_assembleCoinbaseInto (hjob : BuiltJob template payout tag en1 en2 job)
    {e1 e2 : Bytes} (h : e1.length + e2.length = en1 + en2) :
    deserialize (job.assembleCoinbaseInto e1 e2) =
      some (coinbaseTx (encodeBip34Height template.height ++ utf8 tag ++ (e1 ++ e2))
        template.coinbaseValue payout.scriptPubkey template.witnessCommitment) := by
  have hfilled : job.filledRegion e1 e2 = e1 ++ e2 := by
    rw [StratumJob.filledRegion, hjob.extranonce1Len, hjob.extranonce2Len, if_pos h]
  have hbytes := hjob.assembleCoinbaseInto_eq_serialize e1 e2
  have hweight := hjob.coinbase.weight
  have hlen := StratumJob.length_assembleCoinbaseInto job e1 e2
  rw [hfilled] at hbytes
  rw [hbytes] at hlen ⊢
  exact deserialize_serialize_coinbaseTx (by omega)

/-- Outside its region a filled coinbase is the one that was built. -/
theorem getElem?_assembleCoinbaseInto (hjob : BuiltJob template payout tag en1 en2 job)
    {e1 e2 : Bytes} (h : e1.length + e2.length = en1 + en2) {i : ℕ}
    (hi : i < job.extranonceOffset ∨ job.extranonceOffset + (en1 + en2) ≤ i) :
    (job.assembleCoinbaseInto e1 e2)[i]? = job.coinbaseTemplate[i]? := by
  have hlen : (e1 ++ e2).length = en1 + en2 := by rw [List.length_append, h]
  have hregion := job.region_le
  rw [hjob.extranonce1Len, hjob.extranonce2Len] at hregion
  rw [job.assembleCoinbaseInto_of_length (by rw [hjob.extranonce1Len, hjob.extranonce2Len, h])]
  exact getElem?_splice_of_outside (by omega) (by omega)

/-- The scriptSig of a coinbase that was built has at least the push of the height and one byte of
extranonce. -/
theorem length_scriptSig_bounds {height reward : UInt64} {script : Bytes} {wc : Option Bytes}
    {bytes : Bytes} {offset enTotal : ℕ}
    (h : BuiltCoinbase height reward script tag enTotal wc bytes offset) {en : Bytes}
    (hen : en.length = enTotal) :
    2 ≤ (encodeBip34Height height ++ utf8 tag ++ en).length ∧
      (encodeBip34Height height ++ utf8 tag ++ en).length ≤ 100 := by
  have hregion := h.region
  have hscript := h.scriptSig
  have hpush : 1 ≤ (encodeBip34Height height).length := by
    unfold encodeBip34Height
    split_ifs <;> simp
  simp only [List.length_append] at hscript ⊢
  omega

end Assembled

/-- Whenever a coinbase can be built, and whatever extranonce fills its region: the bytes parse as a
transaction with one input, of the null outpoint, whose scriptSig is the push of the height, the tag
and the extranonce, of two to a hundred bytes. Its first output pays the reward to the payout
script, and one more, of value zero, holds the commitment if one was given. Outside the region
nothing has changed, and the halves with the extranonce between them are the same bytes. -/
theorem assembled_coinbase_parses (jobId : Str) {template : JobTemplate} {payout : PayoutDescriptor}
    {tag : Str} {en1 en2 : ℕ} {bytes : Bytes} {offset : ℕ}
    (hbuild : buildCoinbase template.height template.coinbaseValue payout.scriptPubkey tag en1 en2
      template.witnessCommitment = .ok (bytes, offset)) :
    ∃ job, buildJobForPayout jobId template payout tag en1 en2 = .ok job ∧
      job.coinbaseTemplate = bytes ∧ job.extranonceOffset = offset ∧
      ∀ e1 e2 : Bytes, e1.length + e2.length = en1 + en2 →
        ∃ (tx : Transaction) (input : TxIn),
          deserialize (job.assembleCoinbaseInto e1 e2) = some tx ∧
          tx.input = [input] ∧ input.previousOutput = .null ∧
          input.scriptSig = encodeBip34Height template.height ++ utf8 tag ++ (e1 ++ e2) ∧
          2 ≤ input.scriptSig.length ∧ input.scriptSig.length ≤ 100 ∧
          tx.output = { value := template.coinbaseValue, scriptPubkey := payout.scriptPubkey } ::
            (template.witnessCommitment.map fun script =>
              { value := 0, scriptPubkey := script }).toList ∧
          (∀ i, i < offset ∨ offset + (en1 + en2) ≤ i →
            (job.assembleCoinbaseInto e1 e2)[i]? = bytes[i]?) ∧
          job.coinbase1 ++ e1 ++ e2 ++ job.coinbase2 = job.assembleCoinbaseInto e1 e2 := by
  obtain ⟨job, hok, rfl, rfl⟩ := exists_job_of_buildCoinbase jobId hbuild
  have hjob := (buildJobForPayout_spec hok).2
  refine ⟨job, hok, rfl, rfl, fun e1 e2 h => ?_⟩
  have hlen : (e1 ++ e2).length = en1 + en2 := by rw [List.length_append, h]
  have hbounds := length_scriptSig_bounds hjob.coinbase hlen
  exact ⟨_, _, deserialize_assembleCoinbaseInto hjob h, rfl, rfl, rfl, hbounds.1, hbounds.2, rfl,
    fun i => getElem?_assembleCoinbaseInto hjob h, hjob.coinbase_halves h⟩

/-- The regtest coinbase with one extranonce, split as no session of Stratum V1 splits it. -/
theorem assembled_coinbase_parses_regtest : ∃ (job : StratumJob) (tx : Transaction) (input : TxIn),
    deserialize (job.assembleCoinbaseInto [1, 2, 3] [4, 5, 6, 7, 8]) = some tx ∧
    tx.input = [input] ∧
      input.scriptSig = encodeBip34Height 101 ++ utf8 "/solo/".toList ++
        [1, 2, 3, 4, 5, 6, 7, 8] := by
  have hbuild : buildCoinbase regtestTemplate.height regtestTemplate.coinbaseValue
      regtestPayout.scriptPubkey "/solo/".toList 4 4 regtestTemplate.witnessCommitment =
        .ok (regtestJob.coinbaseTemplate, regtestJob.extranonceOffset) := by
    decide +kernel
  obtain ⟨job, -, -, -, hall⟩ := assembled_coinbase_parses "1".toList hbuild
  obtain ⟨tx, input, hparse, hinput, -, hscript, -⟩ := hall [1, 2, 3] [4, 5, 6, 7, 8] rfl
  exact ⟨job, tx, input, hparse, hinput, hscript⟩

end BtcPool
