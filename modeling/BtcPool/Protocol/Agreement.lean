import BtcPool.Mining.FoundBlock
import BtcPool.Protocol.Messages

/-!
# One header for both protocols

A Stratum V1 miner builds its header from the texts of `mining.notify`, a Stratum V2 device from the
fields of two binary messages, and the validator from the job and the fields of a submit. The two
functions `Sv1.Notify.minerHeader` and `Sv2.deviceHeader` say what the other side of a connection
does, from the messages alone. `headers_agree` says that all of them are the same bytes, however the
reserved width is split between the pool and the device, and that the previous hash in the header is
the reverse of the one in the template.
-/

namespace BtcPool

open Bitcoin

variable (H : Bytes → ByteVec 32)

/-! ## The other side of a connection -/

/-- The version after rolling: only negotiated bits are replaced. -/
def rolledVersion (base : UInt32) (mask bits : Option UInt32) : UInt32 :=
  match mask, bits with
  | some mask, some bits => (base &&& ~~~mask) ||| (bits &&& mask)
  | _, _ => base

/-- The merkle root of a coinbase along a branch of bytes. -/
def foldBranch (coinbase : Bytes) (branch : List Bytes) : ByteVec 32 :=
  branch.foldl (fun hash node => H (hash.toList ++ node)) (H coinbase)

/-- The header a Stratum V1 miner makes of a notification, its extranonce and its choices. -/
def Sv1.Notify.minerHeader (notify : Sv1.Notify) (extranonce1 extranonce2 : Bytes)
    (ntime nonce : UInt32) (mask bits : Option UInt32) : Option Bytes := do
  let coinbase1 ← (hexDecode notify.coinbase1).toOption
  let coinbase2 ← (hexDecode notify.coinbase2).toOption
  let branch ← (notify.merkleBranch.mapM hexDecode).toOption
  let prev ← (hexDecode notify.prevHash).toOption
  let version ← fromStrRadix16 32 notify.version
  let nbits ← fromStrRadix16 32 notify.bits
  let root := foldBranch H (coinbase1 ++ extranonce1 ++ extranonce2 ++ coinbase2) branch
  return headerBytes (rolledVersion (UInt32.ofNat version) mask bits) (wordSwap prev) root ntime
    (UInt32.ofNat nbits) nonce

/-- The header a Stratum V2 device makes of a job and the previous hash that activates it. -/
def Sv2.deviceHeader (job : Sv2.NewExtendedMiningJob) (prevHash : Sv2.SetNewPrevHash)
    (extranoncePrefix : Bytes) (submit : Sv2.SubmitExtended) : Bytes :=
  let coinbase := job.coinbaseTxPrefix ++ extranoncePrefix ++ submit.extranonce ++
    job.coinbaseTxSuffix
  let root := foldBranch H coinbase (job.merklePath.map fun node => node.toList)
  headerBytes submit.version prevHash.prevHash.toList root submit.ntime prevHash.nbits submit.nonce

variable {H}

/-! ## Versions -/

/-- Rolled bits of the mask `m` go through the wider mask `M` of the validator unchanged. -/
theorem roll_through_mask {base bits m M : UInt32} (hm : m &&& ~~~M = 0) :
    (base &&& ~~~M) ||| ((base &&& ~~~m) ||| (bits &&& m)) &&& M =
      (base &&& ~~~m) ||| (bits &&& m) := by
  rw [← UInt32.toBitVec_inj] at hm ⊢
  simp only [UInt32.toBitVec_and, UInt32.toBitVec_or, UInt32.toBitVec_not] at hm ⊢
  ext i hi
  have hbit : (m.toBitVec &&& ~~~M.toBitVec)[i] = false := by rw [hm]; simp
  simp only [BitVec.getElem_and, BitVec.getElem_or, BitVec.getElem_not] at hbit ⊢
  grind

/-- The validator's version for a Stratum V1 submit is the rolled one. -/
theorem resolveVersion_rolled {base mask : UInt32} {rolling : Bool} {bits : Option UInt32}
    (hbits : ∀ b, rolling → bits = some b → b &&& ~~~mask = 0) :
    resolveVersion base (if rolling then bits else none) (if rolling then some mask else none) =
      .ok (rolledVersion base (if rolling then some mask else none) bits) := by
  cases rolling with
  | false => rfl
  | true =>
    cases bits with
    | none => rfl
    | some b => simp [resolveVersion, rolledVersion, ensure, hbits b rfl rfl]

/-- The validator's version for a Stratum V2 submit is the one the device hashed. -/
theorem resolveVersion_device {base version : UInt32} {mask bits : Option UInt32}
    (hmask : ∀ m, mask = some m → m &&& ~~~versionRollingMask = 0)
    (hversion : version = rolledVersion base mask bits) :
    resolveVersion base (some (version &&& versionRollingMask)) (some versionRollingMask) =
      .ok version := by
  have hroll : (base &&& ~~~versionRollingMask) ||| version &&& versionRollingMask = version := by
    subst hversion
    unfold rolledVersion
    split
    · exact roll_through_mask (hmask _ rfl)
    · have h : (base &&& ~~~versionRollingMask) ||| ((base &&& ~~~0) ||| (base &&& 0)) &&&
          versionRollingMask = (base &&& ~~~0) ||| (base &&& 0) := roll_through_mask (by simp)
      simpa using h
  have hself : version &&& versionRollingMask &&& versionRollingMask =
      version &&& versionRollingMask := by rw [UInt32.and_assoc, UInt32.and_self]
  have hnone : version &&& versionRollingMask &&& ~~~versionRollingMask = 0 := by
    rw [UInt32.and_assoc, UInt32.and_not_self, UInt32.and_zero]
  simp [resolveVersion, ensure, hnone, hself, hroll]

/-! ## Texts of a job -/

theorem fromStrRadix16_hex08 (n : UInt32) : fromStrRadix16 32 (hex08 n) = some n.toNat := by
  have hlt : n.toNat < 256 ^ 4 := n.toNat_lt
  have hvalue : beNat (leBytes 4 n.toNat).reverse = n.toNat := by
    rw [beNat, List.reverse_reverse, leNat_leBytes_of_lt hlt]
  have hne : (leBytes 4 n.toNat).reverse ≠ [] := by
    rw [← List.length_pos_iff]
    simp
  rw [hex08, fromStrRadix16_hexEncode hne (by rw [hvalue]; exact hlt), hvalue]

theorem mapM_hexDecode_hexEncode (nodes : List (ByteVec 32)) :
    (nodes.map fun node => hexEncode node.toList).mapM hexDecode =
      .ok (nodes.map fun node => node.toList) := by
  induction nodes with
  | nil => rfl
  | cons node nodes ih =>
    simp only [List.map_cons, List.mapM_cons, bind_eq_ok, pure_eq_ok]
    exact ⟨_, hexDecode_hexEncode _, _, ih, rfl⟩

theorem foldBranch_eq_merkleRoot (job : StratumJob) (coinbase : Bytes) :
    foldBranch H coinbase (job.merkleBranchRaw.map fun node => node.toList) =
      job.merkleRoot H coinbase := by
  rw [foldBranch, List.foldl_map]
  rfl

/-! ## The three headers -/

section Headers

variable {gbt : GbtResult} {template : JobTemplate} {payout : PayoutDescriptor} {tag : Str}
  {en1 en2 en1' en2' : ℕ} {job job' : StratumJob}

/-- The previous hash and nBits of a job, in terms of the template's. -/
theorem fields_of_built (ht : BuiltTemplate H gbt template)
    (hj : BuiltJob template payout tag en1 en2 job) : ∃ prev nbits,
    hexDecode gbt.prevHash = .ok prev ∧ prev.length = 32 ∧
      job.prevHash = hexEncode (wordSwap prev.reverse) ∧
      fromStrRadix16 32 job.bits = some nbits := by
  obtain ⟨prev, hdecode, hlen, hprev⟩ := ht.prevHash
  obtain ⟨nbits, hnbits, -⟩ := ht.networkTarget
  exact ⟨prev, nbits, hdecode, hlen, by rw [hj.prevHash, hprev], by rw [hj.bits, ht.bits, hnbits]⟩

/-- Jobs of one template and payout have one coinbase, however its region is split. -/
theorem assembleCoinbaseInto_split (hj : BuiltJob template payout tag en1 en2 job)
    (hj' : BuiltJob template payout tag en1' en2' job') {e1 e2 e1' e2' : Bytes}
    (hlen : e1.length + e2.length = en1 + en2) (hlen' : e1'.length + e2'.length = en1' + en2')
    (hregion : e1 ++ e2 = e1' ++ e2') :
    job'.assembleCoinbaseInto e1' e2' = job.assembleCoinbaseInto e1 e2 := by
  have hfill : job.filledRegion e1 e2 = e1 ++ e2 := by
    rw [StratumJob.filledRegion, hj.extranonce1Len, hj.extranonce2Len, if_pos hlen]
  have hfill' : job'.filledRegion e1' e2' = e1' ++ e2' := by
    rw [StratumJob.filledRegion, hj'.extranonce1Len, hj'.extranonce2Len, if_pos hlen']
  rw [hj.assembleCoinbaseInto_eq_serialize, hj'.assembleCoinbaseInto_eq_serialize, hfill, hfill',
    hregion]

/-- What a Stratum V1 miner makes of the notification of a built job. -/
theorem minerHeader_buildNotify (ht : BuiltTemplate H gbt template)
    (hj : BuiltJob template payout tag en1 en2 job) {prev : Bytes} {nbits : ℕ}
    (hprev : job.prevHash = hexEncode (wordSwap prev.reverse))
    (hnbits : fromStrRadix16 32 job.bits = some nbits) {e1 e2 : Bytes}
    (hlen : e1.length + e2.length = en1 + en2) (clean : Bool) (ntime nonce : UInt32)
    (mask bits : Option UInt32) :
    (Sv1.buildNotify job clean).minerHeader H e1 e2 ntime nonce mask bits =
      some (headerBytes (rolledVersion job.version mask bits) prev.reverse
        (job.merkleRoot H (job.assembleCoinbaseInto e1 e2)) ntime (UInt32.ofNat nbits) nonce) := by
  have hbranch : job.merkleBranch.mapM hexDecode =
      .ok (job.merkleBranchRaw.map fun node => node.toList) := by
    rw [hj.merkleBranch, ht.merkleBranch, hj.merkleBranchRaw, mapM_hexDecode_hexEncode]
  simp [Sv1.Notify.minerHeader, Sv1.buildNotify, hbranch, hprev, hnbits, fromStrRadix16_hex08,
    Except.toOption, ← hj.coinbase_halves hlen, foldBranch_eq_merkleRoot]

/-- The job message of a built job fits its types. -/
theorem buildNewExtendedJob_built {W : Sv2.Wire} (hW : W.Lawful) (ht : BuiltTemplate H gbt template)
    (hj : BuiltJob template payout tag en1 en2 job) (channelId jobId : UInt32) (future : Bool) :
    Sv2.buildNewExtendedJob W job channelId jobId future = .ok {
      channelId, jobId
      minNtime := if future then none else some job.curTime
      version := job.version
      versionRollingAllowed := true
      merklePath := job.merkleBranchRaw
      coinbaseTxPrefix := job.coinbase1
      coinbaseTxSuffix := job.coinbase2 } := by
  have hweight := hj.coinbase.weight
  have hpath : W.fitsSeq0255 job.merkleBranchRaw.length :=
    (hW.fitsSeq0255_iff _).mpr (by
      rw [hj.merkleBranchRaw]
      exact ht.length_merkleBranchRaw_le.trans (by omega))
  have h1 : W.fitsB064K job.coinbase1 := (hW.fitsB064K_iff _).mpr (by
    rw [hj.coinbase1, List.length_take]
    omega)
  have h2 : W.fitsB064K job.coinbase2 := (hW.fitsB064K_iff _).mpr (by
    rw [hj.coinbase2, List.length_drop]
    omega)
  simp only [Sv2.buildNewExtendedJob, bind_eq_ok, ensure_eq_ok, pure_eq_ok]
  exact ⟨(), hpath, (), h1, (), h2, trivial⟩

/-- The message with the previous hash has it in internal order. -/
theorem buildSetNewPrevHash_built {prev : Bytes} {nbits : ℕ} (hlen : prev.length = 32)
    (hprev : job.prevHash = hexEncode (wordSwap prev.reverse))
    (hnbits : fromStrRadix16 32 job.bits = some nbits) (channelId jobId : UInt32) :
    Sv2.buildSetNewPrevHash job channelId jobId = .ok {
      channelId, jobId
      prevHash := ⟨prev.reverse, by rw [List.length_reverse, hlen]⟩
      minNtime := job.curTime
      nbits := UInt32.ofNat nbits } := by
  have hswap : Sv2.stratumPrevhashToInternal job.prevHash =
      .ok ⟨prev.reverse, by rw [List.length_reverse, hlen]⟩ := by
    simp [Sv2.stratumPrevhashToInternal, hprev, hlen]
  simp only [Sv2.buildSetNewPrevHash, bind_eq_ok, hswap, hnbits]
  exact ⟨_, rfl, rfl⟩

/-- The header the validator rebuilds for a share of a built job. -/
theorem reconstructHeader_built {prev : Bytes} {nbits : ℕ} (hlen : prev.length = 32)
    (hprev : job.prevHash = hexEncode (wordSwap prev.reverse))
    (hnbits : fromStrRadix16 32 job.bits = some nbits) {params : ShareParams} {version : UInt32}
    (hversion : resolveVersion job.version params.versionBits params.versionRollingMask =
      .ok version)
    (extranonce1 : Bytes) :
    reconstructHeader H params job extranonce1 = .ok (headerBytes version prev.reverse
      (job.merkleRoot H (job.assembleCoinbaseInto extranonce1 params.extranonce2)) params.ntime
      (UInt32.ofNat nbits) params.nonce) := by
  have hswap : hexDecodeTo 32 job.prevHash = .ok (wordSwap prev.reverse) := by
    have h := hexDecodeTo_hexEncode (wordSwap prev.reverse)
    rwa [length_wordSwap, List.length_reverse, hlen, ← hprev] at h
  exact reconstructHeader_eq_ok.mpr
    ⟨version, _, nbits, hversion, hswap, hnbits, by rw [wordSwap_wordSwap]⟩

/-- A device that works on a job under a previous hash announced earlier hashes the header the
validator rebuilds, if previous hash and nBits are the template's. -/
theorem deviceHeader_of_prevHash {W : Sv2.Wire} (ht : BuiltTemplate H gbt template)
    (hj : BuiltJob template payout tag en1 en2 job) {channelId jobId : UInt32} {future : Bool}
    {newJob : Sv2.NewExtendedMiningJob}
    (hnew : Sv2.buildNewExtendedJob W job channelId jobId future = .ok newJob)
    {announced : Sv2.SetNewPrevHash}
    (hprev : Sv2.stratumPrevhashToInternal template.prevHash = .ok announced.prevHash)
    (hnbits : ∀ nbits, fromStrRadix16 32 template.bits = some nbits →
      announced.nbits = UInt32.ofNat nbits)
    {extranoncePrefix : Bytes} {submit : Sv2.SubmitExtended}
    (hlen : extranoncePrefix.length = en1 ∧ submit.extranonce.length = en2) {bits : Option UInt32}
    (hversion : submit.version = rolledVersion template.version (some versionRollingMask) bits) :
    reconstructHeader H (submit.shareParams job.jobId) job extranoncePrefix =
      .ok (Sv2.deviceHeader H newJob announced extranoncePrefix submit) := by
  obtain ⟨prev, nbits, -, hprevLen, hjobPrev, hjobBits⟩ := fields_of_built ht hj
  have hinternal : announced.prevHash.toList = prev.reverse := by
    rw [← hj.prevHash] at hprev
    simp only [Sv2.stratumPrevhashToInternal, hjobPrev, hexDecode_hexEncode, length_wordSwap,
      List.length_reverse, hprevLen, dif_pos, wordSwap_wordSwap] at hprev
    rw [← Except.ok.inj hprev]
    rfl
  have hv : resolveVersion job.version (submit.shareParams job.jobId).versionBits
      (submit.shareParams job.jobId).versionRollingMask = .ok submit.version := by
    rw [hj.version]
    refine resolveVersion_device (fun m hm => ?_) hversion
    cases hm
    decide
  have htotal : extranoncePrefix.length + submit.extranonce.length = en1 + en2 := by
    rw [hlen.1, hlen.2]
  simp only [Sv2.buildNewExtendedJob, bind_eq_ok, ensure_eq_ok, pure_eq_ok] at hnew
  obtain ⟨-, -, -, -, -, -, rfl⟩ := hnew
  rw [reconstructHeader_built hprevLen hjobPrev hjobBits hv]
  simp only [Sv2.deviceHeader, hinternal, hnbits nbits (by rw [← hj.bits, hjobBits]),
    hj.coinbase_halves htotal, foldBranch_eq_merkleRoot]
  rfl

/-- For a template the pool accepted, the header a Stratum V1 miner makes of its notification, the
header a Stratum V2 device makes of its two messages and the header the validator rebuilds for
either submit are the same 80 bytes, when both fill the reserved region with the same bytes and use
the same time, nonce and rolled version. Its previous hash is the template's in reverse. -/
theorem headers_agree {W : Sv2.Wire} (hW : W.Lawful) {jobId jobId' : Str}
    (htemplate : buildJobTemplate H gbt = .ok template)
    (hjob : buildJobForPayout jobId template payout tag en1 en2 = .ok job)
    (hjob' : buildJobForPayout jobId' template payout tag en1' en2' = .ok job')
    (extranonce1 extranoncePrefix : Bytes) (params : Sv1.SubmitParams) (submit : Sv2.SubmitExtended)
    (hlen : extranonce1.length = en1 ∧ params.extranonce2.length = en2)
    (hlen' : extranoncePrefix.length = en1' ∧ submit.extranonce.length = en2')
    (hregion : extranonce1 ++ params.extranonce2 = extranoncePrefix ++ submit.extranonce)
    (rolling : Bool) (mask : UInt32) (hmask : mask &&& ~~~versionRollingMask = 0)
    (hbits : ∀ bits, rolling → params.versionBits = some bits → bits &&& ~~~mask = 0)
    (hversion : submit.version =
      rolledVersion job.version (if rolling then some mask else none) params.versionBits)
    (htime : submit.ntime = params.ntime) (hnonce : submit.nonce = params.nonce)
    (channelId sv2JobId : UInt32) (clean future : Bool) :
    ∃ header prev newJob setPrev, hexDecode gbt.prevHash = .ok prev ∧
      Sv2.buildNewExtendedJob W job' channelId sv2JobId future = .ok newJob ∧
      Sv2.buildSetNewPrevHash job' channelId sv2JobId = .ok setPrev ∧
      (Sv1.buildNotify job clean).minerHeader H extranonce1 params.extranonce2 params.ntime
        params.nonce (if rolling then some mask else none) params.versionBits = some header ∧
      Sv2.deviceHeader H newJob setPrev extranoncePrefix submit = header ∧
      reconstructHeader H (params.shareParams rolling mask) job extranonce1 = .ok header ∧
      reconstructHeader H (submit.shareParams job'.jobId) job' extranoncePrefix = .ok header ∧
      (∀ entry d now result, validateShareNoDedup H (params.shareParams rolling mask) job entry
        extranonce1 d now = .ok result → result.hash = H header) ∧
      (∀ entry d now result, validateShareNoDedup H (submit.shareParams job'.jobId) job' entry
        extranoncePrefix d now = .ok result → result.hash = H header) ∧
      header.length = 80 ∧ (header.drop 4).take 32 = prev.reverse := by
  have ht := buildJobTemplate_spec H htemplate
  obtain ⟨-, hj⟩ := buildJobForPayout_spec hjob
  obtain ⟨-, hj'⟩ := buildJobForPayout_spec hjob'
  obtain ⟨prev, nbits, hdecode, hprevLen, hprev, hnbits⟩ := fields_of_built ht hj
  have hprev' : job'.prevHash = hexEncode (wordSwap prev.reverse) := by
    rw [hj'.prevHash, ← hj.prevHash, hprev]
  have hnbits' : fromStrRadix16 32 job'.bits = some nbits := by rw [hj'.bits, ← hj.bits, hnbits]
  have htotal : extranonce1.length + params.extranonce2.length = en1 + en2 := by
    rw [hlen.1, hlen.2]
  have htotal' : extranoncePrefix.length + submit.extranonce.length = en1' + en2' := by
    rw [hlen'.1, hlen'.2]
  have hroot : ∀ cb, job'.merkleRoot H cb = job.merkleRoot H cb := fun cb => by
    rw [StratumJob.merkleRoot, hj'.merkleBranchRaw, ← hj.merkleBranchRaw]
    rfl
  have hcb := assembleCoinbaseInto_split hj hj' htotal htotal' hregion
  have hreverse : prev.reverse.length = 32 := by rw [List.length_reverse, hprevLen]
  let header := headerBytes
    (rolledVersion job.version (if rolling then some mask else none) params.versionBits)
      prev.reverse
    (job.merkleRoot H (job.assembleCoinbaseInto extranonce1 params.extranonce2)) params.ntime
    (UInt32.ofNat nbits) params.nonce
  have hsv1 : reconstructHeader H (params.shareParams rolling mask) job extranonce1 = .ok header :=
    reconstructHeader_built hprevLen hprev hnbits (resolveVersion_rolled hbits) extranonce1
  have hsv2 : reconstructHeader H (submit.shareParams job'.jobId) job' extranoncePrefix =
      .ok header := by
    have hv : resolveVersion job'.version (submit.shareParams job'.jobId).versionBits
        (submit.shareParams job'.jobId).versionRollingMask = .ok submit.version := by
      rw [hj'.version, ← hj.version]
      refine resolveVersion_device ?_ hversion
      intro m hm
      split at hm
      · cases hm
        exact hmask
      · cases hm
    rw [reconstructHeader_built hprevLen hprev' hnbits' hv, hroot]
    simp only [Sv2.SubmitExtended.shareParams, hcb, hversion, htime, hnonce, header]
  refine ⟨header, prev, _, _, hdecode,
    buildNewExtendedJob_built hW ht hj' channelId sv2JobId future,
    buildSetNewPrevHash_built hprevLen hprev' hnbits' channelId sv2JobId,
    minerHeader_buildNotify ht hj hprev hnbits htotal clean .., ?_, hsv1, hsv2,
    fun _ _ _ _ h => hash_of_validateShareNoDedup h hsv1,
    fun _ _ _ _ h => hash_of_validateShareNoDedup h hsv2,
    length_headerBytes hreverse, headerBytes_prev hreverse⟩
  simp only [Sv2.deviceHeader, hj'.coinbase_halves htotal', foldBranch_eq_merkleRoot, hroot, hcb,
    hversion, htime, hnonce]
  rfl

/-- The regtest template, with the region split four and four for one miner and two and six for a
device, and a rolled version. -/
theorem headers_agree_regtest : ∃ job' header newJob setPrev,
    buildJobForPayout "2".toList regtestTemplate regtestPayout "/solo/".toList 2 6 = .ok job' ∧
    Sv2.buildNewExtendedJob .exact job' 7 1 true = .ok newJob ∧
    Sv2.buildSetNewPrevHash job' 7 1 = .ok setPrev ∧
    (Sv1.buildNotify regtestJob true).minerHeader zeroHash [1, 2, 3, 4] [5, 6, 7, 8]
      1700000001 42 (some 0x2000) (some 0x2000) = some header ∧
    Sv2.deviceHeader zeroHash newJob setPrev [1, 2] ⟨3, 1, 42, 1700000001, 0x20002000,
      [3, 4, 5, 6, 7, 8]⟩ = header ∧ header.length = 80 := by
  obtain ⟨job', hjob'⟩ : ∃ job',
      buildJobForPayout "2".toList regtestTemplate regtestPayout "/solo/".toList 2 6 =
        .ok job' := by
    have h : (buildJobForPayout "2".toList regtestTemplate regtestPayout "/solo/".toList 2
        6).isOk := by
      decide +kernel
    cases hb : buildJobForPayout "2".toList regtestTemplate regtestPayout "/solo/".toList 2 6 with
    | error e => rw [hb] at h; cases h
    | ok job' => exact ⟨job', rfl⟩
  have hversion : regtestJob.version = 0x20000000 := by decide +kernel
  obtain ⟨header, -, newJob, setPrev, -, hnew, hset, hminer, hdevice, -, -, -, -, hlen, -⟩ :=
    headers_agree Sv2.Wire.lawful_exact (buildJobTemplate_regtestGbt zeroHash)
      buildJobForPayout_regtestTemplate hjob' [1, 2, 3, 4] [1, 2]
      ⟨[], "1".toList, [5, 6, 7, 8], 1700000001, 42, some 0x2000⟩
      ⟨3, 1, 42, 1700000001, 0x20002000, [3, 4, 5, 6, 7, 8]⟩ (by decide) (by decide) (by decide)
      true 0x2000 (by decide) (by intro bits _ h; cases h; decide) (by rw [hversion]; decide)
      rfl rfl 7 1 true true
  exact ⟨job', header, newJob, setPrev, hjob', hnew, hset, hminer, hdevice, hlen⟩

end Headers

end BtcPool
