import BtcPool.Mining.SessionCore

/-!
# What a header determines

Two shares of one session with the same 80-byte header agree in everything that goes into a header,
provided the hash is injective on what was hashed for their merkle roots: in the coinbase and so in
the miner's part of the extranonce, in the branch, the time, the nonce and the version. That is the
content of `key_eq_of_header_eq`; the shares must be `Regular`, of the extranonce size the session
was given and with a version that is the job's outside the rolled bits and the key's inside.

The jobs may still be different ones. `SameWork` says of two templates that a share of a job of one
can have the header of a share of a job of the other.
-/

namespace BtcPool

open Bitcoin

/-! ## Coinbases -/

section Coinbase

variable {s s' : Bytes} {reward reward' : UInt64} {script script' : Bytes} {wc wc' : Option Bytes}

theorem coinbaseTx_inj (hlen : (coinbaseTx s reward script wc).serialize.length < 2 ^ 64)
    (h : (coinbaseTx s reward script wc).serialize =
      (coinbaseTx s' reward' script' wc').serialize) :
    s = s' ∧ reward = reward' ∧ wc = wc' := by
  have htx : coinbaseTx s reward script wc = coinbaseTx s' reward' script' wc' := by
    have hread := deserialize_serialize_coinbaseTx (h ▸ hlen)
    rw [← h, deserialize_serialize_coinbaseTx hlen] at hread
    exact Option.some.inj hread
  simp only [coinbaseTx, Transaction.mk.injEq, List.cons.injEq, TxIn.mk.injEq, TxOut.mk.injEq,
    true_and, and_true] at htx
  obtain ⟨hs, ⟨hreward, -⟩, hwc⟩ := htx
  refine ⟨hs, hreward, ?_⟩
  cases wc <;> cases wc' <;> simp_all

/-- A coinbase that pays to a standard script is longer than two hashes. -/
theorem lt_length_coinbaseTx (hs : s ≠ []) (hscript : 4 ≤ script.length) :
    64 < (coinbaseTx s reward script wc).serialize.length := by
  have hpos := List.length_pos_iff.mpr hs
  have hsize : ∀ n, 1 ≤ (compactSize n).length := by
    intro n
    unfold compactSize
    split_ifs <;> simp
  have h1 := hsize 1
  have h2 := hsize s.length
  have h3 := hsize script.length
  have h4 := hsize (coinbaseTx [] reward script wc).output.length
  rw [serialize_coinbaseTx]
  simp only [coinbaseHead, coinbaseTail, coinbaseTx, varList, List.flatMap_cons, TxOut.encode,
    varBytes, List.length_append, length_encodeU32, length_encodeU64, List.Vector.toList_length]
    at h4 ⊢
  omega

end Coinbase

/-! ## Rolled versions -/

theorem and_eq_self_of_and_not {x m : UInt32} (h : x &&& ~~~m = 0) : x &&& m = x := by
  rw [← UInt32.toBitVec_inj] at h ⊢
  simp only [UInt32.toBitVec_and, UInt32.toBitVec_not] at h ⊢
  ext i hi
  have hbit : (x.toBitVec &&& ~~~m.toBitVec)[i] = false := by rw [h]; simp
  simp only [BitVec.getElem_and, BitVec.getElem_not] at hbit ⊢
  grind

/-- A version is taken apart at the mask. -/
theorem rolled_inj {v v' b b' m : UInt32} (hb : b &&& ~~~m = 0) (hb' : b' &&& ~~~m = 0)
    (h : (v &&& ~~~m) ||| b = (v' &&& ~~~m) ||| b') : v &&& ~~~m = v' &&& ~~~m ∧ b = b' := by
  have hpart : ∀ i (hi : i < 32), (v.toBitVec &&& ~~~m.toBitVec)[i] =
      (v'.toBitVec &&& ~~~m.toBitVec)[i] ∧ b.toBitVec[i] = b'.toBitVec[i] := by
    intro i hi
    rw [← UInt32.toBitVec_inj] at hb hb' h
    simp only [UInt32.toBitVec_and, UInt32.toBitVec_or, UInt32.toBitVec_not] at hb hb' h
    have hbit : (b.toBitVec &&& ~~~m.toBitVec)[i] = false := by rw [hb]; simp
    have hbit' : (b'.toBitVec &&& ~~~m.toBitVec)[i] = false := by rw [hb']; simp
    have hor := congrArg (fun x : BitVec 32 => x[i]) h
    simp only [BitVec.getElem_and, BitVec.getElem_or, BitVec.getElem_not] at hbit hbit' hor ⊢
    grind
  constructor
  · rw [← UInt32.toBitVec_inj, UInt32.toBitVec_and, UInt32.toBitVec_and, UInt32.toBitVec_not]
    ext i hi
    exact (hpart i hi).1
  · rw [← UInt32.toBitVec_inj]
    ext i hi
    exact (hpart i hi).2

/-! ## Shares -/

/-- The bytes hashed for a node of the merkle tree. -/
def hashPair (left right : ByteVec 32) : Bytes := left.toList ++ right.toList

theorem hashPair_inj {x y x' y' : ByteVec 32} (h : hashPair x y = hashPair x' y') :
    x = x' ∧ y = y' := by
  obtain ⟨hx, hy⟩ := List.append_inj h (by simp)
  exact ⟨Subtype.ext hx, Subtype.ext hy⟩

namespace AcceptedShare

/-- The coinbase of a share. -/
def coinbase (share : AcceptedShare) : Bytes :=
  share.entry.job.assembleCoinbaseInto share.session.extranonce1 share.params.extranonce2

/-- The header a share stands for. -/
def header (H : Bytes → ByteVec 32) (share : AcceptedShare) : Except PoolError Bytes :=
  reconstructHeader H share.params share.entry.job share.session.extranonce1

/-- Everything hashed for the merkle root of a share. -/
def hashed (H : Bytes → ByteVec 32) (share : AcceptedShare) : Set Bytes :=
  Merkle.pathInputs H hashPair share.coinbase share.entry.job.merkleBranchRaw

/-- Everything hashed for the merkle roots of shares. -/
def hashedBy (H : Bytes → ByteVec 32) (shares : List AcceptedShare) : Set Bytes :=
  {x | ∃ share ∈ shares, x ∈ share.hashed H}

theorem hashed_subset_hashedBy {H : Bytes → ByteVec 32} {shares : List AcceptedShare}
    {share : AcceptedShare} (h : share ∈ shares) : share.hashed H ⊆ hashedBy H shares :=
  fun _ hx => ⟨share, h, hx⟩

/-- Everything hashed for shares: for the merkle roots, and the headers. -/
def hashInputs (H : Bytes → ByteVec 32) (shares : List AcceptedShare) : Set Bytes :=
  hashedBy H shares ∪ {x | ∃ share ∈ shares, share.header H = .ok x}

/-- In blocks without transactions only the coinbases are hashed for the merkle roots. -/
theorem subsingleton_hashedBy {H : Bytes → ByteVec 32} {shares : List AcceptedShare}
    (hbranch : ∀ a ∈ shares, a.entry.job.merkleBranchRaw = [])
    (hcoinbase : ∀ a ∈ shares, ∀ b ∈ shares, a.coinbase = b.coinbase) :
    (hashedBy H shares).Subsingleton := by
  have hmem : ∀ x ∈ hashedBy H shares, ∃ a ∈ shares, x = a.coinbase := by
    rintro x ⟨a, ha, rfl | ⟨front, s, hstart, -⟩⟩
    · exact ⟨a, ha, rfl⟩
    · rw [hbranch a ha, List.prefix_nil] at hstart
      simp at hstart
  intro x hx y hy
  obtain ⟨a, ha, rfl⟩ := hmem x hx
  obtain ⟨b, hb, rfl⟩ := hmem y hy
  exact hcoinbase a ha b hb

/-- Shares of one coinbase and one header that hash to different values. -/
theorem injOn_hashInputs {H : Bytes → ByteVec 32} {shares : List AcceptedShare}
    (hbranch : ∀ a ∈ shares, a.entry.job.merkleBranchRaw = [])
    (hcoinbase : ∀ a ∈ shares, ∀ b ∈ shares, a.coinbase = b.coinbase)
    (hheader : ∀ a ∈ shares, ∀ b ∈ shares, a.header H = b.header H)
    (hne : ∀ a ∈ shares, (a.header H).map H ≠ .ok (H a.coinbase)) :
    Set.InjOn H (hashInputs H shares) := by
  have hroots := subsingleton_hashedBy (H := H) hbranch hcoinbase
  have hsub : {x | ∃ a ∈ shares, a.header H = .ok x}.Subsingleton := by
    rintro x ⟨a, ha, hx⟩ y ⟨b, hb, hy⟩
    have heq := hheader a ha b hb
    rw [hx, hy] at heq
    exact Except.ok.inj heq
  have hdiffer : ∀ x ∈ hashedBy H shares, ∀ y ∈ {x | ∃ a ∈ shares, a.header H = .ok x},
      H x ≠ H y := by
    rintro x hx y ⟨b, hb, hy⟩ heq
    have hcb : x = b.coinbase := hroots hx ⟨b, hb, Or.inl rfl⟩
    refine hne b hb ?_
    rw [hy, ← hcb, heq]
    rfl
  refine (Set.injOn_union ?_).mpr ⟨hroots.injOn H, hsub.injOn H, hdiffer⟩
  exact Set.disjoint_left.mpr fun x hx hx' => hdiffer x hx x hx' rfl

/-- The extranonce has the size the session was given, and the version is the job's outside the mask
and the key's inside. -/
structure Regular (share : AcceptedShare) : Prop where
  extranonce2 : share.params.extranonce2.length = share.session.extranonce2Size
  bits : share.key.versionBits &&& ~~~share.session.rollMask = 0
  version : resolveVersion share.entry.job.version share.params.versionBits
      share.params.versionRollingMask =
    .ok ((share.entry.job.version &&& ~~~share.session.rollMask) ||| share.key.versionBits)

/-- A regular share of a job of the template, in a session with the given extranonce and mask. -/
structure Made (R : Core.Rules) (extranonce1 : Bytes) (size : ℕ) (mask : UInt32)
    (template : JobTemplate) (share : AcceptedShare) : Prop where
  acceptable : Core.Acceptable R share
  regular : share.Regular
  extranonce1_eq : share.session.extranonce1 = extranonce1
  size_eq : share.session.extranonce2Size = size
  mask_eq : share.session.rollMask = mask
  built : ∃ payout, BuiltJob template payout R.tag extranonce1.length size share.entry.job

end AcceptedShare

/-- A share of a job of one template can be, with the same header, a share of a job of the other:
what goes into a header is the same but for the bits of the mask, and there is a time good for
both. -/
structure SameWork (mask : UInt32) (t t' : JobTemplate) : Prop where
  bip34 : encodeBip34Height t.height = encodeBip34Height t'.height
  coinbaseValue : t.coinbaseValue = t'.coinbaseValue
  witnessCommitment : t.witnessCommitment = t'.witnessCommitment
  merkleBranchRaw : t.merkleBranchRaw = t'.merkleBranchRaw
  prevHash : hexDecodeTo 32 t.prevHash = hexDecodeTo 32 t'.prevHash
  bits : fromStrRadix16 32 t.bits = fromStrRadix16 32 t'.bits
  version : t.version &&& ~~~mask = t'.version &&& ~~~mask
  notLater : t.curTime.toNat ≤ t'.curTime.toNat + maxNtimeDriftSecs
  notEarlier : t'.curTime.toNat ≤ t.curTime.toNat + maxNtimeDriftSecs

theorem SameWork.symm {mask : UInt32} {t t' : JobTemplate} (h : SameWork mask t t') :
    SameWork mask t' t :=
  ⟨h.bip34.symm, h.coinbaseValue.symm, h.witnessCommitment.symm, h.merkleBranchRaw.symm,
    h.prevHash.symm, h.bits.symm, h.version.symm, h.notEarlier, h.notLater⟩

/-- A hash that tells inputs apart by their length, and whose values meet every target of the
pool. -/
def lengthHash (bs : Bytes) : ByteVec 32 := placeBytes 0 [UInt8.ofNat bs.length] (by simp)

/-! ## Shares with one header -/

namespace AcceptedShare.Made

variable {R : Core.Rules} {extranonce1 : Bytes} {size : ℕ} {mask : UInt32} {t t' : JobTemplate}
  {a b : AcceptedShare}

theorem coinbase_eq (h : a.Made R extranonce1 size mask t) {payout : PayoutDescriptor}
    (hbuilt : BuiltJob t payout R.tag extranonce1.length size a.entry.job) :
    a.coinbase = (coinbaseTx (encodeBip34Height t.height ++ utf8 R.tag ++
      (extranonce1 ++ a.params.extranonce2)) t.coinbaseValue payout.scriptPubkey
      t.witnessCommitment).serialize := by
  have hfill : extranonce1.length + a.params.extranonce2.length =
      a.entry.job.extranonce1Len + a.entry.job.extranonce2Len := by
    rw [hbuilt.extranonce1Len, hbuilt.extranonce2Len, h.regular.extranonce2, h.size_eq]
  rw [coinbase, hbuilt.assembleCoinbaseInto_eq_serialize, h.extranonce1_eq, StratumJob.filledRegion,
    if_pos hfill]

theorem length_coinbase_lt (h : a.Made R extranonce1 size mask t) : a.coinbase.length < 2 ^ 64 := by
  obtain ⟨payout, hbuilt⟩ := h.built
  have hweight := hbuilt.coinbase.weight
  rw [coinbase, StratumJob.length_assembleCoinbaseInto]
  omega

/-- A coinbase that pays to a standard script is not a node of the tree. -/
theorem hashPair_ne_coinbase (h : a.Made R extranonce1 size mask t) {payout : PayoutDescriptor}
    (hbuilt : BuiltJob t payout R.tag extranonce1.length size a.entry.job)
    (hscript : 4 ≤ payout.scriptPubkey.length) (x y : ByteVec 32) : hashPair x y ≠ a.coinbase := by
  intro heq
  have hregion := hbuilt.coinbase.region
  have hsize : (extranonce1 ++ a.params.extranonce2).length = extranonce1.length + size := by
    rw [List.length_append, h.regular.extranonce2, h.size_eq]
  have hne : encodeBip34Height t.height ++ utf8 R.tag ++ (extranonce1 ++ a.params.extranonce2) ≠
      [] := by
    refine List.append_ne_nil_of_right_ne_nil _ (List.length_pos_iff.mp ?_)
    omega
  have hlong : 64 < a.coinbase.length := by
    rw [h.coinbase_eq hbuilt]
    exact lt_length_coinbaseTx hne hscript
  have hshort : a.coinbase.length = 64 := by
    rw [← heq]
    simp [hashPair]
  omega

/-- One coinbase means one extranonce, and templates that agree in what is in it. -/
theorem coinbase_inj (ha : a.Made R extranonce1 size mask t)
    (hb : b.Made R extranonce1 size mask t')
    (h : a.coinbase = b.coinbase) :
    encodeBip34Height t.height = encodeBip34Height t'.height ∧ t.coinbaseValue = t'.coinbaseValue ∧
      t.witnessCommitment = t'.witnessCommitment ∧ a.params.extranonce2 = b.params.extranonce2 := by
  obtain ⟨payout, hbuilt⟩ := ha.built
  obtain ⟨payout', hbuilt'⟩ := hb.built
  have hlen := ha.length_coinbase_lt
  rw [ha.coinbase_eq hbuilt, hb.coinbase_eq hbuilt'] at h
  rw [ha.coinbase_eq hbuilt] at hlen
  obtain ⟨hscript, hvalue, hwc⟩ := coinbaseTx_inj hlen h
  have hsize : a.params.extranonce2.length = b.params.extranonce2.length := by
    rw [ha.regular.extranonce2, hb.regular.extranonce2, ha.size_eq, hb.size_eq]
  obtain ⟨hfront, hregion⟩ := List.append_inj' hscript (by simp [hsize])
  exact ⟨List.append_cancel_right hfront, hvalue, hwc, List.append_cancel_left hregion⟩

/-- The header of a share, in terms of its template. -/
theorem header_eq (h : a.Made R extranonce1 size mask t) :
    ∃ prev bits, hexDecodeTo 32 t.prevHash = .ok prev ∧ fromStrRadix16 32 t.bits = some bits ∧
      a.header R.H =
        .ok (headerBytes ((t.version &&& ~~~mask) ||| a.key.versionBits) (wordSwap prev)
        (Merkle.pathRoot R.H hashPair a.coinbase t.merkleBranchRaw) a.params.ntime
        (UInt32.ofNat bits) a.params.nonce) := by
  obtain ⟨payout, hbuilt⟩ := h.built
  obtain ⟨header, hvalidated, -⟩ := validateShareNoDedup_eq_ok.mp h.acceptable.valid
  obtain ⟨version, prev, bits, hversion, hprev, hbits, hheader⟩ :=
    reconstructHeader_eq_ok.mp hvalidated.header_eq
  rw [h.regular.version, hbuilt.version, h.mask_eq] at hversion
  rw [hbuilt.prevHash] at hprev
  rw [hbuilt.bits] at hbits
  refine ⟨prev, bits, hprev, hbits, ?_⟩
  rw [AcceptedShare.header, hvalidated.header_eq, hheader, ← Except.ok.inj hversion,
    ← hbuilt.merkleBranchRaw]
  rfl

/-- The key and the job determine the header. -/
theorem header_eq_of_key_eq (ha : a.Made R extranonce1 size mask t)
    (hb : b.Made R extranonce1 size mask t) (hjob : a.entry.job = b.entry.job)
    (hkey : a.key = b.key) : a.header R.H = b.header R.H := by
  obtain ⟨prev, bits, hprev, hbits, hheader⟩ := ha.header_eq
  obtain ⟨prev', bits', hprev', hbits', hheader'⟩ := hb.header_eq
  obtain rfl : prev = prev' := Except.ok.inj (hprev.symm.trans hprev')
  obtain rfl : bits = bits' := Option.some.inj (hbits.symm.trans hbits')
  have hextranonce : a.params.extranonce2 = b.params.extranonce2 := by
    rw [← ha.acceptable.extranonce2, hkey, hb.acceptable.extranonce2]
  have hcoinbase : a.coinbase = b.coinbase := by
    rw [coinbase, coinbase, hjob, ha.extranonce1_eq, hb.extranonce1_eq, hextranonce]
  rw [hheader, hheader', hcoinbase, hkey, ← ha.acceptable.ntime, ← hb.acceptable.ntime,
    ← ha.acceptable.nonce, ← hb.acceptable.nonce, hkey]

theorem ntime_bounds (h : a.Made R extranonce1 size mask t) :
    t.curTime.toNat ≤ a.params.ntime.toNat ∧
      a.params.ntime.toNat ≤ t.curTime.toNat + maxNtimeDriftSecs := by
  obtain ⟨payout, hbuilt⟩ := h.built
  obtain ⟨header, hvalidated, -⟩ := validateShareNoDedup_eq_ok.mp h.acceptable.valid
  have hearly := UInt32.le_iff_toNat_le.mp hvalidated.notEarly
  have hlate := hvalidated.notLate
  rw [hbuilt.curTime] at hearly hlate
  simp only [ntimeCeiling, saturatingAdd] at hlate
  omega

/-- Shares of one session with one header have one key but for the job, and are of jobs of the same
work. -/
theorem key_eq_of_header_eq (ha : a.Made R extranonce1 size mask t)
    (hb : b.Made R extranonce1 size mask t')
    (hinj : Set.InjOn R.H (a.hashed R.H ∪ b.hashed R.H))
    (hlen : t.merkleBranchRaw.length = t'.merkleBranchRaw.length ∨
      ∀ x y, hashPair x y ≠ a.coinbase ∧ hashPair x y ≠ b.coinbase)
    (h : a.header R.H = b.header R.H) :
    SameWork mask t t' ∧ (a.entry.job.jobId = b.entry.job.jobId → a.key = b.key) := by
  obtain ⟨prev, bits, hprev, hbits, hheader⟩ := ha.header_eq
  obtain ⟨prev', bits', hprev', hbits', hheader'⟩ := hb.header_eq
  rw [hheader, hheader'] at h
  obtain ⟨hversion, hswap, hroot, hntime, hbits32, hnonce⟩ := headerBytes_inj
    (by rw [length_wordSwap, length_wordSwap, length_of_hexDecodeTo hprev,
      length_of_hexDecodeTo hprev']) (Except.ok.inj h)
  have hbranches : t.merkleBranchRaw = a.entry.job.merkleBranchRaw ∧
      t'.merkleBranchRaw = b.entry.job.merkleBranchRaw := by
    obtain ⟨payout, hbuilt⟩ := ha.built
    obtain ⟨payout', hbuilt'⟩ := hb.built
    exact ⟨hbuilt.merkleBranchRaw.symm, hbuilt'.merkleBranchRaw.symm⟩
  have hinj' : Set.InjOn R.H (Merkle.pathInputs R.H hashPair a.coinbase t.merkleBranchRaw ∪
      Merkle.pathInputs R.H hashPair b.coinbase t'.merkleBranchRaw) := by
    rw [hbranches.1, hbranches.2]
    exact hinj
  obtain ⟨hcoinbase, hbranch⟩ := Merkle.pathRoot_inj hashPair_inj hinj' hlen hroot
  obtain ⟨hheight, hvalue, hwc, hextranonce⟩ := ha.coinbase_inj hb hcoinbase
  have hmask := ha.regular.bits
  have hmask' := hb.regular.bits
  rw [ha.mask_eq] at hmask
  rw [hb.mask_eq] at hmask'
  obtain ⟨hbase, hrolled⟩ := rolled_inj hmask hmask' hversion
  have hprevEq : prev = prev' := by
    rw [← wordSwap_wordSwap prev, hswap, wordSwap_wordSwap]
  have hbitsEq : bits = bits' := by
    have hlt := fromStrRadix16_lt hbits
    have hlt' := fromStrRadix16_lt hbits'
    have htoNat := congrArg UInt32.toNat hbits32
    rwa [UInt32.toNat_ofNat', UInt32.toNat_ofNat', Nat.mod_eq_of_lt hlt, Nat.mod_eq_of_lt hlt']
      at htoNat
  have htimes := ha.ntime_bounds
  have htimes' := hb.ntime_bounds
  rw [← hntime] at htimes'
  refine ⟨⟨hheight, hvalue, hwc, hbranch, ?_, ?_, hbase, by omega, by omega⟩, fun hid => ?_⟩
  · rw [hprev, hprev', hprevEq]
  · rw [hbits, hbits', hbitsEq]
  · have hka := ha.acceptable
    have hkb := hb.acceptable
    refine ShareKey.ext ?_ ?_ ?_ ?_ hrolled
    · rw [hka.jobId, hkb.jobId, hid]
    · rw [hka.extranonce2, hkb.extranonce2, hextranonce]
    · rw [hka.ntime, hkb.ntime, hntime]
    · rw [hka.nonce, hkb.nonce, hnonce]

end AcceptedShare.Made

end BtcPool
