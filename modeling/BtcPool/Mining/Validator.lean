import BtcPool.Mining.Jobs

/-!
# Share validation

`validate_share_no_dedup` and the functions it calls: the bounds of ntime, the version after
rolling, the 80-byte header, the share and network targets, and the block that is submitted when a
share meets the network target.

`reconstructHeader` is the part between the checks: the header a share stands for. `Validated` says
what a share went through that was accepted, and `validateShareNoDedup_eq_ok` that these are exactly
the shares accepted, with the result `shareResult`.
-/

namespace BtcPool

open Bitcoin

/-! ## Parameters and results -/

/-- What a submit says about a share. -/
structure ShareParams where
  jobId : Str
  extranonce2 : Bytes
  ntime : UInt32
  nonce : UInt32
  versionBits : Option UInt32
  versionRollingMask : Option UInt32
deriving DecidableEq

/-- What the validator makes of a share that counts. -/
inductive ShareResult
  | valid (assignedDifficulty hashDifficulty : UInt64) (hash : ByteVec 32)
  | block (hashDifficulty : UInt64) (blockHex : Str) (hash : ByteVec 32)
  deriving DecidableEq

/-- The hash of the header. -/
def ShareResult.hash : ShareResult → ByteVec 32
  | valid _ _ hash => hash
  | block _ _ hash => hash

/-- The difficulty the hash is worth. -/
def ShareResult.hashDifficulty : ShareResult → UInt64
  | valid _ hashDifficulty _ => hashDifficulty
  | block hashDifficulty _ _ => hashDifficulty

/-! ## Times -/

/-- How far the time of a header may lie ahead. -/
def maxNtimeDriftSecs : ℕ := 7200

/-- The sum of two times, at most the highest. -/
def saturatingAdd (a : UInt32) (b : ℕ) : ℕ := min (a.toNat + b) (2 ^ 32 - 1)

/-- The highest ntime a share may carry: the tighter of the drift from the template and from the
clock. -/
def ntimeCeiling (curTime now : UInt32) : ℕ :=
  min (saturatingAdd curTime maxNtimeDriftSecs) (saturatingAdd now maxNtimeDriftSecs)

/-! ## Versions -/

/-- Only the bits of the mask are the miner's to set. -/
def resolveVersion (baseVersion : UInt32) (rollingBits negotiatedMask : Option UInt32) :
    Except PoolError UInt32 :=
  let mask := negotiatedMask.getD versionRollingMask
  match rollingBits with
  | some bits => do
    let shownBits := (hex08 bits).show
    let shownMask := (hex08 mask).show
    ensure (bits &&& ~~~mask = 0) (.invalidParams "mining.submit"
      s!"version bits outside negotiated mask: bits={shownBits} mask={shownMask}")
    return (baseVersion &&& ~~~mask) ||| (bits &&& mask)
  | none => .ok baseVersion

/-! ## Headers -/

/-- The bytes of a header from its fields, the previous hash in internal order. -/
def headerBytes (version : UInt32) (prev : Bytes) (merkleRoot : ByteVec 32)
    (ntime bits nonce : UInt32) : Bytes :=
  encodeU32 version ++ prev ++ merkleRoot.toList ++ encodeU32 ntime ++ encodeU32 bits ++
    encodeU32 nonce

/-- The 80 bytes that are hashed. The previous hash comes in Stratum order, its words swapped. -/
def buildHeader (version : UInt32) (stratumPrevHash : Str) (merkleRoot : ByteVec 32)
    (ntime : UInt32) (bitsHex : Str) (nonce : UInt32) : Except PoolError Bytes := do
  let prev ← (hexDecodeTo 32 stratumPrevHash).mapError fun _ => .invalidHeader
  match fromStrRadix16 32 bitsHex with
  | none => .error .invalidHeader
  | some bits =>
    return headerBytes version (wordSwap prev) merkleRoot ntime (UInt32.ofNat bits) nonce

theorem buildHeader_eq_ok {version : UInt32} {prevHash : Str} {root : ByteVec 32}
    {ntime : UInt32} {bitsHex : Str} {nonce : UInt32} {header : Bytes} :
    buildHeader version prevHash root ntime bitsHex nonce = .ok header ↔
      ∃ prev bits, hexDecodeTo 32 prevHash = .ok prev ∧ fromStrRadix16 32 bitsHex = some bits ∧
        header = headerBytes version (wordSwap prev) root ntime (UInt32.ofNat bits) nonce := by
  unfold buildHeader
  rw [bind_eq_ok]
  constructor
  · rintro ⟨prev, hprev, h⟩
    split at h
    · cases h
    · rw [pure_eq_ok] at h
      exact ⟨prev, _, ok_of_mapError hprev, ‹_›, h.symm⟩
  · rintro ⟨prev, bits, hprev, hbits, rfl⟩
    exact ⟨prev, by simp [hprev, Except.mapError], by simp [hbits]⟩

theorem length_headerBytes {version : UInt32} {prev : Bytes} {root : ByteVec 32}
    {ntime bits nonce : UInt32} (h : prev.length = 32) :
    (headerBytes version prev root ntime bits nonce).length = 80 := by
  simp [headerBytes, h]

/-- The fields of a header can be read back. -/
theorem headerBytes_inj {v v' : UInt32} {prev prev' : Bytes} {root root' : ByteVec 32}
    {t t' b b' n n' : UInt32} (hlen : prev.length = prev'.length)
    (h : headerBytes v prev root t b n = headerBytes v' prev' root' t' b' n') :
    v = v' ∧ prev = prev' ∧ root = root' ∧ t = t' ∧ b = b' ∧ n = n' := by
  have h4 : ∀ a b : UInt32, (encodeU32 a).length = (encodeU32 b).length := fun a b => by simp
  simp only [headerBytes, List.append_assoc] at h
  obtain ⟨hv, h⟩ := List.append_inj h (h4 ..)
  obtain ⟨hprev, h⟩ := List.append_inj h hlen
  obtain ⟨hroot, h⟩ := List.append_inj h (by simp)
  obtain ⟨ht, h⟩ := List.append_inj h (h4 ..)
  obtain ⟨hb, hn⟩ := List.append_inj h (h4 ..)
  exact ⟨encodeU32_injective hv, hprev, Subtype.ext hroot, encodeU32_injective ht,
    encodeU32_injective hb, encodeU32_injective hn⟩

/-! ## Blocks -/

/-- A count on the wire. -/
def encodeVarint (n : UInt64) : Bytes :=
  if n < 0xfd then [n.toUInt8]
  else if n ≤ 0xffff then 0xfd :: leBytes 2 n.toUInt16.toNat
  else if n ≤ 0xffffffff then 0xfe :: leBytes 4 n.toUInt32.toNat
  else 0xff :: leBytes 8 n.toNat

/-- The 32 zero bytes the witness commitment of a template is computed against. -/
def witnessReservedValue : Bytes := List.replicate 32 0

/-- The coinbase with the reserved value in the witness of its first input. -/
def coinbaseWithWitnessReservedValue (coinbase : Bytes) : Option Bytes :=
  match deserialize coinbase with
  | none => none
  | some tx =>
    match tx.input with
    | [] => none
    | first :: rest =>
      some { tx with input := { first with witness := [witnessReservedValue] } :: rest }.serialize

/-- The block as it is submitted, in hex. -/
def assembleBlockHex (header coinbase : Bytes) (transactions : List Bytes)
    (hasWitnessCommitment : Bool) : Str :=
  let coinbase :=
    (if hasWitnessCommitment then coinbaseWithWitnessReservedValue coinbase else none).getD coinbase
  let txCount := UInt64.ofNat (1 + transactions.length)
  hexEncode (header ++ encodeVarint txCount ++ coinbase ++ transactions.flatten)

/-- The conventional display form of a block hash. -/
def blockHashDisplay (hash : ByteVec 32) : Str := hexEncode hash.toList.reverse

/-! ## Validation -/

section Validate

variable (H : Bytes → ByteVec 32)

/-- The header a share of a job stands for. -/
def reconstructHeader (params : ShareParams) (job : StratumJob) (extranonce1 : Bytes) :
    Except PoolError Bytes := do
  let coinbase := job.assembleCoinbaseInto extranonce1 params.extranonce2
  let merkleRoot := job.merkleRoot H coinbase
  let version ← resolveVersion job.version params.versionBits params.versionRollingMask
  buildHeader version job.prevHash merkleRoot params.ntime job.bits params.nonce

/-- The result for a header that meets the share target. -/
def shareResult (params : ShareParams) (job : StratumJob) (extranonce1 : Bytes)
    (sessionDifficulty : UInt64) (header : Bytes) : ShareResult :=
  let hash := H header
  let hashDifficulty := hashToDifficulty hash
  if meetsTarget hash job.networkTarget then
    .block hashDifficulty (assembleBlockHex header
      (job.assembleCoinbaseInto extranonce1 params.extranonce2) job.transactions
      job.hasWitnessCommitment) hash
  else .valid sessionDifficulty hashDifficulty hash

/-- Validate a share at the given reading of the clock. -/
def validateShareNoDedup (params : ShareParams) (job : StratumJob) (jobEntry : JobEntry)
    (extranonce1 : Bytes) (sessionDifficulty : UInt64) (now : UInt32) :
    Except PoolError ShareResult := do
  ensure (¬ jobEntry.supersededByClean) (.staleJob params.jobId)
  let ceiling := ntimeCeiling job.curTime now
  let submitted := params.ntime
  let curtime := job.curTime
  ensure (job.curTime ≤ params.ntime ∧ params.ntime.toNat ≤ ceiling) (.invalidParams
    "mining.submit"
    s!"ntime out of range: submitted={submitted} template_curtime={curtime} ceiling={ceiling}")
  let header ← reconstructHeader H params job extranonce1
  ensure (meetsTarget (H header) (difficultyToTarget sessionDifficulty)) .lowDifficulty
  return shareResult H params job extranonce1 sessionDifficulty header

/-- What an accepted share went through. -/
structure Validated (params : ShareParams) (job : StratumJob) (jobEntry : JobEntry)
    (extranonce1 : Bytes) (sessionDifficulty : UInt64) (now : UInt32) (header : Bytes) : Prop where
  live : jobEntry.supersededByClean = false
  notEarly : job.curTime ≤ params.ntime
  notLate : params.ntime.toNat ≤ ntimeCeiling job.curTime now
  header_eq : reconstructHeader H params job extranonce1 = .ok header
  meets : meetsTarget (H header) (difficultyToTarget sessionDifficulty)

variable {H} {params : ShareParams} {job : StratumJob} {jobEntry : JobEntry} {extranonce1 : Bytes}
  {sessionDifficulty : UInt64} {now : UInt32}

theorem validateShareNoDedup_eq_ok {result : ShareResult} :
    validateShareNoDedup H params job jobEntry extranonce1 sessionDifficulty now = .ok result ↔
      ∃ header, Validated H params job jobEntry extranonce1 sessionDifficulty now header ∧
        result = shareResult H params job extranonce1 sessionDifficulty header := by
  simp only [validateShareNoDedup, bind_eq_ok, ensure_eq_ok, pure_eq_ok]
  constructor
  · rintro ⟨-, hlive, -, ⟨hearly, hlate⟩, header, hheader, -, hmeets, rfl⟩
    exact ⟨header, ⟨by simpa using hlive, hearly, hlate, hheader, hmeets⟩, rfl⟩
  · rintro ⟨header, h, rfl⟩
    exact ⟨(), by simpa using h.live, (), ⟨h.notEarly, h.notLate⟩, header, h.header_eq, (),
      h.meets, rfl⟩

theorem shareResult_of_meets {header : Bytes} (h : meetsTarget (H header) job.networkTarget) :
    shareResult H params job extranonce1 sessionDifficulty header =
      .block (hashToDifficulty (H header)) (assembleBlockHex header
        (job.assembleCoinbaseInto extranonce1 params.extranonce2) job.transactions
        job.hasWitnessCommitment) (H header) :=
  if_pos h

/-- What is hashed for a share is the header it stands for. -/
theorem hash_of_validateShareNoDedup {result : ShareResult} {header : Bytes}
    (h : validateShareNoDedup H params job jobEntry extranonce1 sessionDifficulty now = .ok result)
    (hheader : reconstructHeader H params job extranonce1 = .ok header) :
    result.hash = H header := by
  obtain ⟨header', hvalidated, rfl⟩ := validateShareNoDedup_eq_ok.mp h
  have heq : header' = header := Except.ok.inj (hvalidated.header_eq.symm.trans hheader)
  subst heq
  dsimp only [shareResult]
  split <;> rfl

/-- The header of a share, field by field. -/
theorem reconstructHeader_eq_ok {header : Bytes} :
    reconstructHeader H params job extranonce1 = .ok header ↔
      ∃ version prev bits,
        resolveVersion job.version params.versionBits params.versionRollingMask = .ok version ∧
        hexDecodeTo 32 job.prevHash = .ok prev ∧ fromStrRadix16 32 job.bits = some bits ∧
        header = headerBytes version (wordSwap prev)
          (job.merkleRoot H (job.assembleCoinbaseInto extranonce1 params.extranonce2))
          params.ntime (UInt32.ofNat bits) params.nonce := by
  simp only [reconstructHeader, bind_eq_ok, buildHeader_eq_ok]
  constructor
  · rintro ⟨version, hv, prev, bits, h⟩
    exact ⟨version, prev, bits, hv, h⟩
  · rintro ⟨version, prev, bits, hv, h⟩
    exact ⟨version, hv, prev, bits, h⟩

end Validate

end BtcPool
