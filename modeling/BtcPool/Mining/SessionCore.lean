import BtcPool.Foundations.Runs
import BtcPool.Mining.Difficulty
import BtcPool.Mining.FoundBlock

/-!
# The core of a session

A Stratum V1 and a Stratum V2 session are two frontends of one thing: an identity that is paid, the
extranonce the session was given, the jobs issued to it and the shares accepted from it. `Core` is
that state, and `Core.machine` says what a frontend may do to it: take an identity, drop it with
everything that belongs to it, issue a job that pays to it, accept a share of an issued job.
The frontends are refinements of this machine.

The machine keeps `Core.Valid`: every job a submit can still be resolved to pays the identity the
session holds and reserves the width of its extranonce. `accepted_valid` carries it to every
share accepted in a run of a frontend, and `Valid.block_pays` says what it means for a block.
-/

namespace BtcPool

open Bitcoin

/-! ## Configuration -/

/-- The settings of the pool that sessions read. -/
structure PoolConfig where
  coinbaseTag : Str
  initialDifficulty : UInt64
  extranonce1Size : ℕ
  extranonce2Size : ℕ
deriving DecidableEq

/-- The settings that sessions read. -/
structure Config where
  pool : PoolConfig
  vardiff : VardiffConfig
  security : SecurityConfig
deriving DecidableEq

/-! ## State and actions -/

/-- What both protocols keep of a session. -/
structure Core where
  identity : Option MinerIdentity
  extranonce1 : Bytes
  extranonce2Size : ℕ
  /-- The version bits the miner may set; none while rolling is not negotiated. -/
  rollMask : UInt32
  issuedJobs : IssuedJobs
  shareSet : ShareSet

/-- An accepted share, with the state of the session it was accepted in. -/
structure AcceptedShare where
  session : Core
  params : ShareParams
  key : ShareKey
  entry : JobEntry
  floor : UInt64
  now : UInt32
  result : ShareResult

namespace Core

/-- What a session does to its core. -/
inductive Action
  /-- Drop the identity, the jobs and the shares. -/
  | retire
  /-- Take an identity, or the one held under another spelling of its name. -/
  | identify (identity : MinerIdentity)
  | assign (extranonce1 : Bytes) (extranonce2Size : ℕ)
  | negotiate (rollMask : UInt32)
  | clearShares
  | issue (template : JobTemplate) (job : StratumJob) (clean : Bool) (difficulty : UInt64)
  /-- Forget the shares and issue a clean job, which retires the jobs they belong to. -/
  | renew (template : JobTemplate) (job : StratumJob) (difficulty : UInt64)
  | accept (share : AcceptedShare)

/-- An action other than a negotiation or an accepted share. -/
def Action.Setup : Action → Prop
  | negotiate _ => False
  | accept _ => False
  | _ => True

/-- Whether an action accepts a share. -/
def Action.isAccept : Action → Bool
  | accept _ => true
  | _ => false

theorem exists_accept_of_any (trace : List Action) (h : trace.any Action.isAccept) :
    ∃ share, Action.accept share ∈ trace := by
  obtain ⟨a, ha, haccept⟩ := List.any_eq_true.mp h
  cases a with
  | accept share => exact ⟨share, ha⟩
  | _ => cases haccept

/-- What a session is held to: the hash function, addresses, network and tag it works with, the
templates it is given, and what a frontend makes sure of for a share it accepts and before it
negotiates version bits. -/
structure Rules where
  H : Bytes → ByteVec 32
  A : AddressLib
  network : Network
  tag : Str
  offered : JobTemplate → Prop
  form : AcceptedShare → Prop
  mayNegotiate : Core → UInt32 → Prop

/-- The rules of a frontend that makes sure of nothing more. -/
def Rules.plain (H : Bytes → ByteVec 32) (A : AddressLib) (network : Network) (tag : Str)
    (offered : JobTemplate → Prop) : Rules :=
  { H, A, network, tag, offered, form := fun _ => True, mayNegotiate := fun _ _ => True }

/-- The core after an action. -/
def next (c : Core) : Action → Core
  | .retire => { c with
      identity := none, issuedJobs := c.issuedJobs.clear, shareSet := c.shareSet.clear }
  | .identify identity => { c with identity := some identity }
  | .assign extranonce1 extranonce2Size => { c with extranonce1, extranonce2Size }
  | .negotiate rollMask => { c with rollMask }
  | .clearShares => { c with shareSet := c.shareSet.clear }
  | .issue _ job clean difficulty =>
    { c with issuedJobs := c.issuedJobs.issue job clean difficulty }
  | .renew _ job difficulty => { c with
      issuedJobs := c.issuedJobs.issue job true difficulty, shareSet := c.shareSet.clear }
  | .accept share => { c with shareSet := c.shareSet.insert share.key }

/-- No job is outstanding. -/
def Idle (c : Core) : Prop := c.issuedJobs.entries = []

/-- The job is the template's, for the identity the session holds and with its extranonce sizes. -/
def Materialized (R : Rules) (c : Core) (template : JobTemplate) (job : StratumJob) : Prop :=
  ∃ identity, c.identity = some identity ∧ R.offered template ∧
    BuiltJob template identity.payout R.tag c.extranonce1.length c.extranonce2Size job

/-- The share is of an issued job, has the key of its parameters, and is valid. -/
structure Acceptable (R : Rules) (share : AcceptedShare) : Prop where
  mem : share.entry ∈ share.session.issuedJobs.entries
  jobId : share.key.jobId = share.entry.job.jobId
  extranonce2 : share.key.extranonce2 = share.params.extranonce2
  ntime : share.key.ntime = share.params.ntime
  nonce : share.key.nonce = share.params.nonce
  valid : validateShareNoDedup R.H share.params share.entry.job share.entry
    share.session.extranonce1 share.floor share.now = .ok share.result

/-- When an action may be taken. -/
def Enabled (R : Rules) (c : Core) : Action → Prop
  | .retire => True
  | .identify identity => identity.Checked R.A R.network ∧ (c.identity = none ∧ c.Idle ∨
      ∃ held, c.identity = some held ∧ held.canonicalName = identity.canonicalName)
  | .assign _ _ => c.Idle
  | .negotiate rollMask => R.mayNegotiate c rollMask
  | .clearShares => c.Idle
  | .issue template job _ _ => c.Materialized R template job
  | .renew template job _ => c.Materialized R template job
  | .accept share =>
    share.session = c ∧ share.key ∉ c.shareSet.seen ∧ Acceptable R share ∧ R.form share

/-- The core as an abstract machine. -/
def machine (R : Rules) : Machine Core Action := { Enabled := Enabled R, next := next }

/-! ## The invariant -/

/-- The identity held is a checked one, and every job a submit can be resolved to was made for its
payout and for the session's extranonce sizes. -/
structure Valid (R : Rules) (c : Core) : Prop where
  checked : ∀ identity, c.identity = some identity → identity.Checked R.A R.network
  built : ∀ entry ∈ c.issuedJobs.entries, ∃ template, c.Materialized R template entry.job

variable {R : Rules} {c c' : Core}

theorem Valid.of_idle (h : c.Idle)
    (hchecked : ∀ identity, c.identity = some identity → identity.Checked R.A R.network) :
    c.Valid R := by
  refine ⟨hchecked, fun entry hmem => ?_⟩
  rw [h] at hmem
  cases hmem

/-- A job that is issued keeps the invariant, whether or not it retires the others. -/
theorem Valid.issue (hv : c.Valid R) {template : JobTemplate} {job : StratumJob}
    (hjob : c.Materialized R template job) (clean : Bool) (difficulty : UInt64)
    (shares : ShareSet) :
    Valid R { c with
      issuedJobs := c.issuedJobs.issue job clean difficulty, shareSet := shares } := by
  refine ⟨hv.checked, fun entry hmem => ?_⟩
  rcases IssuedJobs.mem_issue hmem with rfl | ⟨old, hold, hsame, -⟩
  · exact ⟨template, hjob⟩
  · rw [hsame]
    exact hv.built old hold

/-- A new spelling of the name held pays to the same script, so the jobs stay good. -/
theorem Valid.identify (hA : R.A.Lawful) (hv : c.Valid R) {identity : MinerIdentity}
    (ha : Enabled R c (.identify identity)) : Valid R (c.next (.identify identity)) := by
  obtain ⟨hchecked, ⟨hnone, hidle⟩ | ⟨held, hheld, hname⟩⟩ := ha
  · exact Valid.of_idle hidle fun _ h => Option.some.inj h ▸ hchecked
  · have hpay : held.payout = identity.payout :=
      payout_eq_of_canonicalName_eq hA (hv.checked held hheld) hchecked hname
    refine ⟨fun _ h => Option.some.inj h ▸ hchecked, fun entry hmem => ?_⟩
    obtain ⟨template, i, hi, hoffered, hbuilt⟩ := hv.built entry hmem
    obtain rfl : i = held := Option.some.inj (hi.symm.trans hheld)
    rw [hpay] at hbuilt
    exact ⟨template, identity, rfl, hoffered, hbuilt⟩

theorem Valid.next (hA : R.A.Lawful) (hv : c.Valid R) {a : Action} (ha : Enabled R c a) :
    Valid R (c.next a) := by
  cases a with
  | retire => exact Valid.of_idle rfl (by simp [Core.next])
  | identify identity => exact hv.identify hA ha
  | assign e1 size => exact Valid.of_idle ha hv.checked
  | negotiate mask => exact ⟨hv.checked, hv.built⟩
  | clearShares => exact ⟨hv.checked, hv.built⟩
  | issue template job clean difficulty => exact hv.issue ha clean difficulty c.shareSet
  | renew template job difficulty => exact hv.issue ha true difficulty c.shareSet.clear
  | accept share => exact ⟨hv.checked, hv.built⟩

/-- Every share accepted in a run was acceptable, in a valid state. -/
theorem accepted_valid (hA : R.A.Lawful) {trace : List Action} (hrun : (machine R).Run c trace c')
    (hv : c.Valid R) : c'.Valid R ∧
      ∀ share, Action.accept share ∈ trace →
        share.session.Valid R ∧ Acceptable R share ∧ R.form share := by
  refine hrun.invariant (P := fun past c => c.Valid R ∧ ∀ share, Action.accept share ∈ past →
    share.session.Valid R ∧ Acceptable R share ∧ R.form share) ?_ ⟨hv, by simp⟩
  rintro past s a ⟨hvalid, hpast⟩ ha
  refine ⟨hvalid.next hA ha, fun share hmem => ?_⟩
  rcases List.mem_append.mp hmem with hmem | hmem
  · exact hpast share hmem
  · obtain rfl : Action.accept share = a := by simpa using hmem
    obtain ⟨rfl, -, haccept⟩ := ha
    exact ⟨hvalid, haccept⟩

/-- The same for the run of a frontend. -/
theorem Valid.run {σ ι ο : Type*} {p : Process σ ι ο} {C : σ → ι → Prop}
    (r : Refinement p (machine R) C) (hA : R.A.Lawful) {s : σ} {is : List ι} (hinv : r.Inv s)
    (hv : (r.abs s).Valid R) (hC : p.Meets C s is) :
    ((p.run s is).live → (r.abs (p.run s is).state).Valid R ∧ r.Inv (p.run s is).state) ∧
      ∀ share, Action.accept share ∈ r.trace s is →
        share.session.Valid R ∧ Acceptable R share ∧ R.form share := by
  obtain ⟨c', hrun, hlive⟩ := r.run hinv hC
  obtain ⟨hvalid, hshares⟩ := accepted_valid hA hrun hv
  refine ⟨fun hl => ?_, hshares⟩
  obtain ⟨rfl, hinv'⟩ := hlive hl
  exact ⟨hvalid, hinv'⟩

/-! ## Blocks -/

/-- A block found with a job of a valid state pays the full value of the template the job was made
from to the identity held. -/
theorem Valid.block_pays (hv : c.Valid R) {entry : JobEntry} (hmem : entry ∈ c.issuedJobs.entries)
    {params : ShareParams} {floor hd : UInt64} {now : UInt32} {blockHex : Str} {hash : ByteVec 32}
    (hblock : validateShareNoDedup R.H params entry.job entry c.extranonce1 floor now =
      .ok (.block hd blockHex hash)) :
    ∃ identity template, c.identity = some identity ∧ R.offered template ∧
      BuiltJob template identity.payout R.tag c.extranonce1.length c.extranonce2Size entry.job ∧
      BlockPays blockHex template.coinbaseValue identity.payout.scriptPubkey := by
  obtain ⟨template, identity, hidentity, hoffered, hbuilt⟩ := hv.built entry hmem
  obtain ⟨header, hvalidated, -, -, rfl⟩ := validated_of_block hblock
  obtain ⟨_, prev, _, -, hprev, -, hheader⟩ := reconstructHeader_eq_ok.mp hvalidated.header_eq
  obtain ⟨tx, hdecode, hround, htx⟩ := hexDecode_assembleBlockHex hbuilt header c.extranonce1
    params.extranonce2
  refine ⟨identity, template, hidentity, hoffered, hbuilt, header, _, tx, _, hdecode, ?_, hround,
    ?_⟩
  · rw [hheader, length_headerBytes (by rw [length_wordSwap, length_of_hexDecodeTo hprev])]
  · rw [htx]
    rfl

end Core

/-! ## A regtest pool -/

/-- Settings for a regtest pool. -/
def regtestConfig : Config where
  pool :=
    { coinbaseTag := "/solo/".toList, initialDifficulty := 1, extranonce1Size := 4,
      extranonce2Size := 4 }
  vardiff :=
    { targetShareTimeSecs := 15, retargetIntervalSecs := 60, minDifficulty := 1,
      maxDifficulty := 1000000, maxRetargetFactor := 4, deadzoneLow := 667 / 1000,
      deadzoneHigh := 3 / 2 }
  security :=
    { maxInvalidShares := 50, maxMessageBytes := 4096, maxWorkerNameLen := 128,
      maxAuthorizationsPerSession := 8 }

/-- A library that knows one address, that of `regtestPayout`. -/
def regtestAddresses : AddressLib where
  Address := Unit
  parse text := if text = regtestPayout.address then some () else none
  validFor _ network := network = .regtest
  display _ := regtestPayout.address
  scriptPubkey _ := regtestPayout.scriptPubkey

theorem lawful_regtestAddresses : regtestAddresses.Lawful :=
  ⟨fun _ _ _ => rfl, fun _ => show '.' ∉ regtestPayout.address by decide⟩

theorem standardScripts_regtestAddresses : regtestAddresses.StandardScripts :=
  fun _ => show 4 ≤ regtestPayout.scriptPubkey.length by decide

end BtcPool
