import BtcPool.Foundations.LastSaid
import BtcPool.Mining.Headers
import BtcPool.Network.Dialogue
import BtcPool.Protocol.Sv2.Dialogue

/-!
# Version bits

A miner may set the bits of a mask in the version of its headers: those it negotiated last with
`mining.configure`, none if rolling is not enabled, and the bits of BIP 320 on a Stratum V2 channel.
`version_bits_kept` says that the headers of accepted shares agree with their template on all other
bits, whatever was negotiated before. A template whose required bits meet those of BIP 320 is not
accepted by the engine under strict rules, so the required bits are the template's.
-/

namespace BtcPool

open Bitcoin

/-! ## Masks -/

theorem rolled_and_not (v b m : UInt32) : ((v &&& ~~~m) ||| (b &&& m)) &&& ~~~m = v &&& ~~~m := by
  rw [← UInt32.toBitVec_inj]
  simp only [UInt32.toBitVec_and, UInt32.toBitVec_or, UInt32.toBitVec_not]
  ext i hi
  simp only [BitVec.getElem_and, BitVec.getElem_or, BitVec.getElem_not]
  grind

/-- A part of a part of a mask is a part of it. -/
theorem and_not_trans {a b c : UInt32} (hab : a &&& ~~~b = 0) (hbc : b &&& ~~~c = 0) :
    a &&& ~~~c = 0 := by
  rw [← and_eq_self_of_and_not hab, UInt32.and_assoc, hbc, UInt32.and_zero]

/-- Versions that agree outside a part of a mask agree on bits that do not meet the mask. -/
theorem and_eq_and_of_disjoint {v t r m q : UInt32} (h : v &&& ~~~r = t &&& ~~~r)
    (hr : r &&& ~~~m = 0) (hq : q &&& m = 0) : v &&& q = t &&& q := by
  have hqr : q &&& ~~~~~~r = 0 := by
    rw [UInt32.not_not, ← and_eq_self_of_and_not hr, UInt32.and_comm r m, ← UInt32.and_assoc, hq,
      UInt32.zero_and]
  have hkeep : q = ~~~r &&& q := by
    rw [UInt32.and_comm]
    exact (and_eq_self_of_and_not hqr).symm
  rw [hkeep, ← UInt32.and_assoc, h, UInt32.and_assoc]

/-- The version the validator works out keeps the bits outside the mask. -/
theorem resolveVersion_and_not {base version : UInt32} {bits mask : Option UInt32} {roll : UInt32}
    (h : resolveVersion base bits mask = .ok version)
    (hroll : bits = none ∨ mask = some roll) : version &&& ~~~roll = base &&& ~~~roll := by
  cases bits with
  | none =>
    obtain rfl : base = version := by simpa [resolveVersion] using h
    rfl
  | some bits =>
    obtain rfl : mask = some roll := hroll.resolve_left (by simp)
    simp only [resolveVersion, Option.getD_some, bind_eq_ok, pure_eq_ok] at h
    obtain ⟨-, -, rfl⟩ := h
    exact rolled_and_not base bits roll

/-- A template that passed the strict check requires no bit a miner may set. -/
theorem vbrequired_of_supported {gbt : GbtResult} (h : unsupportedGbtRules gbt = []) :
    gbt.vbrequired &&& versionRollingMask = 0 := by
  by_contra hne
  simp [unsupportedGbtRules, hne] at h

/-! ## Shares -/

/-- The header of the share agrees with a template offered on every bit outside the mask, and on the
bits that template requires, if it passed the strict check. -/
def VersionKept (H : Bytes → ByteVec 32) (offered : JobTemplate → Prop) (roll : UInt32)
    (share : AcceptedShare) : Prop :=
  ∃ template version rest, offered template ∧ BuiltFrom template share.entry.job ∧
    share.header H = .ok (encodeU32 version ++ rest) ∧
    version &&& ~~~roll = template.version &&& ~~~roll ∧
    ∀ gbt, buildJobTemplate H gbt = .ok template → unsupportedGbtRules gbt = [] →
      version &&& gbt.vbrequired = gbt.version &&& gbt.vbrequired

theorem versionKept {H : Bytes → ByteVec 32} {offered : JobTemplate → Prop} {roll : UInt32}
    {share : AcceptedShare} {template : JobTemplate} {header : Bytes} (hoffered : offered template)
    (hjob : BuiltFrom template share.entry.job) (hheader : share.header H = .ok header)
    (hroll : share.params.versionBits = none ∨ share.params.versionRollingMask = some roll)
    (hmask : roll &&& ~~~versionRollingMask = 0) : VersionKept H offered roll share := by
  obtain ⟨version, prev, bits, hversion, -, -, hbytes⟩ := reconstructHeader_eq_ok.mp hheader
  obtain ⟨rest, rfl⟩ : ∃ rest, header = encodeU32 version ++ rest := by
    rw [hbytes]
    simp only [headerBytes, List.append_assoc]
    exact ⟨_, rfl⟩
  have hsame : share.entry.job.version = template.version := by
    obtain ⟨_, _, _, _, hbuilt⟩ := hjob
    exact hbuilt.version
  have hkept := resolveVersion_and_not hversion hroll
  rw [hsame] at hkept
  refine ⟨template, version, rest, hoffered, hjob, hheader, hkept, fun gbt hgbt hsupported => ?_⟩
  rw [← (buildJobTemplate_spec H hgbt).version]
  exact and_eq_and_of_disjoint hkept hmask (vbrequired_of_supported hsupported)

/-- Every job held was built from a template offered. -/
def FromOffered (offered : JobTemplate → Prop) (template : Option JobTemplate) (jobs : IssuedJobs) :
    Prop :=
  (∀ t, template = some t → offered t) ∧
    ∀ entry ∈ jobs.entries, ∃ t, offered t ∧ BuiltFrom t entry.job

theorem FromOffered.issue {offered : JobTemplate → Prop} {template : Option JobTemplate}
    {jobs jobs' : IssuedJobs} (h : FromOffered offered template jobs)
    (hjobs : jobs' = jobs ∨ jobs' = jobs.clear) {t : JobTemplate} (ht : offered t)
    {job : StratumJob} (hjob : BuiltFrom t job) (clean : Bool) (difficulty : UInt64)
    (template' : Option JobTemplate) (htemplate' : ∀ t, template' = some t → offered t) :
    FromOffered offered template' (jobs'.issue job clean difficulty) := by
  refine ⟨htemplate', fun entry hmem => ?_⟩
  rcases IssuedJobs.mem_issue hmem with rfl | ⟨old, hold, hsame, -⟩
  · exact ⟨t, ht, hjob⟩
  · rw [hsame]
    exact h.2 old (IssuedJobs.subset_of_eq_or_clear hjobs old hold)

/-! ## Stratum V1 -/

namespace Sv1

/-- The bits a miner is told it may set. -/
def Message.rollable : Message → Option UInt32
  | .configure _ rolling mask _ _ => some (if rolling then mask else 0)
  | _ => none

theorem Message.Plain.rollable {m : Message} (h : m.Plain) : m.rollable = none := by
  cases m <;> first | rfl | exact h.elim

/-- The bits the miner was told last that it may set, none if it was not told. -/
def lastMask (ms : List Message) : UInt32 := (lastSaid Message.rollable ms).getD 0

/-- The miner knows the bits it may set, and they are a part of those of BIP 320. -/
structure View.Rolls (offered : JobTemplate → Prop) (v : View) (ms : List Message) : Prop where
  mask : v.mask &&& ~~~versionRollingMask = 0
  told : lastMask ms = if v.rolling then v.mask else 0
  jobs : FromOffered offered v.template v.jobs

theorem lastMask_append {ms ms' : List Message} (h : ∀ m ∈ ms', m.rollable = none) :
    lastMask (ms ++ ms') = lastMask ms := by
  rw [lastMask, lastSaid_append_of_none h, lastMask]

theorem Answer.rolls {offered : JobTemplate → Prop} {v v' : View} {hint : Option UInt64}
    {past ms : List Message} (h : Answer offered v hint v' ms) (hv : v.Rolls offered past) :
    v'.Rolls offered (past ++ ms) := by
  -- other messages leave what was told last
  have hkeep : ∀ {ms : List Message}, (∀ m ∈ ms, m.rollable = none) →
      lastMask (past ++ ms) = if v.rolling then v.mask else 0 :=
    fun hms => (lastMask_append hms).trans hv.told
  cases h with
  | plain hms => exact ⟨hv.mask, hkeep fun m hm => (hms m hm).rollable, hv.jobs⟩
  | subscribed hms => exact ⟨hv.mask, hkeep fun m hm => (hms m hm).rollable, hv.jobs⟩
  | @configured rolling mask hpart request sub =>
    refine ⟨and_not_trans hpart hv.mask, ?_, hv.jobs⟩
    have hlast : lastSaid Message.rollable
        (past ++ [.configure request rolling mask v.difficulty sub]) =
          some (if rolling then mask else 0) :=
      lastSaid_append_cons rfl (by simp)
    rw [lastMask, hlast]
    rfl
  | hinted request hint =>
    refine ⟨hv.mask, hkeep ?_, hv.jobs⟩
    split <;> simp [Message.rollable]
  | greeted _ hjobs request =>
    refine ⟨hv.mask, hkeep (by simp [Message.rollable]), hv.jobs.1, fun entry hmem => ?_⟩
    exact hv.jobs.2 entry (IssuedJobs.subset_of_eq_or_clear hjobs entry hmem)
  | @welcomed _ template _ hjobs htemplate request job hjob =>
    have hoffered : offered template := htemplate.elim (hv.jobs.1 template) id
    exact ⟨hv.mask, hkeep (by simp [Message.rollable]),
      hv.jobs.issue hjobs hoffered hjob true _ _ (by rintro t ⟨⟩; exact hoffered)⟩
  | pushed _ hoffered job hjob clean =>
    exact ⟨hv.mask, hkeep (by simp [Message.rollable]),
      hv.jobs.issue (Or.inl rfl) hoffered hjob clean _ _ (by rintro t ⟨⟩; exact hoffered)⟩
  | held hoffered =>
    exact ⟨hv.mask, hkeep (by simp), by rintro t ⟨⟩; exact hoffered, hv.jobs.2⟩

theorem Retargeted.rolls {offered : JobTemplate → Prop} {v v' : View} {past ms : List Message}
    (h : Retargeted v v' ms) (hv : v.Rolls offered past) : v'.Rolls offered (past ++ ms) := by
  cases h with
  | unchanged => exact ⟨hv.mask, (lastMask_append (by simp)).trans hv.told, hv.jobs⟩
  | changed =>
    exact ⟨hv.mask, (lastMask_append (by simp [Message.rollable])).trans hv.told, hv.jobs⟩

theorem Session.run_rolls {offered : JobTemplate → Prop} {H : Bytes → ByteVec 32} {A : AddressLib}
    {cfg : Config} {network : Network} {sessionId : Str} {extranonce1 : Bytes}
    {template : Option JobTemplate} {now : Instant} {inputs : List Input}
    (htemplate : ∀ t, template = some t → offered t)
    (hoffers : ∀ input ∈ inputs, input.Offers offered) :
    let out := (process H A).run (new cfg network sessionId extranonce1 template now) inputs
    out.live → out.state.view.Rolls offered (Effect.messages out.outputs) := by
  intro out hlive
  have hnew : (new cfg network sessionId extranonce1 template now).view.Rolls offered [] :=
    ⟨UInt32.and_not_self, rfl, htemplate, by simp [view, new]⟩
  exact run_view Answer.rolls Retargeted.rolls hnew hoffers hlive

/-- The shares a session that told its bits accepts next. -/
theorem Session.versionKept_of_accept {offered : JobTemplate → Prop} {H : Bytes → ByteVec 32}
    {A : AddressLib} {s : Session} {ms : List Message} (hs : s.view.Rolls offered ms)
    {input : Input}
    {share : AcceptedShare} (h : .accept share ∈ Effect.actions (step H A s input).outputs) :
    VersionKept H offered (lastMask ms) share := by
  obtain ⟨_, params, entry, _, -, hsubmit, -, rfl⟩ := accept_of_step h
  obtain ⟨header, hvalid, -⟩ := validateShareNoDedup_eq_ok.mp hsubmit.valid
  obtain ⟨template, hoffered, hjob⟩ := hs.jobs.2 entry (IssuedJobs.mem_of_find hsubmit.find).1
  have htold : lastMask ms = if s.versionRollingEnabled then s.versionRollingMask else 0 := hs.told
  refine versionKept hoffered hjob hvalid.header_eq ?_ ?_
  · by_cases hrolling : s.versionRollingEnabled
    · right
      rw [htold, if_pos hrolling]
      exact if_pos hrolling
    · left
      exact if_neg hrolling
  · rw [htold]
    split
    · exact hs.mask
    · exact UInt32.zero_and

end Sv1

/-! ## Stratum V2 -/

namespace Sv2

/-- The template and the jobs of a session are of offered templates. -/
def View.Offered (offered : JobTemplate → Prop) (v : View) : Prop :=
  FromOffered offered v.template v.jobs

theorem Answer.offered {W : Wire} {offered : JobTemplate → Prop} {v v' : View}
    {asked : Option OpenExtended} {ms : List Message} (h : Answer W offered v asked v' ms)
    (hv : v.Offered offered) : v'.Offered offered := by
  cases h with
  | plain => exact hv
  | opened => exact hv
  | started _ _ _ _ _ _ hjob =>
    obtain ⟨template, htemplate, hjob⟩ := hjob
    exact FromOffered.issue hv (Or.inl rfl) (hv.1 template htemplate) hjob true _ _ hv.1
  | pushed _ hoffered _ _ clean hjob =>
    exact FromOffered.issue hv (Or.inl rfl) hoffered hjob clean _ _ (by rintro t ⟨⟩; exact hoffered)
  | held hoffered => exact ⟨by rintro t ⟨⟩; exact hoffered, hv.2⟩

theorem Retargeted.offered {offered : JobTemplate → Prop} {v v' : View} {ms : List Message}
    (h : Retargeted v v' ms) (hv : v.Offered offered) : v'.Offered offered := by
  cases h <;> exact hv

theorem Session.versionKept_of_accept {offered : JobTemplate → Prop} {W : Wire}
    {H : Bytes → ByteVec 32} {A : AddressLib} {s : Session} (hs : s.view.Offered offered)
    {input : Input} {share : AcceptedShare}
    (h : .accept share ∈ Effect.actions (step W H A s input).outputs) :
    VersionKept H offered versionRollingMask share := by
  obtain ⟨_, submit, entry, _, -, hsubmit, -, rfl⟩ := accept_of_step h
  obtain ⟨header, hvalid, -⟩ := validateShareNoDedup_eq_ok.mp hsubmit.valid
  obtain ⟨jobId, -, hfind⟩ := Option.bind_eq_some_iff.mp hsubmit.find
  obtain ⟨template, hoffered, hjob⟩ := hs.2 entry (IssuedJobs.mem_of_find hfind).1
  exact versionKept hoffered hjob hvalid.header_eq (Or.inr rfl) UInt32.and_not_self

end Sv2

/-! ## Both protocols -/

/-- In every run of a session, on any inputs whose templates are all `offered`, the header of a
share it accepts agrees with one of these templates on every bit outside the mask the miner was told
last, which is a part of that of BIP 320; a Stratum V2 device may set that whole mask. -/
theorem version_bits_kept (H : Bytes → ByteVec 32) (A : AddressLib) (cfg : Config)
    (network : Network) (sessionId : Str) (extranonce1 : Bytes) (now : Instant)
    (offered : JobTemplate → Prop) (template : Option JobTemplate)
    (htemplate : ∀ t, template = some t → offered t) :
    (∀ inputs : List Sv1.Input, (∀ input ∈ inputs, input.Offers offered) →
      let out := (Sv1.Session.process H A).run
        (.new cfg network sessionId extranonce1 template now) inputs
      let roll := Sv1.lastMask (Effect.messages out.outputs)
      out.live → roll &&& ~~~versionRollingMask = 0 ∧
        ∀ input share,
          .accept share ∈ Effect.actions (Sv1.Session.step H A out.state input).outputs →
          VersionKept H offered roll share) ∧
    ∀ (W : Sv2.Wire) (inputs : List Sv2.Input), (∀ input ∈ inputs, input.Offers offered) →
      let out := (Sv2.Session.process W H A).run
        (.new cfg network sessionId extranonce1 template now) inputs
      out.live → ∀ input share,
        .accept share ∈ Effect.actions (Sv2.Session.step W H A out.state input).outputs →
        VersionKept H offered versionRollingMask share := by
  constructor
  · intro inputs hoffers out roll hlive
    have hrolls := Sv1.Session.run_rolls htemplate hoffers hlive
    refine ⟨?_, fun input share haccept => Sv1.Session.versionKept_of_accept hrolls haccept⟩
    change Sv1.lastMask _ &&& _ = 0
    rw [hrolls.told]
    split
    · exact hrolls.mask
    · exact UInt32.zero_and
  · intro W inputs hoffers out hlive input share haccept
    have hnew : (Sv2.Session.new cfg network sessionId extranonce1 template now).view.Offered
        offered :=
      ⟨htemplate, by simp [Sv2.Session.view, Sv2.Session.new]⟩
    have hjobs : out.state.view.Offered offered :=
      Sv2.Session.run_view (C := fun _ _ _ => True) (P := fun v _ => v.Offered offered)
        (fun ha _ _ h => ha.offered h) (fun hr h => hr.offered h) hnew
        (Process.meets_of_forall (fun _ _ _ => trivial) _) hoffers hlive
    exact Sv2.Session.versionKept_of_accept hjobs haccept

/-! ## A regtest session -/

/-- A request for more bits than a miner may have. -/
def rollingRequest : Sv1.ConfigureParams where
  versionRolling := true
  versionRollingMask := some 0x00ffffff
  versionRollingMinBitCount := some 2
  subscribeExtranonce := false

/-- A miner that asks to roll the version. -/
def rollingInputs : List Sv1.Input :=
  [.regtest (.subscribe none), .regtest (.configure rollingRequest),
    .regtest (.authorize regtestPayout.address)]

/-- A share with two of the bits it was told. -/
def rolledSubmit : Sv1.Input :=
  .regtest (.submit { Sv1.regtestSubmit with versionBits := some 0x00006000 })

theorem version_bits_kept_regtest :
    let out := (Sv1.Session.process zeroHash regtestAddresses).run
      (.new regtestConfig .regtest "s".toList [1, 2, 3, 4] (some regtestTemplate) 0) rollingInputs
    Sv1.lastMask (Effect.messages out.outputs) = 0x00ffe000 ∧ ∃ share,
      .accept share ∈ Effect.actions
        (Sv1.Session.step zeroHash regtestAddresses out.state rolledSubmit).outputs ∧
      VersionKept zeroHash (· = regtestTemplate) (Sv1.lastMask (Effect.messages out.outputs))
        share := by
  have hoffers : ∀ input ∈ rollingInputs, input.Offers (· = regtestTemplate) := by
    simp [rollingInputs, Sv1.Input.regtest, Sv1.Input.Offers, Env.regtest]
  obtain ⟨share, haccept⟩ := Core.exists_accept_of_any (Effect.actions
    (Sv1.Session.step zeroHash regtestAddresses ((Sv1.Session.process zeroHash regtestAddresses).run
      (.new regtestConfig .regtest "s".toList [1, 2, 3, 4] (some regtestTemplate) 0)
      rollingInputs).state rolledSubmit).outputs) (by decide +kernel)
  refine ⟨by decide +kernel, share, haccept, ((version_bits_kept zeroHash regtestAddresses
    regtestConfig .regtest "s".toList [1, 2, 3, 4] 0 (· = regtestTemplate) (some regtestTemplate)
    (by rintro t ⟨⟩; rfl)).1 rollingInputs hoffers (by decide +kernel)).2 rolledSubmit share
      haccept⟩

end BtcPool
