import BtcPool.Mining.Duplicates
import BtcPool.Network.SessionRefines
import BtcPool.Protocol.Sv2.SessionRefines

/-!
# Shares submitted twice

Both sessions refuse a share whose key they remember. The key has the id of the job in it, and the
fields of the submit; what is paid for is the header.

A Stratum V2 session checks the size of the extranonce and takes only the bits a device may roll, so
its shares are regular, and within one stretch between two clears a header is credited once as long
as the jobs of the stretch are of different work (`Sv2.Session.header_credited_once`). A job that is
only refreshed is of the same work, and its shares are credited again
(`Sv2.refreshed_job_credited_twice`).

A Stratum V1 session makes no such checks. For submits that would pass them its duplicate detection
is exact within a job (`Sv1.Session.duplicate_iff`); bits sent without being negotiated are not
looked at and make another key of the same header (`Sv1.ignored_bits_credited_twice`).
-/

namespace BtcPool

open Bitcoin

/-! ## Stratum V2 -/

namespace Sv2

namespace Session

variable {W : Wire} {H : Bytes → ByteVec 32} {A : AddressLib}

/-- Every share the session accepts is regular. -/
theorem Submittable.regular {s : Session} {env : Surroundings} {submit : SubmitExtended}
    {entry : JobEntry} {result : ShareResult} (h : Submittable H s env submit entry result) :
    (s.shareOf env submit entry result).Regular := by
  have hself : submit.version &&& versionRollingMask &&& versionRollingMask =
      submit.version &&& versionRollingMask := by rw [UInt32.and_assoc, UInt32.and_self]
  have hnone : submit.version &&& versionRollingMask &&& ~~~versionRollingMask = 0 := by
    rw [UInt32.and_assoc, UInt32.and_not_self, UInt32.and_zero]
  refine ⟨h.extranonce, hnone, ?_⟩
  simp [shareOf, SubmitExtended.shareParams, SubmitExtended.shareKey, core, resolveVersion, ensure,
    hnone, hself]

/-- The rules the session keeps whatever it is sent. -/
def rules (H : Bytes → ByteVec 32) (A : AddressLib) (network : Network) (tag : Str) :
    Core.Rules where
  H := H
  A := A
  network := network
  tag := tag
  offered _ := True
  form share := share.Regular ∧ share.session.rollMask = versionRollingMask
  mayNegotiate c _ := c.Idle

theorem strict_rules (network : Network) (tag : Str) : (rules H A network tag).Strict :=
  ⟨fun h => h.1, id⟩

theorem regular_of_step {s : Session} {input : Input} {share : AcceptedShare}
    (h : .accept share ∈ Effect.actions (step W H A s input).outputs) :
    share.Regular ∧ share.session.rollMask = versionRollingMask := by
  obtain ⟨_, submit, entry, result, -, hs, -, rfl⟩ := accept_of_step h
  exact ⟨hs.regular, rfl⟩

/-- No header is credited twice between two clears, as long as fewer than 4096 shares are accepted
and the jobs issued are of different work. -/
theorem header_credited_once (hA : A.Lawful) (hscripts : A.StandardScripts) (cfg : Config)
    (network : Network) (sessionId : Str) (extranoncePrefix : Bytes) (template : Option JobTemplate)
    (now : Instant) (inputs : List Input) :
    let out := (process W H A).run (new cfg network sessionId extranoncePrefix template now) inputs
    ∀ st ∈ (Core.history (Effect.actions out.outputs)).stretches,
      st.accepted.length < 4096 →
      st.issued.Pairwise (fun p q => ¬ SameWork versionRollingMask p.1 q.1) →
      Set.InjOn H (AcceptedShare.hashedBy H st.accepted) →
      (st.accepted.map (AcceptedShare.header H)).Nodup := by
  intro out st hst hcount hwork hinj
  let R := rules H A network cfg.pool.coinbaseTag
  have hR : R.Strict := strict_rules ..
  obtain ⟨c', hrun, -⟩ := (refinement W R).run (inv_new rfl (fun _ _ => trivial) ..)
    (Process.meets_of_forall (fun input _ s =>
      ⟨fun _ _ _ => trivial, fun share hshare => regular_of_step hshare⟩) _)
  have hacc := Core.accounted_of_run hR hA hrun (Core.Valid.of_idle rfl nofun) rfl rfl
  obtain ⟨extranonce1, size, mask, hsound⟩ := hacc.stretches st hst
  cases hlist : st.accepted with
  | nil => simp
  | cons share shares =>
    -- the mask of the stretch is the one every share was accepted under
    obtain ⟨-, hform, -, -, rfl, -⟩ := hsound.accepted share (by simp [hlist])
    rw [hform.2] at hsound
    rw [← hlist]
    exact hsound.headers_nodup hR hscripts hcount hwork hinj

end Session

/-- What a regtest session did since the last clear. -/
def regtestStretch (inputs : List Input) : Core.Stretch :=
  (Core.history (Effect.actions ((Session.process .exact lengthHash regtestAddresses).run
    regtestSession (regtestInputs ++ inputs)).outputs)).current

theorem accept_of_regtestStretch {inputs : List Input} {share : AcceptedShare}
    (h : share ∈ (regtestStretch inputs).accepted) : .accept share ∈ Effect.actions
      ((Session.process .exact lengthHash regtestAddresses).run regtestSession
        (regtestInputs ++ inputs)).outputs := by
  rw [regtestStretch] at h
  exact Core.mem_of_current h

/-- Two shares of one job. -/
def twoSubmits : List Input :=
  [.regtest (.submitExtended (.ok regtestSubmit)),
    .regtest (.submitExtended (.ok { regtestSubmit with nonce := 1 }))]

theorem header_credited_once_twoSubmits : (regtestStretch twoSubmits).accepted.length = 2 ∧
    ((regtestStretch twoSubmits).accepted.map (AcceptedShare.header lengthHash)).Nodup := by
  have hshares : (regtestStretch twoSubmits).accepted.length = 2 ∧
      (regtestStretch twoSubmits).issued.length = 1 ∧
      ∀ a ∈ (regtestStretch twoSubmits).accepted, a.entry.job.merkleBranchRaw = [] ∧
        ∀ b ∈ (regtestStretch twoSubmits).accepted, a.coinbase = b.coinbase := by
    decide +kernel
  obtain ⟨hlength, hone, halike⟩ := hshares
  have hinj : Set.InjOn lengthHash
      (AcceptedShare.hashedBy lengthHash (regtestStretch twoSubmits).accepted) :=
    (AcceptedShare.subsingleton_hashedBy (fun a ha => (halike a ha).1)
      fun a ha => (halike a ha).2).injOn _
  have hwork : (regtestStretch twoSubmits).issued.Pairwise
      (fun p q => ¬ SameWork versionRollingMask p.1 q.1) := by
    obtain ⟨p, hp⟩ := List.length_eq_one_iff.mp hone
    rw [hp]
    exact List.pairwise_singleton _ _
  exact ⟨hlength, Session.header_credited_once lawful_regtestAddresses
    standardScripts_regtestAddresses regtestConfig .regtest "s".toList [1, 2, 3, 4]
    (some regtestTemplate) 0 (regtestInputs ++ twoSubmits) _ List.mem_cons_self (by decide +kernel)
    hwork hinj⟩

/-- The same work with a later time. -/
def refreshedTemplate : JobTemplate :=
  { regtestTemplate with curTime := regtestTemplate.curTime + 30 }

/-- A share whose time is good for both. -/
def refreshedSubmit : SubmitExtended := { regtestSubmit with ntime := refreshedTemplate.curTime }

/-- The job is refreshed, and the share is submitted for the old job and for the new one. -/
def refreshedInputs : List Input :=
  [⟨.broadcast refreshedTemplate false,
      { toEnv := .regtest "2".toList, extranonceCounter := 1, nextChannelId := 1 }⟩,
    .regtest (.submitExtended (.ok refreshedSubmit)),
    .regtest (.submitExtended (.ok { refreshedSubmit with jobId := 2 }))]

/-- After a refresh one header is credited for both jobs, though nothing hashed collides. -/
theorem refreshed_job_credited_twice :
    (regtestStretch refreshedInputs).accepted.length = 2 ∧
    Set.InjOn lengthHash
      (AcceptedShare.hashInputs lengthHash (regtestStretch refreshedInputs).accepted) ∧
    ¬ ((regtestStretch refreshedInputs).accepted.map (AcceptedShare.header lengthHash)).Nodup := by
  -- one evaluation of the run gives all that is asked of its shares
  have hshares : (regtestStretch refreshedInputs).accepted.length = 2 ∧
      (∀ a ∈ (regtestStretch refreshedInputs).accepted, a.entry.job.merkleBranchRaw = [] ∧
        (a.header lengthHash).map lengthHash ≠ .ok (lengthHash a.coinbase) ∧
        ∀ b ∈ (regtestStretch refreshedInputs).accepted,
          a.coinbase = b.coinbase ∧ a.header lengthHash = b.header lengthHash) ∧
      ¬ ((regtestStretch refreshedInputs).accepted.map
        (AcceptedShare.header lengthHash)).Nodup := by
    decide +kernel
  obtain ⟨hlength, halike, htwice⟩ := hshares
  refine ⟨hlength, AcceptedShare.injOn_hashInputs ?_ ?_ ?_ ?_, htwice⟩
  · exact fun a ha => (halike a ha).1
  · exact fun a ha b hb => ((halike a ha).2.2 b hb).1
  · exact fun a ha b hb => ((halike a ha).2.2 b hb).2
  · exact fun a ha => (halike a ha).2.1

end Sv2

/-! ## Stratum V1 -/

namespace Sv1

namespace Session

variable {H : Bytes → ByteVec 32} {A : AddressLib}

/-- The extranonce has the size advertised, no bits are sent that were not negotiated, and they are
left out only if the version of the job has none of them. -/
def RegularSubmit (s : Session) (params : SubmitParams) : Prop :=
  params.extranonce2.length = s.extranonce2Size ∧
  if s.versionRollingEnabled then
    params.versionBits = none → ∀ entry ∈ s.issuedJobs.find params.jobId,
      entry.job.version &&& s.versionRollingMask = 0
  else params.versionBits.getD 0 = 0

instance (s : Session) (params : SubmitParams) : Decidable (s.RegularSubmit params) :=
  inferInstanceAs (Decidable (params.extranonce2.length = s.extranonce2Size ∧
    if s.versionRollingEnabled then
      params.versionBits = none → ∀ entry ∈ s.issuedJobs.find params.jobId,
        entry.job.version &&& s.versionRollingMask = 0
    else params.versionBits.getD 0 = 0))

/-- A submit is regular, and version bits are negotiated while no job is out. -/
def RegularInput (s : Session) (input : Input) : Prop :=
  match input.event with
  | .line (.request _ (.submit params)) => s.RegularSubmit params
  | .line (.request _ (.configure params)) => params.versionRolling → s.issuedJobs.entries = []
  | _ => True

instance (s : Session) (input : Input) : Decidable (s.RegularInput input) := by
  unfold RegularInput
  split <;> infer_instance

theorem Submittable.regular {s : Session} {env : Env Message} {params : SubmitParams}
    {entry : JobEntry} {result : ShareResult} (h : Submittable H s env params entry result)
    (hreg : s.RegularSubmit params) : (s.shareOf env params entry result).Regular := by
  obtain ⟨hlen, hbits⟩ := hreg
  obtain ⟨header, hvalidated, -⟩ := validateShareNoDedup_eq_ok.mp h.valid
  obtain ⟨version, -, -, hversion, -⟩ := reconstructHeader_eq_ok.mp hvalidated.header_eq
  cases hroll : s.versionRollingEnabled with
  | false =>
    have hzero : params.versionBits.getD 0 = 0 := by simpa [hroll] using hbits
    refine ⟨hlen, ?_, ?_⟩ <;>
      simp [shareOf, SubmitParams.shareParams, SubmitParams.shareKey, core, resolveVersion, hroll,
        hzero]
  | true =>
    cases hsent : params.versionBits with
    | none =>
      have hbase : entry.job.version &&& s.versionRollingMask = 0 := by
        simpa [hroll, hsent, h.find] using hbits
      have hkept : entry.job.version &&& ~~~s.versionRollingMask = entry.job.version :=
        and_eq_self_of_and_not (by rwa [UInt32.not_not])
      refine ⟨hlen, ?_, ?_⟩ <;>
        simp [shareOf, SubmitParams.shareParams, SubmitParams.shareKey, core, resolveVersion, hroll,
          hsent, hkept]
    | some bits =>
      -- bits outside the mask do not pass the validator
      have hmask : bits &&& ~~~s.versionRollingMask = 0 := by
        by_contra hne
        simp [SubmitParams.shareParams, resolveVersion, ensure, hroll, hsent, hne] at hversion
      refine ⟨hlen, ?_, ?_⟩ <;>
        simp [shareOf, SubmitParams.shareParams, SubmitParams.shareKey, core, resolveVersion,
          ensure, hroll, hsent, hmask, and_eq_self_of_and_not hmask]

theorem coinbase_shareOf (s : Session) (env : Env Message) (params : SubmitParams)
    (entry : JobEntry) (result : ShareResult) : (s.shareOf env params entry result).coinbase =
      entry.job.assembleCoinbaseInto s.extranonce1 params.extranonce2 := rfl

theorem header_shareOf (s : Session) (env : Env Message) (params : SubmitParams)
    (entry : JobEntry) (result : ShareResult) : (s.shareOf env params entry result).header H =
      reconstructHeader H (params.shareParams s.versionRollingEnabled s.versionRollingMask)
        entry.job
        s.extranonce1 := rfl

/-- The rules the session keeps when its inputs are regular. -/
def rules (H : Bytes → ByteVec 32) (A : AddressLib) (network : Network) (tag : Str) :
    Core.Rules where
  H := H
  A := A
  network := network
  tag := tag
  offered _ := True
  form := AcceptedShare.Regular
  mayNegotiate c _ := c.Idle

theorem strict_rules (network : Network) (tag : Str) : (rules H A network tag).Strict := ⟨id, id⟩

theorem regular_of_step {s : Session} {input : Input} (hreg : s.RegularInput input)
    {share : AcceptedShare} (h : .accept share ∈ Effect.actions (step H A s input).outputs) :
    share.Regular := by
  obtain ⟨id, params, entry, result, hevent, hs, -, rfl⟩ := accept_of_step h
  rw [RegularInput, hevent] at hreg
  exact hs.regular hreg

theorem idle_of_step {s : Session} {input : Input} (hreg : s.RegularInput input) {mask : UInt32}
    (h : .negotiate mask ∈ Effect.actions (step H A s input).outputs) : s.core.Idle := by
  obtain ⟨id, params, hevent, hroll⟩ := negotiate_of_step h
  rw [RegularInput, hevent] at hreg
  exact hreg hroll

/-- A submit is booked as a duplicate exactly if its key is remembered. -/
theorem duplicate_booked_iff {s : Session} {env : Env Message} {params : SubmitParams}
    {entry : JobEntry} {result : ShareResult} (h : Submittable H s env params entry result)
    (id : RequestId) :
    (∃ worker, .stats (.rejected worker .duplicate) ∈ (handleSubmit H env s id params).effects) ↔
      params.shareKey ∈ s.shareSet.seen := by
  by_cases hseen : params.shareKey ∈ s.shareSet.seen
  · rw [handleSubmit_of_seen h hseen]
    exact iff_of_true ⟨_, List.mem_singleton_self _⟩ hseen
  · rw [handleSubmit_of_new h hseen]
    refine iff_of_false ?_ hseen
    rintro ⟨worker, hmem⟩
    exact rejected_notMem_acceptEffects hmem

/-- In a run of regular inputs whose jobs have different ids, with fewer than 4096 shares accepted
since the last clear, a regular submit that would be accepted is booked as a duplicate exactly if
its header is that of a share of the same job accepted before. -/
theorem duplicate_iff (hA : A.Lawful) (cfg : Config) (network : Network) (sessionId : Str)
    (extranonce1 : Bytes) (template : Option JobTemplate) (now : Instant) (inputs : List Input)
    (hinputs : (process H A).Meets RegularInput
      (new cfg network sessionId extranonce1 template now) inputs) :
    let out := (process H A).run (new cfg network sessionId extranonce1 template now) inputs
    let h := Core.history (Effect.actions out.outputs)
    out.live → h.current.accepted.length < 4096 → h.jobIds.Nodup →
    ∀ env id params entry result, Submittable H out.state env params entry result →
      out.state.RegularSubmit params →
      Set.InjOn H (AcceptedShare.hashedBy H (out.state.shareOf env params entry result ::
        h.stretches.flatMap fun st => st.accepted)) →
      ((∃ worker, .stats (.rejected worker .duplicate) ∈
          (handleSubmit H env out.state id params).effects) ↔
        ∃ share, .accept share ∈ Effect.actions out.outputs ∧ share.entry.job = entry.job ∧
          share.header H = (out.state.shareOf env params entry result).header H) := by
  intro out h hlive hcount hids env id params entry result hs hreg hinj
  let R := rules H A network cfg.pool.coinbaseTag
  have hR : R.Strict := strict_rules ..
  obtain ⟨c', hrun, hstate⟩ := (refinement R).run (inv_new rfl (fun _ _ => trivial) ..)
    (hinputs.mono fun hinput => ⟨⟨fun _ _ _ => trivial, fun _ _ => trivial⟩,
      fun _ hshare => regular_of_step hinput hshare, fun _ hneg => idle_of_step hinput hneg⟩)
  obtain ⟨rfl, -⟩ := hstate hlive
  have hacc := Core.accounted_of_run hR hA hrun (Core.Valid.of_idle rfl nofun) rfl rfl
  have hseen := Core.seen_iff_header hR hacc hcount hids rfl
    (hs.acceptable (R := R)) (hs.regular hreg) hinj
  rw [duplicate_booked_iff hs]
  refine hseen.trans ⟨?_, ?_⟩
  · rintro ⟨st, hst, share, hmem, hjob, hheader⟩
    exact ⟨share, Core.mem_accepted_iff.mpr ⟨st, hst, hmem⟩, hjob, hheader⟩
  · rintro ⟨share, hmem, hjob, hheader⟩
    obtain ⟨st, hst, hmem⟩ := Core.mem_accepted_iff.mp hmem
    exact ⟨st, hst, share, hmem, hjob, hheader⟩

end Session

/-- A regtest session that has a job. -/
def regtestOut (inputs : List Input) : Outcome Session (Effect Message) :=
  (Session.process lengthHash regtestAddresses).run regtestSession (regtestInputs ++ inputs)

/-- The shares it accepted. -/
def regtestAccepted (inputs : List Input) : List AcceptedShare :=
  (Core.history (Effect.actions (regtestOut inputs).outputs)).stretches.flatMap fun st =>
    st.accepted

/-- One submit. -/
def oneSubmit : List Input := [.regtest (.submit regtestSubmit)]

/-- The session after it. -/
def afterSubmit : Session := (regtestOut oneSubmit).state

/-- The share is a duplicate when it is submitted again. -/
theorem duplicate_iff_oneSubmit :
    ∃ worker, .stats (.rejected worker .duplicate) ∈ (Session.handleSubmit lengthHash
      (.regtest "1".toList) afterSubmit "8".toList regtestSubmit).effects := by
  have hready : afterSubmit.authorized ∧ afterSubmit.worker = some regtestSubmit.worker ∧
      (afterSubmit.issuedJobs.find regtestSubmit.jobId).isSome ∧
      regtestAccepted oneSubmit ≠ [] := by
    decide +kernel
  have hentries : ∀ entry ∈ afterSubmit.issuedJobs.find regtestSubmit.jobId,
      (validateShareNoDedup lengthHash (regtestSubmit.shareParams afterSubmit.versionRollingEnabled
        afterSubmit.versionRollingMask) entry.job entry afterSubmit.extranonce1
        afterSubmit.vardiffCfg.minDifficulty regtestTemplate.curTime).isOk ∧
      entry.job.merkleBranchRaw = [] ∧
      ∀ a ∈ regtestAccepted oneSubmit, a.entry.job = entry.job ∧ a.coinbase =
        entry.job.assembleCoinbaseInto afterSubmit.extranonce1 regtestSubmit.extranonce2 ∧
        a.header lengthHash = reconstructHeader lengthHash (regtestSubmit.shareParams
          afterSubmit.versionRollingEnabled afterSubmit.versionRollingMask) entry.job
          afterSubmit.extranonce1 := by
    decide +kernel
  obtain ⟨hauthorized, hworker, hfind, haccepted⟩ := hready
  obtain ⟨entry, hentry⟩ := Option.isSome_iff_exists.mp hfind
  obtain ⟨hok, hbranch, hshares⟩ := hentries entry hentry
  obtain ⟨result, hresult⟩ := exists_of_isOk hok
  have hs : Session.Submittable lengthHash afterSubmit (.regtest "1".toList) regtestSubmit entry
      result := ⟨hauthorized, hworker, hentry, hresult⟩
  have hinj : Set.InjOn lengthHash (AcceptedShare.hashedBy lengthHash
      (afterSubmit.shareOf (.regtest "1".toList) regtestSubmit entry result ::
        regtestAccepted oneSubmit)) := by
    refine (AcceptedShare.subsingleton_hashedBy (fun a ha => ?_) fun a ha b hb => ?_).injOn _
    · rcases List.mem_cons.mp ha with rfl | ha
      · exact hbranch
      · rw [(hshares a ha).1, hbranch]
    · have hcoinbase : ∀ a ∈ afterSubmit.shareOf (.regtest "1".toList) regtestSubmit entry result ::
          regtestAccepted oneSubmit, a.coinbase =
            entry.job.assembleCoinbaseInto afterSubmit.extranonce1 regtestSubmit.extranonce2 := by
        intro a ha
        rcases List.mem_cons.mp ha with rfl | ha
        · exact Session.coinbase_shareOf ..
        · exact (hshares a ha).2.1
      exact (hcoinbase a ha).trans (hcoinbase b hb).symm
  obtain ⟨share, hshare⟩ := List.exists_mem_of_ne_nil _ haccepted
  obtain ⟨st, hst, hmem⟩ := List.mem_flatMap.mp hshare
  exact (Session.duplicate_iff lawful_regtestAddresses regtestConfig .regtest "s".toList
    [1, 2, 3, 4] (some regtestTemplate) 0 (regtestInputs ++ oneSubmit) (by decide +kernel)
    (by decide +kernel) (by decide +kernel) (by decide +kernel) (.regtest "1".toList) "8".toList
    regtestSubmit entry result hs (by decide +kernel) hinj).mpr
    ⟨share, Core.mem_accepted_iff.mpr ⟨st, hst, hmem⟩, (hshares share hshare).1,
      (hshares share hshare).2.2.trans (Session.header_shareOf ..).symm⟩

/-- The share is submitted a second time with version bits, which were not negotiated. -/
def ignoredBits : List Input :=
  oneSubmit ++ [.regtest (.submit { regtestSubmit with versionBits := some 0x2000 })]

/-- Bits that the header does not have make another key: both submits are accepted, for one job and
with one header, though nothing hashed collides. -/
theorem ignored_bits_credited_twice :
    (regtestAccepted ignoredBits).length = 2 ∧
    Set.InjOn lengthHash (AcceptedShare.hashInputs lengthHash (regtestAccepted ignoredBits)) ∧
    ∀ a ∈ regtestAccepted ignoredBits, ∀ b ∈ regtestAccepted ignoredBits,
      a.entry.job = b.entry.job ∧ a.header lengthHash = b.header lengthHash := by
  have hshares : (regtestAccepted ignoredBits).length = 2 ∧
      ∀ a ∈ regtestAccepted ignoredBits, a.entry.job.merkleBranchRaw = [] ∧
        (a.header lengthHash).map lengthHash ≠ .ok (lengthHash a.coinbase) ∧
        ∀ b ∈ regtestAccepted ignoredBits, a.coinbase = b.coinbase ∧
          a.entry.job = b.entry.job ∧ a.header lengthHash = b.header lengthHash := by
    decide +kernel
  obtain ⟨hlength, halike⟩ := hshares
  refine ⟨hlength, AcceptedShare.injOn_hashInputs ?_ ?_ ?_ ?_, ?_⟩
  · exact fun a ha => (halike a ha).1
  · exact fun a ha b hb => ((halike a ha).2.2 b hb).1
  · exact fun a ha b hb => ((halike a ha).2.2 b hb).2.2
  · exact fun a ha => (halike a ha).2.1
  · exact fun a ha b hb => ((halike a ha).2.2 b hb).2

end Sv1

end BtcPool
