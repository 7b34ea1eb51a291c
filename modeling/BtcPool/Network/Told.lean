import BtcPool.Foundations.LastSaid
import BtcPool.Network.Dialogue
import BtcPool.Protocol.Sv2.Targets

/-!
# The difficulty a miner was told

A share is judged by two difficulties: the one stamped on its job when the job was issued, and the
one assigned to the session now. `Told` says that the miner knows both: the first was the last one
it was told before the job went out, the second is the last one it was told at all.

A Stratum V1 session keeps this in every run. A Stratum V2 session keeps it if the target of its
difficulty is within the bound a device declares when it opens its channel (`difficulty_told`). If
it is not, the device is sent its own bound, and the stamp on the job is a difficulty it never heard
of (`clamped_open_untold`).
-/

namespace BtcPool

open Bitcoin

/-- What was told about the difficulties shares are judged by. A session is `ready` once it can have
work; `carries` says which message brings a job. -/
structure Told {μ τ : Type*} (said : μ → Option τ) (carries : StratumJob → μ → Prop)
    (value : UInt64 → τ) (ready : Bool) (difficulty : UInt64) (jobs : IssuedJobs) (ms : List μ) :
    Prop where
  stamped : ∀ entry ∈ jobs.entries, SaidBefore said (carries entry.job) (value entry.difficulty) ms
  assigned : ready → lastSaid said ms = some (value difficulty)

section Told

variable {μ τ : Type*} {said : μ → Option τ} {carries : StratumJob → μ → Prop} {value : UInt64 → τ}
  {ready : Bool} {difficulty : UInt64} {jobs : IssuedJobs} {ms : List μ}

theorem Told.quiet (h : Told said carries value ready difficulty jobs ms) {ms' : List μ}
    (hquiet : ∀ m ∈ ms', said m = none) :
    Told said carries value ready difficulty jobs (ms ++ ms') := by
  refine ⟨fun entry hmem => (h.stamped entry hmem).append ms', fun hready => ?_⟩
  rw [lastSaid_append_of_none hquiet]
  exact h.assigned hready

/-- The difficulty is announced, and nothing else after it. -/
theorem Told.announce {jobs' : IssuedJobs} (h : Told said carries value ready difficulty jobs ms)
    (hjobs : ∀ entry ∈ jobs'.entries, entry ∈ jobs.entries) {difficulty' : UInt64}
    (before : List μ) {after : List μ} {m : μ} (hm : said m = some (value difficulty'))
    (hafter : ∀ m ∈ after, said m = none) (ready' : Bool) :
    Told said carries value ready' difficulty' jobs' (ms ++ (before ++ m :: after)) := by
  refine ⟨fun entry hmem => (h.stamped entry (hjobs entry hmem)).append _, fun _ => ?_⟩
  rw [← List.append_assoc]
  exact lastSaid_append_cons hm hafter

/-- A job goes out with the difficulty announced last as its stamp. -/
theorem Told.issue (h : Told said carries value ready difficulty jobs ms)
    (hlast : lastSaid said ms = some (value difficulty)) {job : StratumJob} {m : μ}
    (hcarries : carries job m) (after : List μ) (hquiet : ∀ x ∈ m :: after, said x = none)
    (clean : Bool) (ready' : Bool) :
    Told said carries value ready' difficulty (jobs.issue job clean difficulty)
      (ms ++ m :: after) := by
  refine ⟨fun entry hmem => ?_, fun _ => (lastSaid_append_of_none hquiet).trans hlast⟩
  rcases IssuedJobs.eq_of_mem_issue hmem with rfl | ⟨old, hold, rfl⟩
  · exact ⟨ms, m, after, rfl, hcarries, hlast⟩
  · exact (h.stamped old hold).append _

theorem told_new : Told said carries value false difficulty .new ([] : List μ) :=
  ⟨by simp, fun h => by cases h⟩

end Told

/-! ## Stratum V1 -/

namespace Sv1

/-- The difficulty a message tells. -/
def Message.assigned : Message → Option UInt64
  | .setDifficulty difficulty => some difficulty
  | _ => none

theorem Message.Plain.assigned {m : Message} (h : m.Plain) : m.assigned = none := by
  cases m <;> first | rfl | exact h.elim

/-- The message brings the job. -/
def Notifies (job : StratumJob) (m : Message) : Prop :=
  ∃ clean, m = .notify (buildNotify job clean)

theorem notifies (job : StratumJob) (clean : Bool) :
    Notifies job (.notify (buildNotify job clean)) :=
  ⟨clean, rfl⟩

/-- What a session told its miner. Only a session that subscribed is told anything. -/
structure View.Told (v : View) (ms : List Message) : Prop where
  told : BtcPool.Told Message.assigned Notifies id v.authorized v.difficulty v.jobs ms
  subscribed : v.authorized → v.subscribed

theorem Answer.told {offered : JobTemplate → Prop} {v v' : View} {hint : Option UInt64}
    {past ms : List Message} (h : Answer offered v hint v' ms) (hv : v.Told past) :
    v'.Told (past ++ ms) := by
  cases h with
  | plain hplain => exact ⟨hv.told.quiet fun m hm => (hplain m hm).assigned, hv.subscribed⟩
  | subscribed hplain => exact ⟨hv.told.quiet fun m hm => (hplain m hm).assigned, fun _ => rfl⟩
  | configured => exact ⟨hv.told.quiet (by simp [Message.assigned]), hv.subscribed⟩
  | hinted request hint =>
    refine ⟨?_, hv.subscribed⟩
    by_cases hsub : v.subscribed
    · rw [if_pos hsub]
      exact hv.told.announce (fun _ => id) [_] rfl (by simp) _
    · -- nothing is said, and nothing promised
      have hnot : v.authorized = false := by
        simpa using fun hauth => hsub (hv.subscribed hauth)
      refine ⟨fun entry hmem => (hv.told.stamped entry hmem).append _, fun hauth => ?_⟩
      simp [hnot] at hauth
  | greeted hsub hjobs request =>
    exact ⟨hv.told.announce (IssuedJobs.subset_of_eq_or_clear hjobs) [_] rfl (by simp) _,
      fun _ => hsub⟩
  | welcomed hsub hjobs htemplate request job _ =>
    have hannounced : BtcPool.Told Message.assigned Notifies id true v.difficulty _
        (past ++ [.ok request true, .setDifficulty v.difficulty]) :=
      hv.told.announce (IssuedJobs.subset_of_eq_or_clear hjobs) [_] rfl (by simp) true
    have hissued := hannounced.issue (hannounced.assigned rfl) (notifies job true) []
      (by simp [Message.assigned]) true true
    exact ⟨by simpa using hissued, fun _ => hsub⟩
  | pushed hsub hoffered job _ clean =>
    have hannounced : BtcPool.Told Message.assigned Notifies id true v.difficulty v.jobs
        (past ++ [.setDifficulty v.difficulty]) :=
      hv.told.announce (fun _ => id) [] rfl (by simp) true
    have hissued := hannounced.issue (hannounced.assigned rfl) (notifies job clean) []
      (by simp [Message.assigned]) clean v.authorized
    exact ⟨by simpa using hissued, hv.subscribed⟩
  | held => exact ⟨hv.told.quiet (by simp), hv.subscribed⟩

theorem Retargeted.told {v v' : View} {past ms : List Message} (h : Retargeted v v' ms)
    (hv : v.Told past) : v'.Told (past ++ ms) := by
  cases h with
  | unchanged => exact ⟨hv.told.quiet (by simp), hv.subscribed⟩
  | changed => exact ⟨hv.told.announce (fun _ => id) [] rfl (by simp) _, hv.subscribed⟩

theorem Session.run_told (H : Bytes → ByteVec 32) (A : AddressLib) (cfg : Config)
    (network : Network)
    (sessionId : Str) (extranonce1 : Bytes) (template : Option JobTemplate) (now : Instant)
    (inputs : List Input) :
    let out := (process H A).run (new cfg network sessionId extranonce1 template now) inputs
    out.live → out.state.view.Told (Effect.messages out.outputs) := by
  intro out hlive
  have hany : ∀ input ∈ inputs, input.Offers (fun _ => True) := fun _ _ => ⟨by simp, by simp⟩
  exact run_view Answer.told Retargeted.told ⟨told_new, fun h => by cases h⟩ hany hlive

end Sv1

/-! ## Stratum V2 -/

namespace Sv2

/-- The message brings the job. -/
def Brings (W : Wire) (job : StratumJob) (m : Message) : Prop :=
  ∃ newJob, m = .newExtendedMiningJob newJob ∧ Carries W job newJob

theorem brings {W : Wire} {job : StratumJob} {newJob : NewExtendedMiningJob}
    (h : Carries W job newJob) : Brings W job (.newExtendedMiningJob newJob) :=
  ⟨newJob, rfl, h⟩

/-- What a session told its device, in targets. -/
def View.Told (W : Wire) (v : View) (ms : List Message) : Prop :=
  BtcPool.Told Message.target (Brings W) difficultyToSv2Target v.channelOpen v.difficulty v.jobs ms

theorem Answer.told {W : Wire} {offered : JobTemplate → Prop} {v v' : View}
    {asked : Option OpenExtended} {past ms all : List Message} (h : Answer W offered v asked v' ms)
    (hall : ms <+: all) (hroom : v.LeavesRoom asked all) (hv : v.Told W past) :
    v'.Told W (past ++ ms) := by
  -- the target of a channel that opens is that of the difficulty
  have hfirst : ∀ m ∈ ms, ∀ target, m.target = some target →
      m.target = some (difficultyToSv2Target v.difficulty) := by
    intro m hm target ht
    rw [ht, h.target_of_leavesRoom hroom hm (hall.subset hm) ht]
  cases h with
  | plain hplain => exact Told.quiet hv fun m hm => (hplain m hm).target
  | opened =>
    exact Told.announce hv (fun _ => id) [] (hfirst _ (List.mem_singleton_self _) _ rfl)
      (by simp) true
  | @started o job newJob more hclosed hcarries hmore channelId size extranoncePrefix _ =>
    have hannounced : View.Told W { v with channelOpen := true }
        (past ++ [.openExtendedSuccess o.requestId channelId (v.openTarget o.maxTarget) size
          extranoncePrefix]) :=
      Told.announce hv (fun _ => id) [] (hfirst _ List.mem_cons_self _ rfl) (by simp) true
    have hissued := Told.issue hannounced (hannounced.assigned rfl) (brings hcarries) more
      (target_eq_none_of_cons hmore) true true
    rw [List.append_assoc] at hissued
    exact hissued
  | pushed hopen hoffered hcarries hmore clean _ =>
    exact Told.issue hv (hv.assigned hopen) (brings hcarries) _ (target_eq_none_of_cons hmore)
      clean _
  | held => exact Told.quiet hv (by simp)

theorem Retargeted.told {W : Wire} {v v' : View} {past ms : List Message} (h : Retargeted v v' ms)
    (hv : v.Told W past) : v'.Told W (past ++ ms) := by
  cases h with
  | unchanged => exact Told.quiet hv (by simp)
  | changed => exact Told.announce hv (fun _ => id) [] rfl (by simp) _

theorem Session.run_told {W : Wire} {H : Bytes → ByteVec 32} {A : AddressLib} {cfg : Config}
    {network : Network} {sessionId : Str} {extranoncePrefix : Bytes} {template : Option JobTemplate}
    {now : Instant} {inputs : List Input}
    (hroom : (process W H A).Meets (Unclamped W H A)
      (new cfg network sessionId extranoncePrefix template now) inputs) :
    let out := (process W H A).run (new cfg network sessionId extranoncePrefix template now) inputs
    out.live → out.state.view.Told W (Effect.messages out.outputs) := by
  intro out hlive
  have hnew : View.Told W (new cfg network sessionId extranoncePrefix template now).view [] :=
    told_new
  have hany : ∀ input ∈ inputs, input.Offers (fun _ => True) := fun _ _ _ _ _ => trivial
  exact run_view Answer.told Retargeted.told hnew hroom hany hlive

end Sv2

/-! ## Both protocols -/

/-- In every run of a Stratum V1 session, and in every run of a Stratum V2 session in which no
device declares a bound below the target of the session's difficulty: the stamp on an issued job is
the difficulty the miner was told last before the job went out; a session that can get shares has
told its difficulty; and so a share is accepted only for a job whose stamp was told, while the
difficulty of the session is the one told last. -/
theorem difficulty_told (H : Bytes → ByteVec 32) (A : AddressLib) (cfg : Config)
    (network : Network) (sessionId : Str) (extranonce1 : Bytes) (template : Option JobTemplate)
    (now : Instant) :
    (∀ inputs,
      let out := (Sv1.Session.process H A).run
        (.new cfg network sessionId extranonce1 template now) inputs
      let ms := Effect.messages out.outputs
      out.live →
      Told Sv1.Message.assigned Sv1.Notifies id out.state.authorized out.state.difficulty
        out.state.issuedJobs ms ∧
      ∀ input share, .accept share ∈ Effect.actions (Sv1.Session.step H A out.state input).outputs →
        lastSaid Sv1.Message.assigned ms = some out.state.difficulty ∧
        SaidBefore Sv1.Message.assigned (Sv1.Notifies share.entry.job) share.entry.difficulty ms) ∧
    (∀ W inputs,
      let out := (Sv2.Session.process W H A).run
        (.new cfg network sessionId extranonce1 template now) inputs
      let ms := Effect.messages out.outputs
      (Sv2.Session.process W H A).Meets (Sv2.Session.Unclamped W H A)
        (.new cfg network sessionId extranonce1 template now) inputs →
      out.live →
      Told Sv2.Message.target (Sv2.Brings W) Sv2.difficultyToSv2Target out.state.channelOpen
        out.state.difficulty out.state.issuedJobs ms ∧
      ∀ input share,
        .accept share ∈ Effect.actions (Sv2.Session.step W H A out.state input).outputs →
        lastSaid Sv2.Message.target ms = some (Sv2.difficultyToSv2Target out.state.difficulty) ∧
        SaidBefore Sv2.Message.target (Sv2.Brings W share.entry.job)
          (Sv2.difficultyToSv2Target share.entry.difficulty) ms) := by
  constructor
  · intro inputs out ms hlive
    have htold :=
      Sv1.Session.run_told H A cfg network sessionId extranonce1 template now inputs hlive
    refine ⟨htold.told, fun input share haccept => ?_⟩
    obtain ⟨_, _, entry, _, -, hs, -, rfl⟩ := Sv1.Session.accept_of_step haccept
    exact ⟨htold.told.assigned hs.authorized,
      htold.told.stamped entry (IssuedJobs.mem_of_find hs.find).1⟩
  · intro W inputs out ms hroom hlive
    have htold := Sv2.Session.run_told hroom hlive
    refine ⟨htold, fun input share haccept => ?_⟩
    obtain ⟨_, _, entry, _, -, hs, -, rfl⟩ := Sv2.Session.accept_of_step haccept
    obtain ⟨jobId, -, hfind⟩ := Option.bind_eq_some_iff.mp hs.find
    exact ⟨htold.assigned hs.channel, htold.stamped entry (IssuedJobs.mem_of_find hfind).1⟩

/-- The second part at a run that opens a channel and gets a share: the stamp of its job is the
target the device was told. -/
theorem difficulty_told_regtest :
    let out := (Sv2.Session.process .exact zeroHash regtestAddresses).run
      (.new regtestConfig .regtest "s".toList [1, 2, 3, 4] (some regtestTemplate) 0)
      [Sv2.regtestSetup, Sv2.Session.openDeclaring 1, Sv2.Session.fastShare]
    out.state.issuedJobs.entries.length = 1 ∧
    Told Sv2.Message.target (Sv2.Brings .exact) Sv2.difficultyToSv2Target out.state.channelOpen
      out.state.difficulty out.state.issuedJobs (Effect.messages out.outputs) := by
  refine ⟨by decide +kernel, ((difficulty_told zeroHash regtestAddresses regtestConfig .regtest
    "s".toList [1, 2, 3, 4] (some regtestTemplate) 0).2 .exact
    [Sv2.regtestSetup, Sv2.Session.openDeclaring 1, Sv2.Session.fastShare] (by decide +kernel)
    (by decide +kernel)).1⟩

/-- A device declares the target of difficulty 1000 as its bound. The session works at difficulty
one: it sends the device its bound and stamps its first job with one. -/
theorem clamped_open_untold :
    let out := (Sv2.Session.process .exact zeroHash regtestAddresses).run Sv2.regtestSession
      [Sv2.regtestSetup, Sv2.Session.openDeclaring 1000]
    out.live ∧ out.state.issuedJobs.entries.map (fun entry => entry.difficulty) = [1] ∧
    (Effect.messages out.outputs).filterMap Sv2.Message.target =
      [Sv2.difficultyToSv2Target 1000] ∧
    Sv2.difficultyToSv2Target 1 ≠ Sv2.difficultyToSv2Target 1000 := by
  decide +kernel

end BtcPool
