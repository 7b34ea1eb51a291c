import BtcPool.Network.Pool
import BtcPool.Network.SessionRefines

/-!
# Outstanding jobs and the tip

A Stratum V1 session may hold a template it read ahead of the channel, and issues jobs when the
miner authorizes as well as when a template is delivered. `Follows` is the invariant that links
engine, channel, cache and history: as long as no clean job waits in the channel, everything
outstanding and the template held are on the tip the session has reached. If one waits, its delivery
will retire what is outstanding, whatever that is.

`outstanding_on_tip` is what remains of it when the channel is drained.
-/

namespace BtcPool

open Bitcoin Broadcast BtcPool.Core

/-! ## The core of a session on a tip -/

/-- What a session of the pool is held to, with the templates it is given. A share is of the job its
id resolves to. -/
def Setup.rules (S : Setup) (offered : JobTemplate → Prop) : Core.Rules where
  H := S.H
  A := S.A
  network := S.network
  tag := S.cfg.pool.coinbaseTag
  offered := offered
  form share := share.session.issuedJobs.find share.key.jobId = some share.entry
  mayNegotiate _ _ := True

/-- The rules of a session that is given templates of one tip. -/
def Setup.tipRules (S : Setup) (tip : Option Str) : Core.Rules :=
  S.rules fun template => tip = some template.prevHash

namespace Core

variable {S : Setup} {tip : Option Str} {c : Core}

/-- Every outstanding job is on the tip, and no share is remembered for a job that is not. -/
structure OnTip (tip : Option Str) (c : Core) : Prop where
  jobs : ∀ entry ∈ c.issuedJobs.entries, entry.supersededByClean = false →
    tip = some entry.job.prevHash
  shares : ∀ entry ∈ c.issuedJobs.entries, tip ≠ some entry.job.prevHash →
    ∀ key ∈ c.shareSet.seen, key.jobId ≠ entry.job.jobId

theorem onTip_of_idle (h : c.Idle) : c.OnTip tip := by
  rw [Idle] at h
  exact ⟨by simp [h], by simp [h]⟩

/-- Any action keeps retired jobs first. -/
theorem ordered_next (h : c.issuedJobs.Ordered) (a : Action) : (c.next a).issuedJobs.Ordered := by
  cases a with
  | retire => exact c.issuedJobs.ordered_clear
  | issue template job clean difficulty => exact h.issue job clean difficulty
  | renew template job difficulty => exact h.issue job true difficulty
  | _ => exact h

theorem tip_of_materialized {template : JobTemplate} {job : StratumJob}
    (h : c.Materialized (S.tipRules tip) template job) : tip = some job.prevHash := by
  obtain ⟨identity, -, hoffered, hbuilt⟩ := h
  rw [hbuilt.prevHash]
  exact hoffered

/-- A job of the tip joins the history. -/
theorem OnTip.issue (h : c.OnTip tip) {job : StratumJob} (hjob : tip = some job.prevHash)
    (clean : Bool) (difficulty : UInt64) {shares : ShareSet}
    (hshares : ∀ key ∈ shares.seen, key ∈ c.shareSet.seen) :
    OnTip tip { c with
      issuedJobs := c.issuedJobs.issue job clean difficulty, shareSet := shares } := by
  refine ⟨fun entry hmem hlive => ?_, fun entry hmem hother key hkey => ?_⟩
  · rcases IssuedJobs.mem_issue hmem with rfl | ⟨old, hold, hsame, hsup⟩
    · exact hjob
    · rw [hsame]
      exact h.jobs old hold (by simp_all)
  · rcases IssuedJobs.mem_issue hmem with rfl | ⟨old, hold, hsame, hsup⟩
    · exact absurd hjob hother
    · rw [hsame] at hother ⊢
      exact h.shares old hold hother key (hshares key hkey)

/-- A share of an outstanding job joins the shares. Its id resolves to that job, so no retired job
has the same. -/
theorem OnTip.accept (h : c.OnTip tip) (hord : c.issuedJobs.Ordered) {share : AcceptedShare}
    (ha : Enabled (S.tipRules tip) c (.accept share)) : OnTip tip (c.next (.accept share)) := by
  obtain ⟨rfl, -, hshare, hfind⟩ := ha
  have hlive : share.entry.supersededByClean = false := by
    obtain ⟨header, hvalidated, -⟩ := validateShareNoDedup_eq_ok.mp hshare.valid
    exact hvalidated.live
  refine ⟨h.jobs, fun entry hmem hother key hkey hid => ?_⟩
  rcases ShareSet.mem_of_mem_insert hkey with rfl | hold
  · exact hother (h.jobs entry hmem (hord.live_of_find hfind hlive hmem hid.symm))
  · exact h.shares entry hmem hother key hold hid

theorem OnTip.next (h : c.OnTip tip) (hord : c.issuedJobs.Ordered) {a : Action}
    (ha : Enabled (S.tipRules tip) c a) : OnTip tip (c.next a) := by
  cases a with
  | retire => exact onTip_of_idle rfl
  | identify identity => exact ⟨h.jobs, h.shares⟩
  | assign extranonce1 size => exact ⟨h.jobs, h.shares⟩
  | negotiate mask => exact ⟨h.jobs, h.shares⟩
  | clearShares => exact onTip_of_idle ha
  | issue template job clean difficulty =>
    exact h.issue (tip_of_materialized ha) clean difficulty fun _ hkey => hkey
  | renew template job difficulty =>
    exact h.issue (tip_of_materialized ha) true difficulty fun _ hkey => by simp at hkey
  | accept share => exact h.accept hord ha

/-- A renewal moves everything to its tip. -/
theorem onTip_renew {template : JobTemplate} {job : StratumJob} {difficulty : UInt64}
    (ha : Enabled (S.tipRules tip) c (.renew template job difficulty)) :
    OnTip tip (c.next (.renew template job difficulty)) := by
  refine ⟨fun entry hmem hlive => ?_, fun _ _ _ key hkey => by simp [Core.next] at hkey⟩
  rcases IssuedJobs.mem_issue hmem with rfl | ⟨old, -, -, hsup⟩
  · exact tip_of_materialized ha
  · rw [hsup] at hlive
    cases hlive

theorem OnTip.run {c' : Core} {actions : List Action}
    (hrun : (machine (S.tipRules tip)).Run c actions c') (h : c.OnTip tip)
    (hord : c.issuedJobs.Ordered) : c'.OnTip tip :=
  (hrun.invariant (P := fun _ c => c.OnTip tip ∧ c.issuedJobs.Ordered)
    (fun hP ha => ⟨hP.1.next hP.2 ha, ordered_next hP.2 _⟩) ⟨h, hord⟩).1

end Core

/-! ## Sessions -/

namespace Sv1.Session

variable {S : Setup} {s : Session}

theorem Inv.forget_rules {offered offered' : JobTemplate → Prop} (h : s.Inv (S.rules offered)) :
    ({ s with currentTemplate := none } : Session).Inv (S.rules offered') :=
  ⟨h.network, h.tag, by simp, h.ready⟩

/-- An accepted share is of the job its id resolves to. -/
theorem find_of_accept {H : Bytes → ByteVec 32} {A : AddressLib} {input : Input}
    {share : AcceptedShare} (h : .accept share ∈ Effect.actions (step H A s input).outputs) :
    share.session.issuedJobs.find share.key.jobId = some share.entry := by
  obtain ⟨id, params, entry, result, -, hsubmit, -, rfl⟩ := accept_of_step h
  exact hsubmit.find

/-- A turn, under the rules for some offered templates. -/
theorem step_rules {offered : JobTemplate → Prop} (hinv : s.Inv (S.rules offered)) {input : Input}
    (hoffers : input.Offers offered) :
    ∃ t, (machine (S.rules offered)).Run s.core (Effect.actions (s.step S.H S.A input).outputs) t ∧
      ((s.step S.H S.A input).live →
        t = (s.step S.H S.A input).state.core ∧
        (s.step S.H S.A input).state.Inv (S.rules offered)) :=
  step_run hinv hoffers (fun _ h => find_of_accept h) fun _ _ => trivial

/-- What holds of a session at a position of the channel. While no clean job waits, the template
held and all outstanding jobs are on the tip reached. -/
structure Follows (S : Setup) (engine : TemplateEngine) (next : ℕ) (s : Session) : Prop where
  inv : s.Inv (S.rules fun _ => True)
  ordered : s.issuedJobs.Ordered
  onTip : Broadcast.Settled JobBroadcast.clean engine.queue next engine.queue.length →
    s.Inv (S.tipRules (keyAt JobBroadcast.tip engine.queue next)) ∧
      s.core.OnTip (keyAt JobBroadcast.tip engine.queue next)

/-- While no clean job waits, the engine's template is on the tip reached. -/
theorem offered_current {engine : TemplateEngine} (hengine : engine.Inv S.H) {next : ℕ}
    (hnext : next ≤ engine.queue.length)
    (hsettled : Broadcast.Settled JobBroadcast.clean engine.queue next engine.queue.length)
    {template : JobTemplate} (ht : engine.currentTemplate = some template) :
    keyAt JobBroadcast.tip engine.queue next = some template.prevHash := by
  rw [← hengine.linked.keyAt_eq hnext le_rfl hsettled, hengine.keyAt_current ht]

/-- A turn on templates of the tip reached keeps the session on it. -/
theorem Follows.step {engine : TemplateEngine} {next next' : ℕ} (h : Follows S engine next s)
    {input : Input} (hlive : (s.step S.H S.A input).live)
    (hstays : Broadcast.Settled JobBroadcast.clean engine.queue next' engine.queue.length →
      Broadcast.Settled JobBroadcast.clean engine.queue next engine.queue.length ∧
      keyAt JobBroadcast.tip engine.queue next' = keyAt JobBroadcast.tip engine.queue next ∧
      input.Offers fun t => keyAt JobBroadcast.tip engine.queue next = some t.prevHash) :
    Follows S engine next' (s.step S.H S.A input).state := by
  have hany : input.Offers fun _ => True := ⟨fun _ _ _ => trivial, fun _ _ => trivial⟩
  obtain ⟨t, hrun, hafter⟩ := step_rules h.inv hany
  obtain ⟨rfl, hinv⟩ := hafter hlive
  refine ⟨hinv, ?_, fun hsettled => ?_⟩
  · exact hrun.invariant (P := fun _ c => c.issuedJobs.Ordered) (fun hP _ => ordered_next hP _)
      h.ordered
  · obtain ⟨hbefore, hkey, hoffers⟩ := hstays hsettled
    obtain ⟨htip, hon⟩ := h.onTip hbefore
    obtain ⟨t, hrun, hafter⟩ := step_rules htip hoffers
    obtain ⟨rfl, hinv⟩ := hafter hlive
    rw [hkey]
    exact ⟨hinv, hon.run hrun h.ordered⟩

/-- A clean job brings the session to its tip, wherever it was. -/
theorem Follows.clean {engine : TemplateEngine} {next : ℕ} (h : Follows S engine next s)
    {b : JobBroadcast} (hb : engine.queue[next]? = some b) (hclean : b.clean = true)
    {env : Env Message} (hlive : (s.step S.H S.A ⟨.broadcast b.template b.clean, env⟩).live) :
    Follows S engine (next + 1) (s.step S.H S.A ⟨.broadcast b.template b.clean, env⟩).state := by
  have hkey : keyAt JobBroadcast.tip engine.queue (next + 1) = some b.template.prevHash :=
    keyAt_succ hb
  rw [hclean] at hlive ⊢
  have hforget : ({ s with currentTemplate := none } : Session).Inv
      (S.tipRules (some b.template.prevHash)) := h.inv.forget_rules
  have hoffered : (S.tipRules (some b.template.prevHash)).offered b.template := rfl
  obtain ⟨t, hrun, hafter⟩ := handleBroadcast_run hforget hoffered true
  obtain ⟨rfl, hinv⟩ := hafter hlive
  have hordered := hrun.invariant (P := fun _ c => c.issuedJobs.Ordered)
    (fun hP _ => ordered_next hP _) h.ordered
  refine ⟨⟨hinv.network, hinv.tag, fun _ _ => trivial, hinv.ready⟩, hordered, fun _ => ?_⟩
  rw [hkey]
  refine ⟨hinv, ?_⟩
  rcases actions_of_clean hlive with ⟨job, hactions⟩ | hactions <;> rw [hactions] at hrun
  · cases hrun with
    | cons ha hrest =>
      exact OnTip.run hrest (onTip_renew ha) (ordered_next h.ordered _)
  · cases hrun with
    | cons ha hrest =>
      have hidle : s.core.Idle := ha
      exact OnTip.run hrest (onTip_of_idle hidle) (ordered_next h.ordered _)

theorem follows_new {engine : TemplateEngine} (hengine : engine.Inv S.H) {next : ℕ}
    (hnext : next ≤ engine.queue.length) (sessionId : Str) (extranonce1 : Bytes) (now : Instant) :
    Follows S engine next
      (.new S.cfg S.network sessionId extranonce1 engine.currentTemplate now) where
  inv := inv_new rfl (fun _ _ => trivial) sessionId extranonce1 now
  ordered := IssuedJobs.ordered_new
  onTip hsettled := ⟨inv_new (R := S.tipRules _) rfl
    (fun _ ht => offered_current hengine hnext hsettled ht) sessionId extranonce1 now,
    onTip_of_idle rfl⟩

/-- A delivery keeps the session on the tip reached: one that is not clean is on it already. -/
theorem Follows.item {engine : TemplateEngine} (hengine : engine.Inv S.H) {next : ℕ}
    (h : Follows S engine next s) {b : JobBroadcast} (hb : engine.queue[next]? = some b)
    {env : Env Message} (hoffered : env.engineTemplate = engine.currentTemplate)
    (hlive : (s.step S.H S.A ⟨.broadcast b.template b.clean, env⟩).live) :
    Follows S engine (next + 1) (s.step S.H S.A ⟨.broadcast b.template b.clean, env⟩).state := by
  cases hclean : b.clean with
  | true =>
    rw [← hclean]
    exact h.clean hb hclean hlive
  | false =>
    rw [← hclean]
    have hkey := hengine.linked next b hb hclean
    have hnext : next ≤ engine.queue.length := (List.getElem?_eq_some_iff.mp hb).1.le
    refine h.step hlive fun hsettled => ?_
    have hbefore := hsettled.of_succ hb hclean
    refine ⟨hbefore, by rw [keyAt_succ hb, hkey], ?_, fun template ht => ?_⟩
    · intro template clean hevent
      cases hevent
      exact hkey
    · exact offered_current hengine hnext hbefore (hoffered ▸ ht)

theorem Follows.writeTemplate {engine : TemplateEngine} {next : ℕ} (h : Follows S engine next s)
    (hnext : next ≤ engine.queue.length) (result : Except PoolError GbtResult) :
    Follows S (engine.writeTemplate S.H result) next s := by
  obtain ⟨more, hmore⟩ := engine.queue_writeTemplate S.H result
  refine ⟨h.inv, h.ordered, fun hsettled => ?_⟩
  rw [hmore, List.length_append] at hsettled
  rw [hmore, keyAt_append hnext]
  exact h.onTip ((settled_append le_rfl).mp (hsettled.mono (Nat.le_add_right _ _)))

theorem Follows.send {engine : TemplateEngine} {next : ℕ} (h : Follows S engine next s) :
    Follows S engine.send next s := by
  refine ⟨h.inv, h.ordered, ?_⟩
  rw [engine.queue_send]
  exact h.onTip

theorem follows_keeps (S : Setup) : S.sv1.Keeps S.H Link.Punctual (Follows S) where
  writeTemplate := fun result _ hnext h =>
    h.writeTemplate (hnext.trans (TemplateEngine.jobTx_le_queue _)) result
  send := fun _ _ h => h.send
  start := fun hengine hnext _ =>
    follows_new hengine (hnext.trans (TemplateEngine.jobTx_le_queue _)) _ _ _
  receive := by
    intro engine next next' s received env hengine hrecv hpunctual h hlive
    cases received with
    | lagged missed =>
      have hlate := (recv_lagged hrecv).1
      have hearly : engine.jobTx.length ≤ next + jobBroadcastCap := hpunctual
      omega
    | item b =>
      obtain ⟨hsent, rfl⟩ := recv_item hrecv
      exact h.item hengine (TemplateEngine.queue_of_jobTx hsent) rfl hlive
  turn := by
    intro engine next s peer env hengine hsent _ h hlive
    have hnext := hsent.trans engine.jobTx_le_queue
    refine h.step hlive fun hsettled => ⟨hsettled, rfl, ?_, ?_⟩
    · intro template clean hevent
      cases peer <;> cases hevent
    · exact fun template ht => offered_current hengine hnext hsettled ht

/-- A submit for a job that is not on the tip is refused as stale. -/
theorem handleSubmit_of_other_tip {tip : Option Str} (h : s.core.OnTip tip) (H : Bytes → ByteVec 32)
    (env : Env Message) (id : RequestId) (params : SubmitParams) (hauth : s.authorized)
    (hworker : s.worker = some params.worker)
    (hother : ∀ entry, s.issuedJobs.find params.jobId = some entry →
      tip ≠ some entry.job.prevHash) :
    ∃ reason ∈ [RejectReason.jobNotFound, RejectReason.stale],
      handleSubmit H env s id params =
        s.refuse id reason (PoolError.staleJob params.jobId).toStratumError := by
  unfold handleSubmit
  rw [if_neg (by simp [hauth, hworker])]
  cases hfind : s.issuedJobs.find params.jobId with
  | none => exact ⟨.jobNotFound, by simp, rfl⟩
  | some entry =>
    obtain ⟨hmem, hid⟩ := IssuedJobs.mem_of_find hfind
    have hretired : entry.supersededByClean = true := by
      by_contra hlive
      exact hother entry hfind (h.jobs entry hmem (by simpa using hlive))
    have hnew : params.shareKey ∉ s.shareSet.seen := fun hseen =>
      h.shares entry hmem (hother entry hfind) params.shareKey hseen hid.symm
    have hstale : validateShareNoDedup H
        (params.shareParams s.versionRollingEnabled s.versionRollingMask) entry.job entry
        s.extranonce1 s.vardiffCfg.minDifficulty env.unixTime =
        .error (.staleJob params.jobId) := by
      simp [validateShareNoDedup, hretired, ensure]
      rfl
    refine ⟨.stale, by simp, ?_⟩
    simp only [ShareSet.contains_iff, hnew, if_false, hstale]
    rfl

end Sv1.Session

/-- In every run of the pool in which no Stratum V1 session falls behind the channel: when the
channel of a session is drained, its outstanding jobs are on the tip of the last template sent, and
a submit for any other job is refused as stale. -/
theorem outstanding_on_tip (S : Setup) {events : List Pool.Event}
    (hpunctual : (Pool.process S).Meets (Pool.OnSv1 Link.Punctual) (Pool.new S) events)
    {pool : Pool}
    (hpool : pool = ((Pool.process S).run (Pool.new S) events).state) {link : Link Sv1.Session}
    (hlink : link ∈ pool.sv1) {s : Sv1.Session} (hs : link.phase = .running s)
    (hdrained : link.CaughtUp pool.engine) :
    (∀ entry ∈ s.issuedJobs.entries, entry.supersededByClean = false →
      ∃ last, pool.engine.jobTx.getLast? = some last ∧
        entry.job.prevHash = last.template.prevHash) ∧
    ∀ env id params, s.authorized → s.worker = some params.worker →
      (∀ entry last, s.issuedJobs.find params.jobId = some entry →
        pool.engine.jobTx.getLast? = some last → entry.job.prevHash ≠ last.template.prevHash) →
      ∃ reason ∈ [RejectReason.jobNotFound, RejectReason.stale],
        Sv1.Session.handleSubmit S.H env s id params =
          s.refuse id reason (PoolError.staleJob params.jobId).toStratumError := by
  obtain ⟨-, hholds⟩ := Pool.sv1_holds (Sv1.Session.follows_keeps S) hpunctual
  rw [← hpool] at hholds
  obtain ⟨hnext, hfollows⟩ := hholds link hlink
  obtain ⟨-, hon⟩ := (hfollows s hs).onTip (by
    intro k a hk hlt
    rw [hdrained] at hk
    omega)
  -- the position is one of the channel, so nothing is about to be sent
  have hsent : pool.engine.queue = pool.engine.jobTx :=
    TemplateEngine.queue_eq_jobTx (hdrained ▸ hnext)
  rw [hdrained, keyAt_length, hsent] at hon
  refine ⟨fun entry hmem hlive => ?_, fun env id params hauth hworker hother => ?_⟩
  · obtain ⟨last, hlast, htip⟩ := Option.map_eq_some_iff.mp (hon.jobs entry hmem hlive)
    exact ⟨last, hlast, htip.symm⟩
  · refine Sv1.Session.handleSubmit_of_other_tip hon S.H env id params hauth hworker
      fun entry hfind htip => ?_
    obtain ⟨last, hlast, htip⟩ := Option.map_eq_some_iff.mp htip
    exact hother entry last hfind hlast htip.symm

/-- A miner that authorized and got its job, with nothing left in the channel. -/
theorem outstanding_on_tip_regtest : ∃ pool link s entry,
    pool = ((Pool.process regtestSetup).run (Pool.new regtestSetup) (.refresh (.ok regtestGbt) ::
      Sv1.regtestEvents [.subscribe none, .authorize regtestPayout.address])).state ∧
    link ∈ pool.sv1 ∧ link.phase = .running s ∧ link.CaughtUp pool.engine ∧
    entry ∈ s.issuedJobs.entries ∧ entry.supersededByClean = false ∧
    ∃ last, pool.engine.jobTx.getLast? = some last ∧
      entry.job.prevHash = last.template.prevHash := by
  let pool := ((Pool.process regtestSetup).run (Pool.new regtestSetup) (.refresh (.ok regtestGbt) ::
    Sv1.regtestEvents [.subscribe none, .authorize regtestPayout.address])).state
  have hmeets : (Pool.process regtestSetup).Meets (Pool.OnSv1 Link.Punctual) (Pool.new regtestSetup)
      (.refresh (.ok regtestGbt) ::
        Sv1.regtestEvents [.subscribe none, .authorize regtestPayout.address]) := by
    decide +kernel
  have hrun : pool.sv1.any fun link => link.next == pool.engine.queue.length &&
      (link.phase.session.any fun s => s.issuedJobs.entries.any fun e => !e.supersededByClean) := by
    decide +kernel
  obtain ⟨link, hlink, hlink'⟩ := List.any_eq_true.mp hrun
  obtain ⟨hnext, hsession⟩ := Bool.and_eq_true_iff.mp hlink'
  have hdrained : link.CaughtUp pool.engine := beq_iff_eq.mp hnext
  obtain ⟨s, hs, hentries⟩ := Option.any_eq_true _ _ |>.mp hsession
  obtain ⟨entry, hentry, hlive⟩ := List.any_eq_true.mp hentries
  have hphase : link.phase = .running s := Phase.eq_running.mp hs
  have hlive : entry.supersededByClean = false := by simpa using hlive
  exact ⟨pool, link, s, entry, rfl, hlink, hphase, hdrained, hentry, hlive,
    (outstanding_on_tip regtestSetup hmeets rfl hlink hphase hdrained).1 entry hentry hlive⟩

end BtcPool
