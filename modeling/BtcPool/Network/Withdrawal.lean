import BtcPool.Network.Pool
import BtcPool.Network.Work

/-!
# Work while the template is withdrawn

A template that announces a rule the pool does not implement withdraws the current one, so that
sessions stop being handed work. The engine's own copy is gone then, but a session keeps the last
template it was given, and deliveries that were on their way stay in its channel.
`withdrawn_handed_out` is a miner that authorizes after the withdrawal and gets a job.

`no_work_while_withdrawn` says which sessions have to hold still: those that would authorize their
miner or open a channel with a template of their own, and those that are ready for jobs and have a
delivery waiting.
-/

namespace BtcPool

open Bitcoin Broadcast

namespace Pool

/-- The session of the connection is given work by the output. -/
def Output.isWork : Output → Bool
  | .sv1 _ e => Sv1.isWork e
  | .sv2 _ e => Sv2.isWork e

/-- The next delivery is a job, not a report of missed ones. -/
def JobWaits {σ : Type} (engine : TemplateEngine) (link : Link σ) : Prop :=
  link.next < engine.jobTx.length ∧ engine.jobTx.length ≤ link.next + jobBroadcastCap

instance decidableJobWaits {σ : Type} (engine : TemplateEngine) (link : Link σ) :
    Decidable (JobWaits engine link) :=
  inferInstanceAs (Decidable (link.next < engine.jobTx.length ∧
    engine.jobTx.length ≤ link.next + jobBroadcastCap))

/-- The miner asks to be authorized, and will be. -/
def Authorizes (S : Setup) (s : Sv1.Session) (env : Env Sv1.Message) : Sv1.PeerEvent → Bool
  | .line (.request _ (.authorize worker)) => env.rateOk && s.admits S.A worker
  | _ => false

/-- The device asks for a channel, and will get it. -/
def Opens (S : Setup) (s : Sv2.Session) (env : Sv2.Surroundings) : Sv2.PeerEvent → Bool
  | .frame payloadLen (.openExtended (.ok o)) =>
    (s.guard.checkMessageSize payloadLen).isOk && env.rateOk && s.admits S.A o
  | _ => false

/-- While the template is withdrawn, no miner is given a template that its session still has. -/
def StillSv1 (S : Setup) (engine : TemplateEngine) (link : Link Sv1.Session) :
    LinkEvent Sv1.PeerEvent (Env Sv1.Message) → Prop
  | .start _ _ _ => True
  | .receive _ => engine.isBlockedOnRules → JobWaits engine link →
    ∀ s ∈ link.phase.session, ¬ (s.subscribed ∧ s.authorized)
  | .turn peer env => engine.isBlockedOnRules →
    ∀ s ∈ link.phase.session, Authorizes S s env peer → s.currentTemplate = none

/-- The same for the devices. -/
def StillSv2 (S : Setup) (engine : TemplateEngine) (link : Link Sv2.Channel) :
    LinkEvent Sv2.PeerEvent Sv2.Surroundings → Prop
  | .start _ _ _ => True
  | .receive _ => engine.isBlockedOnRules → JobWaits engine link →
    ∀ c ∈ link.phase.session, ¬ c.session.channelOpen
  | .turn peer env => engine.isBlockedOnRules →
    ∀ c ∈ link.phase.session, Opens S c.session env peer → c.session.pendingTemplate = none

/-- The connections of both protocols hold still. -/
def Still (S : Setup) (pool : Pool) (event : Event) : Prop :=
  OnSv1 (StillSv1 S) pool event ∧ OnSv2 (StillSv2 S) pool event

instance decidableStillSv1 (S : Setup) (engine : TemplateEngine) (link : Link Sv1.Session) :
    (event : LinkEvent Sv1.PeerEvent (Env Sv1.Message)) → Decidable (StillSv1 S engine link event)
  | .start _ _ _ => inferInstanceAs (Decidable True)
  | .receive _ => inferInstanceAs (Decidable (engine.isBlockedOnRules → JobWaits engine link →
    ∀ s ∈ link.phase.session, ¬ (s.subscribed ∧ s.authorized)))
  | .turn peer env => inferInstanceAs (Decidable (engine.isBlockedOnRules →
    ∀ s ∈ link.phase.session, Authorizes S s env peer → s.currentTemplate = none))

instance decidableStillSv2 (S : Setup) (engine : TemplateEngine) (link : Link Sv2.Channel) :
    (event : LinkEvent Sv2.PeerEvent Sv2.Surroundings) → Decidable (StillSv2 S engine link event)
  | .start _ _ _ => inferInstanceAs (Decidable True)
  | .receive _ => inferInstanceAs (Decidable (engine.isBlockedOnRules → JobWaits engine link →
    ∀ c ∈ link.phase.session, ¬ c.session.channelOpen))
  | .turn peer env => inferInstanceAs (Decidable (engine.isBlockedOnRules →
    ∀ c ∈ link.phase.session, Opens S c.session env peer → c.session.pendingTemplate = none))

instance (S : Setup) (pool : Pool) (event : Event) : Decidable (Still S pool event) :=
  inferInstanceAs (Decidable (OnSv1 (StillSv1 S) pool event ∧ OnSv2 (StillSv2 S) pool event))

variable {S : Setup} {pool : Pool}

/-- A delivery that is not a report of missed ones was waiting. -/
theorem jobWaits_of_recv {σ : Type} {engine : TemplateEngine} {link : Link σ} {b : JobBroadcast}
    {next' : ℕ} (h : recv jobBroadcastCap engine.jobTx link.next = some (.item b, next')) :
    JobWaits engine link := by
  refine ⟨(List.getElem?_eq_some_iff.mp (recv_item h).1).1, ?_⟩
  by_contra hlate
  rw [recv, if_pos (not_le.mp hlate)] at h
  cases h

theorem sv1_workless (hnone : pool.engine.currentTemplate = none)
    (hblocked : pool.engine.isBlockedOnRules) {event : ConnEvent Sv1.PeerEvent (Env Sv1.Message)}
    (hstill : OnSv1 (StillSv1 S) pool (.sv1 event)) {i : ℕ} {e : Effect Sv1.Message}
    (h : (i, e) ∈ (S.sv1.step pool.engine pool.sv1 event).2) : Sv1.isWork e = false := by
  by_contra hwork
  obtain ⟨ev, link, rfl, hlink, hout⟩ := Frontend.output_of_step h
  have hstill := hstill link hlink
  obtain ⟨s, hphase, ⟨env, received, next, rfl, hrecv, hmem⟩ | ⟨peer, env, rfl, hmem⟩⟩ :=
    Frontend.output_of_linkStep hout
  · have hsession := Phase.eq_running.mpr hphase
    rcases Sv1.Session.step_work hmem (by simpa using hwork) with
      ⟨template, clean, hevent, hready⟩ | ⟨id, worker, hevent, -⟩
    · cases received with
      | item b => exact hstill hblocked (jobWaits_of_recv hrecv) s hsession hready
      | lagged missed => cases hevent
    · cases received <;> cases hevent
  · have hsession := Phase.eq_running.mpr hphase
    rcases Sv1.Session.step_work hmem (by simpa using hwork) with
      ⟨template, clean, hevent, -⟩ | ⟨id, worker, hevent, hrate, hadmitted, htemplate⟩
    · cases peer <;> cases hevent
    · cases peer with
      | line line =>
        obtain rfl : line = .request id (.authorize worker) := Sv1.Event.line.inj hevent
        have hcache : s.currentTemplate = none :=
          hstill hblocked s hsession (Bool.and_eq_true_iff.mpr ⟨hrate, hadmitted⟩)
        simp [hcache, hnone] at htemplate
      | oversized => cases hevent
      | closed => cases hevent

theorem sv2_workless (hblocked : pool.engine.isBlockedOnRules)
    {event : ConnEvent Sv2.PeerEvent Sv2.Surroundings}
    (hstill : OnSv2 (StillSv2 S) pool (.sv2 event)) {i : ℕ} {e : Effect Sv2.Message}
    (h : (i, e) ∈ (S.sv2.step pool.engine pool.sv2 event).2) : Sv2.isWork e = false := by
  by_contra hwork
  obtain ⟨ev, link, rfl, hlink, hout⟩ := Frontend.output_of_step h
  have hstill := hstill link hlink
  obtain ⟨c, hphase, ⟨env, received, next, rfl, hrecv, hmem⟩ | ⟨peer, env, rfl, hmem⟩⟩ :=
    Frontend.output_of_linkStep hout
  · have hsession := Phase.eq_running.mpr hphase
    rcases Sv2.Session.step_work hmem (by simpa using hwork) with
      ⟨template, clean, hevent, hopen⟩ | ⟨payloadLen, o, hevent, -⟩
    · cases received with
      | item b => exact hstill hblocked (jobWaits_of_recv hrecv) c hsession hopen
      | lagged missed => cases hevent
    · cases received <;> cases hevent
  · have hsession := Phase.eq_running.mpr hphase
    rcases Sv2.Session.step_work hmem (by simpa using hwork) with
      ⟨template, clean, hevent, -⟩ | ⟨payloadLen, o, hevent, hsize, hrate, hadmitted, htemplate⟩
    · cases peer <;> cases hevent
    · cases peer with
      | frame len frame =>
        obtain ⟨rfl, rfl⟩ := Sv2.Event.frame.inj hevent
        have hopens : Opens S c.session env (.frame len (.openExtended (.ok o))) = true :=
          Bool.and_eq_true_iff.mpr ⟨Bool.and_eq_true_iff.mpr ⟨hsize, hrate⟩, hadmitted⟩
        simp [hstill hblocked c hsession hopens] at htemplate
      | closed => cases hevent

end Pool

/-- In every run of the pool: while a template is withdrawn for its rules, no session gives its peer
work, if none acts on a template that it still has. -/
theorem no_work_while_withdrawn (S : Setup) {events : List Pool.Event} {event : Pool.Event}
    (hstill : (Pool.process S).Meets (Pool.Still S) (Pool.new S) (events ++ [event])) {pool : Pool}
    (hpool : pool = ((Pool.process S).run (Pool.new S) events).state)
    (hblocked : pool.engine.isBlockedOnRules) :
    ∀ out ∈ (Pool.step S pool event).outputs, out.isWork = false := by
  obtain ⟨hmeets, hlast⟩ := Process.meets_concat.mp hstill
  have hnow : pool.Still S event := hpool ▸ hlast (Pool.live_run S _ _)
  have hnone : pool.engine.currentTemplate = none := by
    rw [hpool] at hblocked ⊢
    exact (Pool.engine_inv hmeets).withdrawn hblocked
  intro out hout
  rcases Pool.output_of_step hout with ⟨i, e, rfl, event', rfl, hmem⟩ |
    ⟨i, e, rfl, event', rfl, hmem⟩
  · exact Pool.sv1_workless hnone hblocked hnow.1 hmem
  · exact Pool.sv2_workless hblocked hnow.2 hmem

/-- A template with a rule that is not implemented. -/
def forkGbt : GbtResult := { regtestGbt with rules := ["!greatfork".toList] }

/-- A miner that connects after the withdrawal is authorized without work. -/
theorem no_work_while_withdrawn_regtest :
    let events := .refresh (.ok forkGbt) :: Sv1.regtestEvents [.subscribe none]
    let event := .sv1 (.link 0 (.turn
      (.line (.request "7".toList (.authorize regtestPayout.address))) (.regtest "1".toList)))
    let pool := ((Pool.process regtestSetup).run (Pool.new regtestSetup) events).state
    pool.engine.isBlockedOnRules ∧ (Pool.step regtestSetup pool event).outputs ≠ [] ∧
      ∀ out ∈ (Pool.step regtestSetup pool event).outputs, out.isWork = false := by
  intro events event pool
  have hblocked : pool.engine.isBlockedOnRules := by decide +kernel
  have houtputs : 0 < (Pool.step regtestSetup pool event).outputs.length := by decide +kernel
  exact ⟨hblocked, List.ne_nil_of_length_pos houtputs,
    no_work_while_withdrawn regtestSetup (by decide +kernel) rfl hblocked⟩

/-- A miner that subscribes before the withdrawal and authorizes after it gets a job of the template
that was withdrawn. -/
theorem withdrawn_handed_out :
    let events := .refresh (.ok regtestGbt) :: Sv1.regtestEvents [.subscribe none] ++
      [.refresh (.ok forkGbt)]
    let event := .sv1 (.link 0 (.turn
      (.line (.request "7".toList (.authorize regtestPayout.address))) (.regtest "1".toList)))
    let pool := ((Pool.process regtestSetup).run (Pool.new regtestSetup) events).state
    pool.engine.isBlockedOnRules ∧ pool.engine.currentTemplate = none ∧
      ∃ out ∈ (Pool.step regtestSetup pool event).outputs, out.isWork = true := by
  intro events event pool
  have hwork : (Pool.step regtestSetup pool event).outputs.any Pool.Output.isWork = true := by
    decide +kernel
  exact ⟨by decide +kernel, by decide +kernel, List.any_eq_true.mp hwork⟩

end BtcPool
