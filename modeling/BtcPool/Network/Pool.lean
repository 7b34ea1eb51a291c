import BtcPool.Mining.Engine
import BtcPool.Network.Session
import BtcPool.Protocol.Sv2.Session

/-!
# The engine and its sessions

The pool as one process: the engine refreshes its template, connections come and go, and each
session takes its turns. A refresh writes the template and sends it in two steps. A connection
subscribes to the channel first and reads the engine's template after that, in two steps as well, so
that anything may come between them; then its loop takes what the peer sends and what the channel
holds, in any order. One input is one such step, so a list of inputs is an interleaving.

Both protocols have the same way of connecting; `Frontend` is what they differ in.
-/

namespace BtcPool

open Bitcoin Broadcast

/-! ## Connections -/

/-- How far a connection has come. -/
inductive Phase (σ : Type)
  /-- Subscribed, with the engine's template still to be read. -/
  | connecting
  | running (session : σ)
  | ended

/-- The session of a connection that runs. -/
def Phase.session {σ : Type} : Phase σ → Option σ
  | running session => some session
  | _ => none

theorem Phase.eq_running {σ : Type} {phase : Phase σ} {s : σ} :
    phase.session = some s ↔ phase = .running s := by
  cases phase <;> simp [session]

/-- A connection, and its position in the engine's channel. -/
structure Link (σ : Type) where
  next : ℕ
  phase : Phase σ

/-- A step of a connection. -/
inductive LinkEvent (π ε : Type)
  | start (sessionId : Str) (extranonce : Bytes) (now : Instant)
  | receive (env : ε)
  | turn (peer : π) (env : ε)

namespace Link

variable {σ ο : Type}

/-- A connection that listens from now on. -/
def subscribe (engine : TemplateEngine) : Link σ := ⟨engine.jobTx.length, .connecting⟩

/-- Nothing that was sent or is about to be is still to be delivered. -/
def CaughtUp (link : Link σ) (engine : TemplateEngine) : Prop := link.next = engine.queue.length

/-- Its next delivery is not a report of missed ones. -/
def Punctual {π ε : Type} (engine : TemplateEngine) (link : Link σ) : LinkEvent π ε → Prop
  | .receive _ => engine.jobTx.length ≤ link.next + jobBroadcastCap
  | _ => True

/-- The connection after a turn of its session. -/
def after (next : ℕ) (out : Outcome σ ο) : Link σ :=
  ⟨next, if out.live then .running out.state else .ended⟩

instance decidablePunctual {π ε : Type} (engine : TemplateEngine) (link : Link σ) :
    (event : LinkEvent π ε) → Decidable (Punctual engine link event)
  | .receive _ => inferInstanceAs (Decidable (engine.jobTx.length ≤ link.next + jobBroadcastCap))
  | .start _ _ _ => inferInstanceAs (Decidable True)
  | .turn _ _ => inferInstanceAs (Decidable True)

end Link

/-- What a protocol makes of a new connection, of the channel and of its peer. A turn may look at
the engine's template. -/
structure Frontend (σ π ε ο : Type) where
  new : Str → Bytes → Instant → Option JobTemplate → σ
  receive : Option JobTemplate → σ → Received JobBroadcast → ε → Outcome σ ο
  turn : Option JobTemplate → σ → π → ε → Outcome σ ο

/-- A step of the connections of a protocol. -/
inductive ConnEvent (π ε : Type)
  | subscribe
  | link (i : ℕ) (event : LinkEvent π ε)

namespace Frontend

variable {σ π ε ο : Type}

/-- One connection takes a step; what does not apply to it does nothing. -/
def linkStep (F : Frontend σ π ε ο) (engine : TemplateEngine) (link : Link σ) :
    LinkEvent π ε → Link σ × List ο
  | .start sessionId extranonce now =>
    match link.phase with
    | .connecting =>
      ({ link with phase := .running (F.new sessionId extranonce now engine.currentTemplate) }, [])
    | _ => (link, [])
  | .receive env =>
    match link.phase, recv jobBroadcastCap engine.jobTx link.next with
    | .running s, some (received, next) =>
      let out := F.receive engine.currentTemplate s received env
      (.after next out, out.outputs)
    | _, _ => (link, [])
  | .turn peer env =>
    match link.phase with
    | .running s =>
      let out := F.turn engine.currentTemplate s peer env
      (.after link.next out, out.outputs)
    | _ => (link, [])

/-- The connections after a step of one of them, with its effects. -/
def step (F : Frontend σ π ε ο) (engine : TemplateEngine) (links : List (Link σ)) :
    ConnEvent π ε → List (Link σ) × List (ℕ × ο)
  | .subscribe => (links ++ [.subscribe engine], [])
  | .link i event =>
    match links[i]? with
    | none => (links, [])
    | some link =>
      let (link, outputs) := F.linkStep engine link event
      (links.set i link, outputs.map fun o => (i, o))

variable {F : Frontend σ π ε ο} {engine : TemplateEngine} {links : List (Link σ)} {link : Link σ}
    {o : ο}

/-- An effect comes from the connection that took the step. -/
theorem output_of_step {i : ℕ} {event : ConnEvent π ε}
    (h : (i, o) ∈ (F.step engine links event).2) :
    ∃ e link, event = .link i e ∧ links[i]? = some link ∧ o ∈ (F.linkStep engine link e).2 := by
  cases event with
  | subscribe => cases h
  | link j e =>
    unfold step at h
    dsimp only at h
    split at h
    · cases h
    · rename_i link hlink
      obtain ⟨o', ho', heq⟩ := List.mem_map.mp h
      cases heq
      exact ⟨e, link, rfl, hlink, ho'⟩

theorem mem_step {i : ℕ} {event : LinkEvent π ε} (hlink : links[i]? = some link)
    (h : o ∈ (F.linkStep engine link event).2) :
    (i, o) ∈ (F.step engine links (.link i event)).2 := by
  unfold step
  simp only [hlink]
  exact List.mem_map_of_mem h

/-- It is an effect of a delivery, or of a turn of the peer. -/
theorem output_of_linkStep {event : LinkEvent π ε} (h : o ∈ (F.linkStep engine link event).2) :
    ∃ s, link.phase = .running s ∧
      ((∃ env received next, event = .receive env ∧
        recv jobBroadcastCap engine.jobTx link.next = some (received, next) ∧
        o ∈ (F.receive engine.currentTemplate s received env).outputs) ∨
      ∃ peer env, event = .turn peer env ∧
      o ∈ (F.turn engine.currentTemplate s peer env).outputs) := by
  cases event with
  | start sessionId extranonce now =>
    unfold linkStep at h
    dsimp only at h
    split at h <;> cases h
  | receive env =>
    unfold linkStep at h
    dsimp only at h
    split at h
    · rename_i s received next hphase hrecv
      exact ⟨s, hphase, Or.inl ⟨env, received, next, rfl, hrecv, h⟩⟩
    · cases h
  | turn peer env =>
    unfold linkStep at h
    dsimp only at h
    split at h
    · rename_i s hphase
      exact ⟨s, hphase, Or.inr ⟨peer, env, rfl, h⟩⟩
    · cases h

end Frontend

/-! ## The two protocols -/

/-- What a pool is started with. -/
structure Setup where
  H : Bytes → ByteVec 32
  A : AddressLib
  W : Sv2.Wire
  cfg : Config
  network : Network
  strictGbtRules : Bool

/-- What comes from the peer of a Stratum V1 session. -/
inductive Sv1.PeerEvent
  | line (line : Sv1.Line)
  | oversized
  | closed

/-- The event of the session for one of its peer. -/
def Sv1.PeerEvent.event : Sv1.PeerEvent → Sv1.Event
  | .line l => .line l
  | .oversized => .oversized
  | .closed => .closed

/-- The event of the session for what it receives from the engine. -/
def Sv1.Event.ofReceived : Received JobBroadcast → Sv1.Event
  | .item b => .broadcast b.template b.clean
  | .lagged missed => .lagged missed

/-- The frontend of Stratum V1, which reads the engine's template in every turn. -/
def Setup.sv1 (S : Setup) :
    Frontend Sv1.Session Sv1.PeerEvent (Env Sv1.Message) (Effect Sv1.Message) where
  new sessionId extranonce1 now template := .new S.cfg S.network sessionId extranonce1 template now
  receive current s received env :=
    s.step S.H S.A ⟨.ofReceived received, { env with engineTemplate := current }⟩
  turn current s peer env := s.step S.H S.A ⟨peer.event, { env with engineTemplate := current }⟩

/-- What comes from the device of a Stratum V2 session. -/
inductive Sv2.PeerEvent
  | frame (payloadLen : ℕ) (frame : Sv2.Frame)
  | closed

/-- The event of the session for one of its peer. -/
def Sv2.PeerEvent.event : Sv2.PeerEvent → Sv2.Event
  | .frame payloadLen f => .frame payloadLen f
  | .closed => .closed

/-- The event of the session for what it receives from the engine. -/
def Sv2.Event.ofReceived : Received JobBroadcast → Sv2.Event
  | .item b => .broadcast b.template b.clean
  | .lagged missed => .lagged missed

/-- A session, and the previous hash its device was told last. -/
structure Sv2.Channel where
  session : Sv2.Session
  announced : Option Sv2.SetNewPrevHash

namespace Sv2.Channel

/-- What the device was told last, after some effects. -/
def lastAnnounced (announced : Option SetNewPrevHash) (effects : List (Effect Message)) :
    Option SetNewPrevHash :=
  effects.foldl (fun last e => match e with | .send (.setNewPrevHash msg) => some msg | _ => last)
    announced

/-- A turn of the session, with what it announced. -/
def step (S : Setup) (c : Channel) (event : Event) (env : Surroundings) :
    Outcome Channel (Effect Message) :=
  let out := c.session.step S.W S.H S.A ⟨event, env⟩
  ⟨⟨out.state, lastAnnounced c.announced out.outputs⟩, out.outputs, out.live⟩

end Sv2.Channel

/-- The frontend of Stratum V2. -/
def Setup.sv2 (S : Setup) :
    Frontend Sv2.Channel Sv2.PeerEvent Sv2.Surroundings (Effect Sv2.Message) where
  new sessionId extranoncePrefix now template :=
    ⟨.new S.cfg S.network sessionId extranoncePrefix template now, none⟩
  receive _ c received env := c.step S (.ofReceived received) env
  turn _ c peer env := c.step S peer.event env

/-! ## The pool -/

/-- The engine and the connections of both protocols. -/
structure Pool where
  engine : TemplateEngine
  sv1 : List (Link Sv1.Session)
  sv2 : List (Link Sv2.Channel)

namespace Pool

/-- What happens in the pool. -/
inductive Event
  /-- A refresh with nothing between its write and its send. -/
  | refresh (result : Except PoolError GbtResult)
  | writeTemplate (result : Except PoolError GbtResult)
  | send
  | sv1 (event : ConnEvent Sv1.PeerEvent (Env Sv1.Message))
  | sv2 (event : ConnEvent Sv2.PeerEvent Sv2.Surroundings)

/-- What the session of a connection did. -/
inductive Output
  | sv1 (i : ℕ) (effect : Effect Sv1.Message)
  | sv2 (i : ℕ) (effect : Effect Sv2.Message)

/-- A pool that has just been started. -/
def new (S : Setup) : Pool := ⟨.new S.strictGbtRules, [], []⟩

/-- What an event does to the pool. -/
def step (S : Setup) (pool : Pool) : Event → Outcome Pool Output
  | .refresh result => ⟨{ pool with engine := pool.engine.refresh S.H result }, [], true⟩
  | .writeTemplate result =>
    ⟨{ pool with engine := pool.engine.writeTemplate S.H result }, [], true⟩
  | .send => ⟨{ pool with engine := pool.engine.send }, [], true⟩
  | .sv1 event =>
    let (links, outputs) := S.sv1.step pool.engine pool.sv1 event
    ⟨{ pool with sv1 := links }, outputs.map fun (i, e) => .sv1 i e, true⟩
  | .sv2 event =>
    let (links, outputs) := S.sv2.step pool.engine pool.sv2 event
    ⟨{ pool with sv2 := links }, outputs.map fun (i, e) => .sv2 i e, true⟩

/-- The pool as a process. -/
def process (S : Setup) : Process Pool Event Output := { step := step S }

end Pool

/-! ## Invariants of connections -/

section Invariants

variable {σ π ε ο : Type}

/-- Every position is one of the channel, and what holds of engine, position and session. -/
def Holds (Q : TemplateEngine → ℕ → σ → Prop) (engine : TemplateEngine) (links : List (Link σ)) :
    Prop :=
  ∀ link ∈ links, link.next ≤ engine.jobTx.length ∧
    ∀ s, link.phase = .running s → Q engine link.next s

/-- What a property has to be kept by, if all steps of connections meet a condition. -/
structure Frontend.Keeps (F : Frontend σ π ε ο) (H : Bytes → ByteVec 32)
    (C : TemplateEngine → Link σ → LinkEvent π ε → Prop) (Q : TemplateEngine → ℕ → σ → Prop) :
    Prop where
  writeTemplate : ∀ {engine next s} result, engine.Inv H → next ≤ engine.jobTx.length →
    Q engine next s → Q (engine.writeTemplate H result) next s
  send : ∀ {engine next s}, engine.Inv H → next ≤ engine.jobTx.length →
    Q engine next s → Q engine.send next s
  start : ∀ {engine next sessionId extranonce now}, engine.Inv H → next ≤ engine.jobTx.length →
    C engine ⟨next, .connecting⟩ (.start sessionId extranonce now) →
    Q engine next (F.new sessionId extranonce now engine.currentTemplate)
  receive : ∀ {engine next next' s received env}, engine.Inv H →
    recv jobBroadcastCap engine.jobTx next = some (received, next') →
    C engine ⟨next, .running s⟩ (.receive env) → Q engine next s →
    (F.receive engine.currentTemplate s received env).live →
    Q engine next' (F.receive engine.currentTemplate s received env).state
  turn : ∀ {engine next s peer env}, engine.Inv H → next ≤ engine.jobTx.length →
    C engine ⟨next, .running s⟩ (.turn peer env) → Q engine next s →
    (F.turn engine.currentTemplate s peer env).live →
    Q engine next (F.turn engine.currentTemplate s peer env).state

variable {F : Frontend σ π ε ο} {H : Bytes → ByteVec 32} {engine : TemplateEngine}
  {C : TemplateEngine → Link σ → LinkEvent π ε → Prop} {Q : TemplateEngine → ℕ → σ → Prop}

theorem Holds.writeTemplate {links : List (Link σ)} (hQ : F.Keeps H C Q) (hengine : engine.Inv H)
    (h : Holds Q engine links) (result : Except PoolError GbtResult) :
    Holds Q (engine.writeTemplate H result) links := by
  intro link hlink
  obtain ⟨hnext, hs⟩ := h link hlink
  refine ⟨?_, fun s hphase => hQ.writeTemplate result hengine hnext (hs s hphase)⟩
  rw [engine.jobTx_writeTemplate]
  exact hnext.trans engine.jobTx_le_queue

theorem Holds.send {links : List (Link σ)} (hQ : F.Keeps H C Q) (hengine : engine.Inv H)
    (h : Holds Q engine links) : Holds Q engine.send links := by
  intro link hlink
  obtain ⟨hnext, hs⟩ := h link hlink
  refine ⟨?_, fun s hphase => hQ.send hengine hnext (hs s hphase)⟩
  rw [engine.jobTx_send]
  exact hnext.trans engine.jobTx_le_queue

theorem Holds.refresh {links : List (Link σ)} (hQ : F.Keeps H C Q) (hengine : engine.Inv H)
    (h : Holds Q engine links) (result : Except PoolError GbtResult) :
    Holds Q (engine.refresh H result) links :=
  (h.writeTemplate hQ hengine result).send hQ (hengine.writeTemplate result)

/-- A connection that took a step keeps the property. -/
theorem Frontend.Keeps.linkStep (hQ : F.Keeps H C Q) (hengine : engine.Inv H) {link : Link σ}
    {event : LinkEvent π ε} (hC : C engine link event) (hnext : link.next ≤ engine.jobTx.length)
    (hs : ∀ s, link.phase = .running s → Q engine link.next s) :
    (F.linkStep engine link event).1.next ≤ engine.jobTx.length ∧
      ∀ s, (F.linkStep engine link event).1.phase = .running s →
        Q engine (F.linkStep engine link event).1.next s := by
  obtain ⟨next, phase⟩ := link
  have hafter : ∀ {n : ℕ} {out : Outcome σ ο}, n ≤ engine.jobTx.length →
      (out.live → Q engine n out.state) → (Link.after n out).next ≤ engine.jobTx.length ∧
        ∀ s, (Link.after n out).phase = .running s → Q engine (Link.after n out).next s := by
    intro n out hn hlive
    refine ⟨hn, fun s hphase => ?_⟩
    unfold Link.after at hphase
    dsimp only at hphase
    split at hphase
    · cases hphase
      exact hlive ‹_›
    · cases hphase
  cases event with
  | start sessionId extranonce now =>
    cases phase with
    | connecting =>
      refine ⟨hnext, fun s hphase => ?_⟩
      cases hphase
      exact hQ.start hengine hnext hC
    | running s => exact ⟨hnext, hs⟩
    | ended => exact ⟨hnext, hs⟩
  | receive env =>
    cases phase with
    | connecting => exact ⟨hnext, hs⟩
    | running s =>
      unfold Frontend.linkStep
      dsimp only
      cases hrecv : recv jobBroadcastCap engine.jobTx next with
      | none => exact ⟨hnext, hs⟩
      | some got => exact hafter (recv_le hrecv).2 (hQ.receive hengine hrecv hC (hs s rfl))
    | ended => exact ⟨hnext, hs⟩
  | turn peer env =>
    cases phase with
    | connecting => exact ⟨hnext, hs⟩
    | running s => exact hafter hnext (hQ.turn hengine hnext hC (hs s rfl))
    | ended => exact ⟨hnext, hs⟩

theorem Holds.step {links : List (Link σ)} {event : ConnEvent π ε} (hQ : F.Keeps H C Q)
    (hengine : engine.Inv H) (h : Holds Q engine links)
    (hC : ∀ i link e, event = .link i e → links[i]? = some link → C engine link e) :
    Holds Q engine (F.step engine links event).1 := by
  intro link' hmem
  cases event with
  | subscribe =>
    rcases List.mem_append.mp hmem with hold | hnew
    · exact h link' hold
    · obtain rfl : link' = _ := by simpa using hnew
      exact ⟨le_rfl, fun s hphase => by cases hphase⟩
  | link i e =>
    unfold Frontend.step at hmem
    dsimp only at hmem
    split at hmem
    · exact h link' hmem
    · rename_i link hlink
      rcases List.mem_or_eq_of_mem_set hmem with hold | rfl
      · exact h link' hold
      · obtain ⟨hnext, hs⟩ := h link (List.mem_of_getElem? hlink)
        exact hQ.linkStep hengine (hC i link e rfl hlink) hnext hs

end Invariants

namespace Pool

variable {S : Setup}

/-- A condition on the steps of the Stratum V1 connections. -/
def OnSv1 (C : TemplateEngine → Link Sv1.Session → LinkEvent Sv1.PeerEvent (Env Sv1.Message) → Prop)
    (pool : Pool) : Event → Prop
  | .sv1 (.link i event) => ∀ link ∈ pool.sv1[i]?, C pool.engine link event
  | _ => True

/-- A condition on the steps of the Stratum V2 connections. -/
def OnSv2 (C : TemplateEngine → Link Sv2.Channel → LinkEvent Sv2.PeerEvent Sv2.Surroundings → Prop)
    (pool : Pool) : Event → Prop
  | .sv2 (.link i event) => ∀ link ∈ pool.sv2[i]?, C pool.engine link event
  | _ => True

instance decidableOnSv1
    {C : TemplateEngine → Link Sv1.Session → LinkEvent Sv1.PeerEvent (Env Sv1.Message) → Prop}
    [∀ engine link event, Decidable (C engine link event)] (pool : Pool) :
    (event : Event) → Decidable (OnSv1 C pool event)
  | .sv1 (.link i event) =>
    inferInstanceAs (Decidable (∀ link ∈ pool.sv1[i]?, C pool.engine link event))
  | .sv1 .subscribe => inferInstanceAs (Decidable True)
  | .sv2 _ => inferInstanceAs (Decidable True)
  | .refresh _ => inferInstanceAs (Decidable True)
  | .writeTemplate _ => inferInstanceAs (Decidable True)
  | .send => inferInstanceAs (Decidable True)

instance decidableOnSv2
    {C : TemplateEngine → Link Sv2.Channel → LinkEvent Sv2.PeerEvent Sv2.Surroundings → Prop}
    [∀ engine link event, Decidable (C engine link event)] (pool : Pool) :
    (event : Event) → Decidable (OnSv2 C pool event)
  | .sv2 (.link i event) =>
    inferInstanceAs (Decidable (∀ link ∈ pool.sv2[i]?, C pool.engine link event))
  | .sv2 .subscribe => inferInstanceAs (Decidable True)
  | .sv1 _ => inferInstanceAs (Decidable True)
  | .refresh _ => inferInstanceAs (Decidable True)
  | .writeTemplate _ => inferInstanceAs (Decidable True)
  | .send => inferInstanceAs (Decidable True)

theorem live_run (S : Setup) (pool : Pool) (events : List Event) :
    ((process S).run pool events).live :=
  Process.live_run (fun pool event => by cases event <;> rfl) pool events

theorem engine_inv {C : Pool → Event → Prop} {events : List Event}
    (hC : (process S).Meets C (new S) events) :
    ((process S).run (new S) events).state.engine.Inv S.H := by
  refine Process.run_state (P := fun pool => pool.engine.Inv S.H) ?_ (TemplateEngine.inv_new S.H _)
    hC (live_run S _ _)
  intro pool event hengine _ _
  cases event with
  | refresh result => exact hengine.refresh result
  | writeTemplate result => exact hengine.writeTemplate result
  | send => exact hengine.send
  | sv1 event => exact hengine
  | sv2 event => exact hengine

/-- An effect of a step comes from one of the connections of its protocol. -/
theorem output_of_step {pool : Pool} {event : Event} {out : Output}
    (h : out ∈ (step S pool event).outputs) :
    (∃ i e, out = .sv1 i e ∧ ∃ event', event = .sv1 event' ∧
      (i, e) ∈ (S.sv1.step pool.engine pool.sv1 event').2) ∨
    ∃ i e, out = .sv2 i e ∧ ∃ event', event = .sv2 event' ∧
      (i, e) ∈ (S.sv2.step pool.engine pool.sv2 event').2 := by
  cases event with
  | refresh result => cases h
  | writeTemplate result => cases h
  | send => cases h
  | sv1 event =>
    obtain ⟨⟨i, e⟩, hmem, rfl⟩ := List.mem_map.mp h
    exact Or.inl ⟨i, e, rfl, event, rfl, hmem⟩
  | sv2 event =>
    obtain ⟨⟨i, e⟩, hmem, rfl⟩ := List.mem_map.mp h
    exact Or.inr ⟨i, e, rfl, event, rfl, hmem⟩

/-- The engine keeps its invariant, and the connections of Stratum V1 a property that their steps
keep under a condition. -/
theorem sv1_holds
    {C : TemplateEngine → Link Sv1.Session → LinkEvent Sv1.PeerEvent (Env Sv1.Message) → Prop}
    {Q : TemplateEngine → ℕ → Sv1.Session → Prop} (hQ : S.sv1.Keeps S.H C Q) {events : List Event}
    (hC : (process S).Meets (OnSv1 C) (new S) events) :
    ((process S).run (new S) events).state.engine.Inv S.H ∧
      Holds Q ((process S).run (new S) events).state.engine
        ((process S).run (new S) events).state.sv1 := by
  refine Process.run_state (P := fun pool => pool.engine.Inv S.H ∧ Holds Q pool.engine pool.sv1) ?_
    ⟨TemplateEngine.inv_new S.H _, by simp [Holds, new]⟩ hC (live_run S _ _)
  rintro pool event ⟨hengine, hlinks⟩ hcond -
  cases event with
  | refresh result => exact ⟨hengine.refresh result, hlinks.refresh hQ hengine result⟩
  | writeTemplate result =>
    exact ⟨hengine.writeTemplate result, hlinks.writeTemplate hQ hengine result⟩
  | send => exact ⟨hengine.send, hlinks.send hQ hengine⟩
  | sv1 event =>
    refine ⟨hengine, hlinks.step hQ hengine ?_⟩
    rintro i link e rfl hlink
    exact hcond link hlink
  | sv2 event => exact ⟨hengine, hlinks⟩

/-- The same for Stratum V2. -/
theorem sv2_holds
    {C : TemplateEngine → Link Sv2.Channel → LinkEvent Sv2.PeerEvent Sv2.Surroundings → Prop}
    {Q : TemplateEngine → ℕ → Sv2.Channel → Prop} (hQ : S.sv2.Keeps S.H C Q) {events : List Event}
    (hC : (process S).Meets (OnSv2 C) (new S) events) :
    ((process S).run (new S) events).state.engine.Inv S.H ∧
      Holds Q ((process S).run (new S) events).state.engine
        ((process S).run (new S) events).state.sv2 := by
  refine Process.run_state (P := fun pool => pool.engine.Inv S.H ∧ Holds Q pool.engine pool.sv2) ?_
    ⟨TemplateEngine.inv_new S.H _, by simp [Holds, new]⟩ hC (live_run S _ _)
  rintro pool event ⟨hengine, hlinks⟩ hcond -
  cases event with
  | refresh result => exact ⟨hengine.refresh result, hlinks.refresh hQ hengine result⟩
  | writeTemplate result =>
    exact ⟨hengine.writeTemplate result, hlinks.writeTemplate hQ hengine result⟩
  | send => exact ⟨hengine.send, hlinks.send hQ hengine⟩
  | sv1 event => exact ⟨hengine, hlinks⟩
  | sv2 event =>
    refine ⟨hengine, hlinks.step hQ hengine ?_⟩
    rintro i link e rfl hlink
    exact hcond link hlink

end Pool

/-! ## A regtest pool -/

/-- The setup of a regtest pool. -/
def regtestSetup : Setup where
  H := zeroHash
  A := regtestAddresses
  W := .exact
  cfg := regtestConfig
  network := .regtest
  strictGbtRules := true

/-- A Stratum V1 connection subscribes and starts, and its miner sends some messages. -/
def Sv1.regtestEvents (messages : List Sv1.ClientMessage) : List Pool.Event :=
  [.sv1 .subscribe, .sv1 (.link 0 (.start "s".toList [1, 2, 3, 4] 0))] ++
    messages.map fun m =>
      .sv1 (.link 0 (.turn (.line (.request "7".toList m)) (.regtest "1".toList)))

/-- What a regtest session finds around it. -/
def Sv2.regtestSurroundings : Sv2.Surroundings :=
  { toEnv := .regtest "1".toList, extranonceCounter := 1, nextChannelId := 1 }

/-- A Stratum V2 connection subscribes and starts, and its device sets up and opens its channel. -/
def Sv2.regtestEvents : List Pool.Event :=
  [.sv2 .subscribe, .sv2 (.link 0 (.start "s".toList [1, 2, 3, 4] 0)),
    .sv2 (.link 0 (.turn (.frame 100 (.setupConnection (.ok
      { protocol := .mining, minVersion := 2, maxVersion := 2, flags := 0 })))
      Sv2.regtestSurroundings)),
    .sv2 (.link 0 (.turn (.frame 100 (.openExtended (.ok
      { requestId := 1, userIdentity := regtestPayout.address,
        maxTarget := List.Vector.replicate 32 0xff, minExtranonceSize := 4 })))
      Sv2.regtestSurroundings))]

/-- The session of a device takes what the channel holds next. -/
def Sv2.regtestReceive : Pool.Event := .sv2 (.link 0 (.receive Sv2.regtestSurroundings))

end BtcPool
