import BtcPool.Network.Presence

/-!
# The workers on the dashboard

`PoolStats` keeps a map from worker names to their states, shared by all sessions. Each operation on
the map is atomic; a call of the statistics makes several of them, one after the other, and what it
read in one may be out of date in the next. `WorkerCall` is a call of a session with the operation
it makes next, `Pruner` the background task that evicts idle workers in two passes.

`Tallied` says that a map counts sessions right. A call that runs to its end moves the count as the
session's presence moves (`WorkerCall.step_tallied`), if an insertion finds the map as the look-up
before it left it; evicting a worker changes nothing if the worker is still offline
(`Removal.step_tallied`).
-/

namespace BtcPool.Stats

/-- How long a worker may be idle before it is forgotten. -/
def idleWorkerEvictSecs : ℕ := 86400

/-- A worker on the dashboard, without the counters of its shares and its rates. -/
structure WorkerState where
  protocol : String
  online : Bool
  currentVardiff : UInt64
  bestShareDifficulty : UInt64
  activeSessions : ℕ
  connectedTs : ℕ
  lastSubmitTs : ℕ
deriving DecidableEq

/-- The shared maps about workers. -/
structure WorkerMaps where
  workerStates : Str → Option WorkerState
  workerProtocol : Str → Option String
  workerLastSubmitTs : Str → Option ℕ
  workerBestShares : Str → Option UInt64

namespace WorkerMaps

/-- No worker was seen. -/
def new : WorkerMaps where
  workerStates := fun _ => none
  workerProtocol := fun _ => none
  workerLastSubmitTs := fun _ => none
  workerBestShares := fun _ => none

variable (maps : WorkerMaps)

/-- The state of a worker is replaced. -/
def insertState (worker : Str) (state : WorkerState) : WorkerMaps :=
  { maps with workerStates := Function.update maps.workerStates worker (some state) }

/-- Change the state of a worker that has one. -/
def modifyState (worker : Str) (f : WorkerState → WorkerState) : WorkerMaps :=
  { maps with
    workerStates := Function.update maps.workerStates worker ((maps.workerStates worker).map f) }

/-- How many sessions the map counts for a worker. -/
def activeSessions (worker : Str) : ℕ :=
  ((maps.workerStates worker).map WorkerState.activeSessions).getD 0

/-- Whether a worker is online. -/
def online (worker : Str) : Bool := ((maps.workerStates worker).map WorkerState.online).getD false

end WorkerMaps

/-! ## Calls of the statistics -/

/-- A call, by the operation it makes next. -/
inductive WorkerCall
  /-- `mark_worker_online`: look the worker up. -/
  | online (worker : Str) (currentVardiff : UInt64)
  /-- The worker has no state: read its best share, its protocol, and make one. -/
  | onlineBest (worker : Str) (currentVardiff : UInt64) (now : ℕ)
  | onlineProtocol (worker : Str) (currentVardiff : UInt64) (now : ℕ) (best : UInt64)
  | onlineInsert (worker : Str) (currentVardiff : UInt64) (now : ℕ) (best : UInt64)
      (protocol : String)
  | offline (worker : Str)
  | vardiff (worker : Str) (vardiff : UInt64)
  /-- `set_worker_protocol`: first its own map, then the state. -/
  | protocol (worker : Str) (protocol : String)
  | protocolState (worker : Str) (protocol : String)
  /-- `worker_share_accepted`: first the state, then the best shares. -/
  | shareAccepted (worker : Str) (difficulty : UInt64)
  | bestShare (worker : Str) (difficulty : UInt64)
  /-- `mark_worker_submit`: first its own map, then the state. -/
  | submit (worker : Str)
  | submitState (worker : Str) (now : ℕ)

/-- A worker that another session has come online for. -/
def WorkerState.join (currentVardiff : UInt64) (now : ℕ) (state : WorkerState) : WorkerState :=
  { state with
    online := true
    currentVardiff
    connectedTs := now
    activeSessions := state.activeSessions + 1 }

/-- A worker that a session has gone offline for. -/
def WorkerState.part (state : WorkerState) : WorkerState :=
  if state.activeSessions > 1 then { state with activeSessions := state.activeSessions - 1 }
  else { state with activeSessions := 0, online := false }

/-- The state of a worker that had none. -/
def WorkerState.first (currentVardiff : UInt64) (now : ℕ) (best : UInt64) (protocol : String) :
    WorkerState where
  protocol := protocol
  online := true
  currentVardiff := currentVardiff
  bestShareDifficulty := best
  activeSessions := 1
  connectedTs := now
  lastSubmitTs := 0

/-- The best share of a worker is raised. -/
def WorkerState.raiseBest (difficulty : UInt64) (state : WorkerState) : WorkerState :=
  if difficulty > state.bestShareDifficulty then { state with bestShareDifficulty := difficulty }
  else state

/-- The next operation of a call, and what is left of the call. The clock is read where the call
reads it. -/
def WorkerCall.step (maps : WorkerMaps) (now : ℕ) : WorkerCall → WorkerMaps × Option WorkerCall
  | .online worker currentVardiff =>
    match maps.workerStates worker with
    | some _ => (maps.modifyState worker (.join currentVardiff now), none)
    | none => (maps, some (.onlineBest worker currentVardiff now))
  | .onlineBest worker currentVardiff now =>
    (maps, some (.onlineProtocol worker currentVardiff now ((maps.workerBestShares worker).getD 0)))
  | .onlineProtocol worker currentVardiff now best =>
    (maps, some (.onlineInsert worker currentVardiff now best
      ((maps.workerProtocol worker).getD "sv1")))
  | .onlineInsert worker currentVardiff now best label =>
    (maps.insertState worker (.first currentVardiff now best label), none)
  | .offline worker => (maps.modifyState worker .part, none)
  | .vardiff worker difficulty =>
    match maps.workerStates worker with
    | some _ => (maps.modifyState worker fun s => { s with currentVardiff := difficulty }, none)
    | none => (maps, some (.online worker difficulty))
  | .protocol worker label =>
    ({ maps with workerProtocol := Function.update maps.workerProtocol worker (some label) },
      some (.protocolState worker label))
  | .protocolState worker label =>
    (maps.modifyState worker fun s => { s with protocol := label }, none)
  | .shareAccepted worker difficulty =>
    (maps.modifyState worker (.raiseBest difficulty), some (.bestShare worker difficulty))
  | .bestShare worker difficulty =>
    ({ maps with
        workerBestShares := Function.update maps.workerBestShares worker
          (some (max ((maps.workerBestShares worker).getD 0) difficulty)) }, none)
  | .submit worker =>
    ({ maps with workerLastSubmitTs := Function.update maps.workerLastSubmitTs worker (some now) },
      some (.submitState worker now))
  | .submitState worker now =>
    (maps.modifyState worker fun s => { s with lastSubmitTs := now }, none)

/-- The calls made for an event. The shares' own counters are not among the maps here. -/
def workerCalls : StatsEvent → List WorkerCall
  | .workerOnline name difficulty => [.online name difficulty]
  | .workerProtocol name protocol => [.protocol name protocol]
  | .workerOffline name => [.offline name]
  | .workerVardiff name difficulty => [.vardiff name difficulty]
  | .accepted _ worker _ hashDifficulty => [.shareAccepted worker hashDifficulty, .submit worker]
  | _ => []

/-- What a call, once it has run to its end, does to the presence of the worker. -/
def WorkerCall.passage : WorkerCall → Option Passage
  | online worker _ => some (.enter worker)
  | onlineBest worker _ _ => some (.enter worker)
  | onlineProtocol worker _ _ _ => some (.enter worker)
  | onlineInsert worker _ _ _ _ => some (.enter worker)
  | offline worker => some (.leave worker)
  | vardiff worker _ => some (.keep worker)
  | _ => none

theorem passage_workerCalls (event : StatsEvent) :
    (workerCalls event).filterMap WorkerCall.passage = event.passage.toList := by
  cases event <;> rfl

/-! ## The pruner -/

/-- One removal of the second pass. -/
inductive Removal
  | state (worker : Str)
  | protocol (worker : Str)
  | lastSubmit (worker : Str)

/-- `prune_idle_workers`: the first pass looks at the workers, the second removes those it chose. -/
inductive Pruner
  | selecting (cutoff : ℕ) (stale : List Str)
  | removing (rest : List Removal)

/-- Whether a worker has been offline and idle since a time. -/
def WorkerMaps.isIdle (maps : WorkerMaps) (cutoff : ℕ) (worker : Str) : Bool :=
  match maps.workerStates worker with
  | none => false
  | some state =>
    !state.online &&
      max ((maps.workerLastSubmitTs worker).getD state.lastSubmitTs) state.connectedTs < cutoff

/-- One removal of the pruner. -/
def Removal.step (maps : WorkerMaps) : Removal → WorkerMaps
  | state worker => { maps with workerStates := Function.update maps.workerStates worker none }
  | protocol worker =>
    { maps with workerProtocol := Function.update maps.workerProtocol worker none }
  | lastSubmit worker =>
    { maps with workerLastSubmitTs := Function.update maps.workerLastSubmitTs worker none }

namespace Pruner

/-- Whether the pruner has nothing to do. -/
def idle : Pruner → Bool
  | selecting _ _ => false
  | removing rest => rest.isEmpty

/-- The pruner starts over, if it has nothing to do. -/
def start (now : ℕ) (pruner : Pruner) : Pruner :=
  if pruner.idle then selecting (now - idleWorkerEvictSecs) [] else pruner

/-- The first pass comes to a worker. -/
def visit (maps : WorkerMaps) (worker : Str) : Pruner → Pruner
  | selecting cutoff stale =>
    selecting cutoff (if maps.isIdle cutoff worker then stale ++ [worker] else stale)
  | removing rest => removing rest

/-- The first pass is over. -/
def select : Pruner → Pruner
  | selecting _ stale =>
    removing (stale.flatMap fun worker => [.state worker, .protocol worker, .lastSubmit worker])
  | removing rest => removing rest

end Pruner

/-! ## Counting -/

/-- A state shows a number of sessions, and that the worker is online if there are any. -/
def Shows (state : Option WorkerState) (n : ℕ) : Prop :=
  (state.map WorkerState.activeSessions).getD 0 = n ∧
    ((state.map WorkerState.online).getD false ↔ 0 < n)

theorem shows_none : Shows none 0 := ⟨rfl, by simp⟩

theorem shows_first (currentVardiff : UInt64) (now : ℕ) (best : UInt64) (protocol : String) :
    Shows (some (.first currentVardiff now best protocol)) 1 := ⟨rfl, by simp [WorkerState.first]⟩

section Shows

variable {state : WorkerState} {n : ℕ}

theorem Shows.join (h : Shows (some state) n) (currentVardiff : UInt64) (now : ℕ) :
    Shows (some (state.join currentVardiff now)) (n + 1) := by
  obtain ⟨rfl, -⟩ := h
  exact ⟨rfl, by simp [WorkerState.join]⟩

theorem Shows.part (h : Shows (some state) n) : Shows (some state.part) (n - 1) := by
  obtain ⟨rfl, honline⟩ := h
  change (state.online ↔ 0 < state.activeSessions) at honline
  unfold WorkerState.part
  split
  · rename_i hmany
    refine ⟨rfl, ?_⟩
    change state.online ↔ 0 < state.activeSessions - 1
    rw [honline]
    omega
  · rename_i hlast
    have hzero : state.activeSessions - 1 = 0 := by omega
    exact ⟨hzero.symm, by simp [hzero]⟩

theorem Shows.map {f : WorkerState → WorkerState} {state : Option WorkerState}
    (h : Shows state n) (hactive : ∀ s, (f s).activeSessions = s.activeSessions)
    (honline : ∀ s, (f s).online = s.online) : Shows (state.map f) n := by
  cases state with
  | none => exact h
  | some state => simpa only [Shows, Option.map_some, Option.getD_some, hactive, honline] using h

theorem Shows.exists_of_pos {state : Option WorkerState} (h : Shows state n) (hn : 0 < n) :
    ∃ s, state = some s := by
  cases state with
  | none => exact absurd h.1 (Nat.ne_of_lt hn)
  | some s => exact ⟨s, rfl⟩

end Shows

/-- The map shows for every worker the number of sessions it has. -/
def Tallied (maps : WorkerMaps) (tally : Str → ℕ) : Prop :=
  ∀ worker, Shows (maps.workerStates worker) (tally worker)

/-- The number of sessions of every worker once a name has entered or left. -/
def tallyAfter (tally : Str → ℕ) : Passage → Str → ℕ
  | .enter name => Function.update tally name (tally name + 1)
  | .leave name => Function.update tally name (tally name - 1)
  | .keep _ => tally

section Tallied

variable {maps maps' : WorkerMaps} {tally : Str → ℕ}

theorem Tallied.update (h : Tallied maps tally) {worker : Str} {state : Option WorkerState} {n : ℕ}
    (hstate : Shows state n)
    (hmaps : maps'.workerStates = Function.update maps.workerStates worker state) :
    Tallied maps' (Function.update tally worker n) := by
  intro other
  rw [hmaps]
  by_cases hother : other = worker
  · subst hother
    simpa only [Function.update_self] using hstate
  · simpa only [Function.update_of_ne hother] using h other

/-- A change that leaves the count of the worker alone. -/
theorem Tallied.keep (h : Tallied maps tally) {worker : Str} {state : Option WorkerState}
    (hstate : Shows state (tally worker))
    (hmaps : maps'.workerStates = Function.update maps.workerStates worker state) :
    Tallied maps' tally := by
  have := h.update hstate hmaps
  rwa [Function.update_eq_self] at this

theorem Tallied.modify (h : Tallied maps tally) (worker : Str) {f : WorkerState → WorkerState}
    (hactive : ∀ s, (f s).activeSessions = s.activeSessions)
    (honline : ∀ s, (f s).online = s.online) :
    Tallied (maps.modifyState worker f) tally :=
  h.keep ((h worker).map hactive honline) rfl

/-- The map has not gained a state for the worker since it was looked up. -/
def WorkerCall.Undisturbed (maps : WorkerMaps) : WorkerCall → Prop
  | onlineInsert worker _ _ _ _ => maps.workerStates worker = none
  | _ => True

instance (maps : WorkerMaps) : (call : WorkerCall) → Decidable (call.Undisturbed maps)
  | .onlineInsert worker _ _ _ _ => inferInstanceAs (Decidable (maps.workerStates worker = none))
  | .online _ _ => inferInstanceAs (Decidable True)
  | .onlineBest _ _ _ => inferInstanceAs (Decidable True)
  | .onlineProtocol _ _ _ _ => inferInstanceAs (Decidable True)
  | .offline _ => inferInstanceAs (Decidable True)
  | .vardiff _ _ => inferInstanceAs (Decidable True)
  | .protocol _ _ => inferInstanceAs (Decidable True)
  | .protocolState _ _ => inferInstanceAs (Decidable True)
  | .shareAccepted _ _ => inferInstanceAs (Decidable True)
  | .bestShare _ _ => inferInstanceAs (Decidable True)
  | .submit _ => inferInstanceAs (Decidable True)
  | .submitState _ _ => inferInstanceAs (Decidable True)

/-- The name that a passage needs there is counted. -/
def CountedIn (tally : Str → ℕ) : Passage → Prop
  | .enter _ => True
  | .leave name => 0 < tally name
  | .keep name => 0 < tally name

/-- What an operation of a call leaves: a count that has not moved, with the call still to do what
it was to do, or one that moved as the call says. -/
def WorkerCall.Tallies (call : WorkerCall) (tally : Str → ℕ) : WorkerMaps × Option WorkerCall → Prop
  | (maps, some rest) => Tallied maps tally ∧ rest.passage = call.passage
  | (maps, none) => Tallied maps (call.passage.elim tally (tallyAfter tally))

theorem WorkerCall.step_tallied (h : Tallied maps tally) {call : WorkerCall}
    (hmaps : call.Undisturbed maps) (hcounted : ∀ p, call.passage = some p → CountedIn tally p)
    (now : ℕ) : call.Tallies tally (call.step maps now) := by
  cases call with
  | online worker currentVardiff =>
    cases hstate : maps.workerStates worker with
    | none =>
      simp only [step, hstate]
      exact ⟨h, rfl⟩
    | some state =>
      simp only [step, hstate]
      have hshows := h worker
      rw [hstate] at hshows
      exact h.update (hshows.join currentVardiff now) (by rw [WorkerMaps.modifyState, hstate]; rfl)
  | onlineBest worker currentVardiff now => exact ⟨h, rfl⟩
  | onlineProtocol worker currentVardiff now best => exact ⟨h, rfl⟩
  | onlineInsert worker currentVardiff now best protocol =>
    have hzero : tally worker = 0 := by
      have hshows := h worker
      rw [show maps.workerStates worker = none from hmaps] at hshows
      exact hshows.1.symm
    change Tallied _ (Function.update tally worker (tally worker + 1))
    rw [hzero]
    exact h.update (shows_first currentVardiff now best protocol) rfl
  | offline worker =>
    have hpos : 0 < tally worker := hcounted _ rfl
    obtain ⟨state, hstate⟩ := (h worker).exists_of_pos hpos
    have hshows := h worker
    rw [hstate] at hshows
    exact h.update hshows.part (by rw [WorkerMaps.modifyState, hstate]; rfl)
  | vardiff worker vardiff =>
    have hpos : 0 < tally worker := hcounted _ rfl
    obtain ⟨state, hstate⟩ := (h worker).exists_of_pos hpos
    simp only [step, hstate]
    exact h.modify worker (fun _ => rfl) (fun _ => rfl)
  | protocol worker protocol => exact ⟨h, rfl⟩
  | protocolState worker protocol => exact h.modify worker (fun _ => rfl) (fun _ => rfl)
  | shareAccepted worker difficulty =>
    refine ⟨h.modify worker (fun s => ?_) (fun s => ?_), rfl⟩ <;>
      · unfold WorkerState.raiseBest
        split <;> rfl
  | bestShare worker difficulty => exact h
  | submit worker => exact ⟨h, rfl⟩
  | submitState worker now => exact h.modify worker (fun _ => rfl) (fun _ => rfl)

/-- The worker to be evicted is still offline. -/
def Removal.Undisturbed (maps : WorkerMaps) : Removal → Prop
  | .state worker => maps.online worker = false
  | _ => True

instance (maps : WorkerMaps) : (removal : Removal) → Decidable (removal.Undisturbed maps)
  | .state worker => inferInstanceAs (Decidable (maps.online worker = false))
  | .protocol _ => inferInstanceAs (Decidable True)
  | .lastSubmit _ => inferInstanceAs (Decidable True)

theorem Removal.step_tallied (h : Tallied maps tally) {removal : Removal}
    (hmaps : removal.Undisturbed maps) : Tallied (removal.step maps) tally := by
  cases removal with
  | state worker =>
    have hzero : tally worker = 0 := by
      have honline := (h worker).2
      change (maps.online worker ↔ _) at honline
      rw [show maps.online worker = false from hmaps] at honline
      simpa using honline
    exact h.keep (hzero ▸ shows_none) rfl
  | protocol worker => exact h
  | lastSubmit worker => exact h

end Tallied

end BtcPool.Stats
