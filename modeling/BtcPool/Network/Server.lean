import BtcPool.Network.Departures
import BtcPool.Network.Headcount
import BtcPool.Security.Bans
import BtcPool.Security.Connections

/-!
# Who gets in

`run` of `network/server.rs`: the accept loop, the task of each connection and the pruner, over the
counter of active connections, the ban list and the limiter they share. One input is one operation
on the shared memory, so a list of inputs is an interleaving; each comes with the time at which it
is made. A connection that is let in is a `Guest`: it holds one slot from before it is spawned until
its task gives it back. Its session takes turns as the sessions of `Network.Session` and
`Protocol.Sv2.Session` do, and the bans they ask for are made one operation at a time.

No interleaving lets more connections in than `max_connections`, or loses or gains a slot, and
`connected_miners` counts the sessions that are running (`slots_kept`). What the ban list and the
limiter let through is the subject of `Network.Admission`.
-/

namespace BtcPool

open Bitcoin Tasks

/-- The two protocols. -/
inductive Stratum
  | v1
  | v2
  deriving DecidableEq

/-- The two callers of `is_banned`. -/
inductive Door
  | acceptor
  | session
  deriving DecidableEq

/-- What is known of an operation from outside. -/
inductive Notice (ι : Type)
  | dropped (ip : ι)
  /-- The ban list was asked. -/
  | looked (door : Door) (ip : ι) (now : Instant) (refused : Bool)
  /-- The limiter let a connection pass, and its task was spawned. -/
  | passed (ip : ι) (now : Instant)
  | limited (ip : ι) (now : Instant)
  | banned (ip : ι) (expiry : Instant)
  /-- A session was set up. -/
  | started (ip : ι)
  deriving DecidableEq

/-- What the tasks share. -/
structure Shared (ι : Type) where
  activeCount : UInt64
  connectedMiners : UInt64
  banList : BanList ι
  connLimiter : ConnectionRateLimiter ι

/-! ## The task of a connection -/

/-- How far a connection that was accepted has come. -/
inductive Stage
  /-- Waiting for the first byte. -/
  | peeking
  /-- The two halves of `is_banned`. -/
  | checking (version : Stratum)
  | sweeping (version : Stratum)
  | handshaking
  | arriving (version : Stratum)
  /-- Counted, with the session still to be set up. -/
  | starting (version : Stratum)
  | playing (seat : Seat) (live : Bool) (todo : List Chore)
  /-- A ban has read the clock. -/
  | banning (expiry : Instant) (seat : Seat) (live : Bool) (todo : List Chore)
  | releasing

/-- A connection that was accepted. -/
structure Guest (ι : Type) where
  ip : ι
  stage : Stage

/-- What happens to a connection that was accepted. -/
inductive GuestEvent
  /-- The first byte; none if it did not come in time, the peer closed or the read failed. -/
  | peeked (first : Option UInt8)
  | handshake (ok : Bool)
  | start (sessionId : Str) (extranonce : Bytes) (template : Option JobTemplate)
  | turnSv1 (input : Sv1.Input)
  | turnSv2 (input : Sv2.Input)
  /-- The next operation, where there is nothing to wait for. -/
  | proceed

/-- The limits `run` reads from the configuration. -/
structure Limits where
  maxConnections : UInt64
  sv2Enabled : Bool

/-- `{`, the first byte of a Stratum V1 connection. -/
def openBrace : UInt8 := 0x7b

namespace Guest

variable {ι : Type} [DecidableEq ι]

omit [DecidableEq ι] in
/-- Which session is run, if any. -/
def detect (lim : Limits) (first : UInt8) : Stage :=
  if first = openBrace then .checking .v1
  else if lim.sv2Enabled then .checking .v2
  else .releasing

/-- The next operation of a task that waits for nothing. -/
def proceed (now : Instant) (m : Shared ι) (g : Guest ι) :
    Shared ι × Option (Guest ι) × List (Notice ι) :=
  match g.stage with
  | .checking version =>
    if m.banList.stands now g.ip then
      (m, some { g with stage := .releasing }, [.looked .session g.ip now true])
    else (m, some { g with stage := .sweeping version }, [.looked .session g.ip now false])
  | .sweeping version =>
    ({ m with banList := m.banList.removeExpired now g.ip },
      some { g with stage := match version with
        | .v1 => .arriving .v1
        | .v2 => .handshaking }, [])
  | .arriving version =>
    ({ m with connectedMiners := m.connectedMiners + 1 },
      some { g with stage := .starting version }, [])
  | .playing seat live (.ban :: todo) =>
    (m, some { g with stage := .banning (m.banList.expiry now) seat live todo }, [])
  | .playing seat live (.minerDisconnected :: todo) =>
    ({ m with connectedMiners := m.connectedMiners - 1 },
      some { g with stage := .playing seat live todo }, [])
  | .playing _ false [] => (m, some { g with stage := .releasing }, [])
  | .banning expiry seat live todo =>
    ({ m with banList := m.banList.insert g.ip expiry },
      some { g with stage := .playing seat live todo }, [.banned g.ip expiry])
  | .releasing => ({ m with activeCount := m.activeCount - 1 }, none, [])
  | _ => (m, some g, [])

omit [DecidableEq ι] in
/-- The session is set up. -/
def sit (g : Guest ι) (seat : Seat) : Guest ι := { g with stage := .playing seat true [] }

omit [DecidableEq ι] in
/-- The session takes a turn; what it asks of the server is to be done before the next one. -/
def play {σ μ : Type} (g : Guest ι) (seat : σ → Seat) (out : Outcome σ (Effect μ)) : Guest ι :=
  { g with stage := .playing (seat out.state) out.live (Effect.chores out.outputs) }

/-- An event that does not apply changes nothing. -/
def step (S : Setup) (lim : Limits) (now : Instant) (m : Shared ι) (g : Guest ι) :
    GuestEvent → Shared ι × Option (Guest ι) × List (Notice ι)
  | .proceed => g.proceed now m
  | .peeked first =>
    match g.stage with
    | .peeking => (m, some { g with stage := first.elim .releasing (detect lim) }, [])
    | _ => (m, some g, [])
  | .handshake ok =>
    match g.stage with
    | .handshaking => (m, some { g with stage := if ok then .arriving .v2 else .releasing }, [])
    | _ => (m, some g, [])
  | .start sessionId extranonce template =>
    match g.stage with
    | .starting .v1 =>
      (m, some (g.sit (.sv1 (.new S.cfg S.network sessionId extranonce template now))),
        [.started g.ip])
    | .starting .v2 =>
      (m, some (g.sit (.sv2 (.new S.cfg S.network sessionId extranonce template now))),
        [.started g.ip])
    | _ => (m, some g, [])
  | .turnSv1 input =>
    match g.stage with
    | .playing (.sv1 s) true [] => (m, some (g.play .sv1 (s.step S.H S.A input)), [])
    | _ => (m, some g, [])
  | .turnSv2 input =>
    match g.stage with
    | .playing (.sv2 s) true [] => (m, some (g.play .sv2 (s.step S.W S.H S.A input)), [])
    | _ => (m, some g, [])

end Guest

/-! ## The accept loop -/

/-- How far the loop that accepts connections has come with the next one. -/
inductive Acceptor (ι : Type)
  | idle
  | loading (ip : ι)
  /-- The counter was read and is to be replaced, if it is still the same. -/
  | exchanging (ip : ι) (current : UInt64)
  | checking (ip : ι)
  | sweeping (ip : ι)
  | limiting (ip : ι)
  | banning (ip : ι)
  | inserting (ip : ι) (expiry : Instant)
  | releasing

namespace Acceptor

variable {ι : Type} [DecidableEq ι]

/-- The next operation, with the connections it spawns a task for. -/
def step (lim : Limits) (now : Instant) (m : Shared ι) :
    Acceptor ι → Shared ι × Acceptor ι × List (Guest ι) × List (Notice ι)
  | .idle => (m, .idle, [], [])
  | .loading ip =>
    if m.activeCount ≥ lim.maxConnections then (m, .idle, [], [.dropped ip])
    else (m, .exchanging ip m.activeCount, [], [])
  | .exchanging ip current =>
    if m.activeCount = current then ({ m with activeCount := current + 1 }, .checking ip, [], [])
    else (m, .loading ip, [], [])
  | .checking ip =>
    if m.banList.stands now ip then (m, .releasing, [], [.looked .acceptor ip now true])
    else (m, .sweeping ip, [], [.looked .acceptor ip now false])
  | .sweeping ip => ({ m with banList := m.banList.removeExpired now ip }, .limiting ip, [], [])
  | .limiting ip =>
    let (allowed, connLimiter) := m.connLimiter.checkAndRecord now ip
    if allowed then ({ m with connLimiter }, .idle, [⟨ip, .peeking⟩], [.passed ip now])
    else ({ m with connLimiter }, .banning ip, [], [.limited ip now])
  | .banning ip => (m, .inserting ip (m.banList.expiry now), [], [])
  | .inserting ip expiry =>
    ({ m with banList := m.banList.insert ip expiry }, .releasing, [], [.banned ip expiry])
  | .releasing => ({ m with activeCount := m.activeCount - 1 }, .idle, [], [])

end Acceptor

/-! ## The server -/

/-- The loop that accepts connections, the connections accepted, and the pruner. -/
structure Server (ι : Type) where
  shared : Shared ι
  acceptor : Acceptor ι
  guests : List (Guest ι)
  /-- The clock `BanList::prune` read when it began. -/
  pruning : Instant

namespace Server

/-- What happens at the server. -/
inductive Event (ι : Type)
  /-- The listener accepts a connection. -/
  | connection (ip : ι)
  | accept
  | guest (k : ℕ) (event : GuestEvent)
  | prune
  /-- The pruner comes to an entry. -/
  | pruneEntry (ip : ι)
  | pruneLimiter

/-- An event and the clock it finds. -/
structure Tick (ι : Type) where
  now : Instant
  event : Event ι

variable {ι : Type} [DecidableEq ι]

omit [DecidableEq ι] in
/-- A server that has just been started. -/
def new (banDurationSecs maxConnectionsPerIp : ℕ) : Server ι where
  shared := ⟨0, 0, .new banDurationSecs, .new maxConnectionsPerIp⟩
  acceptor := .idle
  guests := []
  pruning := 0

/-- What an event does. -/
def step (S : Setup) (lim : Limits) (s : Server ι) (tick : Tick ι) :
    Outcome (Server ι) (Notice ι) :=
  match tick.event with
  | .connection ip =>
    match s.acceptor with
    | .idle => ⟨{ s with acceptor := .loading ip }, [], true⟩
    | _ => ⟨s, [], true⟩
  | .accept =>
    let (shared, acceptor, spawned, notices) := s.acceptor.step lim tick.now s.shared
    ⟨{ s with shared, acceptor, guests := s.guests ++ spawned }, notices, true⟩
  | .guest k event =>
    match s.guests[k]? with
    | none => ⟨s, [], true⟩
    | some g =>
      let (shared, g', notices) := g.step S lim tick.now s.shared event
      ⟨{ s with shared, guests := advance s.guests k g' }, notices, true⟩
  | .prune => ⟨{ s with pruning := tick.now }, [], true⟩
  | .pruneEntry ip =>
    ⟨{ s with shared := { s.shared with banList := s.shared.banList.removeExpired s.pruning ip } },
      [], true⟩
  | .pruneLimiter =>
    ⟨{ s with shared := { s.shared with connLimiter := s.shared.connLimiter.prune tick.now } }, [],
      true⟩

/-- The server as a process. -/
def process (S : Setup) (lim : Limits) : Process (Server ι) (Tick ι) (Notice ι) := ⟨step S lim⟩

end Server

/-! ## Slots -/

/-- The slots the accept loop holds. -/
def Acceptor.slots {ι : Type} : Acceptor ι → ℕ
  | idle => 0
  | loading _ => 0
  | exchanging _ _ => 0
  | _ => 1

/-- How often the connection is counted in `connected_miners`. -/
def Stage.counted : Stage → ℕ
  | starting _ => 1
  | playing _ live todo => if live then 1 else todo.count .minerDisconnected
  | banning _ _ live todo => if live then 1 else todo.count .minerDisconnected
  | _ => 0

/-- A session that goes on has not reported its end, and one that is over reports it at most once
more. -/
def Stage.WellFormed : Stage → Prop
  | playing _ live todo => todo.count .minerDisconnected ≤ if live then 0 else 1
  | banning _ _ live todo => todo.count .minerDisconnected ≤ if live then 0 else 1
  | _ => True

theorem Stage.WellFormed.counted_le {stage : Stage} (h : stage.WellFormed) : stage.counted ≤ 1 := by
  cases stage with
  | playing seat live todo => cases live <;> simp_all [WellFormed, counted]
  | banning expiry seat live todo => cases live <;> simp_all [WellFormed, counted]
  | _ => simp [counted]

namespace Guest

variable {ι : Type}

/-- How often a guest counts as a connection. -/
def counted (g : Guest ι) : ℕ := g.stage.counted

/-- What a step of the task does to the counters. -/
structure Counts (m m' : Shared ι) (g : Guest ι) (g' : Option (Guest ι)) : Prop where
  active : m'.activeCount = if g'.isSome then m.activeCount else m.activeCount - 1
  miners : m'.connectedMiners.toNat + g.counted = m.connectedMiners.toNat + g'.elim 0 counted
  wellFormed : ∀ x ∈ g', x.stage.WellFormed

variable {m : Shared ι} {g : Guest ι}

/-- A step that leaves both counters alone. -/
theorem Counts.same {m' : Shared ι} (stage : Stage) (hactive : m'.activeCount = m.activeCount)
    (hminers : m'.connectedMiners = m.connectedMiners) (hcounted : stage.counted = g.stage.counted)
    (hstage : stage.WellFormed) : Counts m m' g (some { g with stage }) where
  active := hactive
  miners := by
    rw [hminers]
    exact congrArg _ hcounted.symm
  wellFormed x hx := by
    cases hx
    exact hstage

theorem Counts.refl (hg : g.stage.WellFormed) : Counts m m g (some g) := .same _ rfl rfl rfl hg

/-- A turn of a live session keeps it counted. -/
theorem Counts.play {σ μ : Type} {seat : Seat} (hstage : g.stage = .playing seat true [])
    (seat' : σ → Seat) {out : Outcome σ (Effect μ)} (hdeparts : out.Departs) :
    Counts m m g (some (g.play seat' out)) := by
  have hcount : (Effect.chores out.outputs).count .minerDisconnected = if out.live then 0 else 1 :=
    hdeparts
  refine .same _ rfl rfl ?_ hcount.le
  rw [hstage, Stage.counted, hcount]
  cases out.live <;> rfl

variable [DecidableEq ι] {now : Instant}

theorem proceed_counts (hg : g.stage.WellFormed) (hpos : g.counted ≤ m.connectedMiners.toNat)
    (hroom : m.connectedMiners.toNat + 1 < 2 ^ 64 + g.counted) :
    Counts m (g.proceed now m).1 g (g.proceed now m).2.1 := by
  obtain ⟨ip, stage⟩ := g
  unfold proceed
  dsimp only
  cases stage with
  | peeking => exact .refl hg
  | checking version =>
    dsimp only
    split <;> exact .same _ rfl rfl rfl trivial
  | sweeping version =>
    cases version with
    | v1 => exact .same (.arriving .v1) rfl rfl rfl trivial
    | v2 => exact .same .handshaking rfl rfl rfl trivial
  | handshaking => exact .refl hg
  | arriving version =>
    refine ⟨rfl, ?_, fun x hx => by cases hx; trivial⟩
    change (m.connectedMiners + 1).toNat + 0 = m.connectedMiners.toNat + 1
    change m.connectedMiners.toNat + 1 < 2 ^ 64 + 0 at hroom
    rw [UInt64.toNat_add]
    exact Nat.mod_eq_of_lt hroom
  | starting version => exact .refl hg
  | playing seat live todo =>
    cases todo with
    | nil =>
      cases live with
      | false => exact .same _ rfl rfl rfl trivial
      | true => exact .refl hg
    | cons chore todo =>
      cases chore with
      | ban =>
        refine .same _ rfl rfl ?_ ?_
        · simp [Stage.counted]
        · simpa [Stage.WellFormed] using hg
      | minerDisconnected =>
        -- the session is over, and this is its report
        cases live with
        | true => simp [Stage.WellFormed] at hg
        | false =>
          have hnone : todo.count .minerDisconnected = 0 := by
            simpa [Stage.WellFormed] using hg
          have hone : 1 ≤ m.connectedMiners.toNat := by
            simpa [counted, Stage.counted, hnone] using hpos
          refine ⟨rfl, ?_, fun x hx => ?_⟩
          · have hsub : (m.connectedMiners - 1).toNat = m.connectedMiners.toNat - 1 :=
              UInt64.toNat_sub_of_le _ _ (UInt64.le_iff_toNat_le.mpr hone)
            simp only [counted, Stage.counted, Option.elim, hsub, List.count_cons_self, hnone]
            simp
            omega
          · cases hx
            exact hnone.le.trans (Nat.zero_le _)
  | banning expiry seat live todo => exact .same (.playing seat live todo) rfl rfl rfl hg
  | releasing => exact ⟨rfl, rfl, fun x hx => by cases hx⟩

theorem step_counts (S : Setup) (lim : Limits) (event : GuestEvent) (hg : g.stage.WellFormed)
    (hpos : g.counted ≤ m.connectedMiners.toNat)
    (hroom : m.connectedMiners.toNat + 1 < 2 ^ 64 + g.counted) :
    Counts m (g.step S lim now m event).1 g (g.step S lim now m event).2.1 := by
  cases event with
  | proceed => exact proceed_counts hg hpos hroom
  | peeked first =>
    unfold step
    dsimp only
    split
    · rename_i hstage
      have hdetect : ∀ first, (detect lim first).counted = 0 ∧ (detect lim first).WellFormed := by
        intro first
        unfold detect
        split
        · exact ⟨rfl, trivial⟩
        · split <;> exact ⟨rfl, trivial⟩
      cases first with
      | none => exact .same _ rfl rfl (by rw [hstage]; rfl) trivial
      | some first =>
        exact .same _ rfl rfl (by rw [hstage]; exact (hdetect first).1) (hdetect first).2
    · exact .refl hg
  | handshake ok =>
    unfold step
    dsimp only
    split
    · rename_i hstage
      cases ok <;> exact .same _ rfl rfl (by rw [hstage]; rfl) trivial
    · exact .refl hg
  | start sessionId extranonce template =>
    unfold step
    dsimp only
    split
    · rename_i hstage
      exact .same _ rfl rfl (by rw [hstage]; rfl) (Nat.le_refl 0)
    · rename_i hstage
      exact .same _ rfl rfl (by rw [hstage]; rfl) (Nat.le_refl 0)
    · exact .refl hg
  | turnSv1 input =>
    unfold step
    dsimp only
    split
    · rename_i s hstage
      exact .play hstage .sv1 (s.step_departs S.H S.A input)
    · exact .refl hg
  | turnSv2 input =>
    unfold step
    dsimp only
    split
    · rename_i s hstage
      exact .play hstage .sv2 (s.step_departs S.W S.H S.A input)
    · exact .refl hg

/-- Only the accept loop drops connections. -/
theorem dropped_notMem_step (S : Setup) (lim : Limits) (now : Instant) (m : Shared ι) (g : Guest ι)
    (event : GuestEvent) (ip : ι) : .dropped ip ∉ (g.step S lim now m event).2.2 := by
  cases event with
  | proceed =>
    change .dropped ip ∉ (g.proceed now m).2.2
    unfold proceed
    split
    · split <;> simp
    all_goals simp
  | _ =>
    unfold step
    dsimp only
    split <;> simp

end Guest

theorem Acceptor.loading_of_dropped {ι : Type} [DecidableEq ι] {lim : Limits} {now : Instant}
    {m : Shared ι} {a : Acceptor ι} {ip : ι} (h : .dropped ip ∈ (a.step lim now m).2.2.2) :
    ∃ ip', a = .loading ip' ∧ lim.maxConnections ≤ m.activeCount := by
  cases a with
  | loading ip' =>
    rw [step] at h
    split at h
    · rename_i hfull
      exact ⟨ip', rfl, hfull⟩
    · cases h
  | limiting ip' =>
    rw [step] at h
    dsimp only at h
    split at h <;> simp at h
  | exchanging ip' current =>
    rw [step] at h
    split at h <;> cases h
  | checking ip' =>
    rw [step] at h
    split at h <;> simp at h
  | _ => simp [step] at h

/-- Nothing but the slot of the accept loop changes hands when it moves. -/
theorem Acceptor.step_slots {ι : Type} [DecidableEq ι] {lim : Limits} {now : Instant} {m : Shared ι}
    {a : Acceptor ι} {n : ℕ} (hslots : m.activeCount.toNat = a.slots + n)
    (hroom : a.slots + n ≤ lim.maxConnections.toNat)
    (hexchange : ∀ ip current, a = .exchanging ip current → current < lim.maxConnections)
    {m' : Shared ι} {a' : Acceptor ι} {spawned : List (Guest ι)} {notices : List (Notice ι)}
    (h : a.step lim now m = (m', a', spawned, notices)) :
    m'.activeCount.toNat = a'.slots + (n + spawned.length) ∧
      a'.slots + (n + spawned.length) ≤ lim.maxConnections.toNat ∧
      (∀ ip current, a' = .exchanging ip current → current < lim.maxConnections) ∧
      m'.connectedMiners = m.connectedMiners ∧ ∀ g ∈ spawned, g.stage = .peeking := by
  cases a with
  | idle =>
    cases h
    exact ⟨hslots, hroom, hexchange, rfl, by simp⟩
  | loading ip =>
    rw [step] at h
    split at h
    · cases h
      exact ⟨hslots, hroom, by simp, rfl, by simp⟩
    · rename_i hbelow
      cases h
      refine ⟨hslots, hroom, ?_, rfl, by simp⟩
      rintro ip' current heq
      cases heq
      exact UInt64.not_le.mp hbelow
  | exchanging ip current =>
    rw [step] at h
    split at h
    · rename_i hsame
      cases h
      -- the counter is still the one that was below the limit
      have hlt := UInt64.lt_iff_toNat_lt.mp (hexchange ip current rfl)
      have hmax := lim.maxConnections.toNat_lt
      have hn : current.toNat = n := by
        rw [← hsame, hslots]
        exact Nat.zero_add n
      have hadd : (current + 1).toNat = n + 1 := by
        rw [UInt64.toNat_add, hn]
        exact Nat.mod_eq_of_lt (lt_of_le_of_lt (hn ▸ hlt) hmax)
      refine ⟨?_, ?_, by simp, rfl, by simp⟩
      · change (current + 1).toNat = 1 + (n + 0)
        omega
      · change 1 + (n + 0) ≤ _
        omega
    · cases h
      exact ⟨hslots, hroom, by simp, rfl, by simp⟩
  | checking ip =>
    rw [step] at h
    split at h <;> cases h <;> exact ⟨hslots, hroom, by simp, rfl, by simp⟩
  | sweeping ip =>
    cases h
    exact ⟨hslots, hroom, by simp, rfl, by simp⟩
  | limiting ip =>
    rw [step] at h
    dsimp only at h
    split at h
    · cases h
      -- the slot goes to the task
      have hn : 0 + (n + 1) = 1 + n := by omega
      refine ⟨hslots.trans hn.symm, hn.le.trans hroom, by simp, rfl, by simp⟩
    · cases h
      exact ⟨hslots, hroom, by simp, rfl, by simp⟩
  | banning ip =>
    cases h
    exact ⟨hslots, hroom, by simp, rfl, by simp⟩
  | inserting ip expiry =>
    cases h
    exact ⟨hslots, hroom, by simp, rfl, by simp⟩
  | releasing =>
    cases h
    have hone : m.activeCount.toNat = 1 + n := hslots
    have hsub : (m.activeCount - 1).toNat = m.activeCount.toNat - 1 :=
      UInt64.toNat_sub_of_le _ _
        (UInt64.le_iff_toNat_le.mpr (by rw [hone]; exact Nat.le_add_right 1 n))
    refine ⟨?_, ?_, by simp, rfl, by simp⟩
    · change (m.activeCount - 1).toNat = 0 + (n + 0)
      omega
    · change 0 + (n + 0) ≤ _
      exact le_trans (by omega) hroom

namespace Server

variable {ι : Type}

/-- Every slot in use is held by the accept loop or by one task, and every running session
counted. -/
structure Seated (lim : Limits) (s : Server ι) : Prop where
  slots : s.shared.activeCount.toNat = s.acceptor.slots + s.guests.length
  room : s.acceptor.slots + s.guests.length ≤ lim.maxConnections.toNat
  exchange : ∀ ip current, s.acceptor = .exchanging ip current → current < lim.maxConnections
  miners : s.shared.connectedMiners.toNat = (s.guests.map Guest.counted).sum
  wellFormed : ∀ g ∈ s.guests, g.stage.WellFormed

theorem sum_counted_le {guests : List (Guest ι)} (h : ∀ g ∈ guests, g.stage.WellFormed) :
    (guests.map Guest.counted).sum ≤ guests.length := by
  induction guests with
  | nil => exact Nat.le_refl 0
  | cons g guests ih =>
    have hg : g.counted ≤ 1 := (h g List.mem_cons_self).counted_le
    have hrest := ih fun x hx => h x (List.mem_cons_of_mem g hx)
    rw [List.map_cons, List.sum_cons, List.length_cons]
    omega

theorem seated_new (lim : Limits) (banDurationSecs maxConnectionsPerIp : ℕ) :
    Seated lim (new banDurationSecs maxConnectionsPerIp : Server ι) where
  slots := rfl
  room := Nat.zero_le _
  exchange ip current h := by cases h
  miners := rfl
  wellFormed g hg := by cases hg

variable {S : Setup} {lim : Limits} {s : Server ι}

theorem Seated.guest (h : Seated lim s) {k : ℕ} {g : Guest ι} (hk : s.guests[k]? = some g)
    {m : Shared ι} {g' : Option (Guest ι)} (hcounts : Guest.Counts s.shared m g g') :
    Seated lim { s with shared := m, guests := advance s.guests k g' } := by
  have hlt : k < s.guests.length := (List.getElem?_eq_some_iff.mp hk).1
  have hsum := sum_advance Guest.counted hk g'
  have hmoved : (s.guests.map Guest.counted).sum + g'.elim 0 Guest.counted =
      m.connectedMiners.toNat + g.counted := by
    rw [← h.miners, hcounts.miners]
  have hslots := h.slots
  have hroom := h.room
  have hlength : m.activeCount.toNat = s.acceptor.slots + (advance s.guests k g').length ∧
      (advance s.guests k g').length ≤ s.guests.length := by
    rw [hcounts.active]
    cases g' with
    | some g' =>
      rw [Option.isSome_some, if_pos rfl, advance, List.length_set]
      exact ⟨hslots, le_rfl⟩
    | none =>
      have hsub : (s.shared.activeCount - 1).toNat = s.shared.activeCount.toNat - 1 :=
        UInt64.toNat_sub_of_le _ _ (UInt64.le_iff_toNat_le.mpr (by
          change 1 ≤ s.shared.activeCount.toNat
          omega))
      rw [if_neg (by simp), advance, List.length_eraseIdx_of_lt hlt, hsub]
      omega
  refine ⟨hlength.1, ?_, h.exchange, ?_, fun x hx => ?_⟩
  · exact le_trans (Nat.add_le_add_left hlength.2 _) hroom
  · dsimp only
    omega
  · rcases mem_advance hx with hx | hx
    · exact h.wellFormed x hx
    · exact hcounts.wellFormed x hx

theorem Seated.step [DecidableEq ι] (h : Seated lim s) (tick : Tick ι) :
    Seated lim (step S lim s tick).state := by
  unfold Server.step
  cases tick.event with
  | connection ip =>
    dsimp only
    split
    · rename_i hidle
      have hslots := h.slots
      have hroom := h.room
      rw [hidle] at hslots hroom
      exact ⟨hslots, hroom, by simp, h.miners, h.wellFormed⟩
    · exact h
  | accept =>
    rcases hmove : s.acceptor.step lim tick.now s.shared with ⟨m', a', spawned, notices⟩
    obtain ⟨hslots, hroom, hexchange, hminers, hspawned⟩ :=
      Acceptor.step_slots h.slots h.room h.exchange hmove
    dsimp only
    refine ⟨?_, ?_, hexchange, ?_, ?_⟩
    · rw [List.length_append]
      exact hslots
    · rw [List.length_append]
      exact hroom
    · dsimp only
      rw [hminers, h.miners, List.map_append, List.sum_append]
      -- a task just spawned is not counted
      refine (Nat.add_eq_left.mpr (List.sum_eq_zero fun n hn => ?_)).symm
      obtain ⟨g, hg, rfl⟩ := List.mem_map.mp hn
      rw [Guest.counted, hspawned g hg]
      rfl
    · intro g hg
      rcases List.mem_append.mp hg with hg | hg
      · exact h.wellFormed g hg
      · rw [hspawned g hg]
        trivial
  | guest k event =>
    dsimp only
    split
    · exact h
    · rename_i g hk
      have hmem : g ∈ s.guests := List.mem_of_getElem? hk
      have hsum := sum_advance Guest.counted hk none
      have hothers : ((advance s.guests k none).map Guest.counted).sum ≤
          (advance s.guests k none).length :=
        sum_counted_le fun x hx => by
          rcases mem_advance hx with hx | hx
          · exact h.wellFormed x hx
          · cases hx
      have hlt : k < s.guests.length := (List.getElem?_eq_some_iff.mp hk).1
      rw [advance, List.length_eraseIdx_of_lt hlt] at hothers
      rw [advance, ← h.miners] at hsum
      have hmax := lim.maxConnections.toNat_lt
      have hroom := h.room
      refine h.guest hk (Guest.step_counts S lim event (h.wellFormed g hmem) ?_ ?_)
      · simp only [Option.elim] at hsum
        omega
      · simp only [Option.elim] at hsum
        omega
  | prune => exact ⟨h.slots, h.room, h.exchange, h.miners, h.wellFormed⟩
  | pruneEntry ip => exact ⟨h.slots, h.room, h.exchange, h.miners, h.wellFormed⟩
  | pruneLimiter => exact ⟨h.slots, h.room, h.exchange, h.miners, h.wellFormed⟩

theorem live_step [DecidableEq ι] (S : Setup) (lim : Limits) (s : Server ι) (tick : Tick ι) :
    ((process S lim).step s tick).live := by
  change (s.step S lim tick).live
  unfold Server.step
  cases tick.event with
  | connection ip =>
    dsimp only
    split <;> rfl
  | guest k event =>
    dsimp only
    split <;> rfl
  | _ => rfl

theorem Seated.run [DecidableEq ι] (h : Seated lim s) (ticks : List (Tick ι)) :
    Seated lim ((process S lim).run s ticks).state :=
  Process.run_state (C := fun _ _ => True) (fun hs _ _ => hs.step _) h
    (Process.meets_of_forall (fun _ _ _ => trivial) s) (Process.live_run (live_step S lim) s ticks)

/-- A connection is dropped only while every slot is taken by a task. -/
theorem Seated.full_of_dropped [DecidableEq ι] (h : Seated lim s) {tick : Tick ι} {ip : ι}
    (hdropped : .dropped ip ∈ (s.step S lim tick).outputs) :
    s.guests.length = lim.maxConnections.toNat := by
  unfold Server.step at hdropped
  cases hevent : tick.event with
  | connection ip' =>
    rw [hevent] at hdropped
    dsimp only at hdropped
    split at hdropped <;> cases hdropped
  | accept =>
    rw [hevent] at hdropped
    obtain ⟨ip', hloading, hfull⟩ := Acceptor.loading_of_dropped hdropped
    have hslots := h.slots
    have hroom := h.room
    have hle := UInt64.le_iff_toNat_le.mp hfull
    rw [hloading, Acceptor.slots] at hslots hroom
    omega
  | guest k event =>
    rw [hevent] at hdropped
    dsimp only at hdropped
    split at hdropped
    · cases hdropped
    · exact absurd hdropped (Guest.dropped_notMem_step _ _ _ _ _ _ _)
  | prune =>
    rw [hevent] at hdropped
    cases hdropped
  | pruneEntry ip' =>
    rw [hevent] at hdropped
    cases hdropped
  | pruneLimiter =>
    rw [hevent] at hdropped
    cases hdropped

/-- **Slots.** In any interleaving, the counter of active connections is the number of slots held by
the accept loop and the tasks, each holding one, and it never exceeds `max_connections`; the counter
of miners is the number of sessions counted and not yet over. A connection is dropped for want of a
slot only when every slot belongs to a task. -/
theorem slots_kept [DecidableEq ι] (S : Setup) (lim : Limits) (banDurationSecs maxPerIp : ℕ)
    (ticks : List (Tick ι)) :
    let s := ((process S lim).run (new banDurationSecs maxPerIp) ticks).state
    s.shared.activeCount.toNat = s.acceptor.slots + s.guests.length ∧
      s.shared.activeCount ≤ lim.maxConnections ∧
      s.shared.connectedMiners.toNat = (s.guests.map Guest.counted).sum ∧
      (∀ g ∈ s.guests, g.counted ≤ 1) ∧
      ∀ tick ip, .dropped ip ∈ (s.step S lim tick).outputs →
        s.guests.length = lim.maxConnections.toNat := by
  have h := (seated_new (ι := ι) lim banDurationSecs maxPerIp).run (S := S) ticks
  refine ⟨h.slots, ?_, h.miners, fun g hg => (h.wellFormed g hg).counted_le, ?_⟩
  · rw [UInt64.le_iff_toNat_le, h.slots]
    exact h.room
  · exact fun tick ip hdropped => h.full_of_dropped hdropped

end Server

end BtcPool
