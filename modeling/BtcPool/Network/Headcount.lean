import BtcPool.Foundations.Tasks
import BtcPool.Network.Pool
import BtcPool.Stats.Workers

/-!
# How many sessions a worker has

All sessions of the pool, the maps they share and the pruner, as one process. A session that takes a
turn has the calls of that turn to make (`Member.todo`), and makes them one operation at a time,
while others make theirs; it takes its next turn when it is done.

The number the maps show for a worker is that of the sessions present under its name
(`Roster.Kept`), as long as two things do not happen: a worker is given its first state while
another session does the same, or it is evicted after it came back (`Roster.Undisturbed`). With
nothing in progress that number is the one of live sessions that hold the name
(`active_sessions_counted`). The first of the two loses a session (`lost_session`), and so does the
second.
-/

namespace BtcPool

open Bitcoin Stats Tasks

/-- A session of one of the two protocols. -/
inductive Seat
  | sv1 (session : Sv1.Session)
  | sv2 (session : Sv2.Session)

/-- The name a session is booked under. -/
def Seat.statsWorker : Seat → Option Str
  | sv1 session => session.statsWorker
  | sv2 session => session.statsWorker

/-- A session, whether it is still live, and the calls it has to make before it can go on. -/
structure Member where
  seat : Seat
  live : Bool
  todo : List WorkerCall

namespace Member

/-- A session after a turn. -/
def after {σ μ : Type} (seat : σ → Seat) (out : Outcome σ (Effect μ)) : Member where
  seat := seat out.state
  live := out.live
  todo := (out.outputs.filterMap Effect.event).flatMap workerCalls

/-- Whether a live session holds a name. -/
def holds (name : Str) (m : Member) : Bool := m.live && m.seat.statsWorker = some name

/-- What the calls to be made do to the presence of the worker. -/
def passages (m : Member) : List Passage := m.todo.filterMap WorkerCall.passage

/-- The worker the session counts for once its calls are made. -/
def final (m : Member) : Option Str := if m.live then m.seat.statsWorker else none

/-- The worker the session counts for now. -/
def present (m : Member) : Option Str := origin m.final m.passages

end Member

/-- The sessions, the maps they share and the pruner. -/
structure Roster where
  maps : WorkerMaps
  members : List Member
  pruner : Pruner

namespace Roster

/-- What happens among sessions and the pruner. -/
inductive Event
  | connectSv1 (sessionId : Str) (extranonce1 : Bytes) (template : Option JobTemplate)
      (now : Instant)
  | connectSv2 (sessionId : Str) (extranoncePrefix : Bytes) (template : Option JobTemplate)
      (now : Instant)
  /-- A session that has no calls to make takes a turn. -/
  | turnSv1 (k : ℕ) (input : Sv1.Input)
  | turnSv2 (k : ℕ) (input : Sv2.Input)
  /-- A session makes its next operation. -/
  | call (k : ℕ) (now : ℕ)
  | prune (now : ℕ)
  | visit (worker : Str)
  | select
  /-- The pruner makes its next removal. -/
  | remove

/-- The pool just started. -/
def new : Roster := ⟨.new, [], .removing []⟩

/-- A session that speaks Stratum V1 takes a turn. -/
def turnSv1 (S : Setup) (r : Roster) (k : ℕ) (input : Sv1.Input) : Roster :=
  match r.members[k]? with
  | some ⟨.sv1 s, true, []⟩ =>
    { r with members := r.members.set k (.after .sv1 (s.step S.H S.A input)) }
  | _ => r

/-- A session that speaks Stratum V2 takes a turn. -/
def turnSv2 (S : Setup) (r : Roster) (k : ℕ) (input : Sv2.Input) : Roster :=
  match r.members[k]? with
  | some ⟨.sv2 s, true, []⟩ =>
    { r with members := r.members.set k (.after .sv2 (s.step S.W S.H S.A input)) }
  | _ => r

/-- A session makes the next step of its calls. -/
def call (r : Roster) (k now : ℕ) : Roster :=
  match r.members[k]? with
  | some ⟨seat, live, next :: rest⟩ =>
    let (maps, left) := next.step r.maps now
    { r with maps, members := r.members.set k ⟨seat, live, left.toList ++ rest⟩ }
  | _ => r

/-- The pruner makes the next step of its removals. -/
def remove (r : Roster) : Roster :=
  match r.pruner with
  | .removing (removal :: rest) => { r with maps := removal.step r.maps, pruner := .removing rest }
  | _ => r

/-- What an event does. -/
def step (S : Setup) (r : Roster) : Event → Roster
  | .connectSv1 sessionId extranonce1 template now =>
    { r with
      members := r.members ++
        [⟨.sv1 (.new S.cfg S.network sessionId extranonce1 template now), true, []⟩] }
  | .connectSv2 sessionId extranoncePrefix template now =>
    { r with
      members := r.members ++
        [⟨.sv2 (.new S.cfg S.network sessionId extranoncePrefix template now), true, []⟩] }
  | .turnSv1 k input => r.turnSv1 S k input
  | .turnSv2 k input => r.turnSv2 S k input
  | .call k now => r.call k now
  | .prune now => { r with pruner := r.pruner.start now }
  | .visit worker => { r with pruner := r.pruner.visit r.maps worker }
  | .select => { r with pruner := r.pruner.select }
  | .remove => r.remove

/-- The roster as a process that never ends. -/
def process (S : Setup) : Process Roster Event Unit where
  step r e := { state := step S r e, outputs := [], live := true }

/-- No operation is in progress. -/
def idle (r : Roster) : Bool := r.members.all (fun m => m.todo.isEmpty) && r.pruner.idle

/-- An insertion finds the map as the look-up left it, and an eviction the worker offline. -/
def Undisturbed (r : Roster) : Event → Prop
  | .call k _ => ∀ m ∈ r.members[k]?, ∀ next ∈ m.todo.head?, next.Undisturbed r.maps
  | .remove =>
    match r.pruner with
    | .removing rest => ∀ removal ∈ rest.head?, removal.Undisturbed r.maps
    | .selecting _ _ => True
  | _ => True

instance (r : Roster) : (e : Event) → Decidable (r.Undisturbed e)
  | .call k _ =>
    inferInstanceAs (Decidable (∀ m ∈ r.members[k]?, ∀ next ∈ m.todo.head?,
      next.Undisturbed r.maps))
  | .remove =>
    match hpruner : r.pruner with
    | .removing rest => decidable_of_iff (∀ removal ∈ rest.head?, removal.Undisturbed r.maps)
        (by simp only [Undisturbed, hpruner])
    | .selecting _ _ => .isTrue (by simp only [Undisturbed, hpruner])
  | .connectSv1 _ _ _ _ => inferInstanceAs (Decidable True)
  | .connectSv2 _ _ _ _ => inferInstanceAs (Decidable True)
  | .turnSv1 _ _ => inferInstanceAs (Decidable True)
  | .turnSv2 _ _ => inferInstanceAs (Decidable True)
  | .prune _ => inferInstanceAs (Decidable True)
  | .visit _ => inferInstanceAs (Decidable True)
  | .select => inferInstanceAs (Decidable True)

/-! ## What is kept -/

/-- The number of sessions present under a name. -/
def headcount (members : List Member) (name : Str) : ℕ :=
  members.countP fun m => m.present = some name

/-- Every member's calls are those of one that comes and goes, and the maps count those that are
there. -/
structure Kept (r : Roster) : Prop where
  runs : ∀ m ∈ r.members, presence.Run m.present m.passages m.final
  tallied : Tallied r.maps (headcount r.members)

variable {S : Setup} {r : Roster}

theorem headcount_set {members : List Member} {k : ℕ} {m : Member} (h : members[k]? = some m)
    (m' : Member) (name : Str) :
    headcount (members.set k m') name + (if m.present = some name then 1 else 0) =
      headcount members name + if m'.present = some name then 1 else 0 := by
  simpa only [headcount, decide_eq_true_eq] using
    countP_set_add (fun m : Member => decide (m.present = some name)) h m'

/-- A session that goes on as before, as far as its presence is concerned. -/
theorem headcount_set_of_present {members : List Member} {k : ℕ} {m m' : Member}
    (h : members[k]? = some m) (hpresent : m'.present = m.present) :
    headcount (members.set k m') = headcount members := by
  funext name
  have hset := headcount_set h m' name
  rw [hpresent] at hset
  exact Nat.add_right_cancel hset

theorem headcount_pos {members : List Member} {m : Member} (hm : m ∈ members) {name : Str}
    (h : m.present = some name) : 0 < headcount members name :=
  List.countP_pos_iff.mpr ⟨m, hm, by simpa using h⟩

/-- A session whose worker has entered or left is counted accordingly. -/
theorem headcount_set_of_passage {members : List Member} {k : ℕ} {m m' : Member}
    (h : members[k]? = some m) {p : Passage} (henabled : presence.Enabled m.present p)
    (hpresent : m'.present = presence.next m.present p) :
    headcount (members.set k m') = tallyAfter (headcount members) p := by
  funext name
  have hset := headcount_set h m' name
  rw [hpresent] at hset
  cases p with
  | enter entered =>
    rw [show m.present = none from henabled] at hset
    change _ + _ = _ + (if some entered = some name then 1 else 0) at hset
    by_cases hname : name = entered
    · subst hname
      simpa [tallyAfter] using hset
    · simpa [tallyAfter, Function.update_of_ne hname, Ne.symm hname] using hset
  | leave left =>
    rw [show m.present = some left from henabled] at hset
    change _ + (if some left = some name then 1 else 0) = _ + 0 at hset
    by_cases hname : name = left
    · subst hname
      simp only [if_true] at hset
      simp only [tallyAfter, Function.update_self]
      omega
    · simpa [tallyAfter, Function.update_of_ne hname, Ne.symm hname] using hset
  | keep kept => exact Nat.add_right_cancel hset

/-! ## Turns -/

theorem passages_after {σ μ : Type} (seat : σ → Seat) (out : Outcome σ (Effect μ)) :
    (Member.after seat out).passages = Effect.passages out.outputs := by
  unfold Member.passages Member.after Effect.passages
  dsimp only
  generalize out.outputs.filterMap Effect.event = events
  induction events with
  | nil => rfl
  | cons event events ih =>
    rw [List.flatMap_cons, List.filterMap_append, ih, passage_workerCalls, List.filterMap_cons]
    cases event.passage <;> rfl

/-- One session moves on, and the maps with it. -/
theorem Kept.set (h : r.Kept) {k : ℕ} {m' : Member} {present : Option Str}
    (hrun : presence.Run present m'.passages m'.final) {maps : WorkerMaps}
    (htallied : m'.present = present → Tallied maps (headcount (r.members.set k m'))) :
    Kept { r with maps, members := r.members.set k m' } := by
  have hpresent : m'.present = present := origin_of_run hrun
  refine ⟨fun m hm => ?_, htallied hpresent⟩
  rcases List.mem_or_eq_of_mem_set hm with hm | rfl
  · exact h.runs m hm
  · rw [hpresent]
    exact hrun

/-- A turn leaves the session where it is until the calls of the turn are made. -/
theorem Kept.turn (h : r.Kept) {k : ℕ} {seat : Seat}
    (hk : r.members[k]? = some ⟨seat, true, []⟩) {m' : Member}
    (hrun : presence.Run seat.statsWorker m'.passages m'.final) :
    Kept { r with members := r.members.set k m' } := by
  refine h.set hrun fun hpresent => ?_
  rw [headcount_set_of_present hk hpresent]
  exact h.tallied

theorem Kept.turnSv1 (h : r.Kept) (k : ℕ) (input : Sv1.Input) : (r.turnSv1 S k input).Kept := by
  unfold Roster.turnSv1
  split
  · rename_i s hk
    refine h.turn hk ?_
    rw [passages_after]
    exact Sv1.Session.step_present S.H S.A s input
  · exact h

theorem Kept.turnSv2 (h : r.Kept) (k : ℕ) (input : Sv2.Input) : (r.turnSv2 S k input).Kept := by
  unfold Roster.turnSv2
  split
  · rename_i s hk
    refine h.turn hk ?_
    rw [passages_after]
    exact Sv2.Session.step_present S.W S.H S.A s input
  · exact h

/-! ## Operations -/

/-- What the next call of a session needs is there, and what the others do goes on from where it
leaves off. -/
theorem run_of_passage {seat : Seat} {live : Bool} {next : WorkerCall} {rest : List WorkerCall}
    (h : presence.Run (Member.present ⟨seat, live, next :: rest⟩)
      (Member.passages ⟨seat, live, next :: rest⟩) (Member.final ⟨seat, live, next :: rest⟩)) :
    match next.passage with
    | none => presence.Run (Member.present ⟨seat, live, next :: rest⟩)
        (Member.passages ⟨seat, live, rest⟩) (Member.final ⟨seat, live, rest⟩)
    | some p => presence.Enabled (Member.present ⟨seat, live, next :: rest⟩) p ∧
        presence.Run (presence.next (Member.present ⟨seat, live, next :: rest⟩) p)
          (Member.passages ⟨seat, live, rest⟩) (Member.final ⟨seat, live, rest⟩) := by
  have hpassages : Member.passages ⟨seat, live, next :: rest⟩ =
      next.passage.toList ++ Member.passages ⟨seat, live, rest⟩ := by
    unfold Member.passages
    rw [List.filterMap_cons]
    cases next.passage <;> rfl
  rw [hpassages] at h
  cases hnext : next.passage with
  | none =>
    rw [hnext] at h
    exact h
  | some p =>
    rw [hnext] at h
    cases h with
    | cons henabled hrest => exact ⟨henabled, hrest⟩

theorem Kept.call (h : r.Kept) {k now : ℕ} (hmaps : r.Undisturbed (.call k now)) :
    (r.call k now).Kept := by
  unfold Roster.call
  split
  · rename_i seat live next rest hk
    have hmem := List.mem_of_getElem? hk
    have hrun := h.runs _ hmem
    have hrest := run_of_passage hrun
    have hnext : next.Undisturbed r.maps := hmaps _ hk next rfl
    have hcounted : ∀ p, next.passage = some p → CountedIn (headcount r.members) p := by
      intro p hp
      rw [hp] at hrest
      cases p with
      | enter name => trivial
      | leave name => exact headcount_pos hmem hrest.1
      | keep name => exact headcount_pos hmem hrest.1
    have hstep := next.step_tallied h.tallied hnext hcounted now
    generalize next.step r.maps now = result at hstep ⊢
    obtain ⟨maps, left⟩ := result
    cases left with
    | some left =>
      -- the call goes on, with the same to do
      obtain ⟨htallied, hsame⟩ := hstep
      have hpassages : Member.passages ⟨seat, live, left :: rest⟩ =
          Member.passages ⟨seat, live, next :: rest⟩ := by
        simp only [Member.passages, List.filterMap_cons, hsame]
      rw [← hpassages] at hrun
      refine h.set hrun fun hpresent => ?_
      rw [headcount_set_of_present hk hpresent]
      exact htallied
    | none =>
      cases hp : next.passage with
      | none =>
        rw [hp] at hrest
        refine h.set hrest fun hpresent => ?_
        rw [headcount_set_of_present hk hpresent]
        rw [WorkerCall.Tallies, hp] at hstep
        exact hstep
      | some p =>
        rw [hp] at hrest
        refine h.set hrest.2 fun hpresent => ?_
        rw [headcount_set_of_passage hk hrest.1 hpresent]
        rw [WorkerCall.Tallies, hp] at hstep
        exact hstep
  · exact h

theorem Kept.remove (h : r.Kept) (hmaps : r.Undisturbed .remove) : r.remove.Kept := by
  unfold Roster.remove
  split
  · rename_i removal rest hpruner
    have hremoval : removal.Undisturbed r.maps := by
      simp only [Undisturbed, hpruner] at hmaps
      exact hmaps removal rfl
    exact ⟨h.runs, removal.step_tallied h.tallied hremoval⟩
  · exact h

/-- A session that holds no name yet. -/
theorem Kept.connect (h : r.Kept) {m : Member} (htodo : m.todo = []) (hfinal : m.final = none) :
    Kept { r with members := r.members ++ [m] } := by
  have hpassages : m.passages = [] := by rw [Member.passages, htodo]; rfl
  have hpresent : m.present = none := by rw [Member.present, hpassages, origin, hfinal]
  refine ⟨fun m' hm' => ?_, ?_⟩
  · rcases List.mem_append.mp hm' with hm' | hm'
    · exact h.runs m' hm'
    · rw [List.mem_singleton.mp hm', hpresent, hpassages, hfinal]
      exact .nil _
  · have hcount : headcount (r.members ++ [m]) = headcount r.members := by
      funext name
      simp [headcount, hpresent]
    dsimp only
    rw [hcount]
    exact h.tallied

theorem step_kept (h : r.Kept) {e : Event} (he : r.Undisturbed e) : (step S r e).Kept := by
  cases e with
  | connectSv1 sessionId extranonce1 template now => exact h.connect rfl rfl
  | connectSv2 sessionId extranoncePrefix template now => exact h.connect rfl rfl
  | turnSv1 k input => exact h.turnSv1 k input
  | turnSv2 k input => exact h.turnSv2 k input
  | call k now => exact h.call he
  | prune now => exact ⟨h.runs, h.tallied⟩
  | visit worker => exact ⟨h.runs, h.tallied⟩
  | select => exact ⟨h.runs, h.tallied⟩
  | remove => exact h.remove he

theorem kept_new : new.Kept :=
  ⟨fun _ hm => (by cases hm), fun _ => shows_none⟩

theorem run_kept (S : Setup) {events : List Event}
    (h : (process S).Meets (fun r e => r.Undisturbed e) new events) :
    ((process S).run new events).state.Kept :=
  Process.run_state (P := Kept) (fun hkept he _ => step_kept hkept he) kept_new h
    (Process.live_run (fun _ _ => rfl) _ _)

/-- With no calls to make a session is present under the name it holds. -/
theorem headcount_of_idle {members : List Member} (h : ∀ m ∈ members, m.todo = []) (name : Str) :
    headcount members name = members.countP (Member.holds name) := by
  refine List.countP_congr fun m hm => ?_
  have hpresent : m.present = m.final := by
    rw [Member.present, Member.passages, h m hm]
    rfl
  rw [hpresent, Member.final, Member.holds]
  cases m.live <;> simp

/-- **The sessions of a worker.** In every run in which no insertion and no eviction is overtaken,
with no operation in progress the maps show for every name the number of live sessions that hold it,
and that it is online exactly if there are any. -/
theorem active_sessions_counted (S : Setup) (events : List Event)
    (h : (process S).Meets (fun r e => r.Undisturbed e) new events)
    (hidle : ((process S).run new events).state.idle) (name : Str) :
    let r := ((process S).run new events).state
    r.maps.activeSessions name = r.members.countP (Member.holds name) ∧
      (r.maps.online name ↔ 0 < r.members.countP (Member.holds name)) := by
  intro r
  have htallied := (run_kept S h).tallied name
  have hdone : ∀ m ∈ r.members, m.todo = [] := fun m hm =>
    List.isEmpty_iff.mp (List.all_eq_true.mp (Bool.and_eq_true_iff.mp hidle).1 m hm)
  rw [headcount_of_idle hdone] at htallied
  exact htallied

/-- A Stratum V1 session subscribes and authorizes. -/
def authorizes (k : ℕ) : List Event := Sv1.regtestInputs.map (.turnSv1 k)

/-- A Stratum V1 and a Stratum V2 session come online for one worker, one after the other. -/
def joining : List Event :=
  [.connectSv1 "a".toList [1, 2, 3, 4] (some regtestTemplate) 0,
    .connectSv2 "b".toList [5, 6, 7, 8] (some regtestTemplate) 0] ++
  authorizes 0 ++ List.replicate 6 (.call 0 0) ++
  Sv2.regtestInputs.map (.turnSv2 1) ++ List.replicate 3 (.call 1 0)

theorem active_sessions_counted_regtest :
    let r := ((process regtestSetup).run new joining).state
    r.idle ∧ r.members.countP (Member.holds regtestPayout.address) = 2 ∧
      r.maps.activeSessions regtestPayout.address =
        r.members.countP (Member.holds regtestPayout.address) :=
  ⟨by decide +kernel, by decide +kernel,
    (active_sessions_counted regtestSetup joining (by decide +kernel) (by decide +kernel)
      regtestPayout.address).1⟩

/-- Two sessions look one worker up before either of them inserts it. -/
def colliding : List Event :=
  [.connectSv1 "a".toList [1, 2, 3, 4] (some regtestTemplate) 0,
    .connectSv1 "b".toList [5, 6, 7, 8] (some regtestTemplate) 0] ++
  authorizes 0 ++ authorizes 1 ++ [.call 0 0, .call 1 0] ++
  List.replicate 5 (.call 0 0) ++ List.replicate 5 (.call 1 0)

/-- A worker goes offline, is chosen by the pruner a day later, and comes back before it is
evicted. -/
def overtaking : List Event :=
  [.connectSv1 "a".toList [1, 2, 3, 4] (some regtestTemplate) 0] ++
  authorizes 0 ++ List.replicate 6 (.call 0 0) ++
  [.turnSv1 0 ⟨.closed, .regtest "2".toList⟩, .call 0 0, .prune 86402, .visit regtestPayout.address,
    .select, .connectSv1 "b".toList [5, 6, 7, 8] (some regtestTemplate) 0] ++
  authorizes 1 ++ List.replicate 3 (.call 1 86402) ++ List.replicate 3 .remove

/-- A session is lost in either case. -/
theorem lost_session :
    let collided := ((process regtestSetup).run new colliding).state
    let overtaken := ((process regtestSetup).run new overtaking).state
    (collided.idle ∧ collided.members.countP (Member.holds regtestPayout.address) = 2 ∧
      collided.maps.activeSessions regtestPayout.address = 1) ∧
    overtaken.idle ∧ overtaken.members.countP (Member.holds regtestPayout.address) = 1 ∧
      overtaken.maps.activeSessions regtestPayout.address = 0 :=
  ⟨⟨by decide +kernel, by decide +kernel, by decide +kernel⟩,
    by decide +kernel, by decide +kernel, by decide +kernel⟩

end Roster

end BtcPool
