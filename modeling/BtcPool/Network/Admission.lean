import BtcPool.Foundations.LastSaid
import BtcPool.Network.Server

/-!
# What the ban list and the limiter let through

`Deed` says what an operation of the server does to the ban list and the limiter. In any
interleaving whose times do not decrease:

* every look-up of an address, by the accept loop or by a session, is answered by the ban of it that
  went in last (`lookups_right`);
* no session comes into being around the checks, and no minute sees more connections of an address
  pass than the limit (`admissions_checked`).
-/

namespace BtcPool

open Bitcoin Tasks SlidingWindow

/-! ## What an operation does -/

variable {ι : Type} [DecidableEq ι]

namespace Notice

/-- The ban of an address that goes in. -/
def ban (ip : ι) : Notice ι → Option Instant
  | banned ip' expiry => if ip' = ip then some expiry else none
  | _ => none

/-- The time at which the limiter lets an address pass. -/
def pass (ip : ι) : Notice ι → Option Instant
  | passed ip' now => if ip' = ip then some now else none
  | _ => none

omit [DecidableEq ι] in
/-- A notice that is neither of the ban list nor of a connection that passes. -/
def Quiet : Notice ι → Prop
  | dropped _ => True
  | limited _ _ => True
  | started _ => True
  | _ => False

end Notice

/-- The ban of each address that went in last. -/
def lastBan (past : List (Notice ι)) (ip : ι) : Option Instant := lastSaid (Notice.ban ip) past

/-- When connections of an address passed the rate limit. -/
def passedTimes (ip : ι) (past : List (Notice ι)) : List Instant := past.filterMap (Notice.pass ip)

/-- A look-up refuses exactly the addresses whose last ban has not expired. -/
def Notice.Right (past : List (Notice ι)) : Notice ι → Prop
  | .looked _ ip now refused => refused = (lastBan past ip).any fun expiry => now < expiry
  | _ => True

/-- What an operation does to the ban list and the limiter, and what is known of it. -/
inductive Deed (now : Instant) (m m' : Shared ι) (notices : List (Notice ι)) : Prop
  | quiet (hbans : m'.banList = m.banList) (hlimiter : m'.connLimiter = m.connLimiter)
      (hquiet : ∀ n ∈ notices, n.Quiet)
  | looked (door : Door) (ip : ι) (hbans : m'.banList = m.banList)
      (hlimiter : m'.connLimiter = m.connLimiter)
      (hnotices : notices = [.looked door ip now (m.banList.stands now ip)])
  | swept (ip : ι) (read : Instant) (hread : read ≤ now)
      (hbans : m'.banList = m.banList.removeExpired read ip)
      (hlimiter : m'.connLimiter = m.connLimiter) (hnotices : notices = [])
  | banned (ip : ι) (expiry : Instant) (hbans : m'.banList = m.banList.insert ip expiry)
      (hlimiter : m'.connLimiter = m.connLimiter) (hnotices : notices = [.banned ip expiry])
  | judged (ip : ι) (hbans : m'.banList = m.banList)
      (hlimiter : m'.connLimiter = (m.connLimiter.checkAndRecord now ip).2)
      (hnotices : notices = [if (m.connLimiter.checkAndRecord now ip).1 then .passed ip now
        else .limited ip now])
  | pruned (hbans : m'.banList = m.banList) (hlimiter : m'.connLimiter = m.connLimiter.prune now)
      (hnotices : notices = [])

theorem Deed.none (now : Instant) (m : Shared ι) : Deed now m m [] := .quiet rfl rfl (by simp)

theorem Guest.step_deed (S : Setup) (lim : Limits) (now : Instant) (m : Shared ι) (g : Guest ι)
    (event : GuestEvent) :
    Deed now m (g.step S lim now m event).1 (g.step S lim now m event).2.2 := by
  cases event with
  | proceed =>
    obtain ⟨ip, stage⟩ := g
    cases stage with
    | checking version =>
      by_cases hstands : m.banList.stands now ip
      · exact .looked .session ip (by simp [step, proceed, hstands])
          (by simp [step, proceed, hstands]) (by simp [step, proceed, hstands])
      · exact .looked .session ip (by simp [step, proceed, hstands])
          (by simp [step, proceed, hstands]) (by simp [step, proceed, hstands])
    | sweeping version => exact .swept ip now le_rfl rfl rfl rfl
    | playing seat live todo =>
      cases todo with
      | nil => cases live <;> exact .none now m
      | cons chore todo => cases chore <;> exact .quiet rfl rfl (by simp [step, proceed])
    | banning expiry seat live todo => exact .banned ip expiry rfl rfl rfl
    | _ => exact .quiet rfl rfl (by simp [step, proceed])
  | start sessionId extranonce template =>
    unfold step
    dsimp only
    split
    · exact .quiet rfl rfl (by simp [Notice.Quiet])
    · exact .quiet rfl rfl (by simp [Notice.Quiet])
    · exact .none now m
  | _ =>
    unfold step
    dsimp only
    split <;> exact .none now m

theorem Acceptor.step_deed (lim : Limits) (now : Instant) (m : Shared ι) (a : Acceptor ι) :
    Deed now m (a.step lim now m).1 (a.step lim now m).2.2.2 := by
  cases a with
  | loading ip =>
    rw [step]
    split
    · exact .quiet rfl rfl (by simp [Notice.Quiet])
    · exact .none now m
  | exchanging ip current =>
    rw [step]
    split <;> exact .quiet rfl rfl (by simp)
  | checking ip =>
    rw [step]
    split
    · rename_i hstands
      exact .looked .acceptor ip rfl rfl (by rw [hstands])
    · rename_i hstands
      exact .looked .acceptor ip rfl rfl (by rw [Bool.not_eq_true _ |>.mp hstands])
  | sweeping ip => exact .swept ip now le_rfl rfl rfl rfl
  | limiting ip =>
    rw [step]
    dsimp only
    split
    · rename_i hallowed
      exact .judged ip rfl rfl (by rw [if_pos hallowed])
    · rename_i hallowed
      exact .judged ip rfl rfl (by rw [if_neg hallowed])
  | inserting ip expiry => exact .banned ip expiry rfl rfl rfl
  | _ => exact .quiet rfl rfl (by simp [step])

theorem Server.step_deed {S : Setup} {lim : Limits} {s : Server ι} {tick : Server.Tick ι}
    (hpruning : s.pruning ≤ tick.now) :
    Deed tick.now s.shared (s.step S lim tick).state.shared (s.step S lim tick).outputs ∧
      (s.step S lim tick).state.pruning ≤ tick.now := by
  unfold Server.step
  cases tick.event with
  | connection ip =>
    dsimp only
    split <;> exact ⟨.none _ _, hpruning⟩
  | accept => exact ⟨s.acceptor.step_deed lim tick.now s.shared, hpruning⟩
  | guest k event =>
    dsimp only
    split
    · exact ⟨.none _ _, hpruning⟩
    · exact ⟨Guest.step_deed S lim tick.now s.shared _ event, hpruning⟩
  | prune => exact ⟨.none _ _, le_rfl⟩
  | pruneEntry ip => exact ⟨.swept ip s.pruning hpruning rfl rfl rfl, hpruning⟩
  | pruneLimiter => exact ⟨.pruned rfl rfl rfl, hpruning⟩

variable {now later : Instant} {m m' : Shared ι} {past notices : List (Notice ι)}

theorem lastBan_concat_banned (past : List (Notice ι)) (ip : ι) (expiry : Instant) :
    lastBan (past ++ [.banned ip expiry]) = Function.update (lastBan past) ip (some expiry) := by
  funext i
  by_cases hi : i = ip
  · subst hi
    rw [Function.update_self]
    exact lastSaid_append_cons (if_pos rfl) (by simp)
  · rw [Function.update_of_ne hi]
    exact lastSaid_append_of_none (by simp [Notice.ban, Ne.symm hi])

theorem lastBan_append_of_none (hnone : ∀ n ∈ notices, ∀ ip, n.ban ip = none) :
    lastBan (past ++ notices) = lastBan past := by
  funext ip
  exact lastSaid_append_of_none fun n hn => hnone n hn ip

theorem Notice.Quiet.ban_eq_none {n : Notice ι} (h : n.Quiet) (ip : ι) : n.ban ip = none := by
  cases n <;> first | rfl | exact h.elim

theorem Notice.Quiet.pass_eq_none {n : Notice ι} (h : n.Quiet) (ip : ι) : n.pass ip = none := by
  cases n <;> first | rfl | exact h.elim

theorem preceded_right_append (hpast : Preceded Notice.Right [] past)
    (hnotices : ∀ n ∈ notices, ∀ past, Notice.Right past n) :
    Preceded Notice.Right [] (past ++ notices) := by
  refine preceded_append.mpr ⟨hpast, ?_⟩
  generalize [] ++ past = before
  induction notices generalizing before with
  | nil => trivial
  | cons n notices ih =>
    exact ⟨hnotices n List.mem_cons_self before,
      ih (fun x hx => hnotices x (List.mem_cons_of_mem n hx)) _⟩

/-! ## Bans -/

/-- The ban list accounts for the bans so far, and every look-up was answered rightly. -/
structure Watched (now : Instant) (past : List (Notice ι)) (m : Shared ι) : Prop where
  enforces : m.banList.Enforces now (lastBan past)
  right : Preceded Notice.Right [] past

theorem Watched.mono (h : Watched now past m) (hle : now ≤ later) : Watched later past m :=
  ⟨h.enforces.mono hle, h.right⟩

/-- An operation that says nothing about bans. -/
theorem Watched.append (h : Watched now past m) (hbans : m'.banList = m.banList)
    (hnone : ∀ n ∈ notices, ∀ ip, n.ban ip = none)
    (hright : ∀ n ∈ notices, ∀ past, Notice.Right past n) : Watched now (past ++ notices) m' := by
  refine ⟨?_, preceded_right_append h.right hright⟩
  rw [hbans, lastBan_append_of_none hnone]
  exact h.enforces

theorem Watched.deed (h : Watched now past m) (hdeed : Deed now m m' notices) :
    Watched now (past ++ notices) m' := by
  cases hdeed with
  | quiet hbans hlimiter hquiet =>
    refine h.append hbans (fun n hn => (hquiet n hn).ban_eq_none) fun n hn past => ?_
    have hn := hquiet n hn
    cases n <;> trivial
  | looked door ip hbans hlimiter hnotices =>
    subst hnotices
    refine ⟨?_, preceded_concat.mpr ⟨h.right, ?_⟩⟩
    · rw [hbans, lastBan_append_of_none (by simp [Notice.ban])]
      exact h.enforces
    · exact h.enforces.stands_eq ip
  | swept ip read hread hbans hlimiter hnotices =>
    subst hnotices
    rw [List.append_nil]
    refine ⟨?_, h.right⟩
    rw [hbans]
    exact h.enforces.removeExpired hread ip
  | banned ip expiry hbans hlimiter hnotices =>
    subst hnotices
    refine ⟨?_, preceded_right_append h.right (by simp [Notice.Right])⟩
    rw [hbans, lastBan_concat_banned]
    exact h.enforces.insert ip expiry
  | judged ip hbans hlimiter hnotices =>
    subst hnotices
    refine h.append hbans ?_ ?_ <;> simp only [List.forall_mem_singleton] <;> split <;>
      simp [Notice.ban, Notice.Right]
  | pruned hbans hlimiter hnotices =>
    subst hnotices
    exact h.append hbans (by simp) (by simp)

/-! ## The limiter -/

/-- The limiter remembers the connections that passed, and no minute of them exceeds it. -/
structure Metered (maxPerMinute : ℕ) (now : Instant) (past : List (Notice ι)) (m : Shared ι) :
    Prop where
  limit : m.connLimiter.maxPerMinute = maxPerMinute
  remembers : m.connLimiter.Remembers now fun ip => passedTimes ip past
  bounded : ∀ ip a, (passedTimes ip past).countP (· ∈ Set.Ico a (a + secs 60)) ≤ maxPerMinute

variable {maxPerMinute : ℕ}

theorem Metered.mono (h : Metered maxPerMinute now past m) (hle : now ≤ later) :
    Metered maxPerMinute later past m :=
  ⟨h.limit, h.remembers.mono hle, h.bounded⟩

theorem passedTimes_append (ip : ι) (past notices : List (Notice ι)) :
    passedTimes ip (past ++ notices) = passedTimes ip past ++ passedTimes ip notices :=
  List.filterMap_append

@[simp] theorem passedTimes_singleton (ip : ι) (n : Notice ι) :
    passedTimes ip [n] = (n.pass ip).toList := by
  cases h : n.pass ip <;> simp [passedTimes, h]

theorem passedTimes_concat_passed (ip : ι) (past : List (Notice ι)) (now : Instant) :
    (fun i => passedTimes i (past ++ [.passed ip now])) =
      Function.update (fun i => passedTimes i past) ip (passedTimes ip past ++ [now]) := by
  funext i
  rw [passedTimes_append]
  by_cases hi : i = ip
  · subst hi
    rw [Function.update_self]
    simp [passedTimes, Notice.pass]
  · rw [Function.update_of_ne hi]
    simp [passedTimes, Notice.pass, Ne.symm hi]

/-- An operation of which no connection passes. -/
theorem Metered.append (h : Metered maxPerMinute now past m)
    (hnone : ∀ n ∈ notices, ∀ ip, n.pass ip = none)
    (hlimit : m'.connLimiter.maxPerMinute = m.connLimiter.maxPerMinute)
    (hremembers : m'.connLimiter.Remembers now fun ip => passedTimes ip past) :
    Metered maxPerMinute now (past ++ notices) m' := by
  have hpassed : ∀ ip, passedTimes ip (past ++ notices) = passedTimes ip past := by
    intro ip
    have hnil : passedTimes ip notices = [] :=
      List.filterMap_eq_nil_iff.mpr fun n hn => hnone n hn ip
    rw [passedTimes_append, hnil, List.append_nil]
  simp only [← hpassed] at hremembers
  exact ⟨hlimit.trans h.limit, hremembers, fun ip a => by rw [hpassed]; exact h.bounded ip a⟩

theorem Metered.judge (h : Metered maxPerMinute now past m) (ip : ι)
    (hlimiter : m'.connLimiter = (m.connLimiter.checkAndRecord now ip).2) :
    Metered maxPerMinute now
      (past ++ [if (m.connLimiter.checkAndRecord now ip).1 then .passed ip now
      else .limited ip now]) m' := by
  have hcount : counting (secs 60) now ((m.connLimiter.windows ip).getD []) =
      counting (secs 60) now (passedTimes ip past) := h.remembers ip now le_rfl
  rw [ConnectionRateLimiter.checkAndRecord_eq] at hlimiter ⊢
  dsimp only at hlimiter ⊢
  by_cases hfull : (counting (secs 60) now ((m.connLimiter.windows ip).getD [])).length ≥
      m.connLimiter.maxPerMinute
  · rw [if_pos hfull] at hlimiter ⊢
    have hevicted := h.remembers.update ip (h.remembers ip).evict
    rw [Function.update_eq_self] at hevicted
    refine h.append (by simp [Notice.pass]) ?_ ?_
    · rw [hlimiter]
    · rw [hlimiter]
      exact hevicted
  · rw [if_neg hfull] at hlimiter ⊢
    have hpushed := h.remembers.update ip ((h.remembers ip).evict.push now)
    have hroom : (counting (secs 60) now (passedTimes ip past)).length < maxPerMinute := by
      rw [← hcount, ← h.limit]
      exact not_le.mp hfull
    refine ⟨?_, ?_, fun i a => ?_⟩
    · rw [hlimiter]
      exact h.limit
    · rw [if_pos rfl, passedTimes_concat_passed, hlimiter]
      exact hpushed
    · rw [if_pos rfl, passedTimes_append]
      by_cases hi : i = ip
      · subst hi
        have hone : passedTimes i [(.passed i now : Notice ι)] = [now] := by
          simp [passedTimes, Notice.pass]
        rw [hone]
        exact countP_concat_le (narrow_Ico _ a) (h.bounded i a) hroom
      · have hnone : passedTimes i [(.passed ip now : Notice ι)] = [] := by
          simp [passedTimes, Notice.pass, Ne.symm hi]
        rw [hnone, List.append_nil]
        exact h.bounded i a

/-- An operation that leaves the limiter alone. -/
theorem Metered.keep (h : Metered maxPerMinute now past m)
    (hnone : ∀ n ∈ notices, ∀ ip, n.pass ip = none) (hlimiter : m'.connLimiter = m.connLimiter) :
    Metered maxPerMinute now (past ++ notices) m' := by
  refine h.append hnone (by rw [hlimiter]) ?_
  rw [hlimiter]
  exact h.remembers

theorem Metered.deed (h : Metered maxPerMinute now past m) (hdeed : Deed now m m' notices) :
    Metered maxPerMinute now (past ++ notices) m' := by
  cases hdeed with
  | quiet hbans hlimiter hquiet =>
    exact h.keep (fun n hn => (hquiet n hn).pass_eq_none) hlimiter
  | looked door ip hbans hlimiter hnotices =>
    subst hnotices
    exact h.keep (by simp [Notice.pass]) hlimiter
  | swept ip read hread hbans hlimiter hnotices =>
    subst hnotices
    exact h.keep (by simp) hlimiter
  | banned ip expiry hbans hlimiter hnotices =>
    subst hnotices
    exact h.keep (by simp [Notice.pass]) hlimiter
  | judged ip hbans hlimiter hnotices =>
    subst hnotices
    exact h.judge ip hlimiter
  | pruned hbans hlimiter hnotices =>
    subst hnotices
    refine h.append (by simp) ?_ ?_ <;> rw [hlimiter]
    · exact ConnectionRateLimiter.maxPerMinute_prune _ _
    · exact h.remembers.prune

/-! ## The way in -/

/-- A look-up that found no ban in force. -/
def Notice.clears (door : Door) (ip : ι) : Notice ι → Bool
  | looked door' ip' _ false => door' = door ∧ ip' = ip
  | _ => false

/-- The accept loop has cleared an address and not yet asked the limiter. -/
def Acceptor.cleared (ip : ι) : Acceptor ι → ℕ
  | sweeping ip' => if ip' = ip then 1 else 0
  | limiting ip' => if ip' = ip then 1 else 0
  | _ => 0

namespace Stage

/-- The session has still to look its address up. -/
def unlooked : Stage → Bool
  | peeking => true
  | checking _ => true
  | _ => false

/-- The address was cleared, and the session is still to be set up. -/
def unstarted : Stage → Bool
  | sweeping _ => true
  | handshaking => true
  | arriving _ => true
  | starting _ => true
  | _ => false

end Stage

namespace Guest

/-- Whether the guest is of an address and has not had its ban looked up yet, as a number. -/
def unlooked (ip : ι) (g : Guest ι) : ℕ := if g.ip = ip ∧ g.stage.unlooked then 1 else 0

/-- Whether the guest is of an address and has no session yet, as a number. -/
def unstarted (ip : ι) (g : Guest ι) : ℕ := if g.ip = ip ∧ g.stage.unstarted then 1 else 0

/-- What a step of the task adds to the counts of an address. -/
structure Flows (ip : ι) (g : Guest ι) (g' : Option (Guest ι)) (notices : List (Notice ι)) :
    Prop where
  started : notices.count (.started ip) + g'.elim 0 (unstarted ip) ≤
    g.unstarted ip + notices.countP (Notice.clears .session ip)
  looked : notices.countP (Notice.clears .session ip) + g'.elim 0 (unlooked ip) ≤ g.unlooked ip
  passed : passedTimes ip notices = []

/-- A step to a stage at which the session has no more to come than before. -/
theorem Flows.quiet (ip : ι) {g : Guest ι} {stage : Stage}
    (hstarted : stage.unstarted → g.stage.unstarted) (hlooked : stage.unlooked → g.stage.unlooked) :
    Flows ip g (some { g with stage }) [] where
  started := by
    simp only [List.count_nil, List.countP_nil, Option.elim, unstarted]
    split <;> split <;> simp_all
  looked := by
    simp only [List.countP_nil, Option.elim, unlooked]
    split <;> split <;> simp_all
  passed := rfl

theorem Flows.refl (ip : ι) (g : Guest ι) : Flows ip g (some g) [] := .quiet ip id id

theorem proceed_flows (ip : ι) (now : Instant) (m : Shared ι) (g : Guest ι) :
    Flows ip g (g.proceed now m).2.1 (g.proceed now m).2.2 := by
  obtain ⟨ip', stage⟩ := g
  cases stage with
  | checking version =>
    unfold proceed
    dsimp only
    split
    · refine ⟨?_, ?_, by simp [passedTimes, Notice.pass]⟩ <;>
        simp [unstarted, unlooked, Stage.unstarted, Stage.unlooked, Notice.clears]
    · refine ⟨?_, ?_, by simp [passedTimes, Notice.pass]⟩ <;>
        simp [unstarted, unlooked, Stage.unstarted, Stage.unlooked, Notice.clears,
          List.countP_singleton]
  | sweeping version =>
    cases version with
    | v1 => exact .quiet ip (fun _ => rfl) (fun h => by cases h)
    | v2 => exact .quiet ip (fun _ => rfl) (fun h => by cases h)
  | arriving version => exact .quiet ip (fun _ => rfl) (fun h => by cases h)
  | playing seat live todo =>
    cases todo with
    | nil =>
      cases live with
      | false => exact .quiet ip (fun h => by cases h) (fun h => by cases h)
      | true => exact .refl ip _
    | cons chore todo =>
      cases chore with
      | ban => exact .quiet ip (fun h => by cases h) (fun h => by cases h)
      | minerDisconnected => exact .quiet ip (fun h => by cases h) (fun h => by cases h)
  | banning expiry seat live todo =>
    refine ⟨?_, ?_, by simp [proceed, passedTimes, Notice.pass]⟩ <;>
      simp [proceed, unstarted, unlooked, Stage.unstarted, Stage.unlooked, Notice.clears]
  | releasing =>
    refine ⟨?_, ?_, rfl⟩ <;> simp [proceed]
  | peeking => exact .refl ip _
  | handshaking => exact .refl ip _
  | starting version => exact .refl ip _

theorem step_flows (S : Setup) (lim : Limits) (ip : ι) (now : Instant) (m : Shared ι) (g : Guest ι)
    (event : GuestEvent) :
    Flows ip g (g.step S lim now m event).2.1 (g.step S lim now m event).2.2 := by
  have hstart : ∀ version seat, g.stage = .starting version →
      Flows ip g (some (g.sit seat)) [.started g.ip] := by
    intro version seat hstage
    refine ⟨?_, ?_, by simp [passedTimes, Notice.pass]⟩
    · by_cases hip : g.ip = ip
      · simp [hip, unstarted, hstage, sit, Stage.unstarted, Notice.clears]
      · simp [hip, unstarted, sit, Stage.unstarted, Notice.clears]
    · simp [unlooked, hstage, sit, Stage.unlooked, Notice.clears]
  cases event with
  | proceed => exact proceed_flows ip now m g
  | peeked first =>
    unfold step
    dsimp only
    split
    · rename_i hstage
      refine .quiet ip ?_ (fun _ => by rw [hstage]; rfl)
      cases first with
      | none => exact fun h => by cases h
      | some first =>
        change (detect lim first).unstarted → _
        unfold detect
        split
        · exact fun h => by cases h
        · split <;> exact fun h => by cases h
    · exact .refl ip g
  | handshake ok =>
    unfold step
    dsimp only
    split
    · rename_i hstage
      cases ok <;> exact .quiet ip (fun _ => by rw [hstage]; rfl) (fun h => by cases h)
    · exact .refl ip g
  | start sessionId extranonce template =>
    unfold step
    dsimp only
    split
    · exact hstart .v1 _ ‹_›
    · exact hstart .v2 _ ‹_›
    · exact .refl ip g
  | turnSv1 input =>
    unfold step
    dsimp only
    split
    · exact .quiet ip (fun h => by cases h) (fun h => by cases h)
    · exact .refl ip g
  | turnSv2 input =>
    unfold step
    dsimp only
    split
    · exact .quiet ip (fun h => by cases h) (fun h => by cases h)
    · exact .refl ip g

end Guest

/-- What a step of the accept loop adds to the counts of an address. -/
structure Acceptor.Flows (ip : ι) (a a' : Acceptor ι) (spawned : List (Guest ι))
    (notices : List (Notice ι)) : Prop where
  started : notices.count (.started ip) = 0
  looked : notices.countP (Notice.clears .session ip) = 0
  entering : (spawned.map (Guest.unlooked ip)).sum = (passedTimes ip notices).length
  fresh : (spawned.map (Guest.unstarted ip)).sum = 0
  passed : (passedTimes ip notices).length + a'.cleared ip ≤
    a.cleared ip + notices.countP (Notice.clears .acceptor ip)

theorem Acceptor.step_flows (lim : Limits) (ip : ι) (now : Instant) (m : Shared ι)
    (a : Acceptor ι) :
    Flows ip a (a.step lim now m).2.1 (a.step lim now m).2.2.1 (a.step lim now m).2.2.2 := by
  cases a with
  | loading ip' =>
    rw [step]
    split
    · exact ⟨by simp, by simp [Notice.clears], by simp [Notice.pass], rfl,
        by simp [Notice.pass, cleared]⟩
    · exact ⟨rfl, rfl, rfl, rfl, le_rfl⟩
  | exchanging ip' current =>
    rw [step]
    split <;> exact ⟨rfl, rfl, rfl, rfl, le_rfl⟩
  | checking ip' =>
    rw [step]
    split
    · exact ⟨by simp, by simp [Notice.clears], by simp [Notice.pass], rfl,
        by simp [Notice.pass, cleared]⟩
    · exact ⟨by simp, by simp [Notice.clears], by simp [Notice.pass], rfl,
        by simp [Notice.pass, cleared, Notice.clears, List.countP_singleton]⟩
  | limiting ip' =>
    rw [step]
    dsimp only
    split
    · refine ⟨by simp, by simp [Notice.clears], ?_, by simp [Guest.unstarted, Stage.unstarted],
        ?_⟩ <;> by_cases hip : ip' = ip <;>
        simp [hip, Guest.unlooked, Stage.unlooked, Notice.pass, cleared]
    · exact ⟨by simp, by simp [Notice.clears], by simp [Notice.pass], rfl,
        by simp [Notice.pass, cleared]⟩
  | inserting ip' expiry =>
    exact ⟨by simp [step], by simp [step, Notice.clears], by simp [step, Notice.pass], rfl,
      by simp [step, Notice.pass, cleared]⟩
  | _ => exact ⟨rfl, rfl, rfl, rfl, by simp [step, passedTimes, cleared]⟩

namespace Server

variable {S : Setup} {lim : Limits} {s : Server ι}

/-- Whoever is further on has been through what comes before. -/
structure Flow (ip : ι) (past : List (Notice ι)) (s : Server ι) : Prop where
  started : past.count (.started ip) + (s.guests.map (Guest.unstarted ip)).sum ≤
    past.countP (Notice.clears .session ip)
  looked : past.countP (Notice.clears .session ip) + (s.guests.map (Guest.unlooked ip)).sum ≤
    (passedTimes ip past).length
  passed : (passedTimes ip past).length + s.acceptor.cleared ip ≤
    past.countP (Notice.clears .acceptor ip)

/-- A step of one task. -/
theorem Flow.guest {ip : ι} (h : Flow ip past s) {k : ℕ} {g : Guest ι} (hk : s.guests[k]? = some g)
    {g' : Option (Guest ι)} (hflows : g.Flows ip g' notices) (m : Shared ι) :
    Flow ip (past ++ notices) { s with shared := m, guests := advance s.guests k g' } := by
  have hstarted := h.started
  have hlooked := h.looked
  have hpassed := h.passed
  have hgstarted := hflows.started
  have hglooked := hflows.looked
  have hunstarted := sum_advance (Guest.unstarted ip) hk g'
  have hunlooked := sum_advance (Guest.unlooked ip) hk g'
  refine ⟨?_, ?_, ?_⟩
  · simp only [List.count_append, List.countP_append]
    omega
  · simp only [List.countP_append, passedTimes_append, List.length_append]
    omega
  · simp only [List.countP_append, passedTimes_append, hflows.passed, List.append_nil]
    omega

theorem Flow.step {ip : ι} (h : Flow ip past s) (tick : Tick ι) :
    Flow ip (past ++ (step S lim s tick).outputs) (step S lim s tick).state := by
  unfold Server.step
  cases tick.event with
  | connection ip' =>
    dsimp only
    split
    · rename_i hidle
      have hpassed := h.passed
      rw [hidle] at hpassed
      rw [List.append_nil]
      exact ⟨h.started, h.looked, hpassed⟩
    · rw [List.append_nil]
      exact h
  | accept =>
    have hflows := s.acceptor.step_flows lim ip tick.now s.shared
    rcases hmove : s.acceptor.step lim tick.now s.shared with ⟨m', a', spawned, notices⟩
    rw [hmove] at hflows
    dsimp only at hflows ⊢
    have hstarted := h.started
    have hlooked := h.looked
    have hpassed := h.passed
    have hapassed := hflows.passed
    refine ⟨?_, ?_, ?_⟩
    · simp only [List.count_append, List.countP_append, List.map_append, List.sum_append,
        hflows.started, hflows.looked, hflows.fresh]
      omega
    · simp only [List.countP_append, passedTimes_append, List.length_append, List.map_append,
        List.sum_append, hflows.looked, hflows.entering]
      omega
    · simp only [List.countP_append, passedTimes_append, List.length_append]
      omega
  | guest k event =>
    dsimp only
    split
    · rw [List.append_nil]
      exact h
    · rename_i g hk
      exact h.guest hk (g.step_flows S lim ip tick.now s.shared event) _
  | prune =>
    rw [List.append_nil]
    exact ⟨h.started, h.looked, h.passed⟩
  | pruneEntry ip' =>
    rw [List.append_nil]
    exact ⟨h.started, h.looked, h.passed⟩
  | pruneLimiter =>
    rw [List.append_nil]
    exact ⟨h.started, h.looked, h.passed⟩

/-! ## Runs -/

/-- What holds of the server at any time of an interleaving. -/
structure Guarded (maxPerMinute : ℕ) (now : Instant) (past : List (Notice ι)) (s : Server ι) :
    Prop where
  pruning : s.pruning ≤ now
  watched : Watched now past s.shared
  metered : Metered maxPerMinute now past s.shared
  flow : ∀ ip, Flow ip past s

theorem guarded_new (banDurationSecs maxPerMinute : ℕ) :
    Guarded maxPerMinute 0 [] (new banDurationSecs maxPerMinute : Server ι) where
  pruning := le_rfl
  watched := ⟨BanList.enforces_new 0 banDurationSecs, trivial⟩
  metered := ⟨rfl, ConnectionRateLimiter.remembers_new maxPerMinute, fun _ _ => Nat.zero_le _⟩
  flow _ := ⟨le_rfl, le_rfl, le_rfl⟩

theorem guarded_run {ticks : List (Tick ι)} (S : Setup) (lim : Limits)
    (banDurationSecs maxPerMinute : ℕ) (hsorted : (ticks.map Tick.now).Pairwise (· ≤ ·)) :
    ∃ now, Guarded maxPerMinute now
      ((process S lim).run (new banDurationSecs maxPerMinute) ticks).outputs
      ((process S lim).run (new banDurationSecs maxPerMinute) ticks).state := by
  refine Process.run_timed ?_ ?_ (guarded_new banDurationSecs maxPerMinute) hsorted
  · intro t t' past s hle h
    exact ⟨le_trans h.pruning hle, h.watched.mono hle, h.metered.mono hle, h.flow⟩
  · intro past s tick h
    obtain ⟨hdeed, hpruning⟩ := step_deed h.pruning
    exact ⟨hpruning, h.watched.deed hdeed, h.metered.deed hdeed, fun ip => (h.flow ip).step tick⟩

/-- **Bans are enforced.** In any interleaving whose times do not decrease, a look-up of an address,
by the accept loop or by a session, refuses it exactly if the ban of it that went in last before the
look-up has not expired, whatever entries the look-ups and the pruner have dropped. -/
theorem lookups_right (S : Setup) (lim : Limits) (banDurationSecs maxPerMinute : ℕ)
    (ticks : List (Tick ι)) (hsorted : (ticks.map Tick.now).Pairwise (· ≤ ·))
    (before after : List (Notice ι)) (door : Door) (ip : ι) (now : Instant) (refused : Bool)
    (hsplit : ((process S lim).run (new banDurationSecs maxPerMinute) ticks).outputs =
      before ++ .looked door ip now refused :: after) :
    refused = true ↔ ∃ expiry, lastBan before ip = some expiry ∧ now < expiry := by
  obtain ⟨t, h⟩ := guarded_run S lim banDurationSecs maxPerMinute hsorted
  have hright := h.watched.right
  rw [hsplit, preceded_append] at hright
  have hlooked : refused = (lastBan before ip).any fun expiry => now < expiry := hright.2.1
  rw [hlooked, Option.any_eq_true]
  simp only [decide_eq_true_eq]

/-- One connection, which the limiter refuses, and another one from the same address a nanosecond
later. -/
def refusedTwice : List (Tick Unit) :=
  ⟨0, .connection ()⟩ :: List.replicate 8 ⟨0, .accept⟩ ++
    ⟨1, .connection ()⟩ :: List.replicate 3 ⟨1, .accept⟩

/-- The second connection finds the ban of the first. -/
theorem lookups_right_refusedTwice :
    ∃ expiry, lastBan [.looked .acceptor () 0 false, .limited () 0, .banned () (secs 10)] () =
      some expiry ∧ 1 < expiry :=
  (lookups_right regtestSetup ⟨2, true⟩ 10 0 refusedTwice (by decide)
    [.looked .acceptor () 0 false, .limited () 0, .banned () (secs 10)] [] .acceptor () 1 true
    (by decide)).mp rfl

/-- **The way in.** In any interleaving whose times do not decrease, an address has no more sessions
set up than its sessions found no ban in force, no more of these than connections that passed the
limiter, and no more of these than look-ups by the accept loop that found no ban in force. In no
half-open minute does the limiter let more connections of an address pass than its limit. -/
theorem admissions_checked (S : Setup) (lim : Limits) (banDurationSecs maxPerMinute : ℕ)
    (ticks : List (Tick ι)) (hsorted : (ticks.map Tick.now).Pairwise (· ≤ ·)) (ip : ι) :
    let notices := ((process S lim).run (new banDurationSecs maxPerMinute) ticks).outputs
    notices.count (.started ip) ≤ notices.countP (Notice.clears .session ip) ∧
      notices.countP (Notice.clears .session ip) ≤ (passedTimes ip notices).length ∧
      (passedTimes ip notices).length ≤ notices.countP (Notice.clears .acceptor ip) ∧
      ∀ a, (passedTimes ip notices).countP (· ∈ Set.Ico a (a + secs 60)) ≤ maxPerMinute := by
  obtain ⟨t, h⟩ := guarded_run S lim banDurationSecs maxPerMinute hsorted
  have hflow := h.flow ip
  exact ⟨le_trans (Nat.le_add_right _ _) hflow.started,
    le_trans (Nat.le_add_right _ _) hflow.looked, le_trans (Nat.le_add_right _ _) hflow.passed,
    h.metered.bounded ip⟩

/-- A connection that gets a session, and another one from the same address in the same minute. -/
def oneSession : List (Tick Unit) :=
  ⟨0, .connection ()⟩ :: List.replicate 5 ⟨0, .accept⟩ ++
    [⟨1, .guest 0 (.peeked (some openBrace))⟩, ⟨1, .guest 0 .proceed⟩, ⟨1, .guest 0 .proceed⟩,
      ⟨1, .guest 0 .proceed⟩, ⟨2, .guest 0 (.start ['s'] [1, 2, 3, 4] none)⟩,
      ⟨3, .connection ()⟩] ++ List.replicate 5 ⟨3, .accept⟩

/-- The session went through the checks, and the second connection does not pass. -/
theorem admissions_checked_oneSession :
    let notices := ((process regtestSetup ⟨2, true⟩).run (new 10 1) oneSession).outputs
    notices.count (.started ()) = 1 ∧ 1 ≤ notices.countP (Notice.clears .session ()) ∧
      (passedTimes () notices).countP (· ∈ Set.Ico 0 (0 + secs 60)) ≤ 1 := by
  obtain ⟨hstarted, -, -, hminute⟩ :=
    admissions_checked regtestSetup ⟨2, true⟩ 10 1 oneSession (by decide) ()
  have hone : ((process regtestSetup ⟨2, true⟩).run (new 10 1) oneSession).outputs.count
    (.started ()) = 1 := by decide
  exact ⟨hone, hone ▸ hstarted, hminute 0⟩

end Server

end BtcPool
