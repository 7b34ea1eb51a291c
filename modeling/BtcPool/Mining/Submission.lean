import BtcPool.Foundations.Runs
import BtcPool.Network.Effects

/-!
# Submitting a found block

A found block is submitted up to three times while its session waits; after that a task of its own
goes on submitting it until a deadline. The node may take the block, refuse it for good, or not be
reached: only the last is tried again. Who records the outcome depends on when it comes: the
session, for an answer it has waited for, or the task.

`submission` is the engine's side as a process, with a turn for each attempt; what the session does
with the result it is given is `acceptEffects`. Over both (`submission_recorded`):

* all calls but the last one have failed in passing, so nothing is submitted after an answer;
* the outcome is recorded if the last call has one, once, and otherwise not at all;
* the attempts go on until there is an answer, or until the clock has reached the deadline.
-/

namespace BtcPool

/-- What a submission comes to. -/
abbrev Verdict := Except PoolError BlockSubmitOutcome

/-! ## One attempt -/

/-- The value the node answers `submitblock` with. A value that is neither null nor a string is kept
as it is shown. -/
inductive SubmitResponse
  | null
  | string (text : Str)
  | other (shown : String)
deriving DecidableEq

/-- What the node did with the block. -/
def classifySubmitResponse : SubmitResponse → Verdict
  | .null => .ok .accepted
  | .string text =>
    if text = "duplicate".toList then .ok .duplicate
    else if text = "inconclusive".toList ∨ text = "duplicate-inconclusive".toList then
      .ok .inconclusive
    else .error (.submitBlockRejected text)
  | .other shown => .error (.other s!"unexpected submitblock response: {shown}")

/-- The cookie file when a call has failed. -/
inductive Cookie
  | unreadable
  | unchanged
  /-- Another cookie, from which no client can be built. -/
  | unusable (text : String)
  | renewed
deriving DecidableEq

/-- What the node and the disk hold for one attempt: the answers to two calls, of which the second
is made only with a new cookie, or the panic of the task that makes them. -/
inductive Attempt
  | ran (first : Except String SubmitResponse) (cookie : Cookie)
      (second : Except String SubmitResponse)
  | panicked (text : String)

/-- An answer or the error of a call. -/
def callVerdict : Except String SubmitResponse → Verdict
  | .ok response => classifySubmitResponse response
  | .error text => .error (.rpc text)

/-- A call that is made again if the cookie has changed since. -/
def callWithRefresh (first : Except String SubmitResponse) (cookie : Cookie)
    (second : Except String SubmitResponse) : Except PoolError SubmitResponse :=
  match first with
  | .ok response => .ok response
  | .error text =>
    match cookie with
    | .unreadable | .unchanged => .error (.rpc text)
    | .unusable text => .error (.other text)
    | .renewed => second.mapError .rpc

namespace Attempt

/-- One attempt to submit a block. -/
def submitBlock : Attempt → Verdict
  | .ran first cookie second => callWithRefresh first cookie second >>= classifySubmitResponse
  | .panicked text => .error (.other s!"submitblock RPC task panicked: {text}")

/-- The calls of `submitblock` the attempt makes, with what each comes to. -/
def calls : Attempt → List Verdict
  | .ran (.error text) .renewed second => [.error (.rpc text), callVerdict second]
  | .ran first _ _ => [callVerdict first]
  | .panicked _ => []

end Attempt

/-- Whether the node has refused the block for good. -/
def isPermanentReject : PoolError → Bool
  | .submitBlockRejected _ => true
  | _ => false

/-- The node was not reached, or did not answer in a way that settles the matter. -/
def Transient : Verdict → Prop
  | .ok _ => False
  | .error e => isPermanentReject e = false

instance : DecidablePred Transient
  | .ok _ => inferInstanceAs (Decidable False)
  | .error _ => inferInstanceAs (Decidable (_ = false))

/-- All calls but the last have failed in passing; that one settles the matter, if there is one. -/
structure Concluded (calls : List Verdict) (decisive : Option Verdict) : Prop where
  failed : ∃ failed, calls = failed ++ decisive.toList ∧ ∀ v ∈ failed, Transient v
  final : ∀ v ∈ decisive, ¬ Transient v

theorem Concluded.append {calls calls' : List Verdict} {decisive : Option Verdict}
    (h : Concluded calls none) (h' : Concluded calls' decisive) :
    Concluded (calls ++ calls') decisive := by
  obtain ⟨failed, rfl, hfailed⟩ := h.failed
  obtain ⟨failed', rfl, hfailed'⟩ := h'.failed
  refine ⟨⟨failed ++ failed', by simp, ?_⟩, h'.final⟩
  exact List.forall_mem_append.mpr ⟨hfailed, hfailed'⟩

theorem concluded_nil : Concluded [] none := ⟨⟨[], rfl, by simp⟩, by simp⟩

/-- The verdict, if it settles the matter. -/
def decisive (v : Verdict) : Option Verdict := if Transient v then none else some v

theorem concluded_singleton (v : Verdict) : Concluded [v] (decisive v) := by
  unfold decisive
  split
  · rename_i h
    exact ⟨⟨[v], rfl, by simpa using h⟩, by simp⟩
  · rename_i h
    exact ⟨⟨[], rfl, by simp⟩, by simpa using h⟩

/-- A new cookie leads to a second call only after the first one has failed. -/
theorem Attempt.concluded_calls (attempt : Attempt) :
    Concluded attempt.calls (decisive attempt.submitBlock) := by
  cases attempt with
  | panicked text => exact concluded_nil
  | ran first cookie second =>
    cases first with
    | ok response => exact concluded_singleton (classifySubmitResponse response)
    | error text =>
      cases cookie with
      | unreadable | unchanged | unusable => exact concluded_singleton (.error (.rpc text))
      | renewed =>
        have hsecond : submitBlock (.ran (.error text) .renewed second) = callVerdict second := by
          cases second <;> rfl
        rw [hsecond]
        exact (concluded_singleton (.error (.rpc text))).append (concluded_singleton _)

/-! ## The attempts -/

/-- The attempts made before the session goes on. -/
def submitInlineAttempts : ℕ := 3

/-- How long the task keeps trying, in nanoseconds. -/
def submitRetryDeadline : ℕ := secs (2 * 60 * 60)

/-- Where the submission of a block stands. -/
inductive SubmitStage
  /-- The session waits; the attempt of this number is next. -/
  | inline (attempt : ℕ)
  /-- The task of its own tries until the deadline. -/
  | retrying (deadline : Instant)
deriving DecidableEq

/-- A turn: the clock, which is read when the task starts and before each of its attempts, and what
the attempt would come to. -/
structure SubmitTurn where
  now : Instant
  attempt : Attempt

/-- What happens in the submission of a block. -/
inductive SubmitEvent
  | submitted (attempt : Attempt)
  /-- `submit_found_block` returns to the session. -/
  | returned (result : Verdict)
  /-- The task records an outcome. -/
  | recorded (outcome : BlockSubmitOutcome)
  | gaveUp

/-- The submission of one block, from the first attempt on. -/
def submission : Process SubmitStage SubmitTurn SubmitEvent where
  step stage turn :=
    match stage with
    | .inline attempt =>
      match turn.attempt.submitBlock with
      | .ok outcome =>
        { state := stage
          outputs := [.submitted turn.attempt, .returned (.ok outcome)]
          live := false }
      | .error e =>
        if isPermanentReject e then
          { state := stage
            outputs := [.submitted turn.attempt, .returned (.error e)]
            live := false }
        else if attempt < submitInlineAttempts then
          { state := .inline (attempt + 1), outputs := [.submitted turn.attempt], live := true }
        else
          -- the task is spawned, and the session is told of the last error
          { state := .retrying (turn.now + submitRetryDeadline)
            outputs := [.submitted turn.attempt, .returned (.error e)]
            live := true }
    | .retrying deadline =>
      if turn.now < deadline then
        match turn.attempt.submitBlock with
        | .ok outcome =>
          { state := stage
            outputs := [.submitted turn.attempt, .recorded outcome]
            live := false }
        | .error e =>
          { state := stage
            outputs := [.submitted turn.attempt]
            live := !isPermanentReject e }
      else { state := stage, outputs := [.gaveUp], live := false }

namespace SubmitEvent

/-- The attempt of an event. -/
def attempt : SubmitEvent → Option Attempt
  | submitted attempt => some attempt
  | _ => none

/-- The attempts that were made. -/
def attempts (events : List SubmitEvent) : List Attempt := events.filterMap attempt

/-- The calls of `submitblock` that were made. -/
def calls (events : List SubmitEvent) : List Verdict := (attempts events).flatMap Attempt.calls

end SubmitEvent

/-! ## What is recorded -/

section Records

variable (μ : Type) (sessionId worker : Str) (credit : UInt64) (share : AcceptedShare)

/-- The record of the outcome for the block of the share. -/
def outcomeOf (outcome : BlockSubmitOutcome) : StatsEvent :=
  .blockOutcome outcome share.entry.job.height worker share.entry.job.payoutAddress
    (blockHashDisplay share.result.hash)

/-- What comes of an event: the session books the share with the result it is given, and the task
records its outcome for the block it was handed. -/
def SubmitEvent.effects : SubmitEvent → List (Effect μ)
  | .returned result => acceptEffects result sessionId worker credit share
  | .recorded outcome => [.stats (outcomeOf worker share outcome)]
  | .submitted _ | .gaveUp => []

variable {μ} in

/-- The outcome an effect records. -/
def Effect.blockRecord : Effect μ → Option StatsEvent
  | .stats (.blockOutcome outcome height worker payout hashHex) =>
    some (.blockOutcome outcome height worker payout hashHex)
  | _ => none

/-- The outcomes recorded for the block, by a session with messages of the type `μ` or the task. -/
def records (events : List SubmitEvent) : List StatsEvent :=
  (events.flatMap (SubmitEvent.effects μ sessionId worker credit share)).filterMap
    Effect.blockRecord

variable {μ sessionId worker credit share}

theorem records_append (events events' : List SubmitEvent) :
    records μ sessionId worker credit share (events ++ events') =
      records μ sessionId worker credit share events ++
        records μ sessionId worker credit share events' := by
  simp [records]

/-- A session records the outcome it is given, and nothing for an error. -/
theorem records_returned {hashDifficulty : UInt64} {blockHex : Str} {hash : ByteVec 32}
    (hblock : share.result = .block hashDifficulty blockHex hash) (result : Verdict) :
    records μ sessionId worker credit share [.returned result] =
      result.toOption.toList.map (outcomeOf worker share) := by
  unfold records outcomeOf
  rw [List.flatMap_singleton, SubmitEvent.effects, acceptEffects, hblock]
  cases result <;> rfl

/-! ## Turns -/

/-- The turn makes its attempt. -/
def SubmitStage.Tries (turn : SubmitTurn) : SubmitStage → Prop
  | .inline _ => True
  | .retrying deadline => turn.now < deadline

/-- The stage after an attempt that failed in passing. -/
def SubmitStage.next (turn : SubmitTurn) : SubmitStage → SubmitStage
  | .inline attempt =>
    if attempt < submitInlineAttempts then .inline (attempt + 1)
    else .retrying (turn.now + submitRetryDeadline)
  | .retrying deadline => .retrying deadline

theorem step_of_not_tries {stage : SubmitStage} {turn : SubmitTurn} (h : ¬ stage.Tries turn) :
    submission.step stage turn = { state := stage, outputs := [.gaveUp], live := false } ∧
      ∃ deadline, stage = .retrying deadline ∧ deadline ≤ turn.now := by
  cases stage with
  | inline attempt => exact absurd trivial h
  | retrying deadline =>
    have hlate : ¬ turn.now < deadline := h
    refine ⟨?_, deadline, rfl, not_lt.mp hlate⟩
    change (if turn.now < deadline then _ else _) = _
    rw [if_neg hlate]

/-- A turn that makes its attempt goes on exactly if that failed in passing, and has the outcome
recorded if there is one. -/
theorem step_of_tries {hashDifficulty : UInt64} {blockHex : Str} {hash : ByteVec 32}
    (hblock : share.result = .block hashDifficulty blockHex hash) {stage : SubmitStage}
    {turn : SubmitTurn} (h : stage.Tries turn) :
    SubmitEvent.attempts (submission.step stage turn).outputs = [turn.attempt] ∧
      ((submission.step stage turn).live ↔ Transient turn.attempt.submitBlock) ∧
      ((submission.step stage turn).live → (submission.step stage turn).state = stage.next turn) ∧
      records μ sessionId worker credit share (submission.step stage turn).outputs =
        turn.attempt.submitBlock.toOption.toList.map (outcomeOf worker share) := by
  cases stage with
  | inline attempt =>
    unfold submission SubmitStage.next
    dsimp only
    cases hverdict : turn.attempt.submitBlock with
    | ok outcome =>
      refine ⟨rfl, by simp [Transient], by simp, ?_⟩
      exact records_returned hblock (.ok outcome)
    | error e =>
      dsimp only
      by_cases hpermanent : isPermanentReject e = true
      · rw [if_pos hpermanent]
        refine ⟨rfl, by simp [Transient, hpermanent], nofun, ?_⟩
        exact records_returned hblock (.error e)
      · rw [if_neg hpermanent]
        by_cases hmore : attempt < submitInlineAttempts
        · rw [if_pos hmore, if_pos hmore]
          exact ⟨rfl, by simp [Transient, hpermanent], fun _ => rfl, rfl⟩
        · rw [if_neg hmore, if_neg hmore]
          refine ⟨rfl, by simp [Transient, hpermanent], fun _ => rfl, ?_⟩
          exact records_returned hblock (.error e)
  | retrying deadline =>
    have hearly : turn.now < deadline := h
    unfold submission SubmitStage.next
    dsimp only
    rw [if_pos hearly]
    cases hverdict : turn.attempt.submitBlock with
    | ok outcome => exact ⟨rfl, by simp [Transient], nofun, rfl⟩
    | error e => exact ⟨rfl, by simp [Transient], fun _ => rfl, rfl⟩

/-! ## Runs -/

/-- The deadline of the task: it starts in the turn of the last attempt the session waits for. -/
def SubmitStage.deadline (turns : List SubmitTurn) : SubmitStage → Option Instant
  | .inline attempt =>
    turns[submitInlineAttempts - attempt]?.map (·.now + submitRetryDeadline)
  | .retrying deadline => some deadline

/-- The turns of the task. -/
def SubmitStage.retries (turns : List SubmitTurn) : SubmitStage → List SubmitTurn
  | .inline attempt => turns.drop (submitInlineAttempts - attempt + 1)
  | .retrying _ => turns

theorem SubmitStage.next_of_lt {attempt : ℕ} (h : attempt < submitInlineAttempts)
    (turn : SubmitTurn) : (inline attempt).next turn = .inline (attempt + 1) :=
  if_pos h

theorem SubmitStage.next_of_not_lt {attempt : ℕ} (h : ¬ attempt < submitInlineAttempts)
    (turn : SubmitTurn) : (inline attempt).next turn = .retrying (turn.now + submitRetryDeadline) :=
  if_neg h

theorem SubmitStage.deadline_next (stage : SubmitStage) (turn : SubmitTurn)
    (turns : List SubmitTurn) :
    (stage.next turn).deadline turns = stage.deadline (turn :: turns) := by
  cases stage with
  | retrying deadline => rfl
  | inline attempt =>
    by_cases hmore : attempt < submitInlineAttempts
    · have : submitInlineAttempts - attempt = submitInlineAttempts - (attempt + 1) + 1 := by omega
      simp [next_of_lt hmore, deadline, this]
    · have : submitInlineAttempts - attempt = 0 := by omega
      simp [next_of_not_lt hmore, deadline, this]

theorem SubmitStage.retries_next {stage : SubmitStage} {turn last : SubmitTurn}
    {turns : List SubmitTurn} (h : last ∈ (stage.next turn).retries turns) :
    last ∈ stage.retries (turn :: turns) := by
  cases stage with
  | retrying deadline => exact List.mem_cons_of_mem _ h
  | inline attempt =>
    by_cases hmore : attempt < submitInlineAttempts
    · have : submitInlineAttempts - attempt = submitInlineAttempts - (attempt + 1) + 1 := by omega
      simpa [next_of_lt hmore, retries, this] using h
    · have : submitInlineAttempts - attempt = 0 := by omega
      simpa [next_of_not_lt hmore, retries, this] using h

theorem SubmitEvent.attempts_append (events events' : List SubmitEvent) :
    attempts (events ++ events') = attempts events ++ attempts events' := by
  simp [attempts]

theorem SubmitEvent.calls_append (events events' : List SubmitEvent) :
    calls (events ++ events') = calls events ++ calls events' := by
  simp [calls, attempts]

/-- A run from any stage: how its calls end, what is recorded, and when it stops. -/
theorem run_submission {hashDifficulty : UInt64} {blockHex : Str} {hash : ByteVec 32}
    (hblock : share.result = .block hashDifficulty blockHex hash) (stage : SubmitStage)
    (turns : List SubmitTurn) :
    ∃ last, Concluded (SubmitEvent.calls (submission.run stage turns).outputs) last ∧
      records μ sessionId worker credit share (submission.run stage turns).outputs =
        (last.bind Except.toOption).toList.map (outcomeOf worker share) ∧
      ((submission.run stage turns).live → last = none ∧
        SubmitEvent.attempts (submission.run stage turns).outputs = turns.map SubmitTurn.attempt) ∧
      (¬ (submission.run stage turns).live → last = none →
        ∃ deadline, stage.deadline turns = some deadline ∧
          ∃ turn ∈ stage.retries turns, deadline ≤ turn.now) := by
  induction turns generalizing stage with
  | nil => exact ⟨none, concluded_nil, rfl, fun _ => ⟨rfl, rfl⟩, fun h => absurd rfl h⟩
  | cons turn turns ih =>
    by_cases htries : stage.Tries turn
    · obtain ⟨hattempts, hlive, hnext, hrecords⟩ :=
        step_of_tries (μ := μ) hblock htries
      have hcalls : Concluded (SubmitEvent.calls (submission.step stage turn).outputs)
          (decisive turn.attempt.submitBlock) := by
        rw [SubmitEvent.calls, hattempts, List.flatMap_singleton]
        exact turn.attempt.concluded_calls
      by_cases hgoes : (submission.step stage turn).live
      · -- the attempt failed in passing, and the rest of the run settles the matter
        obtain ⟨last, hconcluded, hrest, hall, hstops⟩ := ih (stage.next turn)
        have htransient := hlive.mp hgoes
        have hnone : turn.attempt.submitBlock.toOption = none := by
          cases hverdict : turn.attempt.submitBlock with
          | ok outcome => simp [hverdict, Transient] at htransient
          | error e => rfl
        rw [decisive, if_pos htransient] at hcalls
        rw [Process.run_cons_of_live hgoes, hnext hgoes]
        refine ⟨last, ?_, ?_, fun hend => ?_, fun hend hlast => ?_⟩
        · rw [SubmitEvent.calls_append]
          exact hcalls.append hconcluded
        · rw [records_append, hrecords, hrest, hnone]
          rfl
        · rw [SubmitEvent.attempts_append, hattempts, (hall hend).2]
          exact ⟨(hall hend).1, rfl⟩
        · obtain ⟨deadline, hdeadline, late, hlate, hle⟩ := hstops hend hlast
          rw [SubmitStage.deadline_next] at hdeadline
          exact ⟨deadline, hdeadline, late, SubmitStage.retries_next hlate, hle⟩
      · rw [Process.run_cons_of_not_live hgoes]
        have hfinal : ¬ Transient turn.attempt.submitBlock := fun h => hgoes (hlive.mpr h)
        rw [decisive, if_neg hfinal] at hcalls
        exact ⟨_, hcalls, hrecords, fun h => absurd h hgoes, fun _ h => nomatch h⟩
    · obtain ⟨hstep, deadline, rfl, hlate⟩ := step_of_not_tries htries
      have hstop : ¬ (submission.step (.retrying deadline) turn).live := by simp [hstep]
      rw [Process.run_cons_of_not_live hstop, hstep]
      refine ⟨none, concluded_nil, rfl, nofun, fun _ _ => ?_⟩
      exact ⟨deadline, rfl, turn, List.mem_cons_self, hlate⟩

end Records

/-- The share, as one that turned out to be a block. -/
def AcceptedShare.asBlock (share : AcceptedShare) (hashDifficulty : UInt64) (blockHex : Str)
    (hash : ByteVec 32) : AcceptedShare :=
  { share with result := .block hashDifficulty blockHex hash }

/-- For every found block and whatever the node answers: all calls but the last one failed in
passing; the outcome of the last one is recorded, once, if it has one; while the run goes on every
turn makes its attempt, and without an answer it stops only when a reading of the clock has reached
the deadline, two hours after the hand-over in the third turn. -/
theorem submission_recorded (μ : Type) (sessionId worker : Str) (credit : UInt64)
    (share : AcceptedShare) (hashDifficulty : UInt64) (blockHex : Str) (hash : ByteVec 32)
    (turns : List SubmitTurn) :
    let out := submission.run (.inline 1) turns
    ∃ last, Concluded (SubmitEvent.calls out.outputs) last ∧
      records μ sessionId worker credit (share.asBlock hashDifficulty blockHex hash) out.outputs =
        (last.bind Except.toOption).toList.map
          (outcomeOf worker (share.asBlock hashDifficulty blockHex hash)) ∧
      (out.live → last = none ∧
        SubmitEvent.attempts out.outputs = turns.map SubmitTurn.attempt) ∧
      (¬ out.live → last = none →
        ∃ handed late, turns[2]? = some handed ∧ late ∈ turns.drop 3 ∧
          handed.now + submitRetryDeadline ≤ late.now) := by
  have hblock : (share.asBlock hashDifficulty blockHex hash).result =
    .block hashDifficulty blockHex hash := rfl
  obtain ⟨last, hconcluded, hrecords, hgoes, hstops⟩ :=
    run_submission (μ := μ) hblock (.inline 1) turns
  refine ⟨last, hconcluded, hrecords, hgoes, fun hend hlast => ?_⟩
  obtain ⟨deadline, hdeadline, late, hlate, hle⟩ := hstops hend hlast
  obtain ⟨handed, hhanded, rfl⟩ := Option.map_eq_some_iff.mp hdeadline
  exact ⟨handed, late, hhanded, hlate, hle⟩

end BtcPool
