import BtcPool.Foundations.LastSaid
import BtcPool.Mining.Accounting

/-!
# The confirmation pass

`mining/confirm.rs` sweeps the blocks awaiting confirmation: it asks the node where each of them
stands, and resolves those whose answer is final. One sweep works on the list it took when it began,
block after block, while blocks are found next to it; here the steps of the pass and the outcomes of
submitted blocks are interleaved as events (`step`).

A resolution is decided by one reading (`Decides`), and the notes of a run record that reading right
before it (`run_justified`). For the blocks written off that is too little: the age of a block
counts from when it was found, and no reading but the last one is looked at, so a block that was
recognised a minute ago is written off at the first reading that misses it. It takes a node that,
once a block is a day old, keeps what it recognised for a day (`Steady`).
-/

namespace BtcPool.Confirm

open Stats Accounting

/-- Where a block stands, as of one `getblockheader`. -/
inductive BlockChainPosition
  | onChain (confirmations tipHeight : ℕ)
  | sideBranch (tipHeight : ℕ)
  | unknown
  deriving DecidableEq

/-- What one reading says about a block. -/
inductive Verdict
  | pending
  | final (resolution : BlockResolution)
  deriving DecidableEq

/-- The seconds after which a block that the node does not know is written off. -/
def abandonAfter : ℕ := 24 * 3600

/-- The verdict on a block of a height, at the depth that counts as final. -/
def classifyConfirmation (position : BlockChainPosition) (blockHeight depth : ℕ) : Verdict :=
  match position with
  | .onChain confirmations _ => if depth ≤ confirmations then .final .confirmed else .pending
  | .sideBranch tipHeight => if blockHeight + depth ≤ tipHeight then .final .orphaned else .pending
  | .unknown => .pending

/-- Whether a block is written off: the node does not know it, a day after it was found. -/
def isAbandoned (block : PendingBlock) (position : BlockChainPosition) (now : ℕ) : Bool :=
  if position ≠ .unknown then false else abandonAfter ≤ now - block.foundTs

/-- What a sweep makes of a reading. -/
def resolution (depth : ℕ) (block : PendingBlock) (position : BlockChainPosition) (now : ℕ) :
    Option BlockResolution :=
  match classifyConfirmation position block.height depth with
  | .final resolution => some resolution
  | .pending => if isAbandoned block position now then some .abandoned else none

/-- The reading that decides a block in a certain way. -/
def Decides (depth : ℕ) (block : PendingBlock) (now : ℕ) :
    BlockChainPosition → BlockResolution → Prop
  | .onChain confirmations _, .confirmed => depth ≤ confirmations
  | .sideBranch tipHeight, .orphaned => block.height + depth ≤ tipHeight
  | .unknown, .abandoned => block.foundTs + abandonAfter ≤ now
  | _, _ => False

theorem resolution_eq_some {depth : ℕ} {block : PendingBlock} {position : BlockChainPosition}
    {now : ℕ} {r : BlockResolution} :
    resolution depth block position now = some r ↔ Decides depth block now position r := by
  cases position with
  | onChain confirmations tipHeight =>
    by_cases hdeep : depth ≤ confirmations <;> cases r <;>
      simp [resolution, classifyConfirmation, isAbandoned, Decides, hdeep]
  | sideBranch tipHeight =>
    by_cases hdeep : block.height + depth ≤ tipHeight <;> cases r <;>
      simp [resolution, classifyConfirmation, isAbandoned, Decides, hdeep]
  | unknown =>
    have hage : abandonAfter ≤ now - block.foundTs ↔ block.foundTs + abandonAfter ≤ now := by
      unfold abandonAfter
      omega
    cases r <;> simp [resolution, classifyConfirmation, isAbandoned, Decides, hage]

/-! ## The pass as a process -/

/-- The accounts, and how many of the blocks the pass has taken it is done with. -/
structure Pass where
  accounts : Accounts
  next : ℕ

/-- What happens to the pass. -/
inductive Event
  /-- The node's answer for a submitted block. -/
  | outcome (outcome : BlockSubmitOutcome) (height : ℕ) (worker payout hashHex : Str)
      (resetTs foundTs : ℕ)
  /-- A sweep begins. -/
  | sweep
  /-- The answer for the next block of the sweep, with the readings of the clock. -/
  | probe (answer : Except PoolError BlockChainPosition) (now resetTs resolvedTs : ℕ)
  /-- The pool is started again on its file. -/
  | restart (db : Database) (wallNow : ℕ)

/-- The readings of the clock in an event, in order. -/
def Event.readings : Event → List ℕ
  | .outcome _ _ _ _ _ resetTs foundTs => [resetTs, foundTs]
  | .sweep => []
  | .probe _ now resetTs resolvedTs => [now, resetTs, resolvedTs]
  | .restart _ wallNow => [wallNow]

/-- What the pass notes. -/
inductive Note
  /-- The node answered for a block. -/
  | read (block : PendingBlock) (position : BlockChainPosition) (now : ℕ)
  /-- A block was resolved. -/
  | resolved (block : PendingBlock) (resolution : BlockResolution) (resolvedTs : ℕ)
  deriving DecidableEq

/-- What the pass does with the answer for a block. -/
def check (depth : ℕ) (p : Pass) (block : PendingBlock) (position : BlockChainPosition)
    (now resetTs resolvedTs : ℕ) : Pass × List Note :=
  let note := .read block position now
  match resolution depth block position now with
  | none => ({ p with next := p.next + 1 }, [note])
  | some r =>
    ({ accounts := recordBlockResolution p.accounts block r resetTs resolvedTs
       next := p.next + 1 },
      -- a block that was resolved before is not resolved again
      if p.accounts.stats.isPending block.hash then [note, .resolved block r resolvedTs]
      else [note])

/-- A step of the pass, with its notes. -/
def step (depth : ℕ) (p : Pass) : Event → Pass × List Note
  | .outcome outcome height worker payout hashHex resetTs foundTs =>
    ({ p with
        accounts :=
          recordBlockOutcome p.accounts outcome height worker payout hashHex resetTs foundTs }, [])
  | .sweep =>
    if p.next < p.accounts.swept.length then (p, [])
    else ({ p with accounts := Accounting.step p.accounts .sweep }, [])
  | .probe answer now resetTs resolvedTs =>
    match p.accounts.swept[p.next]? with
    | none => (p, [])
    | some block =>
      match answer with
      | .error _ => ({ p with next := p.next + 1 }, [])
      | .ok position => check depth p block position now resetTs resolvedTs
  | .restart db wallNow => ({ accounts := Accounting.start db wallNow, next := 0 }, [])

/-- The pass as a process that never ends. -/
def process (depth : ℕ) : Process Pass Event Note where
  step p e := { state := (step depth p e).1, outputs := (step depth p e).2, live := true }

/-- Everything the pass noted in a run. -/
def notes (depth : ℕ) (p : Pass) (events : List Event) : List Note :=
  ((process depth).run p events).outputs

/-- The calls a step makes on the accounts; a restart makes new ones. -/
theorem step_accounts (depth : ℕ) (p : Pass) (e : Event) :
    (∃ calls, (step depth p e).1.accounts = Accounting.run p.accounts calls) ∨
      ∃ db wallNow, e = .restart db wallNow := by
  have hnone : ∃ calls, p.accounts = Accounting.run p.accounts calls := ⟨[], rfl⟩
  cases e with
  | outcome outcome height worker payout hashHex resetTs foundTs =>
    exact .inl ⟨[.outcome outcome height worker payout hashHex resetTs foundTs], rfl⟩
  | sweep =>
    refine .inl ?_
    by_cases hbusy : p.next < p.accounts.swept.length
    · simpa only [step, if_pos hbusy] using hnone
    · exact ⟨[.sweep], by simp only [step, if_neg hbusy]; rfl⟩
  | probe answer now resetTs resolvedTs =>
    refine .inl ?_
    unfold step
    cases hblock : p.accounts.swept[p.next]? with
    | none => exact hnone
    | some block =>
      cases answer with
      | error e => exact hnone
      | ok position =>
        dsimp only [check]
        cases resolution depth block position now with
        | none => exact hnone
        | some r =>
          refine ⟨[.resolution p.next r resetTs resolvedTs], ?_⟩
          simp only [Accounting.run, List.foldl_cons, List.foldl_nil, Accounting.step, hblock]
  | restart db wallNow => exact .inr ⟨db, wallNow, rfl⟩

/-- Between restarts the pass is a run of calls on the accounts. -/
theorem run_accounts (depth : ℕ) (p : Pass) {events : List Event}
    (h : ∀ e ∈ events, ∀ db wallNow, e ≠ .restart db wallNow) :
    ∃ calls, ((process depth).run p events).state.accounts = Accounting.run p.accounts calls := by
  induction events generalizing p with
  | nil => exact ⟨[], rfl⟩
  | cons e events ih =>
    rcases step_accounts depth p e with ⟨calls, hcalls⟩ | ⟨db, wallNow, rfl⟩
    · obtain ⟨calls', hcalls'⟩ := ih (step depth p e).1 fun e he => h e (by simp [he])
      refine ⟨calls ++ calls', hcalls'.trans ?_⟩
      rw [hcalls]
      exact List.foldl_append.symm
    · exact absurd rfl (h _ (by simp) db wallNow)

/-! ## Why a block was resolved -/

/-- What a step notes: nothing, a reading, or a reading and the resolution it decides. -/
theorem step_notes (depth : ℕ) (p : Pass) (e : Event) :
    (step depth p e).2 = [] ∨
    (∃ block position now, (step depth p e).2 = [.read block position now]) ∨
    ∃ block position now resetTs r resolvedTs, e = .probe (.ok position) now resetTs resolvedTs ∧
      Decides depth block now position r ∧
      (step depth p e).2 = [.read block position now, .resolved block r resolvedTs] := by
  cases e with
  | outcome outcome height worker payout hashHex resetTs foundTs => exact .inl rfl
  | sweep =>
    left
    by_cases hbusy : p.next < p.accounts.swept.length
    · simp only [step, if_pos hbusy]
    · simp only [step, if_neg hbusy]
  | restart db wallNow => exact .inl rfl
  | probe answer now resetTs resolvedTs =>
    unfold step
    cases p.accounts.swept[p.next]? with
    | none => exact .inl rfl
    | some block =>
      cases answer with
      | error e => exact .inl rfl
      | ok position =>
        right
        dsimp only [check]
        cases hr : resolution depth block position now with
        | none => exact .inl ⟨_, _, _, rfl⟩
        | some r =>
          by_cases hpending : p.accounts.stats.isPending block.hash
          · right
            refine ⟨block, position, now, resetTs, r, resolvedTs, rfl, resolution_eq_some.mp hr, ?_⟩
            exact if_pos hpending
          · left
            exact ⟨_, _, _, if_neg hpending⟩

/-- A resolution follows the reading that decides it. -/
def Justified (depth : ℕ) (past : List Note) : Note → Prop
  | .read _ _ _ => True
  | .resolved block r resolvedTs => ∃ before position now,
      past = before ++ [.read block position now] ∧ Decides depth block now position r ∧
        now ≤ resolvedTs

theorem run_justified (depth : ℕ) (p : Pass) {events : List Event}
    (hclock : ∀ e ∈ events, e.readings.Pairwise (· ≤ ·)) :
    Preceded (Justified depth) [] (notes depth p events) := by
  refine (Process.run_invariant (p := process depth) (C := fun _ e => e.readings.Pairwise (· ≤ ·))
    (P := fun past _ => Preceded (Justified depth) [] past)
    (Q := fun past => Preceded (Justified depth) [] past) id ?_ trivial
    (Process.meets_of_forall (fun e he _ => hclock e he) p)).1
  intro past p e hpast he
  suffices h : Preceded (Justified depth) [] (past ++ (step depth p e).2) from ⟨fun _ => h, h⟩
  rcases step_notes depth p e with
    hnone | ⟨block, position, now, hread⟩ |
      ⟨block, position, now, resetTs, r, resolvedTs, rfl, hd, hboth⟩
  · rw [hnone, List.append_nil]
    exact hpast
  · rw [hread]
    exact preceded_concat.mpr ⟨hpast, trivial⟩
  · rw [hboth]
    have horder : now ≤ resolvedTs := List.rel_of_pairwise_cons he (by simp)
    exact preceded_append.mpr ⟨hpast, trivial, ⟨past, position, now, rfl, hd, horder⟩, trivial⟩

/-! ## Blocks written off -/

/-- When a note says that the node recognised the block. -/
def Note.recognisedAt (hash : Str) : Note → Option ℕ
  | .read block position now => if block.hash = hash ∧ position ≠ .unknown then some now else none
  | .resolved _ _ _ => none

/-- When the node recognised a block. -/
def recognitions (hash : Str) (log : List Note) : List ℕ := log.filterMap (Note.recognisedAt hash)

/-- A block is written off only if no reading of the 24 hours before recognised it. -/
def Unrecognised (past : List Note) : Note → Prop
  | .resolved block .abandoned resolvedTs =>
    ∀ t ∈ recognitions block.hash past, t + abandonAfter ≤ resolvedTs
  | _ => True

/-- For a block found 24 hours ago or more, the node does not answer `Unknown` within 24 hours of
having recognised it. -/
def Steady (past : List Note) : Note → Prop
  | .read block .unknown now =>
    block.foundTs + abandonAfter ≤ now → ∀ t ∈ recognitions block.hash past, t + abandonAfter ≤ now
  | _ => True

instance (past : List Note) : (note : Note) → Decidable (Unrecognised past note)
  | .resolved block .abandoned resolvedTs =>
    inferInstanceAs (Decidable (∀ t ∈ recognitions block.hash past, t + abandonAfter ≤ resolvedTs))
  | .resolved _ .confirmed _ => inferInstanceAs (Decidable True)
  | .resolved _ .orphaned _ => inferInstanceAs (Decidable True)
  | .read _ _ _ => inferInstanceAs (Decidable True)

instance (past : List Note) : (note : Note) → Decidable (Steady past note)
  | .read block .unknown now =>
    inferInstanceAs (Decidable (block.foundTs + abandonAfter ≤ now →
      ∀ t ∈ recognitions block.hash past, t + abandonAfter ≤ now))
  | .read _ (.onChain _ _) _ => inferInstanceAs (Decidable True)
  | .read _ (.sideBranch _) _ => inferInstanceAs (Decidable True)
  | .resolved _ _ _ => inferInstanceAs (Decidable True)

theorem unrecognised_of_steady {depth : ℕ} {log : List Note}
    (hj : Preceded (Justified depth) [] log)
    (hs : Preceded Steady [] log) : Preceded Unrecognised [] log := by
  induction log using List.reverseRecOn with
  | nil => trivial
  | append_singleton log note ih =>
    obtain ⟨hj', hnote⟩ := preceded_concat.mp hj
    obtain ⟨hs', -⟩ := preceded_concat.mp hs
    refine preceded_concat.mpr ⟨ih hj' hs', ?_⟩
    match note, hnote with
    | .read _ _ _, _ => trivial
    | .resolved _ .confirmed _, _ => trivial
    | .resolved _ .orphaned _, _ => trivial
    | .resolved block .abandoned resolvedTs, hnote =>
      obtain ⟨before, position, now, hlog, hd, horder⟩ := hnote
      -- only a reading of `Unknown` writes a block off, and it recognises nothing itself
      obtain rfl : position = .unknown := by
        cases position with
        | onChain _ _ => exact hd.elim
        | sideBranch _ => exact hd.elim
        | unknown => rfl
      rw [List.nil_append] at hlog
      subst hlog
      have hread := (preceded_concat.mp hs').2
      intro t ht
      have ht' : t ∈ recognitions block.hash before := by
        simpa [recognitions, Note.recognisedAt] using ht
      exact (hread hd t ht').trans horder

/-- **A block written off went unrecognised for a day.** So it is in every run of the pass, at
non-decreasing times, in which the node, once a block is a day old, keeps it recognised for a
day. -/
theorem abandoned_unrecognised (depth : ℕ) (p : Pass) (events : List Event)
    (hclock : (events.flatMap Event.readings).Pairwise (· ≤ ·))
    (hsteady : Preceded Steady [] (notes depth p events)) :
    Preceded Unrecognised [] (notes depth p events) := by
  have heach : ∀ e ∈ events, e.readings.Pairwise (· ≤ ·) := by
    rw [List.flatMap, List.pairwise_flatten] at hclock
    exact fun e he => hclock.1 _ (List.mem_map_of_mem he)
  exact unrecognised_of_steady (run_justified depth p heach) hsteady

/-- A pool just started on a new file. -/
def regtestPass : Pass := { accounts := Accounting.start (.create 0) 0, next := 0 }

/-- A block found at 0, recognised at one time and missed at another. -/
def missed (recognised now : ℕ) : List Event :=
  [.outcome .accepted 100 "w".toList "p".toList "h".toList 0 0, .sweep,
    .probe (.ok (.onChain 1 100)) recognised recognised recognised, .sweep,
    .probe (.ok .unknown) now now now]

/-- A block that was missed a day after it was recognised. -/
theorem abandoned_unrecognised_regtest :
    (notes 6 regtestPass (missed 60 86460)).length = 3 ∧
      Preceded Unrecognised [] (notes 6 regtestPass (missed 60 86460)) :=
  ⟨by decide +kernel,
    abandoned_unrecognised 6 regtestPass (missed 60 86460) (by decide +kernel) (by decide +kernel)⟩

/-- A block that was recognised a minute ago is written off, because it was found a day ago. -/
theorem abandoned_after_recognised :
    ((missed 86340 86400).flatMap Event.readings).Pairwise (· ≤ ·) ∧
    (notes 6 regtestPass (missed 86340 86400)).map (Note.recognisedAt "h".toList) =
      [some 86340, none, none] ∧
    ¬ Preceded Unrecognised [] (notes 6 regtestPass (missed 86340 86400)) := by
  refine ⟨by decide +kernel, by decide +kernel, by decide +kernel⟩

end BtcPool.Confirm
