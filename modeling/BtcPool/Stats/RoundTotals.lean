import BtcPool.Stats.Round
import Mathlib.Algebra.BigOperators.Group.Finset.Piecewise

/-!
# The counters of a round in 64 bits

The figures of a round are not stored: each is what the file held at boot, plus what this process
counted, less what both came to at the last reset, in the machine's numbers. Some of these sums
saturate and some wrap. `RoundRegisters` has the counters as they are. Over `recorded` and `offset`,
their values as natural numbers, a call either adds its amount to what was recorded or moves the
offset up to it (`recorded_call`, `recorded_call_of_resets`). As long as no sum leaves the 64 bits
the figures are therefore the counts since the last reset, and the counters have the values of those
of `PoolStats`, which are natural numbers (`toNat_figure_run`).

The reasons of rejects are labels of any type. A reason without an entry counts zero.
-/

namespace BtcPool.Stats

/-- `u64::saturating_add`. -/
def saturatingAdd64 (a b : UInt64) : UInt64 := .ofNat (min (a.toNat + b.toNat) (2 ^ 64 - 1))

/-- `u64::saturating_sub`. -/
def saturatingSub64 (a b : UInt64) : UInt64 := .ofNat (a.toNat - b.toNat)

theorem toNat_saturatingAdd64 {a b : UInt64} (h : a.toNat + b.toNat < 2 ^ 64) :
    (saturatingAdd64 a b).toNat = a.toNat + b.toNat := by
  rw [saturatingAdd64, min_eq_left (by omega), UInt64.toNat_ofNat_of_lt' h]

theorem toNat_saturatingSub64 (a b : UInt64) : (saturatingSub64 a b).toNat = a.toNat - b.toNat :=
  UInt64.toNat_ofNat_of_lt' (lt_of_le_of_lt (Nat.sub_le _ _) a.toNat_lt)

theorem toNat_add_of_lt {a b : UInt64} (h : a.toNat + b.toNat < 2 ^ 64) :
    (a + b).toNat = a.toNat + b.toNat := by
  rw [UInt64.toNat_add, Nat.mod_eq_of_lt h]

/-- The counters behind the figures of a round, and the blocks that await confirmation. -/
structure RoundRegisters (ρ : Type) where
  sharesAccepted : UInt64
  sharesRejected : UInt64
  roundAcceptedBase : UInt64
  roundRejectedBase : UInt64
  roundOffsetAccepted : UInt64
  roundOffsetRejected : UInt64
  roundWork : UInt64
  rejectReasons : ρ → UInt64
  roundRejectReasonsBase : ρ → UInt64
  roundOffsetRejectReasons : ρ → UInt64
  pendingBlocks : List PendingBlock

/-- What a file holds about the round, and its pending blocks. -/
structure PersistedRound (ρ : Type) where
  sharesAccepted : UInt64
  sharesRejected : UInt64
  work : UInt64
  rejectReasons : ρ → UInt64
  pendingBlocks : List PendingBlock

/-- A figure of the round. -/
inductive RoundFigure (ρ : Type)
  | accepted
  | rejected
  | work
  | reason (reason : ρ)

/-- A figure of the round that was loaded. -/
def PersistedRound.figure {ρ : Type} (base : PersistedRound ρ) : RoundFigure ρ → ℕ
  | .accepted => base.sharesAccepted.toNat
  | .rejected => base.sharesRejected.toNat
  | .work => base.work.toNat
  | .reason reason => (base.rejectReasons reason).toNat

/-- A call that counts something or may reset the round, with the readings of the wall clock. -/
inductive RoundCall (ρ : Type)
  | shareAccepted (credit hashDifficulty : UInt64)
  | shareRejected (reason : ρ)
  | blockFound (now : ℕ)
  | enrollPendingBlock (block : PendingBlock)
  | resolveBlock (block : PendingBlock) (resolution : BlockResolution) (resetTs resolvedTs : ℕ)

variable {ρ : Type}

/-- How much a call adds to a figure. -/
def RoundCall.amount [DecidableEq ρ] : RoundCall ρ → RoundFigure ρ → ℕ
  | .shareAccepted _ _, .accepted => 1
  | .shareAccepted credit _, .work => credit.toNat
  | .shareRejected _, .rejected => 1
  | .shareRejected reason, .reason reason' => if reason' = reason then 1 else 0
  | _, _ => 0

section Amounts

variable [DecidableEq ρ]

/-- How much calls add to a figure. -/
def amounts (calls : List (RoundCall ρ)) (f : RoundFigure ρ) : ℕ :=
  (calls.map fun call => call.amount f).sum

@[simp] theorem amounts_nil (f : RoundFigure ρ) : amounts [] f = 0 := rfl

@[simp] theorem amounts_cons (call : RoundCall ρ) (calls : List (RoundCall ρ)) (f : RoundFigure ρ) :
    amounts (call :: calls) f = call.amount f + amounts calls f := List.sum_cons

@[simp] theorem amounts_append (calls calls' : List (RoundCall ρ)) (f : RoundFigure ρ) :
    amounts (calls ++ calls') f = amounts calls f + amounts calls' f := by
  rw [amounts, List.map_append, List.sum_append]
  rfl

end Amounts

namespace RoundRegisters

variable (r : RoundRegisters ρ)

/-! ## The calls -/

/-- The registers of a process that starts on a round. -/
def fromPersisted (base : PersistedRound ρ) : RoundRegisters ρ where
  sharesAccepted := 0
  sharesRejected := 0
  roundAcceptedBase := base.sharesAccepted
  roundRejectedBase := base.sharesRejected
  roundOffsetAccepted := 0
  roundOffsetRejected := 0
  roundWork := base.work
  rejectReasons := fun _ => 0
  roundRejectReasonsBase := base.rejectReasons
  roundOffsetRejectReasons := fun _ => 0
  pendingBlocks := base.pendingBlocks

/-- An accepted share is counted. -/
def shareAccepted (credit : UInt64) : RoundRegisters ρ :=
  { r with sharesAccepted := r.sharesAccepted + 1, roundWork := r.roundWork + credit }

/-- A rejected share is counted. -/
def shareRejected [DecidableEq ρ] (reason : ρ) : RoundRegisters ρ :=
  { r with
    sharesRejected := r.sharesRejected + 1
    rejectReasons := Function.update r.rejectReasons reason (r.rejectReasons reason + 1) }

/-- The shares accepted in the round, as the registers tell. -/
def roundSharesAccepted : UInt64 :=
  saturatingSub64 (saturatingAdd64 r.roundAcceptedBase r.sharesAccepted) r.roundOffsetAccepted

/-- The shares rejected in the round, as the registers tell. -/
def roundSharesRejected : UInt64 :=
  saturatingSub64 (saturatingAdd64 r.roundRejectedBase r.sharesRejected) r.roundOffsetRejected

/-- The base and this boot's count are added with `+=`, which wraps. -/
def roundRejectReasons (reason : ρ) : UInt64 :=
  saturatingSub64 (r.roundRejectReasonsBase reason + r.rejectReasons reason)
    (r.roundOffsetRejectReasons reason)

/-- The round begins anew. -/
def roundReset : RoundRegisters ρ :=
  { r with
    roundOffsetAccepted := saturatingAdd64 r.roundAcceptedBase r.sharesAccepted
    roundOffsetRejected := saturatingAdd64 r.roundRejectedBase r.sharesRejected
    roundOffsetRejectReasons := fun reason =>
      r.roundRejectReasonsBase reason + r.rejectReasons reason
    roundWork := 0 }

/-- A block found begins a round. -/
def blockFound : RoundRegisters ρ := r.roundReset

/-- Whether a block is pending. -/
def isPending (hash : Str) : Bool := r.pendingBlocks.any fun b => b.hash = hash

/-- A block is pending from now on. -/
def enrollPendingBlock (block : PendingBlock) : RoundRegisters ρ :=
  if r.isPending block.hash then r else { r with pendingBlocks := r.pendingBlocks ++ [block] }

/-- A block is pending no more, if it was. -/
def resolveBlock (block : PendingBlock) (resolution : BlockResolution) :
    Bool × RoundRegisters ρ :=
  if r.isPending block.hash then
    let r := { r with pendingBlocks := r.pendingBlocks.filter fun b => b.hash ≠ block.hash }
    match block.wonAtSubmit, resolution with
    -- a block that lost its height race and was promoted is a find
    | false, .confirmed => (true, r.blockFound)
    | _, _ => (true, r)
  else (false, r)

/-- The registers after a call. -/
def call [DecidableEq ρ] : RoundCall ρ → RoundRegisters ρ
  | .shareAccepted credit _ => r.shareAccepted credit
  | .shareRejected reason => r.shareRejected reason
  | .blockFound _ => r.blockFound
  | .enrollPendingBlock block => r.enrollPendingBlock block
  | .resolveBlock block resolution _ _ => (r.resolveBlock block resolution).2

/-- The registers after a sequence of calls. -/
def run [DecidableEq ρ] (calls : List (RoundCall ρ)) : RoundRegisters ρ :=
  calls.foldl (fun r c => r.call c) r

/-- A figure of the round as it is shown. -/
def figure : RoundFigure ρ → UInt64
  | .accepted => r.roundSharesAccepted
  | .rejected => r.roundSharesRejected
  | .work => r.roundWork
  | .reason reason => r.roundRejectReasons reason

/-! ## The rounds of a run -/

/-- Whether a call resets the round: a block was found, or promoted. -/
def resets : RoundCall ρ → Bool
  | .blockFound _ => true
  | .resolveBlock block resolution _ _ =>
    r.isPending block.hash && !block.wonAtSubmit && decide (resolution = .confirmed)
  | _ => false

/-- Whether the round goes back to the boot, and the calls since it began. -/
structure Round (ρ : Type) where
  fromBoot : Bool
  calls : List (RoundCall ρ)

/-- The round at the end of a run that started in a given one. -/
def lastRound [DecidableEq ρ] (r : RoundRegisters ρ) (round : Round ρ) :
    List (RoundCall ρ) → Round ρ
  | [] => round
  | c :: calls =>
    lastRound (r.call c)
      (if r.resets c then ⟨false, []⟩ else { round with calls := round.calls ++ [c] }) calls

/-! ## What a call does to the figures -/

/-- What was recorded of a figure, as a natural number. -/
def recorded : RoundFigure ρ → ℕ
  | .accepted => r.roundAcceptedBase.toNat + r.sharesAccepted.toNat
  | .rejected => r.roundRejectedBase.toNat + r.sharesRejected.toNat
  | .work => r.roundWork.toNat
  | .reason reason => (r.roundRejectReasonsBase reason).toNat + (r.rejectReasons reason).toNat

/-- What was recorded of a figure when the round began. -/
def offset : RoundFigure ρ → ℕ
  | .accepted => r.roundOffsetAccepted.toNat
  | .rejected => r.roundOffsetRejected.toNat
  | .work => 0
  | .reason reason => (r.roundOffsetRejectReasons reason).toNat

variable {r}

theorem toNat_figure {f : RoundFigure ρ} (h : r.recorded f < 2 ^ 64) :
    (r.figure f).toNat = r.recorded f - r.offset f := by
  cases f with
  | accepted => exact (toNat_saturatingSub64 _ _).trans (by rw [toNat_saturatingAdd64 h]; rfl)
  | rejected => exact (toNat_saturatingSub64 _ _).trans (by rw [toNat_saturatingAdd64 h]; rfl)
  | work => rfl
  | reason reason => exact (toNat_saturatingSub64 _ _).trans (by rw [toNat_add_of_lt h]; rfl)

theorem recorded_roundReset_le (f : RoundFigure ρ) : r.roundReset.recorded f ≤ r.recorded f := by
  cases f with
  | work => exact Nat.zero_le _
  | _ => exact le_rfl

/-- The offset is taken in the machine's numbers too. -/
theorem offset_roundReset {f : RoundFigure ρ} (h : r.recorded f < 2 ^ 64) :
    r.roundReset.offset f = r.roundReset.recorded f := by
  cases f with
  | accepted => exact toNat_saturatingAdd64 h
  | rejected => exact toNat_saturatingAdd64 h
  | work => rfl
  | reason reason => exact toNat_add_of_lt h

/-- The blocks that await confirmation are no part of the figures. -/
theorem figures_enrollPendingBlock (block : PendingBlock) (f : RoundFigure ρ) :
    (r.enrollPendingBlock block).recorded f = r.recorded f ∧
      (r.enrollPendingBlock block).offset f = r.offset f := by
  unfold enrollPendingBlock
  split
  · exact ⟨rfl, rfl⟩
  · cases f <;> exact ⟨rfl, rfl⟩

section ResolveBlock

variable {block : PendingBlock} {resolution : BlockResolution} {resetTs resolvedTs : ℕ}

/-- A resolution that promotes resets the round, but for the block it retires. -/
theorem resolveBlock_of_resets
    (h : r.resets (.resolveBlock block resolution resetTs resolvedTs) = true) :
    (r.resolveBlock block resolution).2 =
      roundReset
        { r with pendingBlocks := r.pendingBlocks.filter fun b => b.hash ≠ block.hash } := by
  simp only [resets, Bool.and_eq_true, Bool.not_eq_true', decide_eq_true_eq] at h
  obtain ⟨⟨hpending, hlost⟩, rfl⟩ := h
  simp only [resolveBlock, hpending, hlost, if_true, blockFound]

/-- Any other resolution changes no more than the pending blocks. -/
theorem resolveBlock_of_not_resets
    (h : r.resets (.resolveBlock block resolution resetTs resolvedTs) = false) :
    ∃ pending, (r.resolveBlock block resolution).2 = { r with pendingBlocks := pending } := by
  unfold resolveBlock
  by_cases hpending : r.isPending block.hash = true
  · rw [if_pos hpending]
    refine ⟨r.pendingBlocks.filter fun b => b.hash ≠ block.hash, ?_⟩
    rw [resets, hpending, Bool.true_and] at h
    dsimp only
    split
    · simp_all
    · rfl
  · rw [if_neg hpending]
    exact ⟨r.pendingBlocks, rfl⟩

end ResolveBlock

variable [DecidableEq ρ]

theorem recorded_shareAccepted {credit hashDifficulty : UInt64} {f : RoundFigure ρ}
    (h : r.recorded f + (RoundCall.shareAccepted credit hashDifficulty).amount f < 2 ^ 64) :
    (r.shareAccepted credit).recorded f =
      r.recorded f + (RoundCall.shareAccepted credit hashDifficulty).amount f := by
  cases f with
  | accepted =>
    simp only [recorded, RoundCall.amount] at h
    have hone : r.sharesAccepted.toNat + (1 : UInt64).toNat < 2 ^ 64 := by
      rw [UInt64.toNat_one]
      omega
    simp only [recorded, shareAccepted, RoundCall.amount, toNat_add_of_lt hone, UInt64.toNat_one,
      Nat.add_assoc]
  | work => exact toNat_add_of_lt h
  | _ => rfl

theorem recorded_shareRejected {reason : ρ} {f : RoundFigure ρ}
    (h : r.recorded f + (RoundCall.shareRejected reason).amount f < 2 ^ 64) :
    (r.shareRejected reason).recorded f =
      r.recorded f + (RoundCall.shareRejected reason).amount f := by
  cases f with
  | rejected =>
    simp only [recorded, RoundCall.amount] at h
    have hone : r.sharesRejected.toNat + (1 : UInt64).toNat < 2 ^ 64 := by
      rw [UInt64.toNat_one]
      omega
    simp only [recorded, shareRejected, RoundCall.amount, toNat_add_of_lt hone, UInt64.toNat_one,
      Nat.add_assoc]
  | reason reason' =>
    by_cases hr : reason' = reason
    · subst hr
      simp only [recorded, RoundCall.amount, if_true] at h
      have hone : (r.rejectReasons reason').toNat + (1 : UInt64).toNat < 2 ^ 64 := by
        rw [UInt64.toNat_one]
        omega
      simp only [recorded, shareRejected, RoundCall.amount, Function.update_self, if_true,
        toNat_add_of_lt hone, UInt64.toNat_one, Nat.add_assoc]
    · simp [recorded, shareRejected, RoundCall.amount, hr]
  | _ => rfl

/-- A call that does not reset the round adds its amount to each figure. -/
theorem recorded_call {c : RoundCall ρ} {f : RoundFigure ρ} (hc : r.resets c = false)
    (h : r.recorded f + c.amount f < 2 ^ 64) :
    (r.call c).recorded f = r.recorded f + c.amount f ∧ (r.call c).offset f = r.offset f := by
  cases c with
  | shareAccepted credit hashDifficulty =>
    exact ⟨recorded_shareAccepted h, by cases f <;> rfl⟩
  | shareRejected reason => exact ⟨recorded_shareRejected h, by cases f <;> rfl⟩
  | blockFound now => cases hc
  | enrollPendingBlock block => exact figures_enrollPendingBlock block f
  | resolveBlock block resolution resetTs resolvedTs =>
    obtain ⟨pending, hpending⟩ := resolveBlock_of_not_resets hc
    rw [call, hpending]
    cases f <;> exact ⟨rfl, rfl⟩

/-- A call that resets the round leaves each figure at zero. -/
theorem recorded_call_of_resets {c : RoundCall ρ} {f : RoundFigure ρ} (hc : r.resets c = true)
    (h : r.recorded f < 2 ^ 64) :
    (r.call c).recorded f ≤ r.recorded f ∧ (r.call c).offset f = (r.call c).recorded f := by
  cases c with
  | blockFound now => exact ⟨recorded_roundReset_le f, offset_roundReset h⟩
  | resolveBlock block resolution resetTs resolvedTs =>
    rw [call, resolveBlock_of_resets hc]
    have hrecorded : { r with
        pendingBlocks := r.pendingBlocks.filter fun b => b.hash ≠ block.hash }.recorded f =
          r.recorded f := by
      cases f <;> rfl
    rw [← hrecorded] at h ⊢
    exact ⟨recorded_roundReset_le f, offset_roundReset h⟩
  | _ => cases hc

/-! ## Runs -/

/-- What was recorded is what was recorded when the round began and what the round counts: its calls
and, in a round that goes back to the boot, the base. -/
def Counts (r : RoundRegisters ρ) (base : RoundFigure ρ → ℕ) (round : Round ρ) : Prop :=
  ∀ f, r.recorded f =
    r.offset f + ((if round.fromBoot then base f else 0) + amounts round.calls f)

theorem counts_fromPersisted (base : PersistedRound ρ) :
    (fromPersisted base).Counts base.figure ⟨true, []⟩ := by
  intro f
  cases f <;> simp [recorded, offset, fromPersisted, PersistedRound.figure]

section Run

variable {base : RoundFigure ρ → ℕ} {round : Round ρ}

theorem Counts.call (h : r.Counts base round) {c : RoundCall ρ}
    (hfits : ∀ f, r.recorded f + c.amount f < 2 ^ 64) :
    (r.call c).Counts base
      (if r.resets c then ⟨false, []⟩ else { round with calls := round.calls ++ [c] }) := by
  intro f
  by_cases hc : r.resets c = true
  · have hoffset := (recorded_call_of_resets hc
      (lt_of_le_of_lt (Nat.le_add_right _ _) (hfits f))).2
    rw [if_pos hc, hoffset]
    simp
  · obtain ⟨hrecorded, hoffset⟩ := recorded_call (Bool.not_eq_true _ ▸ hc) (hfits f)
    rw [if_neg hc, hrecorded, hoffset, h f, amounts_append, amounts_cons, amounts_nil, add_zero,
      Nat.add_assoc, Nat.add_assoc]

theorem recorded_call_le {c : RoundCall ρ} {f : RoundFigure ρ}
    (h : r.recorded f + c.amount f < 2 ^ 64) :
    (r.call c).recorded f ≤ r.recorded f + c.amount f := by
  by_cases hc : r.resets c = true
  · exact (recorded_call_of_resets hc (lt_of_le_of_lt (Nat.le_add_right _ _) h)).1.trans
      (Nat.le_add_right _ _)
  · exact (recorded_call (Bool.not_eq_true _ ▸ hc) h).1.le

/-- What was recorded along a run is no more than the calls add. -/
theorem recorded_run_lt {calls : List (RoundCall ρ)} {f : RoundFigure ρ}
    (h : r.recorded f + amounts calls f < 2 ^ 64) : (r.run calls).recorded f < 2 ^ 64 := by
  induction calls generalizing r with
  | nil => exact h
  | cons c calls ih =>
    rw [amounts_cons] at h
    have hle := recorded_call_le (r := r) (c := c) (f := f) (by omega)
    refine ih ?_
    change (r.call c).recorded f + amounts calls f < 2 ^ 64
    omega

/-- Along a run the figures keep counting the last round. -/
theorem Counts.run {calls : List (RoundCall ρ)} (h : r.Counts base round)
    (hfits : ∀ f, r.recorded f + amounts calls f < 2 ^ 64) :
    (r.run calls).Counts base (r.lastRound round calls) := by
  induction calls generalizing r round with
  | nil => exact h
  | cons c calls ih =>
    have hstep : ∀ f, r.recorded f + c.amount f < 2 ^ 64 := by
      intro f
      have hf := hfits f
      rw [amounts_cons] at hf
      omega
    refine ih (h.call hstep) fun f => ?_
    have hle := recorded_call_le (hstep f)
    have hf := hfits f
    rw [amounts_cons] at hf
    change (r.call c).recorded f + amounts calls f < 2 ^ 64
    omega

end Run

theorem mem_calls_lastRound {c : RoundCall ρ} {calls : List (RoundCall ρ)} {round : Round ρ}
    (h : c ∈ (r.lastRound round calls).calls) : c ∈ round.calls ∨ c ∈ calls := by
  induction calls generalizing r round with
  | nil => exact .inl h
  | cons d calls ih =>
    rcases ih h with hround | hcalls
    · split at hround
      · cases hround
      · rw [List.mem_append, List.mem_singleton] at hround
        exact hround.imp_right fun hd : c = d => hd ▸ List.mem_cons_self
    · exact .inr (List.mem_cons_of_mem d hcalls)

end RoundRegisters

/-- Every reject has a reason. -/
theorem sum_amount_reason {c : RoundCall ρ} [DecidableEq ρ] {reasons : Finset ρ}
    (h : ∀ reason, c = .shareRejected reason → reason ∈ reasons) :
    ∑ reason ∈ reasons, c.amount (.reason reason) = c.amount .rejected := by
  cases c with
  | shareRejected reason =>
    simp only [RoundCall.amount]
    rw [Finset.sum_ite_eq' reasons reason, if_pos (h reason rfl)]
  | _ => exact Finset.sum_const_zero

theorem sum_amounts_reason [DecidableEq ρ] {calls : List (RoundCall ρ)} {reasons : Finset ρ}
    (h : ∀ reason, .shareRejected reason ∈ calls → reason ∈ reasons) :
    ∑ reason ∈ reasons, amounts calls (.reason reason) = amounts calls .rejected := by
  induction calls with
  | nil => exact Finset.sum_const_zero
  | cons c calls ih =>
    simp only [amounts_cons]
    rw [Finset.sum_add_distrib, ih fun reason hr => h reason (List.mem_cons_of_mem c hr),
      sum_amount_reason fun reason hc => h reason (hc ▸ List.mem_cons_self)]

theorem amounts_reason_eq_zero [DecidableEq ρ] {calls : List (RoundCall ρ)} {reason : ρ}
    (h : .shareRejected reason ∉ calls) : amounts calls (.reason reason) = 0 := by
  refine List.sum_eq_zero fun n hn => ?_
  obtain ⟨c, hc, rfl⟩ := List.mem_map.mp hn
  cases c with
  | shareRejected reason' => exact if_neg fun heq : reason = reason' => h (heq ▸ hc)
  | _ => rfl

namespace RoundRegisters

/-- Each figure of the round counts the calls since the last reset, and the base if there was none;
and the counts of the reasons add up to the rejects. -/
theorem figure_eq_lastRound [DecidableEq ρ] (base : PersistedRound ρ) (calls : List (RoundCall ρ))
    (reasons : Finset ρ)
    (hfits : ∀ f, base.figure f + amounts calls f < 2 ^ 64)
    (hreasons : ∀ reason, .shareRejected reason ∈ calls ∨ base.rejectReasons reason ≠ 0 →
      reason ∈ reasons)
    (hbase : ∑ reason ∈ reasons, base.figure (.reason reason) = base.figure .rejected) :
    let r := (fromPersisted base).run calls
    let round := (fromPersisted base).lastRound ⟨true, []⟩ calls
    (∀ f, (r.figure f).toNat =
      (if round.fromBoot then base.figure f else 0) + amounts round.calls f) ∧
      ∑ reason ∈ reasons, (r.roundRejectReasons reason).toNat = r.roundSharesRejected.toNat ∧
      ∀ reason ∉ reasons, r.roundRejectReasons reason = 0 := by
  intro r round
  have hrecorded : (fromPersisted base).recorded = base.figure := by
    funext f
    cases f <;> simp [recorded, fromPersisted, PersistedRound.figure]
  have hstart : ∀ f, (fromPersisted base).recorded f + amounts calls f < 2 ^ 64 := by
    rw [hrecorded]
    exact hfits
  have hcounts := (counts_fromPersisted base).run hstart
  have hfigure : ∀ f, (r.figure f).toNat =
      (if round.fromBoot then base.figure f else 0) + amounts round.calls f := by
    intro f
    rw [toNat_figure (recorded_run_lt (hstart f)), hcounts f, Nat.add_sub_cancel_left]
  refine ⟨hfigure, ?_, fun reason hreason => ?_⟩
  · have hcalls : ∀ reason, .shareRejected reason ∈ round.calls → reason ∈ reasons := by
      intro reason h
      exact hreasons reason (.inl ((mem_calls_lastRound h).resolve_left List.not_mem_nil))
    calc ∑ reason ∈ reasons, (r.figure (.reason reason)).toNat
        = ∑ reason ∈ reasons, ((if round.fromBoot then base.figure (.reason reason) else 0) +
            amounts round.calls (.reason reason)) := Finset.sum_congr rfl fun _ _ => hfigure _
      _ = (if round.fromBoot then base.figure .rejected else 0) +
            amounts round.calls .rejected := by
          rw [Finset.sum_add_distrib, sum_amounts_reason hcalls]
          split
          · rw [hbase]
          · rw [Finset.sum_const_zero]
      _ = (r.figure .rejected).toNat := (hfigure _).symm
  · rw [← UInt64.toNat_inj]
    have hzero : base.figure (.reason reason) = 0 := by
      have hb : base.rejectReasons reason = 0 := by
        by_contra hne
        exact hreason (hreasons reason (.inr hne))
      exact congrArg UInt64.toNat hb
    have hnone : .shareRejected reason ∉ round.calls := fun h =>
      hreason (hreasons reason (.inl ((mem_calls_lastRound h).resolve_left List.not_mem_nil)))
    refine (hfigure (.reason reason)).trans ?_
    rw [amounts_reason_eq_zero hnone, hzero, ite_self]
    rfl

/-- A round with two rejects and a share, as a file may hold it. -/
def resumed : PersistedRound RejectReason where
  sharesAccepted := 1
  sharesRejected := 2
  work := 8
  rejectReasons := fun reason => if reason = .lowDifficulty then 2 else 0
  pendingBlocks := []

/-- A block that loses its height race and is promoted after a reject, and a reject after that. -/
def promotion : List (RoundCall RejectReason) :=
  let block : PendingBlock :=
    { hash := [], height := 1, worker := [], payout := [], foundTs := 0, wonAtSubmit := false }
  [.shareAccepted 8 9, .enrollPendingBlock block, .shareRejected .stale,
    .resolveBlock block .confirmed 0 0, .shareRejected .duplicate]

theorem figure_eq_lastRound_promotion :
    (fun f => (((fromPersisted resumed).run promotion).figure f).toNat) =
      amounts [.shareRejected .duplicate] := by
  have hfits : ∀ f, resumed.figure f + amounts promotion f < 2 ^ 64 := by
    intro f
    cases f with
    | reason reason => cases reason <;> decide
    | _ => decide
  have hreasons : ∀ reason, .shareRejected reason ∈ promotion ∨ resumed.rejectReasons reason ≠ 0 →
      reason ∈ ({.lowDifficulty, .stale, .duplicate} : Finset RejectReason) := by
    intro reason h
    cases reason <;> simp_all [promotion, resumed]
  funext f
  refine ((figure_eq_lastRound resumed promotion _ hfits hreasons rfl).1 f).trans ?_
  exact Nat.zero_add _

end RoundRegisters

/-! ## The counters of the statistics -/

/-- A quantity of the round is one of its figures. -/
def Quantity.figure : Quantity → RoundFigure RejectReason
  | .accepted => .accepted
  | .rejected => .rejected
  | .work => .work
  | .reason r => .reason r

/-- The statistics after a call. -/
def PoolStats.call (s : PoolStats) : RoundCall RejectReason → PoolStats
  | .shareAccepted credit hashDifficulty => s.shareAccepted credit.toNat hashDifficulty.toNat
  | .shareRejected reason => s.shareRejected reason
  | .blockFound now => s.blockFound now
  | .enrollPendingBlock block => s.enrollPendingBlock block
  | .resolveBlock block resolution resetTs resolvedTs =>
    (s.resolveBlock block resolution resetTs resolvedTs).2

/-- The statistics have the values of the registers. -/
structure SameValues (r : RoundRegisters RejectReason) (s : PoolStats) : Prop where
  pending : r.pendingBlocks = s.pendingBlocks
  recorded (q : Quantity) : r.recorded q.figure = s.recorded q
  offset (q : Quantity) : r.offset q.figure = s.offset q

namespace SameValues

variable {r : RoundRegisters RejectReason} {s : PoolStats}

/-- What is shown of the round is its total. -/
theorem toNat_figure (h : SameValues r s) {q : Quantity} (hfits : s.recorded q < 2 ^ 64) :
    (r.figure q.figure).toNat = s.roundTotal q := by
  rw [RoundRegisters.toNat_figure (by rwa [h.recorded]), h.recorded, h.offset]
  rfl

theorem roundReset (h : SameValues r s) (hfits : ∀ q, s.recorded q < 2 ^ 64) (now : ℕ) :
    SameValues r.roundReset (s.roundReset now) := by
  have hrecorded : ∀ q : Quantity,
      r.roundReset.recorded q.figure = (s.roundReset now).recorded q := by
    intro q
    cases q with
    | work => rfl
    | accepted => exact h.recorded .accepted
    | rejected => exact h.recorded .rejected
    | reason reason => exact h.recorded (.reason reason)
  refine ⟨h.pending, hrecorded, fun q => ?_⟩
  rw [RoundRegisters.offset_roundReset (by rw [h.recorded]; exact hfits q), hrecorded,
    PoolStats.recorded_roundReset]

/-- Changes elsewhere in the statistics, such as what is queued for the writer, do not show. -/
theorem congr (h : SameValues r s) {s' : PoolStats} (hpending : s'.pendingBlocks = s.pendingBlocks)
    (hfigures : ∀ q, s'.recorded q = s.recorded q ∧ s'.offset q = s.offset q) :
    SameValues r s' where
  pending := h.pending.trans hpending.symm
  recorded q := (h.recorded q).trans (hfigures q).1.symm
  offset q := (h.offset q).trans (hfigures q).2.symm

theorem isPending (h : SameValues r s) (hash : Str) : r.isPending hash = s.isPending hash := by
  rw [RoundRegisters.isPending, h.pending, PoolStats.isPending]

theorem withPending (h : SameValues r s) (pending : List PendingBlock) :
    SameValues { r with pendingBlocks := pending } { s with pendingBlocks := pending } where
  pending := rfl
  recorded q := Eq.trans (by cases q <;> rfl) ((h.recorded q).trans (by cases q <;> rfl))
  offset q := Eq.trans (by cases q <;> rfl) ((h.offset q).trans (by cases q <;> rfl))

theorem shareAccepted (h : SameValues r s) {credit hashDifficulty : UInt64}
    (hfits : ∀ q : Quantity, s.recorded q +
      (RoundCall.shareAccepted credit hashDifficulty).amount q.figure < 2 ^ 64) :
    SameValues (r.shareAccepted credit) (s.shareAccepted credit.toNat hashDifficulty.toNat) := by
  have hstats : ∀ q : Quantity, (s.shareAccepted credit.toNat hashDifficulty.toNat).recorded q =
      s.recorded q + (RoundCall.shareAccepted credit hashDifficulty).amount q.figure ∧
      (s.shareAccepted credit.toNat hashDifficulty.toNat).offset q = s.offset q := by
    intro q
    unfold PoolStats.shareAccepted
    dsimp only
    split <;> cases q <;> exact ⟨rfl, rfl⟩
  refine ⟨?_, fun q => ?_, fun q => ?_⟩
  · unfold PoolStats.shareAccepted
    dsimp only
    split <;> exact h.pending
  · have hq := hfits q
    rw [← h.recorded] at hq
    rw [RoundRegisters.recorded_shareAccepted hq, (hstats q).1, h.recorded]
  · rw [(hstats q).2, ← h.offset]
    cases q <;> rfl

theorem shareRejected (h : SameValues r s) {reason : RejectReason}
    (hfits : ∀ q : Quantity,
      s.recorded q + (RoundCall.shareRejected reason).amount q.figure < 2 ^ 64) :
    SameValues (r.shareRejected reason) (s.shareRejected reason) := by
  refine ⟨h.pending, fun q => ?_, fun q => ?_⟩
  · have hq := hfits q
    rw [← h.recorded] at hq
    rw [RoundRegisters.recorded_shareRejected hq, PoolStats.recorded_shareRejected, h.recorded]
    cases q <;> rfl
  · exact Eq.trans (by cases q <;> rfl) ((h.offset q).trans (by cases q <;> rfl))

theorem blockFound (h : SameValues r s) (hfits : ∀ q, s.recorded q < 2 ^ 64) (now : ℕ) :
    SameValues r.blockFound (s.blockFound now) := by
  have hcount : SameValues r { s with blocksFound := s.blocksFound + 1 } :=
    h.congr rfl fun q => by cases q <;> exact ⟨rfl, rfl⟩
  exact hcount.roundReset (fun q => lt_of_eq_of_lt (by cases q <;> rfl) (hfits q)) now

theorem enrollPendingBlock (h : SameValues r s) (block : PendingBlock) :
    SameValues (r.enrollPendingBlock block) (s.enrollPendingBlock block) := by
  unfold RoundRegisters.enrollPendingBlock PoolStats.enrollPendingBlock
  rw [h.isPending]
  split
  · exact h
  · rw [h.pending]
    exact (h.withPending _).congr rfl fun q => by cases q <;> exact ⟨rfl, rfl⟩

theorem resolveBlock (h : SameValues r s) (hfits : ∀ q, s.recorded q < 2 ^ 64)
    (block : PendingBlock) (resolution : BlockResolution) (resetTs resolvedTs : ℕ) :
    SameValues (r.resolveBlock block resolution).2
      (s.resolveBlock block resolution resetTs resolvedTs).2 := by
  unfold RoundRegisters.resolveBlock PoolStats.resolveBlock
  rw [h.isPending]
  split
  · have hretired := h.withPending (s.pendingBlocks.filter fun b => b.hash ≠ block.hash)
    rw [h.pending]
    dsimp only
    cases block.wonAtSubmit <;> cases resolution
    · refine (hretired.blockFound ?_ resetTs).congr rfl ?_
      · exact fun q => lt_of_eq_of_lt (by cases q <;> rfl) (hfits q)
      · exact fun q => by cases q <;> exact ⟨rfl, rfl⟩
    all_goals exact hretired.congr rfl fun q => by cases q <;> exact ⟨rfl, rfl⟩
  · exact h

/-- While the sums fit, a call takes the registers and the statistics to the same values. -/
theorem call (h : SameValues r s) {c : RoundCall RejectReason}
    (hfits : ∀ q : Quantity, s.recorded q + c.amount q.figure < 2 ^ 64) :
    SameValues (r.call c) (s.call c) := by
  have hlt : ∀ q, s.recorded q < 2 ^ 64 := fun q =>
    lt_of_le_of_lt (Nat.le_add_right _ _) (hfits q)
  cases c with
  | shareAccepted credit hashDifficulty => exact h.shareAccepted hfits
  | shareRejected reason => exact h.shareRejected hfits
  | blockFound now => exact h.blockFound hlt now
  | enrollPendingBlock block => exact h.enrollPendingBlock block
  | resolveBlock block resolution resetTs resolvedTs =>
    exact h.resolveBlock hlt block resolution resetTs resolvedTs

/-- While the sums fit, a run takes the registers and the statistics to the same values. -/
theorem run (h : SameValues r s) {calls : List (RoundCall RejectReason)}
    (hfits : ∀ q : Quantity, s.recorded q + amounts calls q.figure < 2 ^ 64) :
    SameValues (r.run calls) (calls.foldl PoolStats.call s) := by
  induction calls generalizing r s with
  | nil => exact h
  | cons c calls ih =>
    have hstep : ∀ q : Quantity, s.recorded q + c.amount q.figure < 2 ^ 64 := by
      intro q
      have hq := hfits q
      rw [amounts_cons] at hq
      omega
    refine ih (h.call hstep) fun q => ?_
    have hq := hstep q
    rw [← h.recorded] at hq
    have hle := RoundRegisters.recorded_call_le hq
    have hall := hfits q
    rw [amounts_cons, ← h.recorded] at hall
    rw [← (h.call hstep).recorded]
    omega

end SameValues

/-- What a file holds about the round, as it is read at boot. -/
def Database.persistedRound (db : Database) : PersistedRound RejectReason where
  sharesAccepted := .ofNat db.round.stats.sharesAccepted
  sharesRejected := .ofNat db.round.stats.sharesRejected
  work := .ofNat db.round.stats.work
  rejectReasons := fun reason => .ofNat (db.round.rejectReasons reason)
  pendingBlocks := loadPendingBlocks db.foundBlocks

/-- A boot on a file whose totals fit starts both on the same values. -/
theorem sameValues_fromPersisted {db : Database} (hfits : ∀ q, db.round.total q < 2 ^ 64)
    (wallNow : ℕ) :
    SameValues (.fromPersisted db.persistedRound) (PoolStats.fromPersisted db wallNow) where
  pending := rfl
  recorded q := by
    have hq := UInt64.toNat_ofNat_of_lt' (hfits q)
    cases q <;> exact hq
  offset q := by cases q <;> rfl

/-- From boot on, as long as the sums fit, the statistics have the totals that are shown. -/
theorem toNat_figure_run {db : Database} {calls : List (RoundCall RejectReason)}
    (hfits : ∀ q, db.round.total q + amounts calls q.figure < 2 ^ 64) (wallNow : ℕ)
    (q : Quantity) :
    (((RoundRegisters.fromPersisted db.persistedRound).run calls).figure q.figure).toNat =
      (calls.foldl PoolStats.call (PoolStats.fromPersisted db wallNow)).roundTotal q := by
  have hboot : SameValues (.fromPersisted db.persistedRound) (PoolStats.fromPersisted db wallNow) :=
    sameValues_fromPersisted (fun q => lt_of_le_of_lt (Nat.le_add_right _ _) (hfits q)) wallNow
  have hstart : ∀ q : Quantity, (PoolStats.fromPersisted db wallNow).recorded q +
      amounts calls q.figure < 2 ^ 64 := by
    intro q
    have hrecorded : (PoolStats.fromPersisted db wallNow).recorded q = db.round.total q := by
      cases q <;> rfl
    rw [hrecorded]
    exact hfits q
  have hrun := hboot.run hstart
  refine hrun.toNat_figure ?_
  rw [← hrun.recorded]
  refine RoundRegisters.recorded_run_lt ?_
  rw [hboot.recorded]
  exact hstart q

end BtcPool.Stats
