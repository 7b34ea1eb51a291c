import BtcPool.Foundations.Histories
import BtcPool.Mining.Difficulty
import Mathlib.Data.List.DropRight
import Mathlib.Order.Bounds.Basic

/-!
# Histories of credited shares

`ShareCredit` keeps two counters, a time and a flag, which three events reset: a change of the
assigned difficulty, the verdict that the session ignores it, and the end of that verdict. What they
stand for is a matter of all the calls so far:

* the time is the latest of the creation, the changes and the ends of a verdict (`graceStarts`);
* while the session is trusted, the first counter counts no more than the shares that were too low
  and came later than the grace period after that time;
* while it is not, the second counter is the number of shares in a row that were good enough, up to
  the last one, since the verdict.

`Tracked` is this invariant, and `tracked_after` carries it through every sequence of calls.
`credit_history` reads off what a verdict and its end say about the shares.
-/

namespace BtcPool

open History

/-- One accepted share, as `credit` is told of it. -/
structure CreditCall where
  assigned : UInt64
  jobDifficulty : UInt64
  hashDifficulty : UInt64
  now : Instant
deriving DecidableEq

namespace CreditCall

variable (floor : UInt64) (call : CreditCall)

/-- The difficulty the share had to clear. -/
def effective : UInt64 := max (min call.assigned call.jobDifficulty) (max floor 1)

/-- The share reached its effective difficulty, but for one percent. -/
def meets : Bool := decide ((call.effective floor).toNat * 99 ≤ call.hashDifficulty.toNat * 100)

/-- The share did not, and came later than the grace period after the time `t`. -/
def isEvidence (t : Instant) : Bool :=
  !call.meets floor && decide (t + ShareCredit.retargetGrace < call.now)

end CreditCall

namespace ShareCredit

/-! ## One call -/

/-- The state after a call. -/
def step (c : ShareCredit) (call : CreditCall) : ShareCredit :=
  (c.credit call.assigned call.jobDifficulty call.hashDifficulty call.now).2

section Noted

variable (c : ShareCredit) (assigned : UInt64) (now : Instant)

@[simp] theorem noteAssigned_floor : (c.noteAssigned assigned now).floor = c.floor := by
  unfold noteAssigned
  split <;> rfl

@[simp] theorem noteAssigned_assigned : (c.noteAssigned assigned now).assigned = assigned := by
  unfold noteAssigned
  split
  · rfl
  · rename_i hsame
    exact (not_not.mp hsame).symm

@[simp] theorem noteAssigned_redeeming : (c.noteAssigned assigned now).redeeming = c.redeeming := by
  unfold noteAssigned
  split <;> rfl

@[simp] theorem noteAssigned_honorsAssigned :
    (c.noteAssigned assigned now).honorsAssigned = c.honorsAssigned := by
  unfold noteAssigned
  split <;> rfl

end Noted

/-- What the verdict on one share can be. -/
inductive Judged (c : ShareCredit) (now : Instant) : Bool → ShareCredit → Prop
  /-- A trusted session stays as it is after a good share, or within the grace period. -/
  | quiet {m : Bool} (htrusted : c.honorsAssigned = true)
      (hgood : m = true ∨ ¬ retargetGrace < now - c.assignedAt) : Judged c now m c
  /-- One more low share is noted. -/
  | noted (htrusted : c.honorsAssigned = true) (hlate : retargetGrace < now - c.assignedAt)
      (hfew : c.belowAssigned + 1 < evidenceShares) :
      Judged c now false { c with belowAssigned := c.belowAssigned + 1 }
  /-- The low share is one too many. -/
  | condemned (htrusted : c.honorsAssigned = true) (hlate : retargetGrace < now - c.assignedAt)
      (hmany : evidenceShares ≤ c.belowAssigned + 1) :
      Judged c now false
        { c with belowAssigned := c.belowAssigned + 1, honorsAssigned := false, redeeming := 0 }
  /-- One more good share of a session that is not trusted. -/
  | improved (hflagged : c.honorsAssigned = false) (hfew : c.redeeming + 1 < redeemShares) :
      Judged c now true { c with redeeming := c.redeeming + 1 }
  /-- The good share ends the verdict. -/
  | redeemed (hflagged : c.honorsAssigned = false) (hmany : redeemShares ≤ c.redeeming + 1) :
      Judged c now true
        { c with redeeming := c.redeeming + 1, honorsAssigned := true, belowAssigned := 0,
                 assignedAt := now }
  /-- A low share of such a session starts the count again. -/
  | relapsed (hflagged : c.honorsAssigned = false) : Judged c now false { c with redeeming := 0 }

theorem judged_judge (c : ShareCredit) (m : Bool) (now : Instant) :
    Judged c now m (c.judge m now) := by
  unfold judge
  dsimp only
  split_ifs with htrusted hlow hmany hgood hmany
  · obtain ⟨hm, hlate⟩ := hlow
    obtain rfl : m = false := by simpa using hm
    exact .condemned htrusted hlate hmany
  · obtain ⟨hm, hlate⟩ := hlow
    obtain rfl : m = false := by simpa using hm
    exact .noted htrusted hlate (not_le.mp hmany)
  · refine .quiet htrusted ?_
    by_cases hm : m = true
    · exact Or.inl hm
    · exact Or.inr fun hlate => hlow ⟨hm, hlate⟩
  · subst hgood
    exact .redeemed (by simpa using htrusted) hmany
  · subst hgood
    exact .improved (by simpa using htrusted) (not_le.mp hmany)
  · obtain rfl : m = false := by simpa using hgood
    exact .relapsed (by simpa using htrusted)

namespace Judged

variable {c c' : ShareCredit} {m : Bool} {now : Instant}

theorem floor_eq (h : Judged c now m c') : c'.floor = c.floor := by
  cases h <;> rfl

theorem assigned_eq (h : Judged c now m c') : c'.assigned = c.assigned := by
  cases h <;> rfl

/-- Only the end of a verdict moves the start of the grace period. -/
theorem assignedAt_eq (h : Judged c now m c')
    (hkeeps : ¬ (c.honorsAssigned = false ∧ c'.honorsAssigned = true)) :
    c'.assignedAt = c.assignedAt := by
  cases h with
  | redeemed hflagged => exact absurd ⟨hflagged, rfl⟩ hkeeps
  | quiet | noted | condemned | improved | relapsed => rfl

theorem of_redeemed (h : Judged c now m c') (hflagged : c.honorsAssigned = false)
    (htrusted : c'.honorsAssigned = true) : c'.assignedAt = now ∧ c'.belowAssigned = 0 := by
  cases h with
  | redeemed => exact ⟨rfl, rfl⟩
  | quiet | noted | condemned | improved | relapsed => simp_all

/-- The count of low shares grows only with a low share after the grace period. -/
theorem belowAssigned_le (h : Judged c now m c') (htrusted : c.honorsAssigned = true) :
    c'.belowAssigned ≤ c.belowAssigned +
      if m = false ∧ retargetGrace < now - c.assignedAt then 1 else 0 := by
  cases h with
  | quiet => exact Nat.le_add_right _ _
  | noted _ hlate | condemned _ hlate => rw [if_pos ⟨rfl, hlate⟩]
  | improved hflagged | redeemed hflagged | relapsed hflagged => simp_all

theorem of_condemned (h : Judged c now m c') (htrusted : c.honorsAssigned = true)
    (hflagged : c'.honorsAssigned = false) :
    m = false ∧ retargetGrace < now - c.assignedAt ∧ evidenceShares ≤ c.belowAssigned + 1 ∧
      c'.redeeming = 0 := by
  cases h with
  | condemned _ hlate hmany => exact ⟨rfl, hlate, hmany, rfl⟩
  | quiet | noted | improved | redeemed | relapsed => simp_all

theorem honorsAssigned_iff (h : Judged c now m c') (hflagged : c.honorsAssigned = false) :
    c'.honorsAssigned = true ↔ m = true ∧ redeemShares ≤ c.redeeming + 1 := by
  cases h with
  | improved _ hfew => simp [hflagged, hfew]
  | redeemed _ hmany => simp [hmany]
  | relapsed => simp [hflagged]
  | quiet | noted | condemned => simp_all

theorem redeeming_eq (h : Judged c now m c') (hflagged : c.honorsAssigned = false) :
    c'.redeeming = if m then c.redeeming + 1 else 0 := by
  cases h with
  | improved | redeemed | relapsed => rfl
  | quiet | noted | condemned => simp_all

end Judged

/-- A call notes a change of the assigned difficulty first, and then judges the share. -/
theorem judged_step {c : ShareCredit} {floor : UInt64} (hfloor : c.floor = max floor 1)
    (call : CreditCall) :
    Judged (c.noteAssigned call.assigned call.now) call.now (call.meets floor) (c.step call) := by
  have hmeets : call.meets floor =
      decide ((max (min (c.noteAssigned call.assigned call.now).assigned call.jobDifficulty)
        (c.noteAssigned call.assigned call.now).floor).toNat * 99 ≤
          call.hashDifficulty.toNat * 100) := by
    rw [noteAssigned_assigned, noteAssigned_floor, hfloor]
    rfl
  rw [hmeets]
  exact judged_judge _ _ _

/-- What is credited: the effective difficulty while the session is trusted, the floor otherwise. -/
theorem credit_fst {c : ShareCredit} {floor : UInt64} (hfloor : c.floor = max floor 1)
    (call : CreditCall) :
    (c.credit call.assigned call.jobDifficulty call.hashDifficulty call.now).1 =
      if (c.step call).honorsAssigned then call.effective floor else max floor 1 := by
  have heffective : call.effective floor = max (min (c.noteAssigned call.assigned call.now).assigned
      call.jobDifficulty) (c.noteAssigned call.assigned call.now).floor := by
    rw [noteAssigned_assigned, noteAssigned_floor, hfloor]
    rfl
  have hkeeps : (c.step call).floor = max floor 1 := by
    rw [(judged_step hfloor call).floor_eq, noteAssigned_floor, hfloor]
  rw [heffective, ← hkeeps]
  rfl

/-! ## The history -/

section History

variable (floor : UInt64) (start : Instant)

/-- The state after the calls, for a session created at `start`. -/
def after (calls : List CreditCall) : ShareCredit := calls.foldl step (new floor start)

theorem after_concat (past : List CreditCall) (call : CreditCall) :
    after floor start (past ++ [call]) = (after floor start past).step call := by
  simp [after]

/-- The session is trusted after the calls. -/
def Honors (calls : List CreditCall) : Prop := (after floor start calls).honorsAssigned = true

instance (calls : List CreditCall) : Decidable (Honors floor start calls) :=
  inferInstanceAs (Decidable (_ = true))

/-- The difficulty assigned with the last call, and none before the first. -/
def lastAssigned (past : List CreditCall) : UInt64 := (past.getLast?.map (·.assigned)).getD 0

/-- The call comes with a difficulty other than the one before it. -/
def Changes (past : List CreditCall) (call : CreditCall) : Prop := call.assigned ≠ lastAssigned past

/-- The session is newly judged to ignore its difficulty. -/
def Judges (past : List CreditCall) (call : CreditCall) : Prop :=
  Honors floor start past ∧ ¬ Honors floor start (past ++ [call])

/-- The session is trusted again. -/
def Retrusts (past : List CreditCall) (call : CreditCall) : Prop :=
  ¬ Honors floor start past ∧ Honors floor start (past ++ [call])

/-- The times the grace period is counted from: the creation, the changes of the assigned difficulty
and the calls that redeemed the session. -/
def graceStarts (calls : List CreditCall) : Set Instant :=
  {t | t = start ∨ ∃ past call, Occurs calls past call ∧
    (Changes past call ∨ Retrusts floor start past call) ∧ t = call.now}

/-- The calls of a session that is not trusted: up to the verdict, the verdict, and since then. -/
structure Flagged (calls before : List CreditCall) (verdict : CreditCall)
    (since : List CreditCall) : Prop where
  split : calls = before ++ verdict :: since
  judged : Judges floor start before verdict
  flagged : ∀ part, part <+: since → ¬ Honors floor start (before ++ verdict :: part)

/-- How many of the last calls met their effective difficulty in a row. -/
def goodRun (since : List CreditCall) : ℕ := (since.rtakeWhile (CreditCall.meets floor)).length

/-- What the state says about the calls so far. -/
structure Tracked (past : List CreditCall) : Prop where
  floor_eq : (after floor start past).floor = max floor 1
  assigned_eq : (after floor start past).assigned = lastAssigned past
  greatest : IsGreatest (graceStarts floor start past) (after floor start past).assignedAt
  evidence : Honors floor start past → (after floor start past).belowAssigned ≤
    past.countP (CreditCall.isEvidence floor · (after floor start past).assignedAt)
  flagged : ¬ Honors floor start past → ∃ before verdict since,
    Flagged floor start past before verdict since ∧
      (after floor start past).redeeming = goodRun floor since ∧ goodRun floor since < redeemShares

variable {floor start} {past : List CreditCall} {call : CreditCall}

theorem graceStarts_concat : graceStarts floor start (past ++ [call]) =
    graceStarts floor start past ∪
      {t | (Changes past call ∨ Retrusts floor start past call) ∧ t = call.now} := by
  ext t
  constructor
  · rintro (rfl | ⟨before, other, hoccurs, hevent, rfl⟩)
    · exact Or.inl (Or.inl rfl)
    · rcases occurs_concat.mp hoccurs with ⟨rfl, rfl⟩ | hoccurs
      · exact Or.inr ⟨hevent, rfl⟩
      · exact Or.inl (Or.inr ⟨before, other, hoccurs, hevent, rfl⟩)
  · rintro ((rfl | ⟨before, other, hoccurs, hevent, rfl⟩) | ⟨hevent, rfl⟩)
    · exact Or.inl rfl
    · exact Or.inr ⟨before, other, occurs_concat.mpr (Or.inr hoccurs), hevent, rfl⟩
    · exact Or.inr ⟨past, call, occurs_concat.mpr (Or.inl ⟨rfl, rfl⟩), hevent, rfl⟩

theorem le_now_of_mem_graceStarts (horder : Ordered CreditCall.now start (past ++ [call]))
    {t : Instant} (ht : t ∈ graceStarts floor start past) : t ≤ call.now := by
  refine horder.le_time ?_
  rcases ht with rfl | ⟨before, other, hoccurs, -, rfl⟩
  · exact List.mem_cons_self
  · exact List.mem_cons_of_mem _ (List.mem_map_of_mem hoccurs.mem)

/-- A change or a redemption starts the grace period anew, and no other call does. -/
theorem isGreatest_concat {t : Instant} (horder : Ordered CreditCall.now start (past ++ [call]))
    (h : IsGreatest (graceStarts floor start past) t) :
    ((Changes past call ∨ Retrusts floor start past call) →
      IsGreatest (graceStarts floor start (past ++ [call])) call.now) ∧
    (¬ (Changes past call ∨ Retrusts floor start past call) →
      IsGreatest (graceStarts floor start (past ++ [call])) t) := by
  rw [graceStarts_concat]
  refine ⟨fun hevent => ⟨Or.inr ⟨hevent, rfl⟩, ?_⟩, fun hnone => ⟨Or.inl h.1, ?_⟩⟩
  · rintro u (hu | ⟨-, rfl⟩)
    · exact le_now_of_mem_graceStarts horder hu
    · exact le_rfl
  · rintro u (hu | ⟨hevent, -⟩)
    · exact h.2 hu
    · exact absurd hevent hnone

/-! ## The invariant -/

theorem tracked_nil : Tracked floor start [] where
  floor_eq := rfl
  assigned_eq := rfl
  greatest := by
    refine ⟨Or.inl rfl, ?_⟩
    rintro t (rfl | ⟨before, other, hoccurs, -⟩)
    · exact le_rfl
    · exact absurd hoccurs not_occurs_nil
  evidence := fun _ => le_rfl
  flagged := fun h => absurd rfl h

/-- The state in which the share of the next call is judged. -/
def noted (floor : UInt64) (start : Instant) (past : List CreditCall) (call : CreditCall) :
    ShareCredit :=
  (after floor start past).noteAssigned call.assigned call.now

theorem Tracked.judged (h : Tracked floor start past) (call : CreditCall) :
    Judged (noted floor start past call) call.now (call.meets floor)
      (after floor start (past ++ [call])) := by
  rw [after_concat]
  exact judged_step h.floor_eq call

theorem honorsAssigned_noted :
    (noted floor start past call).honorsAssigned = (after floor start past).honorsAssigned :=
  noteAssigned_honorsAssigned _ _ _

theorem Honors.noted (h : Honors floor start past) :
    (noted floor start past call).honorsAssigned = true := by
  rw [honorsAssigned_noted]
  exact h

theorem honorsAssigned_noted_eq_false (h : ¬ Honors floor start past) :
    (noted floor start past call).honorsAssigned = false := by
  rw [honorsAssigned_noted]
  exact Bool.eq_false_of_not_eq_true h

/-- Unless the call redeems the session, the noted time is the start of the grace period. -/
theorem Tracked.greatest_noted (h : Tracked floor start past)
    (horder : Ordered CreditCall.now start (past ++ [call]))
    (hkeeps : ¬ Retrusts floor start past call) :
    IsGreatest (graceStarts floor start (past ++ [call]))
      (noted floor start past call).assignedAt := by
  obtain ⟨hnew, hold⟩ := isGreatest_concat horder h.greatest
  unfold noted noteAssigned
  rw [h.assigned_eq]
  split
  · rename_i hchange
    exact hnew (Or.inl hchange)
  · rename_i hsame
    exact hold (not_or.mpr ⟨hsame, hkeeps⟩)

/-- The noted count is one of low shares in the past, later than the grace period. -/
theorem Tracked.evidence_noted (h : Tracked floor start past) (htrusted : Honors floor start past) :
    (noted floor start past call).belowAssigned ≤
      past.countP (CreditCall.isEvidence floor · (noted floor start past call).assignedAt) := by
  unfold noted noteAssigned
  split
  · exact Nat.zero_le _
  · exact h.evidence htrusted

theorem isEvidence_of_late {t : Instant} (hlow : call.meets floor = false)
    (hlate : retargetGrace < call.now - t) : call.isEvidence floor t = true := by
  have : t + retargetGrace < call.now := Nat.add_lt_of_lt_sub' hlate
  simp [CreditCall.isEvidence, hlow, this]

theorem goodRun_concat_of_meets {since : List CreditCall} (hgood : call.meets floor = true) :
    goodRun floor (since ++ [call]) = goodRun floor since + 1 := by
  unfold goodRun
  rw [List.rtakeWhile_concat_pos _ _ _ hgood, List.length_append, List.length_singleton]

theorem goodRun_concat_of_low {since : List CreditCall} (hlow : call.meets floor = false) :
    goodRun floor (since ++ [call]) = 0 := by
  unfold goodRun
  rw [List.rtakeWhile_concat_neg _ _ _ (by simp [hlow]), List.length_nil]

/-- While the session stays flagged, the calls since the verdict go on. -/
theorem Flagged.concat {before since : List CreditCall} {verdict : CreditCall}
    (h : Flagged floor start past before verdict since)
    (hstill : ¬ Honors floor start (past ++ [call])) :
    Flagged floor start (past ++ [call]) before verdict (since ++ [call]) := by
  have hsplit : past ++ [call] = before ++ verdict :: (since ++ [call]) := by simp [h.split]
  refine ⟨hsplit, h.judged, fun part hpart => ?_⟩
  rcases List.prefix_concat_iff.mp hpart with rfl | hpart
  · rwa [← hsplit]
  · exact h.flagged part hpart

/-- The verdict itself begins the calls of a flagged session. -/
theorem Judges.flagged (h : Judges floor start past call) :
    Flagged floor start (past ++ [call]) past call [] := by
  refine ⟨rfl, h, fun part hpart => ?_⟩
  rw [List.prefix_nil.mp hpart]
  exact h.2

theorem Tracked.greatest_concat (h : Tracked floor start past)
    (horder : Ordered CreditCall.now start (past ++ [call])) :
    IsGreatest (graceStarts floor start (past ++ [call]))
      (after floor start (past ++ [call])).assignedAt := by
  have hjudged := h.judged call
  by_cases hre : Retrusts floor start past call
  · rw [(hjudged.of_redeemed (honorsAssigned_noted_eq_false hre.1) hre.2).1]
    exact (isGreatest_concat horder h.greatest).1 (Or.inr hre)
  · rw [hjudged.assignedAt_eq]
    · exact h.greatest_noted horder hre
    · rintro ⟨hflagged, htrusted⟩
      rw [honorsAssigned_noted] at hflagged
      exact hre ⟨by simp [Honors, hflagged], htrusted⟩

theorem Tracked.evidence_concat (h : Tracked floor start past)
    (htrusted : Honors floor start (past ++ [call])) :
    (after floor start (past ++ [call])).belowAssigned ≤ (past ++ [call]).countP
      (CreditCall.isEvidence floor · (after floor start (past ++ [call])).assignedAt) := by
  have hjudged := h.judged call
  by_cases hbefore : Honors floor start past
  · have hnoted : (noted floor start past call).honorsAssigned = true := hbefore.noted
    have hat : (after floor start (past ++ [call])).assignedAt =
        (noted floor start past call).assignedAt := hjudged.assignedAt_eq (by simp [hnoted])
    rw [hat, List.countP_append]
    refine (hjudged.belowAssigned_le hnoted).trans (Nat.add_le_add (h.evidence_noted hbefore) ?_)
    -- the call is counted when the state counts it
    split
    · rename_i hlow
      simp [isEvidence_of_late hlow.1 hlow.2]
    · exact Nat.zero_le _
  · rw [(hjudged.of_redeemed (honorsAssigned_noted_eq_false hbefore) htrusted).2]
    exact Nat.zero_le _

/-- The run of good shares in the state, after a call of a session that was not trusted. -/
theorem Tracked.redeeming_concat (h : Tracked floor start past)
    (hbefore : ¬ Honors floor start past) {since : List CreditCall}
    (hrun : (after floor start past).redeeming = goodRun floor since) :
    (after floor start (past ++ [call])).redeeming = goodRun floor (since ++ [call]) ∧
      (Honors floor start (past ++ [call]) ↔ redeemShares ≤ goodRun floor (since ++ [call])) := by
  have hjudged := h.judged call
  have hflagged : (noted floor start past call).honorsAssigned = false :=
    honorsAssigned_noted_eq_false hbefore
  have hnoted : (noted floor start past call).redeeming = goodRun floor since := by
    rw [← hrun]
    exact noteAssigned_redeeming _ _ _
  rw [hjudged.redeeming_eq hflagged, Honors, hjudged.honorsAssigned_iff hflagged, hnoted]
  cases hmeets : call.meets floor with
  | true =>
    rw [goodRun_concat_of_meets hmeets]
    simp
  | false =>
    rw [goodRun_concat_of_low hmeets]
    simp [redeemShares]

theorem Tracked.flagged_concat (h : Tracked floor start past)
    (hflagged : ¬ Honors floor start (past ++ [call])) :
    ∃ before verdict since, Flagged floor start (past ++ [call]) before verdict since ∧
      (after floor start (past ++ [call])).redeeming = goodRun floor since ∧
        goodRun floor since < redeemShares := by
  by_cases hbefore : Honors floor start past
  · refine ⟨past, call, [], Judges.flagged ⟨hbefore, hflagged⟩, ?_, by simp [goodRun, redeemShares]⟩
    exact ((h.judged call).of_condemned hbefore.noted
      (Bool.eq_false_of_not_eq_true hflagged)).2.2.2
  · obtain ⟨before, verdict, since, hsince, hrun, -⟩ := h.flagged hbefore
    obtain ⟨hrun', hiff⟩ := h.redeeming_concat hbefore hrun
    exact ⟨before, verdict, since ++ [call], hsince.concat hflagged, hrun',
      not_le.mp fun hle => hflagged (hiff.mpr hle)⟩

theorem Tracked.concat (h : Tracked floor start past)
    (horder : Ordered CreditCall.now start (past ++ [call])) :
    Tracked floor start (past ++ [call]) where
  floor_eq := by
    rw [(h.judged call).floor_eq, ← h.floor_eq]
    exact noteAssigned_floor _ _ _
  assigned_eq := by
    rw [(h.judged call).assigned_eq]
    simp [noted, lastAssigned]
  greatest := h.greatest_concat horder
  evidence := h.evidence_concat
  flagged := h.flagged_concat

/-- The state of every session stands for its calls. -/
theorem tracked_after {calls : List CreditCall} (horder : Ordered CreditCall.now start calls) :
    Tracked floor start calls := by
  induction calls using List.reverseRecOn with
  | nil => exact tracked_nil
  | append_singleton past call ih => exact (ih horder.of_concat).concat horder

/-! ## What a verdict and its end say -/

/-- A verdict rests on three low shares, all later than the grace period after the latest start. -/
theorem Judges.evidence (h : Judges floor start past call)
    (horder : Ordered CreditCall.now start (past ++ [call])) :
    ∃ t, IsGreatest (graceStarts floor start (past ++ [call])) t ∧ call.isEvidence floor t = true ∧
      2 ≤ past.countP (CreditCall.isEvidence floor · t) := by
  have htracked : Tracked floor start past := tracked_after horder.of_concat
  obtain ⟨hlow, hlate, hmany, -⟩ :=
    (htracked.judged call).of_condemned h.1.noted (Bool.eq_false_of_not_eq_true h.2)
  refine ⟨_, htracked.greatest_noted horder (fun hre => hre.1 h.1),
    isEvidence_of_late hlow hlate, ?_⟩
  have hcount : (noted floor start past call).belowAssigned ≤ _ := htracked.evidence_noted h.1
  have : 2 ≤ (noted floor start past call).belowAssigned := by
    unfold evidenceShares at hmany
    omega
  exact this.trans hcount

/-- A session that is not trusted is trusted again with the last good share of a full run. -/
theorem honors_iff_goodRun (horder : Ordered CreditCall.now start (past ++ [call]))
    (hbefore : ¬ Honors floor start past) :
    ∃ before verdict since, Flagged floor start past before verdict since ∧
      (Honors floor start (past ++ [call]) ↔ goodRun floor (since ++ [call]) = redeemShares) := by
  have htracked : Tracked floor start past := tracked_after horder.of_concat
  obtain ⟨before, verdict, since, hsince, hrun, hfew⟩ := htracked.flagged hbefore
  refine ⟨before, verdict, since, hsince, ?_⟩
  rw [(htracked.redeeming_concat hbefore hrun).2]
  have hgrow : goodRun floor (since ++ [call]) ≤ goodRun floor since + 1 := by
    cases hmeets : call.meets floor with
    | true => exact (goodRun_concat_of_meets hmeets).le
    | false => exact (goodRun_concat_of_low hmeets).trans_le (Nat.zero_le _)
  omega

/-- A session that only ever sends good shares is never judged. -/
theorem honors_of_meets {calls : List CreditCall} (horder : Ordered CreditCall.now start calls)
    (hgood : ∀ call ∈ calls, call.meets floor = true) : Honors floor start calls := by
  induction calls using List.reverseRecOn with
  | nil => rfl
  | append_singleton past call ih =>
    have hbefore := ih horder.of_concat fun other hmem => hgood other (List.mem_append_left _ hmem)
    by_contra hflagged
    have hlow := (((tracked_after horder.of_concat).judged call).of_condemned hbefore.noted
      (Bool.eq_false_of_not_eq_true hflagged)).1
    have hmeets := hgood call (by simp)
    rw [hlow] at hmeets
    exact Bool.false_ne_true hmeets

end History

/-- What the next call credits and decides, after any calls in the order of their times. -/
theorem credit_history (floor : UInt64) (start : Instant) (past : List CreditCall)
    (call : CreditCall) (horder : Ordered CreditCall.now start (past ++ [call])) :
    let credited := ((after floor start past).credit call.assigned call.jobDifficulty
      call.hashDifficulty call.now).1
    (credited = max floor 1 ∨ credited = call.effective floor) ∧
      (Judges floor start past call →
        ∃ t, IsGreatest (graceStarts floor start (past ++ [call])) t ∧
          call.isEvidence floor t = true ∧ 2 ≤ past.countP (CreditCall.isEvidence floor · t)) ∧
      (¬ Honors floor start past →
        ∃ before verdict since, Flagged floor start past before verdict since ∧
          (Honors floor start (past ++ [call]) ↔ goodRun floor (since ++ [call]) = redeemShares)) ∧
      ((∀ share ∈ past ++ [call], share.meets floor = true) →
        Honors floor start (past ++ [call]) ∧ credited = call.effective floor) := by
  intro credited
  have htracked : Tracked floor start past := tracked_after horder.of_concat
  have hcredited : credited = _ := credit_fst htracked.floor_eq call
  rw [← after_concat] at hcredited
  refine ⟨?_, fun h => h.evidence horder, honors_iff_goodRun horder, fun hgood => ?_⟩
  · rw [hcredited]
    split
    · exact Or.inr rfl
    · exact Or.inl rfl
  · have htrusted := honors_of_meets horder hgood
    exact ⟨htrusted, hcredited.trans (if_pos htrusted)⟩

/-- A session that is told 1000 and keeps sending shares of difficulty one. -/
def lowCalls : List CreditCall :=
  [⟨1000, 1000, 1000, 0⟩, ⟨1000, 1000, 1, secs 40⟩, ⟨1000, 1000, 1, secs 50⟩]

theorem credit_history_low :
    Judges 1 0 lowCalls ⟨1000, 1000, 1, secs 60⟩ ∧
      ∃ t, IsGreatest (graceStarts 1 0 (lowCalls ++ [⟨1000, 1000, 1, secs 60⟩])) t ∧
        2 ≤ lowCalls.countP (CreditCall.isEvidence 1 · t) := by
  have hjudges : Judges 1 0 lowCalls ⟨1000, 1000, 1, secs 60⟩ := ⟨by decide, by decide⟩
  have horder : Ordered CreditCall.now 0 (lowCalls ++ [⟨1000, 1000, 1, secs 60⟩]) := by decide
  obtain ⟨-, hverdict, -⟩ := credit_history 1 0 lowCalls ⟨1000, 1000, 1, secs 60⟩ horder
  obtain ⟨t, hgreatest, -, hlow⟩ := hverdict hjudges
  exact ⟨hjudges, t, hgreatest, hlow⟩

end ShareCredit

end BtcPool
