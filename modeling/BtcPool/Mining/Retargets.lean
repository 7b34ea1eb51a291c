import BtcPool.Mining.SessionCore

/-!
# What a retarget may assign

`Vardiff.checkRetarget` clamps the optimum three times: to the retarget factor, to the floor and to
the ceiling. `Retarget` names its outcomes, `checkRetarget_eq` says what each of them does, and
`of_retarget_changed` what it takes to change the difficulty. Whatever the estimated rate, the
difficulty it assigns lies between the floor and the ceiling (`checkRetarget_cases`); the ceiling is
never below the floor.

`InRange` is the range a difficulty should lie in while a template is held: from the floor to the
operator's ceiling or the difficulty of the block, whichever is smaller, but not below the floor. It
is stated with the exact difficulty of the template. `Vardiff.ceiling` does not see that difficulty
when it is below one, so a retarget keeps to the range only for a template whose difficulty is at
least one (`inRange_of_le_top`).
-/

namespace BtcPool

open Bitcoin

/-! ## Rounding and clamping -/

theorem toNat_roundU64 (x : ℚ) :
    (roundU64 x).toNat = min (x + 1 / 2).floor.toNat (2 ^ 64 - 1) := by
  rw [roundU64, UInt64.toNat_ofNat']
  exact Nat.mod_eq_of_lt (by omega)

theorem roundU64_natCast (n : UInt64) : (roundU64 (n.toNat : ℚ)).toNat = n.toNat := by
  have hfloor : ((n.toNat : ℚ) + 1 / 2).floor = n.toNat := by
    change ⌊(n.toNat : ℚ) + 1 / 2⌋ = _
    rw [Int.floor_eq_iff]
    constructor <;> push_cast <;> linarith
  have hlt := n.toNat_lt
  rw [toNat_roundU64, hfloor, Int.toNat_natCast]
  omega

theorem roundU64_mono {x y : ℚ} (h : x ≤ y) : (roundU64 x).toNat ≤ (roundU64 y).toNat := by
  have hfloor : ⌊x + 1 / 2⌋ ≤ ⌊y + 1 / 2⌋ := Int.floor_mono (by linarith)
  have hnat : (x + 1 / 2).floor.toNat ≤ (y + 1 / 2).floor.toNat := Int.toNat_le_toNat hfloor
  rw [toNat_roundU64, toNat_roundU64]
  omega

theorem toNat_max (a b : UInt64) : (max a b).toNat = max a.toNat b.toNat := by
  change (if a ≤ b then b else a).toNat = _
  split_ifs with h <;> rw [UInt64.le_iff_toNat_le] at h <;> omega

theorem toNat_min (a b : UInt64) : (min a b).toNat = min a.toNat b.toNat := by
  change (if a ≤ b then a else b).toNat = _
  split_ifs with h <;> rw [UInt64.le_iff_toNat_le] at h <;> omega

theorem clampRat_mem {x low high : ℚ} (h : low ≤ high) :
    low ≤ clampRat x low high ∧ clampRat x low high ≤ high := by
  unfold clampRat
  split_ifs with h1 h2
  · exact ⟨le_rfl, h⟩
  · exact ⟨h, le_rfl⟩
  · exact ⟨not_lt.mp h1, not_lt.mp h2⟩

theorem clampU64_mem {x low high : UInt64} (h : low ≤ high) :
    low ≤ clampU64 x low high ∧ clampU64 x low high ≤ high := by
  unfold clampU64
  split_ifs with h1 h2
  · exact ⟨UInt64.le_refl _, h⟩
  · exact ⟨h, UInt64.le_refl _⟩
  · exact ⟨UInt64.not_lt.mp h1, UInt64.not_lt.mp h2⟩

/-! ## Retargets -/

/-- The highest difficulty a retarget may assign. -/
def VardiffConfig.top (cfg : VardiffConfig) (network : Option UInt64) : UInt64 :=
  max (match network with
    | some network => min cfg.maxDifficulty network
    | none => cfg.maxDifficulty) cfg.minDifficulty

theorem VardiffConfig.toNat_top (cfg : VardiffConfig) (network : Option UInt64) :
    (cfg.top network).toNat = max (match network with
      | some network => min cfg.maxDifficulty.toNat network.toNat
      | none => cfg.maxDifficulty.toNat) cfg.minDifficulty.toNat := by
  unfold top
  rw [toNat_max]
  cases network with
  | none => rfl
  | some n =>
    dsimp only
    rw [toNat_min]

namespace Vardiff

theorem ceiling_eq (v : Vardiff) (network : Option UInt64) :
    v.ceiling network = v.cfg.top network :=
  rfl

/-- The outcomes of a retarget. -/
inductive Retarget
  /-- Too early, or nothing to estimate from. -/
  | quiet
  /-- The difficulty stays, with a fresh window. -/
  | reopened
  /-- The difficulty is not lowered on so few shares; the clock starts again. -/
  | held
  | changed (difficulty : UInt64)
deriving DecidableEq

/-- What `checkRetarget` decides. -/
def retarget (v : Vardiff) (now : Instant) (networkDifficulty : Option UInt64) (rate : Bool → ℚ) :
    Retarget :=
  match v.firstShare with
  | none => .quiet
  | some _ =>
    let hitShareTrigger := decide (v.retargetShares.toNat ≤ v.sharesSinceChange)
    if ¬ hitShareTrigger ∧ now - v.lastChange < secs v.cfg.retargetIntervalSecs.toNat then .quiet
    else
      let optimal := rate hitShareTrigger * v.cfg.targetShareTimeSecs.toNat
      let ratio := optimal / v.current.toNat
      if v.cfg.deadzoneLow < ratio ∧ ratio < v.cfg.deadzoneHigh then .reopened
      else
        let current : ℚ := v.current.toNat
        let factor := v.cfg.maxRetargetFactor
        let newDiff := roundU64 (clampRat (clampRat optimal (current / factor) (current * factor))
          v.cfg.minDifficulty.toNat (v.ceiling networkDifficulty).toNat)
        if newDiff < v.current ∧ v.sharesSinceChange ≤ 1 then .held
        else if newDiff = v.current then .reopened
        else .changed newDiff

/-- What an outcome tells the session, and what it does to the state. -/
def applyRetarget (v : Vardiff) (now : Instant) : Retarget → Option UInt64 × Vardiff
  | .quiet => (none, v)
  | .reopened => (none, v.openWindow now)
  | .held => (none, { v with lastChange := now })
  | .changed difficulty => (some difficulty, { v with current := difficulty }.openWindow now)

section Outcomes

variable (v : Vardiff) (now : Instant) (network : Option UInt64) (rate : Bool → ℚ)

theorem checkRetarget_eq :
    v.checkRetarget now network rate = v.applyRetarget now (v.retarget now network rate) := by
  unfold checkRetarget retarget
  cases hfirst : v.firstShare with
  | none => rfl
  | some first =>
    dsimp only
    split_ifs <;> simp only [applyRetarget, hfirst]

theorem checkRetarget_fst_eq_some {d : UInt64} :
    (v.checkRetarget now network rate).1 = some d ↔ v.retarget now network rate = .changed d := by
  rw [checkRetarget_eq]
  cases v.retarget now network rate <;> simp [applyRetarget]

variable {v now network rate}

/-- What a change takes: the interval or the shares, and two shares if it lowers the difficulty. The
new one lies between the floor and the ceiling. -/
theorem of_retarget_changed {d : UInt64} (h : v.retarget now network rate = .changed d) :
    (secs v.cfg.retargetIntervalSecs.toNat ≤ now - v.lastChange ∨
        v.retargetShares.toNat ≤ v.sharesSinceChange) ∧
      (d < v.current → 2 ≤ v.sharesSinceChange) ∧ d ≠ v.current ∧
      v.cfg.minDifficulty.toNat ≤ d.toNat ∧ d.toNat ≤ (v.cfg.top network).toNat := by
  unfold retarget at h
  split at h
  · cases h
  · dsimp only at h
    split_ifs at h with hearly hdead heased hsame
    obtain rfl := Retarget.changed.inj h
    have hfloor : ((v.cfg.minDifficulty.toNat : ℕ) : ℚ) ≤ (v.ceiling network).toNat := by
      rw [ceiling_eq, VardiffConfig.toNat_top]
      exact_mod_cast le_max_right _ _
    obtain ⟨hlow, hhigh⟩ := clampRat_mem (x := clampRat
      (rate (decide (v.retargetShares.toNat ≤ v.sharesSinceChange)) *
        v.cfg.targetShareTimeSecs.toNat)
      (v.current.toNat / v.cfg.maxRetargetFactor) (v.current.toNat * v.cfg.maxRetargetFactor))
        hfloor
    refine ⟨?_, fun hlower => ?_, hsame, ?_, ?_⟩
    · by_contra hnone
      obtain ⟨htime, hshares⟩ := not_or.mp hnone
      exact hearly ⟨by simpa using hshares, not_le.mp htime⟩
    · by_contra hfew
      exact heased ⟨hlower, by omega⟩
    · exact (roundU64_natCast _).symm.le.trans (roundU64_mono hlow)
    · exact (roundU64_mono hhigh).trans (roundU64_natCast _).le

end Outcomes

/-- A retarget leaves the difficulty as it is, or moves it to one between the floor and the ceiling.
It never changes the settings. -/
theorem checkRetarget_cases (v : Vardiff) (now : Instant) (network : Option UInt64)
    (rate : Bool → ℚ) :
    (v.checkRetarget now network rate).2.cfg = v.cfg ∧
    ((v.checkRetarget now network rate).1 = none ∧
        (v.checkRetarget now network rate).2.current = v.current ∨
      ∃ d, (v.checkRetarget now network rate).1 = some d ∧
        (v.checkRetarget now network rate).2.current = d ∧ d ≠ v.current ∧
        v.cfg.minDifficulty.toNat ≤ d.toNat ∧ d.toNat ≤ (v.cfg.top network).toNat) := by
  rw [checkRetarget_eq]
  cases hout : v.retarget now network rate with
  | quiet | reopened | held => exact ⟨rfl, Or.inl ⟨rfl, rfl⟩⟩
  | changed d =>
    obtain ⟨-, -, hne, hlow, hhigh⟩ := of_retarget_changed hout
    exact ⟨rfl, Or.inr ⟨d, rfl, rfl, hne, hlow, hhigh⟩⟩

end Vardiff

/-! ## The range -/

/-- The difficulty of the block of a template, in exact arithmetic; none if no template is held or
its bits have none. -/
def exactDifficulty : Option JobTemplate → Option ℚ
  | none => none
  | some template => (bitsToDifficulty template.bits).toOption

/-- The range for the difficulty of a session while the template is held. -/
structure InRange (cfg : VardiffConfig) (template : Option JobTemplate) (d : UInt64) : Prop where
  floor : cfg.minDifficulty.toNat ≤ d.toNat
  ceiling : d.toNat ≤ max cfg.minDifficulty.toNat cfg.maxDifficulty.toNat
  network : ∀ n, exactDifficulty template = some n →
    (d.toNat : ℚ) ≤ max (cfg.minDifficulty.toNat : ℚ) n

instance (cfg : VardiffConfig) (template : Option JobTemplate) (d : UInt64) :
    Decidable (InRange cfg template d) :=
  decidable_of_iff (cfg.minDifficulty.toNat ≤ d.toNat ∧
      d.toNat ≤ max cfg.minDifficulty.toNat cfg.maxDifficulty.toNat ∧
      ∀ n ∈ exactDifficulty template, (d.toNat : ℚ) ≤ max (cfg.minDifficulty.toNat : ℚ) n)
    ⟨fun h => ⟨h.1, h.2.1, h.2.2⟩, fun h => ⟨h.floor, h.ceiling, h.network⟩⟩

/-- The pool sees the difficulty of the template: it is not below one. -/
def AtLeastOne (template : JobTemplate) : Prop :=
  ∀ n, exactDifficulty (some template) = some n → 1 ≤ n

instance (template : JobTemplate) : Decidable (AtLeastOne template) :=
  inferInstanceAs (Decidable (∀ n ∈ exactDifficulty (some template), 1 ≤ n))

/-- What the pool takes for the difficulty of the block is at most that. -/
theorem networkDifficulty_le {template : Option JobTemplate} {n : ℚ}
    (h : exactDifficulty template = some n) (hone : 1 ≤ n) :
    ∃ m, networkDifficulty template = some m ∧ (m.toNat : ℚ) ≤ n := by
  cases template with
  | none => cases h
  | some template =>
    change (bitsToDifficulty template.bits).toOption = some n at h
    cases hq : bitsToDifficulty template.bits with
    | error e =>
      rw [hq] at h
      cases h
    | ok q =>
      rw [hq] at h
      obtain rfl : q = n := Option.some.inj h
      have hsome : networkDifficulty (some template) =
          some (UInt64.ofNat (min q.floor.toNat (2 ^ 64 - 1))) := by
        simp only [networkDifficulty, hq, if_pos hone]
      refine ⟨_, hsome, ?_⟩
      have hfloor : (0 : ℤ) ≤ q.floor := Rat.le_floor_iff.mpr (by norm_num; linarith)
      rw [UInt64.toNat_ofNat', Nat.mod_eq_of_lt (by omega)]
      have hle : min q.floor.toNat (2 ^ 64 - 1) ≤ q.floor.toNat := min_le_left _ _
      calc ((min q.floor.toNat (2 ^ 64 - 1) : ℕ) : ℚ) ≤ (q.floor.toNat : ℕ) := by exact_mod_cast hle
        _ = ((q.floor.toNat : ℤ) : ℚ) := by norm_cast
        _ = (q.floor : ℚ) := by rw [Int.toNat_of_nonneg hfloor]
        _ ≤ q := Rat.floor_le q

/-- A difficulty up to the ceiling of a retarget is in the range, if the template's own difficulty
is at least one. -/
theorem inRange_of_le_top {cfg : VardiffConfig} {template : Option JobTemplate} {d : UInt64}
    (hone : ∀ t, template = some t → AtLeastOne t) (hlow : cfg.minDifficulty.toNat ≤ d.toNat)
    (hhigh : d.toNat ≤ (cfg.top (networkDifficulty template)).toNat) : InRange cfg template d := by
  rw [VardiffConfig.toNat_top] at hhigh
  refine ⟨hlow, ?_, fun n hn => ?_⟩
  · split at hhigh <;> omega
  · obtain ⟨t, rfl⟩ : ∃ t, template = some t := by
      cases template with
      | none => cases hn
      | some t => exact ⟨t, rfl⟩
    obtain ⟨m, hm, hle⟩ := networkDifficulty_le hn (hone t rfl n hn)
    rw [hm] at hhigh
    have hmax : d.toNat ≤ m.toNat ∨ d.toNat ≤ cfg.minDifficulty.toNat := by
      dsimp only at hhigh
      omega
    rcases hmax with h | h
    · have hnat : (d.toNat : ℚ) ≤ m.toNat := by exact_mod_cast h
      exact (hnat.trans hle).trans (le_max_right _ _)
    · have hnat : (d.toNat : ℚ) ≤ cfg.minDifficulty.toNat := by exact_mod_cast h
      exact hnat.trans (le_max_left _ _)

end BtcPool
