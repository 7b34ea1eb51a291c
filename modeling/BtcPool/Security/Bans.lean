import BtcPool.Mining.Difficulty
import Mathlib.Logic.Function.Basic

/-!
# Banned addresses

`BanList` of `security/mod.rs`: until when each address is banned. A ban reads the clock first and
goes into the map after that, so bans of one address by several tasks go in in any order. An entry
is dropped when its address is looked up after it expired (the second half of `is_banned`), or by
`prune`, which reads the clock once and then comes to the entries one by one.

However entries are dropped, an address is banned exactly until the ban that went in last expires
(`Enforces.stands_eq`): an entry that was renewed in the meantime is left alone.
-/

namespace BtcPool

/-- Until when each address is banned. -/
structure BanList (ι : Type) where
  entries : ι → Option Instant
  banDuration : ℕ

namespace BanList

variable {ι : Type}

/-- No address is banned. -/
def new (banDurationSecs : ℕ) : BanList ι where
  entries _ := none
  banDuration := secs banDurationSecs

/-- When a ban expires, by the clock that `ban` reads. -/
def expiry (l : BanList ι) (now : Instant) : Instant := now + l.banDuration

/-- The first half of `is_banned`. -/
def stands (l : BanList ι) (now : Instant) (ip : ι) : Bool :=
  (l.entries ip).any fun expiry => now < expiry

variable [DecidableEq ι]

/-- The second half of `ban`. -/
def insert (l : BanList ι) (ip : ι) (expiry : Instant) : BanList ι :=
  { l with entries := Function.update l.entries ip (some expiry) }

/-- The second half of `is_banned`, and what `prune` does to an entry it comes to. -/
def removeExpired (l : BanList ι) (now : Instant) (ip : ι) : BanList ι :=
  if (l.entries ip).any fun expiry => expiry ≤ now then
    { l with entries := Function.update l.entries ip none }
  else l

@[simp] theorem banDuration_insert (l : BanList ι) (ip : ι) (expiry : Instant) :
    (l.insert ip expiry).banDuration = l.banDuration := rfl

@[simp] theorem banDuration_removeExpired (l : BanList ι) (now : Instant) (ip : ι) :
    (l.removeExpired now ip).banDuration = l.banDuration := by
  unfold removeExpired
  split <;> rfl

/-! ## What the entries stand for -/

omit [DecidableEq ι] in
/-- The entry of an address is the ban that went in last, unless that has expired. -/
def Enforces (now : Instant) (last : ι → Option Instant) (l : BanList ι) : Prop :=
  ∀ ip, l.entries ip = last ip ∨ l.entries ip = none ∧ ∀ expiry ∈ last ip, expiry ≤ now

omit [DecidableEq ι] in
theorem enforces_new (now : Instant) (banDurationSecs : ℕ) :
    Enforces now (fun _ : ι => none) (new banDurationSecs) :=
  fun _ => .inl rfl

namespace Enforces

variable {now later read : Instant} {last : ι → Option Instant} {l : BanList ι}

omit [DecidableEq ι] in
theorem mono (h : Enforces now last l) (hle : now ≤ later) : Enforces later last l :=
  fun ip => (h ip).imp_right fun ⟨hnone, hexpired⟩ =>
    ⟨hnone, fun expiry hlast => le_trans (hexpired expiry hlast) hle⟩

omit [DecidableEq ι] in
/-- An address is banned while the ban that went in last is in force. -/
theorem stands_eq (h : Enforces now last l) (ip : ι) :
    l.stands now ip = (last ip).any fun expiry => now < expiry := by
  unfold stands
  rcases h ip with hentry | ⟨hnone, hexpired⟩
  · rw [hentry]
  · rw [hnone]
    cases hlast : last ip with
    | none => rfl
    | some expiry =>
      have hle : expiry ≤ now := hexpired expiry hlast
      rw [Option.any_none, Option.any_some, eq_comm, decide_eq_false_iff_not, not_lt]
      exact hle

theorem insert (h : Enforces now last l) (ip : ι) (expiry : Instant) :
    Enforces now (Function.update last ip (some expiry)) (l.insert ip expiry) := by
  intro i
  unfold BanList.insert
  dsimp only
  by_cases hi : i = ip
  · subst hi
    exact .inl (by rw [Function.update_self, Function.update_self])
  · rw [Function.update_of_ne hi, Function.update_of_ne hi]
    exact h i

/-- An entry that expired by an earlier reading of the clock may go. -/
theorem removeExpired (h : Enforces now last l) (hread : read ≤ now) (ip : ι) :
    Enforces now last (l.removeExpired read ip) := by
  unfold BanList.removeExpired
  split
  · rename_i hexpired
    intro i
    dsimp only
    by_cases hi : i = ip
    · subst hi
      rw [Function.update_self]
      refine .inr ⟨rfl, fun expiry hlast => ?_⟩
      rcases h i with hentry | ⟨-, hold⟩
      · rw [hentry, hlast, Option.any_some, decide_eq_true_eq] at hexpired
        exact le_trans hexpired hread
      · exact hold expiry hlast
    · rw [Function.update_of_ne hi]
      exact h i
  · exact h

end Enforces

end BanList

end BtcPool
