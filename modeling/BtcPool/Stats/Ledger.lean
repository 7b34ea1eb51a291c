import BtcPool.Stats.Writer
import Mathlib.Algebra.BigOperators.Group.List.Lemmas
import Mathlib.Data.Finset.Card

/-!
# The share ledger

What the ledger records is read as sums: for a worker's name, taken apart at its first dot, and an
hour, the amounts in the minute table and in the hourly table together (`ShareLedger.hourSum`). A
rollup leaves these sums alone, and writing a minute adds its entries to them, each under its own
name (`ledger_counted`). That rests on the rows being tied together as the schema says (`Sound`) and
on the ids the writer caches being those of the tables (`Cached`).
-/

namespace BtcPool.Stats

open Rows Sqlite

/-! ## Amounts -/

instance : Zero LedgerPending := ⟨⟨0, 0, 0⟩⟩

instance : Add LedgerPending :=
  ⟨fun a b => ⟨a.work + b.work, a.accepted + b.accepted, a.rejected + b.rejected⟩⟩

theorem LedgerPending.add_def (a b : LedgerPending) :
    a + b = ⟨a.work + b.work, a.accepted + b.accepted, a.rejected + b.rejected⟩ := rfl

theorem LedgerPending.zero_def : (0 : LedgerPending) = ⟨0, 0, 0⟩ := rfl

instance : AddCommMonoid LedgerPending where
  add_assoc a b c := by simp only [LedgerPending.add_def, Nat.add_assoc]
  zero_add a := by simp only [LedgerPending.add_def, LedgerPending.zero_def, Nat.zero_add]
  add_zero a := by simp only [LedgerPending.add_def, LedgerPending.zero_def, Nat.add_zero]
  add_comm a b := by
    simp only [LedgerPending.add_def, Nat.add_comm a.work, Nat.add_comm a.accepted,
      Nat.add_comm a.rejected]
  nsmul := nsmulRec

namespace ShareLedger

/-- The amounts of a row that count for a worker and an hour. -/
def amountsOf (id hour : ℕ) (r : ShareInterval) : LedgerPending :=
  if r.workerId = id ∧ r.ts / 3600 = hour then r.toLedgerPending else 0

/-- The amounts both tables hold for a worker and an hour. -/
def total (ledger : ShareLedger) (id hour : ℕ) : LedgerPending :=
  (ledger.shareIntervals.map (amountsOf id hour)).sum +
    (ledger.shareIntervalsHourly.map (amountsOf id hour)).sum

/-- The amounts both tables hold for a worker's name, taken apart, and an hour. -/
def hourSum (ledger : ShareLedger) (key : Str × Str) (hour : ℕ) : LedgerPending :=
  ((ledger.selectWorkerId key.1 key.2).map fun id => ledger.total id hour).getD 0

theorem amountsOf_addAmounts {r row : ShareInterval} (h : intervalKey r = intervalKey row)
    (id hour : ℕ) :
    amountsOf id hour (addAmounts r row) = amountsOf id hour r + amountsOf id hour row := by
  obtain ⟨hid, hts⟩ := Prod.mk.inj h
  by_cases hr : row.workerId = id ∧ row.ts / 3600 = hour
  · simp only [amountsOf, addAmounts, hid, hts, hr, and_self, if_true]
    rfl
  · simp only [amountsOf, addAmounts, hid, hts, if_neg hr]
    rfl

theorem total_insertInterval (ledger : ShareLedger) (row : ShareInterval) (id hour : ℕ) :
    (ledger.insertInterval row).total id hour = ledger.total id hour + amountsOf id hour row := by
  unfold total insertInterval
  rw [sum_upsert fun r _ hr => amountsOf_addAmounts hr id hour]
  exact add_right_comm _ _ _

theorem amountsOf_toHour (id hour : ℕ) (r : ShareInterval) :
    amountsOf id hour (toHour r) = amountsOf id hour r := by
  have hts : r.ts / 3600 * 3600 / 3600 = r.ts / 3600 := Nat.mul_div_cancel _ (by decide)
  simp only [amountsOf, toHour, hts]

/-- The rows below and from a cutoff on make up the table. -/
theorem sum_filter_add_sum_filter {ν : Type} [AddCommMonoid ν] (g : ShareInterval → ν) (cutoff : ℕ)
    (rows : List ShareInterval) :
    ((rows.filter fun r => cutoff ≤ r.ts).map g).sum +
      ((rows.filter fun r => r.ts < cutoff).map g).sum = (rows.map g).sum := by
  have hsplit := List.sum_map_filter_add_sum_map_filter_not (fun r : ShareInterval => cutoff ≤ r.ts)
    g rows
  simp only [not_le] at hsplit
  exact hsplit

/-- The ledger with its minutes below a cutoff folded into hours. -/
def rolledUp (ledger : ShareLedger) (cutoff : ℕ) : ShareLedger :=
  (ledger.addHourly cutoff).deleteMinutes cutoff

/-- With nothing below the cutoff there is nothing to move. -/
theorem rolledUp_of_le {ledger : ShareLedger} {cutoff : ℕ}
    (h : ∀ r ∈ ledger.shareIntervals, cutoff ≤ r.ts) :
    ledger.rolledUp cutoff = ledger := by
  have hdue : ledger.shareIntervals.filter (fun r => r.ts < cutoff) = [] := by
    refine List.filter_eq_nil_iff.mpr fun r hr => ?_
    have hle := h r hr
    simp only [decide_eq_true_eq]
    omega
  have hkept : ledger.shareIntervals.filter (fun r => cutoff ≤ r.ts) = ledger.shareIntervals :=
    List.filter_eq_self.mpr fun r hr => decide_eq_true (h r hr)
  unfold rolledUp addHourly deleteMinutes
  simp only [hdue, hkept]
  rfl

/-- A rollup moves amounts from one table to the other. -/
theorem total_rollUp (ledger : ShareLedger) (cutoff id hour : ℕ) :
    ((ledger.addHourly cutoff).deleteMinutes cutoff).total id hour = ledger.total id hour := by
  have hadd : ∀ r row, intervalKey r = intervalKey row →
      amountsOf id hour (addAmounts r row) = amountsOf id hour r + amountsOf id hour row :=
    fun _ _ h => amountsOf_addAmounts h id hour
  have hdue : ∀ due : List ShareInterval,
      (due.map toHour).map (amountsOf id hour) = due.map (amountsOf id hour) := by
    intro due
    rw [List.map_map]
    exact List.map_congr_left fun r _ => amountsOf_toHour id hour r
  unfold total addHourly deleteMinutes
  dsimp only
  rw [sum_upsertAll hadd, sum_upsertAll hadd, hdue, List.map_nil, List.sum_nil, zero_add,
    add_comm (List.sum (ledger.shareIntervalsHourly.map _)), ← add_assoc,
    sum_filter_add_sum_filter]

/-! ## Workers -/

/-- The rows refer to each other as the schema says: keys are unique and references have their
row. -/
structure Sound (ledger : ShareLedger) : Prop where
  userIds : (ledger.users.map UserRow.id).Nodup
  addresses : (ledger.users.map UserRow.payoutAddress).Nodup
  workerIds : (ledger.workers.map WorkerRow.id).Nodup
  workerKeys : (ledger.workers.map fun w => (w.userId, w.label)).Nodup
  users_of_workers : ∀ w ∈ ledger.workers, ∃ u ∈ ledger.users, u.id = w.userId
  minutes : ∀ r ∈ ledger.shareIntervals, ∃ w ∈ ledger.workers, w.id = r.workerId
  hours : ∀ r ∈ ledger.shareIntervalsHourly, ∃ w ∈ ledger.workers, w.id = r.workerId

theorem sound_empty : ShareLedger.empty.Sound := by
  constructor <;> simp [ShareLedger.empty]

variable {ledger : ShareLedger}

/-- The row of a worker and that of its user. -/
theorem selectWorkerId_eq_some {address label : Str} {id : ℕ}
    (h : ledger.selectWorkerId address label = some id) :
    ∃ w ∈ ledger.workers, w.id = id ∧ w.label = label ∧
      ∃ u ∈ ledger.users, u.id = w.userId ∧ u.payoutAddress = address := by
  obtain ⟨w, hw, rfl⟩ := Option.map_eq_some_iff.mp h
  have hp := List.find?_some hw
  simp only [decide_eq_true_eq] at hp
  exact ⟨w, List.mem_of_find?_eq_some hw, rfl, hp.1, hp.2⟩

theorem Sound.selectWorkerId_of_mem (h : ledger.Sound) {w : WorkerRow} (hw : w ∈ ledger.workers)
    {u : UserRow} (hu : u ∈ ledger.users) (huser : u.id = w.userId) :
    ledger.selectWorkerId u.payoutAddress w.label = some w.id := by
  cases hsel : ledger.selectWorkerId u.payoutAddress w.label with
  | none =>
    have hnone := List.find?_eq_none.mp (Option.map_eq_none_iff.mp hsel) w hw
    have hne : ∀ v ∈ ledger.users, v.id = w.userId → v.payoutAddress ≠ u.payoutAddress := by
      simpa using hnone
    exact absurd rfl (hne u hu huser)
  | some id =>
    obtain ⟨w', hw', rfl, hlabel, u', hu', huser', haddress⟩ := selectWorkerId_eq_some hsel
    obtain rfl : u' = u := List.inj_on_of_nodup_map h.addresses hu' hu haddress
    have hkey : (w'.userId, w'.label) = (w.userId, w.label) := by
      rw [← huser', huser, hlabel]
    rw [List.inj_on_of_nodup_map h.workerKeys hw' hw hkey]

theorem Sound.selectWorkerId_eq_some_iff (h : ledger.Sound) {key : Str × Str} {id : ℕ} :
    ledger.selectWorkerId key.1 key.2 = some id ↔
      ∃ w ∈ ledger.workers, ∃ u ∈ ledger.users,
        u.id = w.userId ∧ (u.payoutAddress, w.label) = key ∧ w.id = id := by
  constructor
  · intro hsome
    obtain ⟨w, hw, hid, hlabel, u, hu, huser, haddress⟩ := selectWorkerId_eq_some hsome
    exact ⟨w, hw, u, hu, huser, Prod.ext haddress hlabel, hid⟩
  · rintro ⟨w, hw, u, hu, huser, rfl, rfl⟩
    exact h.selectWorkerId_of_mem hw hu huser

/-- Two ledgers that have the same rows of a name give it the same id. -/
theorem Sound.selectWorkerId_congr {ledger' : ShareLedger} (h : ledger.Sound) (h' : ledger'.Sound)
    {key : Str × Str}
    (hrows : ∀ (w : WorkerRow) (u : UserRow), u.id = w.userId → (u.payoutAddress, w.label) = key →
      (w ∈ ledger'.workers ∧ u ∈ ledger'.users ↔ w ∈ ledger.workers ∧ u ∈ ledger.users)) :
    ledger'.selectWorkerId key.1 key.2 = ledger.selectWorkerId key.1 key.2 := by
  apply Option.ext
  intro id
  rw [h'.selectWorkerId_eq_some_iff, h.selectWorkerId_eq_some_iff]
  constructor
  · rintro ⟨w, hw, u, hu, huser, hkey, hid⟩
    obtain ⟨hw, hu⟩ := (hrows w u huser hkey).mp ⟨hw, hu⟩
    exact ⟨w, hw, u, hu, huser, hkey, hid⟩
  · rintro ⟨w, hw, u, hu, huser, hkey, hid⟩
    obtain ⟨hw, hu⟩ := (hrows w u huser hkey).mpr ⟨hw, hu⟩
    exact ⟨w, hw, u, hu, huser, hkey, hid⟩

/-- An id belongs to one name. -/
theorem Sound.key_inj (h : ledger.Sound) {key key' : Str × Str} {id : ℕ}
    (hk : ledger.selectWorkerId key.1 key.2 = some id)
    (hk' : ledger.selectWorkerId key'.1 key'.2 = some id) : key = key' := by
  obtain ⟨w, hw, hid, hlabel, u, hu, huser, haddress⟩ := selectWorkerId_eq_some hk
  obtain ⟨w', hw', hid', hlabel', u', hu', huser', haddress'⟩ := selectWorkerId_eq_some hk'
  obtain rfl : w = w' := List.inj_on_of_nodup_map h.workerIds hw hw' (hid.trans hid'.symm)
  obtain rfl : u = u' := List.inj_on_of_nodup_map h.userIds hu hu' (huser.trans huser'.symm)
  exact Prod.ext (haddress.symm.trans haddress') (hlabel.symm.trans hlabel')

theorem lt_nextId {ids : List ℕ} {id : ℕ} (h : id ∈ ids) : id < nextId ids := by
  unfold nextId
  induction ids with
  | nil => simp at h
  | cons a ids ih =>
    rw [List.foldr_cons]
    rcases List.mem_cons.mp h with rfl | h
    · omega
    · have := ih h
      omega

theorem nextId_notMem (ids : List ℕ) : nextId ids ∉ ids := fun h => Nat.lt_irrefl _ (lt_nextId h)

theorem nodup_concat_nextId {ρ : Type} {idOf : ρ → ℕ} {rows : List ρ} {row : ρ}
    (h : (rows.map idOf).Nodup) (hrow : idOf row = nextId (rows.map idOf)) :
    ((rows ++ [row]).map idOf).Nodup := by
  rw [List.map_append, List.map_singleton, ← List.concat_eq_append]
  exact h.concat (hrow ▸ nextId_notMem _)

theorem workers_insertUser (ledger : ShareLedger) (address : Str) (now : ℕ) :
    (ledger.insertUser address now).workers = ledger.workers := by
  unfold ShareLedger.insertUser
  split <;> rfl

theorem shareIntervals_insertUser (ledger : ShareLedger) (address : Str) (now : ℕ) :
    (ledger.insertUser address now).shareIntervals = ledger.shareIntervals := by
  unfold ShareLedger.insertUser
  split <;> rfl

theorem shareIntervalsHourly_insertUser (ledger : ShareLedger) (address : Str) (now : ℕ) :
    (ledger.insertUser address now).shareIntervalsHourly = ledger.shareIntervalsHourly := by
  unfold ShareLedger.insertUser
  split <;> rfl

/-- The users after a user row was asked for: there is one for the address, and a row that was not
there has an id no worker refers to. -/
theorem Sound.insertUser (h : ledger.Sound) {address : Str} (ha : address ≠ []) (now : ℕ) :
    (ledger.insertUser address now).Sound ∧
      (∃ u ∈ (ledger.insertUser address now).users, u.payoutAddress = address) ∧
      (∀ u ∈ ledger.users, u ∈ (ledger.insertUser address now).users) ∧
      ∀ u ∈ (ledger.insertUser address now).users, ∀ w ∈ ledger.workers, u.id = w.userId →
        u ∈ ledger.users := by
  unfold ShareLedger.insertUser
  rw [if_neg ha]
  rcases insertOrIgnore_cases UserRow.payoutAddress
    { id := nextId (ledger.users.map UserRow.id), payoutAddress := address, firstSeenTs := now }
    ledger.users with ⟨hmem, heq⟩ | ⟨hnew, heq⟩
  · simp only [heq]
    obtain ⟨u, hu, haddress⟩ := List.mem_map.mp hmem
    exact ⟨h, ⟨u, hu, haddress⟩, fun _ hu => hu, fun _ hu _ _ _ => hu⟩
  · simp only [heq]
    refine ⟨⟨nodup_concat_nextId h.userIds rfl, ?_, h.workerIds, h.workerKeys, ?_, h.minutes,
      h.hours⟩, ⟨_, List.mem_append_right _ (List.mem_singleton_self _), rfl⟩,
      fun u hu => List.mem_append_left _ hu, ?_⟩
    · rw [← heq]
      exact nodup_insertOrIgnore h.addresses
    · intro w hw
      obtain ⟨u, hu, hid⟩ := h.users_of_workers w hw
      exact ⟨u, List.mem_append_left _ hu, hid⟩
    · intro u hu w hw hid
      rcases List.mem_append.mp hu with hu | hu
      · exact hu
      · -- a new user has an id that no user of a worker has
        obtain rfl := List.mem_singleton.mp hu
        obtain ⟨v, hv, hvid⟩ := h.users_of_workers w hw
        have hmem : v.id ∈ ledger.users.map UserRow.id := List.mem_map_of_mem hv
        rw [hvid, ← hid] at hmem
        exact absurd hmem (nextId_notMem _)

/-- What the ledger is like once a worker that had no row was given one. -/
structure Registered (ledger ledger' : ShareLedger) (key : Str × Str) (id : ℕ) : Prop where
  sound : ledger'.Sound
  select : ledger'.selectWorkerId key.1 key.2 = some id
  others : ∀ k, k ≠ key → ledger'.selectWorkerId k.1 k.2 = ledger.selectWorkerId k.1 k.2
  fresh : ∀ w ∈ ledger.workers, w.id ≠ id
  ids : ledger'.workers.map WorkerRow.id = ledger.workers.map WorkerRow.id ++ [id]
  minutes : ledger'.shareIntervals = ledger.shareIntervals
  hours : ledger'.shareIntervalsHourly = ledger.shareIntervalsHourly

theorem Sound.find_user (h : ledger.Sound) {u : UserRow} (hu : u ∈ ledger.users) :
    ledger.users.find? (fun v => v.payoutAddress = u.payoutAddress) = some u := by
  cases hf : ledger.users.find? (fun v => v.payoutAddress = u.payoutAddress) with
  | none => exact absurd (decide_eq_true rfl) (List.find?_eq_none.mp hf u hu)
  | some v =>
    have hva : v.payoutAddress = u.payoutAddress := by simpa using List.find?_some hf
    rw [List.inj_on_of_nodup_map h.addresses (List.mem_of_find?_eq_some hf) hu hva]

/-- A further worker row of a user, with an id and a label of its own. -/
theorem Sound.concat_worker (h : ledger.Sound) {u : UserRow} (hu : u ∈ ledger.users)
    {row : WorkerRow} (huser : u.id = row.userId)
    (hid : row.id = nextId (ledger.workers.map WorkerRow.id))
    (hnew : (row.userId, row.label) ∉ ledger.workers.map fun w => (w.userId, w.label)) :
    ShareLedger.Sound { ledger with workers := ledger.workers ++ [row] } := by
  refine ⟨h.userIds, h.addresses, nodup_concat_nextId h.workerIds hid, ?_, ?_, ?_, ?_⟩
  · rw [List.map_append, List.map_singleton, ← List.concat_eq_append]
    exact h.workerKeys.concat hnew
  · intro w hw
    rcases List.mem_append.mp hw with hw | hw
    · exact h.users_of_workers w hw
    · rw [List.mem_singleton.mp hw]
      exact ⟨u, hu, huser⟩
  · intro r hr
    obtain ⟨w, hw, hwid⟩ := h.minutes r hr
    exact ⟨w, List.mem_append_left _ hw, hwid⟩
  · intro r hr
    obtain ⟨w, hw, hwid⟩ := h.hours r hr
    exact ⟨w, List.mem_append_left _ hw, hwid⟩

/-- A worker row under a user row that stands. -/
theorem Sound.insertWorker (h : ledger.Sound) {address label : Str} {u : UserRow}
    (hu : u ∈ ledger.users) (hua : u.payoutAddress = address)
    (hnone : ledger.selectWorkerId address label = none) (now : ℕ) :
    Registered ledger (ledger.insertWorker address label now) (address, label)
      (nextId (ledger.workers.map WorkerRow.id)) := by
  subst hua
  have hnew : (u.id, label) ∉ ledger.workers.map fun w => (w.userId, w.label) := by
    intro hmem
    obtain ⟨w, hw, hkey⟩ := List.mem_map.mp hmem
    obtain ⟨huser, rfl⟩ := Prod.mk.inj hkey
    have hsome := h.selectWorkerId_of_mem hw hu huser.symm
    rw [hnone] at hsome
    cases hsome
  unfold ShareLedger.insertWorker
  simp only [h.find_user hu]
  rw [insertOrIgnore_of_notMem hnew]
  generalize hrow : (⟨nextId (ledger.workers.map WorkerRow.id), u.id, label, now⟩ : WorkerRow) = row
  have hid : row.id = nextId (ledger.workers.map WorkerRow.id) := by rw [← hrow]
  have huser : u.id = row.userId := by rw [← hrow]
  obtain rfl : row.label = label := by rw [← hrow]
  have hsound := h.concat_worker hu huser hid (huser ▸ hnew)
  refine ⟨hsound, ?_, ?_, ?_, by rw [List.map_append, List.map_singleton, hid], rfl, rfl⟩
  · rw [← hid]
    exact hsound.selectWorkerId_of_mem (List.mem_append_right _ (List.mem_singleton_self row)) hu
      huser
  · intro key hkey
    refine h.selectWorkerId_congr hsound fun w v hvid hnamed => ?_
    simp only [List.mem_append, List.mem_singleton]
    refine ⟨?_, fun ⟨hw, hv⟩ => ⟨.inl hw, hv⟩⟩
    rintro ⟨hw | rfl, hv⟩
    · exact ⟨hw, hv⟩
    · -- the new row has the name that was asked for
      obtain rfl : v = u := List.inj_on_of_nodup_map h.userIds hv hu (hvid.trans huser.symm)
      exact absurd hnamed.symm hkey
  · intro w hw hwid
    have hmem : w.id ∈ ledger.workers.map WorkerRow.id := List.mem_map_of_mem hw
    rw [hwid] at hmem
    exact nextId_notMem _ hmem

/-- A name without a row gets one. -/
theorem Sound.register (h : ledger.Sound) {address label : Str} (ha : address ≠ [])
    (hnone : ledger.selectWorkerId address label = none) (now : ℕ) :
    ∃ id, Registered ledger ((ledger.insertUser address now).insertWorker address label now)
      (address, label) id := by
  obtain ⟨hsound, ⟨u, hu, hua⟩, hkeep, hback⟩ := h.insertUser ha now
  -- the names that had a row are the same with the new user
  have hselect : ∀ key : Str × Str, (ledger.insertUser address now).selectWorkerId key.1 key.2 =
      ledger.selectWorkerId key.1 key.2 := by
    intro key
    refine h.selectWorkerId_congr hsound fun w v hvid _ => ?_
    rw [workers_insertUser]
    exact ⟨fun ⟨hw, hv⟩ => ⟨hw, hback v hv w hw hvid⟩, fun ⟨hw, hv⟩ => ⟨hw, hkeep v hv⟩⟩
  have hreg := hsound.insertWorker hu hua ((hselect (address, label)).trans hnone) now
  refine ⟨_, hreg.sound, hreg.select, fun k hk => (hreg.others k hk).trans (hselect k), ?_, ?_,
    hreg.minutes.trans (shareIntervals_insertUser ..),
    hreg.hours.trans (shareIntervalsHourly_insertUser ..)⟩
  · simpa only [workers_insertUser] using hreg.fresh
  · simpa only [workers_insertUser] using hreg.ids

/-- A new worker starts with nothing in any hour, so no sum changes. -/
theorem Registered.hourSum {ledger' : ShareLedger} {key : Str × Str} {id : ℕ}
    (h : Registered ledger ledger' key id) (hs : ledger.Sound)
    (hnone : ledger.selectWorkerId key.1 key.2 = none) (k : Str × Str) (hour : ℕ) :
    ledger'.hourSum k hour = ledger.hourSum k hour := by
  have htotal : ∀ id, ledger'.total id hour = ledger.total id hour := by
    intro id
    rw [total, total, h.minutes, h.hours]
  by_cases hk : k = key
  · subst hk
    have hzero : ∀ rows : List ShareInterval,
        (∀ r ∈ rows, ∃ w ∈ ledger.workers, w.id = r.workerId) →
        (rows.map (amountsOf id hour)).sum = 0 := by
      intro rows hrows
      refine List.sum_eq_zero fun a ha => ?_
      obtain ⟨r, hr, rfl⟩ := List.mem_map.mp ha
      obtain ⟨w, hw, hwid⟩ := hrows r hr
      exact if_neg fun hid => h.fresh w hw (hwid.trans hid.1)
    rw [ShareLedger.hourSum, ShareLedger.hourSum, h.select, hnone, Option.map_some,
      Option.map_none, Option.getD_some, Option.getD_none, htotal, total,
      hzero _ hs.minutes, hzero _ hs.hours, add_zero]
  · rw [ShareLedger.hourSum, ShareLedger.hourSum, h.others k hk]
    cases ledger.selectWorkerId k.1 k.2 with
    | none => rfl
    | some id => exact htotal id

/-- The names, taken apart, of all workers are among `K`. -/
def Knows (ledger : ShareLedger) (K : Finset (Str × Str)) : Prop :=
  ∀ w ∈ ledger.workers, ∃ key ∈ K, ledger.selectWorkerId key.1 key.2 = some w.id

/-- A name without a row leaves room in the table. -/
theorem Knows.length_lt {K : Finset (Str × Str)} (h : ledger.Knows K) (hs : ledger.Sound)
    {key : Str × Str} (hkey : key ∈ K) (hnone : ledger.selectWorkerId key.1 key.2 = none) :
    ledger.workers.length < K.card := by
  have hsub : (ledger.workers.map WorkerRow.id).toFinset ⊆
      (K.erase key).image fun k => (ledger.selectWorkerId k.1 k.2).getD 0 := by
    intro id hid
    obtain ⟨w, hw, rfl⟩ := List.mem_map.mp (List.mem_toFinset.mp hid)
    obtain ⟨k, hk, hsel⟩ := h w hw
    refine Finset.mem_image.mpr ⟨k, Finset.mem_erase.mpr ⟨?_, hk⟩, by rw [hsel]; rfl⟩
    rintro rfl
    rw [hnone] at hsel
    cases hsel
  calc ledger.workers.length
      = (ledger.workers.map WorkerRow.id).toFinset.card := by
        rw [List.toFinset_card_of_nodup hs.workerIds, List.length_map]
    _ ≤ (K.erase key).card := (Finset.card_le_card hsub).trans Finset.card_image_le
    _ < K.card := Finset.card_erase_lt_of_mem hkey

theorem Registered.knows {K : Finset (Str × Str)} {ledger' : ShareLedger} {key : Str × Str} {id : ℕ}
    (h : Registered ledger ledger' key id) (hK : ledger.Knows K) (hkey : key ∈ K)
    (hnone : ledger.selectWorkerId key.1 key.2 = none) : ledger'.Knows K := by
  intro w hw
  have hid : w.id ∈ ledger.workers.map WorkerRow.id ++ [id] :=
    h.ids ▸ List.mem_map_of_mem hw
  rcases List.mem_append.mp hid with hid | hid
  · obtain ⟨w', hw', heq⟩ := List.mem_map.mp hid
    obtain ⟨k, hk, hsel⟩ := hK w' hw'
    have hne : k ≠ key := by
      rintro rfl
      rw [hnone] at hsel
      cases hsel
    exact ⟨k, hk, (h.others k hne).trans (hsel.trans (congrArg some heq))⟩
  · rw [List.mem_singleton.mp hid]
    exact ⟨key, hkey, h.select⟩

/-- A row added under a worker's id. -/
theorem hourSum_insertInterval (hs : ledger.Sound) {key : Str × Str} {row : ShareInterval}
    (hid : ledger.selectWorkerId key.1 key.2 = some row.workerId) (k : Str × Str) (hour : ℕ) :
    (ledger.insertInterval row).hourSum k hour = ledger.hourSum k hour +
      if k = key ∧ row.ts / 3600 = hour then row.toLedgerPending else 0 := by
  have hselect : (ledger.insertInterval row).selectWorkerId k.1 k.2 =
      ledger.selectWorkerId k.1 k.2 := rfl
  rw [hourSum, hourSum, hselect]
  cases hk : ledger.selectWorkerId k.1 k.2 with
  | none =>
    have hne : k ≠ key := by
      rintro rfl
      rw [hk] at hid
      cases hid
    simp [hne]
  | some id =>
    rw [Option.map_some, Option.map_some, Option.getD_some, Option.getD_some, total_insertInterval]
    congr 1
    by_cases hrow : row.workerId = id
    · obtain rfl : k = key := hs.key_inj hk (hid.trans (congrArg some hrow))
      simp [amountsOf, hrow]
    · have hne : k ≠ key := by
        rintro rfl
        exact hrow (Option.some.inj (hid.symm.trans hk))
      simp [amountsOf, hrow, hne]

theorem Sound.insertInterval (hs : ledger.Sound) {row : ShareInterval}
    (hw : ∃ w ∈ ledger.workers, w.id = row.workerId) : (ledger.insertInterval row).Sound := by
  refine ⟨hs.userIds, hs.addresses, hs.workerIds, hs.workerKeys, hs.users_of_workers, ?_, hs.hours⟩
  intro r hr
  rcases mem_upsert hr with hr | rfl | ⟨old, hold, -, rfl⟩
  · exact hs.minutes r hr
  · exact hw
  · exact hs.minutes old hold

theorem Sound.rollUp (hs : ledger.Sound) (cutoff : ℕ) :
    ((ledger.addHourly cutoff).deleteMinutes cutoff).Sound := by
  refine ⟨hs.userIds, hs.addresses, hs.workerIds, hs.workerKeys, hs.users_of_workers, ?_, ?_⟩
  · exact fun r hr => hs.minutes r (List.mem_of_mem_filter hr)
  · have hmerge : ∀ r row : ShareInterval, intervalKey r = intervalKey row →
        (∃ w ∈ ledger.workers, w.id = r.workerId) →
        (∃ w ∈ ledger.workers, w.id = row.workerId) →
        ∃ w ∈ ledger.workers, w.id = (addAmounts r row).workerId := fun _ _ _ h _ => h
    refine forall_upsertAll hmerge (forall_upsertAll hmerge ?_ (by simp)) hs.hours
    intro r hr
    obtain ⟨r', hr', rfl⟩ := List.mem_map.mp hr
    exact hs.minutes r' (List.mem_of_mem_filter hr')

end ShareLedger

/-! ## Writing a minute -/

/-- The ledger is sound, the names in use are among `K`, and the cached ids are those of the
tables. -/
structure LedgerInv (K : Finset (Str × Str)) (db : Database) (state : WriterState) : Prop where
  sound : db.ledger.Sound
  knows : db.ledger.Knows K
  cached : ∀ name id, state.workerIds.lookup name = some id →
    db.ledger.selectWorkerId (splitWorker name).1 (splitWorker name).2 = some id

/-- With the cache emptied what it held does not matter. -/
theorem LedgerInv.clear {K : Finset (Str × Str)} {db : Database} {state : WriterState}
    (h : LedgerInv K db state) (state' : WriterState) :
    LedgerInv K db { state' with workerIds := [] } :=
  ⟨h.sound, h.knows, fun _ _ hname => by cases hname⟩

/-- The amounts of an entry that count for a name, taken apart, and an hour. -/
def entryAmounts (minuteTs : ℕ) (key : Str × Str) (hour : ℕ) (entry : LedgerEntry) :
    LedgerPending :=
  if key = splitWorker entry.worker ∧ minuteTs / 3600 = hour then entry.toLedgerPending else 0

/-- The amounts of a minute that count for a name, taken apart, and an hour. -/
def LedgerMinute.amounts (minute : LedgerMinute) (key : Str × Str) (hour : ℕ) : LedgerPending :=
  (minute.entries.map (entryAmounts minute.minuteTs key hour)).sum

section Minute

variable {K : Finset (Str × Str)} {db : Database} {state : WriterState}

/-- What asking for the row of a name gives, and the ledger after it: the row that stands, a new
one, or nothing where the table is full. -/
inductive Resolved (ledger : ShareLedger) (key : Str × Str) : Option ℕ → ShareLedger → Prop
  | found {id : ℕ} (hselect : ledger.selectWorkerId key.1 key.2 = some id) :
    Resolved ledger key (some id) ledger
  | full (hnone : ledger.selectWorkerId key.1 key.2 = none)
      (hfull : maxLedgerWorkers ≤ ledger.workers.length) : Resolved ledger key none ledger
  | made {id : ℕ} {ledger' : ShareLedger} (hnone : ledger.selectWorkerId key.1 key.2 = none)
      (hregistered : ledger.Registered ledger' key id) : Resolved ledger key (some id) ledger'

theorem resolveWorkerId_ends (h : db.ledger.Sound) {name : Str} (hnamed : (splitWorker name).1 ≠ [])
    (now : ℕ) :
    (resolveWorkerId name now).Ends db state
      (fun r db' state' => state' = state ∧ Resolved db.ledger (splitWorker name) r db'.ledger)
      (fun e _ _ => e = .failure) := by
  refine .bind (.optional (.queryRow (by simp) (fun {id} hid => ?_) fun hnone => ?_))
  · exact .pure ⟨rfl, .found hid⟩
  · change db.ledger.selectWorkerId (splitWorker name).1 (splitWorker name).2 = none at hnone
    rw [if_pos rfl]
    refine .bind (.query rfl ?_)
    by_cases hfull : maxLedgerWorkers ≤ db.ledger.workers.length
    · rw [if_pos hfull]
      exact .pure ⟨rfl, .full hnone hfull⟩
    · rw [if_neg hfull]
      obtain ⟨id, hreg⟩ := h.register hnamed hnone now
      refine .bind (.execute rfl (.bind (.execute rfl (.bind (.queryRow rfl ?_ ?_)))))
      · intro id' hid'
        obtain rfl : id = id' := Option.some.inj (hreg.select.symm.trans hid')
        exact .pure ⟨rfl, .made hnone hreg⟩
      · exact fun hnone' => absurd (hreg.select.symm.trans hnone') (by simp)

/-- A name of the known ones gets a row, and no sum changes. -/
theorem Resolved.ledgerInv (hK : K.card ≤ maxLedgerWorkers) (h : LedgerInv K db state) {name : Str}
    (hkey : splitWorker name ∈ K) {r : Option ℕ} {db' : Database}
    (hr : Resolved db.ledger (splitWorker name) r db'.ledger) :
    LedgerInv K db' state ∧ r ≠ none ∧
      db'.ledger.selectWorkerId (splitWorker name).1 (splitWorker name).2 = r ∧
      ∀ key hour, db'.ledger.hourSum key hour = db.ledger.hourSum key hour := by
  generalize hledger : db'.ledger = ledger' at hr ⊢
  cases hr with
  | found hselect =>
    refine ⟨⟨?_, ?_, ?_⟩, by simp, hselect, fun _ _ => rfl⟩ <;> rw [hledger]
    · exact h.sound
    · exact h.knows
    · exact h.cached
  | full hnone hfull =>
    have hroom := h.knows.length_lt h.sound hkey hnone
    omega
  | made hnone hreg =>
    refine ⟨⟨?_, ?_, ?_⟩, by simp, hreg.select,
      fun key hour => hreg.hourSum h.sound hnone key hour⟩ <;>
      rw [hledger]
    · exact hreg.sound
    · exact hreg.knows h.knows hkey hnone
    · intro other otherId hlookup
      have hsel := h.cached other otherId hlookup
      have hne : splitWorker other ≠ splitWorker name := by
        intro heq
        rw [heq, hnone] at hsel
        cases hsel
      exact (hreg.others _ hne).trans hsel

theorem cachedWorkerId_ends (hK : K.card ≤ maxLedgerWorkers) (h : LedgerInv K db state) {name : Str}
    (hkey : splitWorker name ∈ K) (hnamed : (splitWorker name).1 ≠ []) (now : ℕ) :
    (cachedWorkerId name now).Ends db state
      (fun r db' state' => LedgerInv K db' state' ∧ r ≠ none ∧
        db'.ledger.selectWorkerId (splitWorker name).1 (splitWorker name).2 = r ∧
        ∀ key hour, db'.ledger.hourSum key hour = db.ledger.hourSum key hour)
      (fun e _ _ => e = .failure) := by
  refine .bind (.readMemory ?_)
  cases hlookup : state.workerIds.lookup name with
  | some id => exact .pure ⟨h, by simp, h.cached name id hlookup, fun _ _ => rfl⟩
  | none =>
    refine .bind ((resolveWorkerId_ends h.sound hnamed now).mono ?_ fun _ _ _ he => he)
    rintro r db' state' ⟨rfl, hresolved⟩
    obtain ⟨hinv, hr, hsel, hsums⟩ := hresolved.ledgerInv hK h hkey
    cases r with
    | none => exact absurd rfl hr
    | some id =>
      refine .bind (.modifyMemory (.pure ⟨⟨hinv.sound, hinv.knows, ?_⟩, by simp, hsel, hsums⟩))
      intro other otherId hother
      rw [List.lookup_cons] at hother
      by_cases heq : other = name
      · subst heq
        obtain rfl : id = otherId := by simpa using hother
        exact hsel
      · have hbeq : (other == name) = false := by simp [heq]
        rw [hbeq] at hother
        exact hinv.cached other otherId hother

theorem writeEntries_ends (hK : K.card ≤ maxLedgerWorkers) {minuteTs : ℕ}
    (haligned : minuteTs % ledgerIntervalSecs = 0) {entries : List LedgerEntry}
    (hkeys : ∀ e ∈ entries, splitWorker e.worker ∈ K)
    (hnamed : ∀ e ∈ entries, (splitWorker e.worker).1 ≠ []) (h : LedgerInv K db state) :
    (writeEntries minuteTs entries).Ends db state
      (fun _ db' state' => LedgerInv K db' state' ∧
        ∀ key hour, db'.ledger.hourSum key hour =
          db.ledger.hourSum key hour + (entries.map (entryAmounts minuteTs key hour)).sum)
      (fun e _ _ => e = .failure) := by
  induction entries generalizing db state with
  | nil => exact .pure ⟨h, fun key hour => (add_zero _).symm⟩
  | cons entry entries ih =>
    refine .bind ((cachedWorkerId_ends hK h (hkeys entry (by simp)) (hnamed entry (by simp))
      minuteTs).mono ?_ fun _ _ _ he => he)
    rintro r db₁ state₁ ⟨hinv, hr, hsel, hsums⟩
    cases r with
    | none => exact absurd rfl hr
    | some workerId =>
      obtain ⟨w, hw, hwid, -⟩ := ShareLedger.selectWorkerId_eq_some hsel
      refine .bind (.executeChecked rfl (fun _ => ?_) fun hbad => absurd ?_ hbad)
      · -- the row is in; the rest of the entries is written on top of it
        have hinv' : LedgerInv K { db₁ with
            ledger := db₁.ledger.insertInterval (entry.row workerId minuteTs) } state₁ :=
          ⟨hinv.sound.insertInterval ⟨w, hw, hwid⟩, hinv.knows, hinv.cached⟩
        refine (ih (fun e he => hkeys e (by simp [he])) (fun e he => hnamed e (by simp [he]))
          hinv').mono ?_ fun _ _ _ he => he
        rintro _ db₂ state₂ ⟨hinv₂, hsums₂⟩
        refine ⟨hinv₂, fun key hour => ?_⟩
        rw [hsums₂, ShareLedger.hourSum_insertInterval hinv.sound hsel, hsums, List.map_cons,
          List.sum_cons, add_assoc]
        rfl
      · simp only [ShareLedger.intervalAllowed, Bool.and_eq_true, decide_eq_true_eq,
          List.any_eq_true]
        exact ⟨haligned, w, hw, hwid⟩

/-- Whatever the faults, a rollup either has done all of its work or has done nothing. -/
theorem rollUpLedger_rolledUp (db : Database) (state : WriterState) (now : ℕ) :
    (rollUpLedger now).Ends db state
      (fun _ db' state' =>
        db' = { db with ledger := db.ledger.rolledUp (rollUpCutoff now) } ∧ state' = state)
      (fun e db' state' => e = .failure ∧ db' = db ∧ state' = state) := by
  refine .bind (.query ⟨rfl, rfl, rfl⟩ ?_)
  by_cases hdue : (db.ledger.shareIntervals.countP fun r => r.ts < rollUpCutoff now) = 0
  · rw [if_pos hdue]
    have hle : ∀ r ∈ db.ledger.shareIntervals, rollUpCutoff now ≤ r.ts := by
      intro r hr
      have hnot := List.countP_eq_zero.mp hdue r hr
      simpa using hnot
    refine .pure ⟨?_, rfl⟩
    rw [ShareLedger.rolledUp_of_le hle]
  · rw [if_neg hdue]
    refine .transaction ⟨rfl, rfl, rfl⟩ (.bind (.execute ⟨rfl, rfl, rfl⟩ ?_))
    exact .execute ⟨rfl, rfl, rfl⟩ ⟨⟨rfl, rfl⟩, rfl, rfl, rfl⟩

theorem rollUpLedger_ends (h : LedgerInv K db state) (now : ℕ) :
    (rollUpLedger now).Ends db state
      (fun _ db' state' => LedgerInv K db' state' ∧
        ∀ key hour, db'.ledger.hourSum key hour = db.ledger.hourSum key hour)
      (fun _ db' state' => LedgerInv K db' state' ∧
        ∀ key hour, db'.ledger.hourSum key hour = db.ledger.hourSum key hour) := by
  refine (rollUpLedger_rolledUp db state now).mono ?_ ?_
  · rintro _ _ _ ⟨rfl, rfl⟩
    refine ⟨⟨h.sound.rollUp _, h.knows, h.cached⟩, fun key hour => ?_⟩
    have hselect : (db.ledger.rolledUp (rollUpCutoff now)).selectWorkerId key.1 key.2 =
        db.ledger.selectWorkerId key.1 key.2 := rfl
    rw [ShareLedger.hourSum, ShareLedger.hourSum, hselect]
    congr 2
    funext id
    exact ShareLedger.total_rollUp _ _ _ _
  · rintro _ _ _ ⟨-, rfl, rfl⟩
    exact ⟨h, fun _ _ => rfl⟩

/-- Applying a minute adds each of its entries once, under its own name; a minute that is not
applied met a failure of the disk and left no trace. -/
theorem ledger_counted (hK : K.card ≤ maxLedgerWorkers) (h : LedgerInv K db state)
    {minute : LedgerMinute} (hkeys : ∀ e ∈ minute.entries, splitWorker e.worker ∈ K) :
    (applyWrite (.ledger minute)).Ends db state
      (fun _ db' state' => LedgerInv K db' state' ∧
        ∀ key hour, db'.ledger.hourSum key hour =
          db.ledger.hourSum key hour + minute.amounts key hour)
      (fun e db' state' => e = .failure ∧ db' = db ∧ LedgerInv K db' state') := by
  have hwritten : (writeLedgerMinute minute).Ends db state
      (fun _ db' state' => LedgerInv K db' state' ∧
        ∀ key hour, db'.ledger.hourSum key hour =
          db.ledger.hourSum key hour + minute.amounts key hour)
      (fun e db' _ => e = .failure ∧ db' = db) := by
    unfold writeLedgerMinute
    by_cases hempty : minute.entries.isEmpty
    · rw [if_pos hempty]
      refine .pure ⟨h, fun key hour => ?_⟩
      rw [LedgerMinute.amounts, List.isEmpty_iff.mp hempty, List.map_nil, List.sum_nil, add_zero]
    · rw [if_neg hempty]
      refine .transaction ⟨rfl, rfl⟩ (.bind (.touch ⟨rfl, rfl⟩ ?_))
      exact (writeEntries_ends hK minute.aligned hkeys minute.named h).mono
        (fun _ _ _ hw => ⟨hw, rfl, rfl⟩) fun _ _ _ he => ⟨he, rfl⟩
  refine .bind (.onError (hwritten.mono ?_ ?_))
  · rintro _ db₁ state₁ ⟨hinv, hsums⟩
    refine .ignore ((rollUpLedger_ends hinv minute.minuteTs).mono ?_ ?_)
    · exact fun _ _ _ hr => ⟨hr.1, fun key hour => (hr.2 key hour).trans (hsums key hour)⟩
    · exact fun _ _ _ hr => ⟨hr.1, fun key hour => (hr.2 key hour).trans (hsums key hour)⟩
  · rintro e _ state₁ ⟨he, rfl⟩
    exact ⟨he, rfl, h.clear state₁⟩

end Minute

end BtcPool.Stats
