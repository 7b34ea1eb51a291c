import BtcPool.Stats.Ledger
import BtcPool.Mining.SessionCore

/-!
# Whose work a history shows

`get_work_history` sums the share ledger for the whole pool, for one payout address or for one
worker name. A name goes four ways before a row is found under it: `MinerIdentity::parse` joins the
checked address and the label, `resolve_worker_id` splits the result again to store the two halves,
the query puts them together once more in SQL, and the dashboard rewrites the name it is asked for
on its own.

* `MinerIdentity.parse_canonicalName`: a canonical name parses to the identity it came from;
* `canonicalScopeParam_of_parse`: the dashboard's rewriting is that of the parser;
* `ShareLedger.Sound.inScope_of_select`: the row made for a name is in the scope of that name, of no
  other, and of its payout address.
-/

namespace BtcPool.Stats

open Rows Sqlite Bitcoin

/-- Whose work is asked for. -/
inductive LedgerScope
  | pool
  | user (address : Str)
  | worker (name : Str)
  deriving DecidableEq

/-! ## The query -/

/-- The sums of one bucket and the seconds it covers. -/
structure WorkHistoryPoint extends LedgerPending where
  ts : ℕ
  spanSecs : ℕ
deriving DecidableEq

/-- `u.payout_address || CASE w.label WHEN '' THEN '' ELSE '.' || w.label END`. -/
def scopeName (u : UserRow) (w : WorkerRow) : Str :=
  u.payoutAddress ++ if w.label = [] then [] else '.' :: w.label

namespace ShareLedger

variable (ledger : ShareLedger)

/-- A worker row with this id, joined with its user row, that meets a condition. -/
def joined (cond : UserRow → WorkerRow → Bool) (workerId : ℕ) : Bool :=
  ledger.workers.any fun w =>
    w.id = workerId && ledger.users.any fun u => u.id = w.userId && cond u w

/-- The filter of a scope on the rows of the interval tables. -/
def inScope (scope : LedgerScope) (workerId : ℕ) : Bool :=
  match scope with
  | .pool => true
  | .user address => ledger.joined (fun u _ => u.payoutAddress = address) workerId
  | .worker name => ledger.joined (fun u w => scopeName u w = name) workerId

/-- `GROUP BY bucket_ts` with the sums of the amounts and the greatest span. -/
def groupPoints (points : List WorkHistoryPoint) : List WorkHistoryPoint :=
  upsertAll WorkHistoryPoint.ts
    (fun old new =>
      { ts := old.ts
        work := old.work + new.work
        accepted := old.accepted + new.accepted
        rejected := old.rejected + new.rejected
        spanSecs := max old.spanSecs new.spanSecs })
    points []

/-- The rows of one table from a time on that are in scope, summed by bucket. -/
def bucketed (scope : LedgerScope) (since bucket : ℕ) (rows : List ShareInterval) :
    List WorkHistoryPoint :=
  let kept := rows.filter fun r => since ≤ r.ts && ledger.inScope scope r.workerId
  groupPoints (kept.map fun r =>
    { r.toLedgerPending with ts := r.ts / bucket * bucket, spanSecs := bucket })

/-- The work of a scope since a time, in buckets; those of an hour where only hours are left. -/
def getWorkHistory (sinceTs bucketSecs nowTs : ℕ) (scope : LedgerScope) : List WorkHistoryPoint :=
  let bucket := max bucketSecs 1
  let since := sinceTs / bucket * bucket
  let hourlyBucket := max bucket 3600 / 3600 * 3600
  let points := groupPoints (ledger.bucketed scope since bucket ledger.shareIntervals ++
    ledger.bucketed scope since hourlyBucket ledger.shareIntervalsHourly)
  let ordered := points.mergeSort fun a b => decide (a.ts ≤ b.ts)
  -- a bucket that has not fully elapsed is not shown
  (ordered.map fun p => { p with spanSecs := max p.spanSecs 1 }).filter fun p =>
    p.ts + p.spanSecs ≤ nowTs

end ShareLedger

/-! ## Scopes asked for at the dashboard -/

/-- The address half of a scope parameter in its canonical spelling. -/
def canonicalScopeParam (A : AddressLib) (raw : Str) (network : Network) : Option Str :=
  let (address, label) := match splitOnce '.' raw with
    | some (address, label) => (address, some label)
    | none => (raw, none)
  match A.parse address with
  | none => none
  | some checked =>
    if A.validFor checked network then some (joinName (A.display checked) label) else none

/-! ## Canonical names -/

section Names

variable {A : AddressLib} {raw : Str} {network : Network} {maxLen : ℕ} {i : MinerIdentity}

/-- The dashboard rewrites an accepted name as the parser does. -/
theorem canonicalScopeParam_of_parse (h : MinerIdentity.parse A raw network maxLen = .ok i) :
    canonicalScopeParam A raw network = some i.canonicalName := by
  obtain ⟨-, text, label, hsplit, -, a, ⟨hparse, ha⟩, rfl⟩ := MinerIdentity.parse_eq_ok.mp h
  have hsplit' : (match splitOnce '.' raw with
      | some (address, label) => (address, some label)
      | none => (raw, none)) = (text, label) := by
    unfold splitName at hsplit
    split at hsplit
    · cases hsplit
    · rename_i hone
      rw [hone]
      exact Except.ok.inj hsplit
    · rename_i hone
      rw [hone]
      exact Except.ok.inj hsplit
  unfold canonicalScopeParam
  rw [hsplit']
  simp only [hparse, ha, if_true]

/-- The halves of a canonical name as the ledger stores them. -/
theorem splitWorker_joinName {a : Str} (ha : '.' ∉ a) (label : Option Str) :
    splitWorker (joinName a label) = (a, label.getD []) := by
  rw [splitWorker, splitOnce_joinName ha]
  cases label <;> rfl

end Names

/-! ## The row of a name -/

namespace ShareLedger

variable {ledger : ShareLedger}

/-- A worker row is joined with its user row and no other. -/
theorem Sound.joined_eq (h : ledger.Sound) {w : WorkerRow} (hw : w ∈ ledger.workers) {u : UserRow}
    (hu : u ∈ ledger.users) (huser : u.id = w.userId) (cond : UserRow → WorkerRow → Bool) :
    ledger.joined cond w.id = cond u w := by
  rw [Bool.eq_iff_iff]
  simp only [joined, List.any_eq_true, Bool.and_eq_true, decide_eq_true_eq]
  constructor
  · rintro ⟨w', hw', hid', u', hu', huser', hcond⟩
    obtain rfl : w' = w := List.inj_on_of_nodup_map h.workerIds hw' hw hid'
    obtain rfl : u' = u := List.inj_on_of_nodup_map h.userIds hu' hu (huser'.trans huser.symm)
    exact hcond
  · exact fun hcond => ⟨w, hw, rfl, u, hu, huser, hcond⟩

/-- A row found by its two halves is joined with its user row and no other. -/
theorem Sound.joined_of_select (h : ledger.Sound) {address label : Str} {id : ℕ}
    (hsel : ledger.selectWorkerId address label = some id) :
    ∃ u w, u.payoutAddress = address ∧ w.label = label ∧
      ∀ cond, ledger.joined cond id = cond u w := by
  obtain ⟨w, hw, rfl, hlabel, u, hu, huser, haddress⟩ := selectWorkerId_eq_some hsel
  exact ⟨u, w, haddress, hlabel, h.joined_eq hw hu huser⟩

/-- The row of a name is in the scope of the worker with that name, and of its payout address. -/
theorem Sound.inScope_of_select (h : ledger.Sound) {address : Str} {label : Option Str}
    (hlabel : label ≠ some []) {id : ℕ}
    (hsel : ledger.selectWorkerId address (label.getD []) = some id) :
    (∀ name, ledger.inScope (.worker name) id ↔ name = joinName address label) ∧
      ledger.inScope (.user address) id := by
  obtain ⟨u, w, haddress, hw, hjoined⟩ := h.joined_of_select hsel
  have hname : scopeName u w = joinName address label := by
    rw [scopeName, haddress, hw]
    match label with
    | none => exact List.append_nil address
    | some [] => exact absurd rfl hlabel
    | some (_ :: _) => rfl
  refine ⟨fun name => ?_, ?_⟩
  · simp only [inScope, hjoined, hname, decide_eq_true_eq]
    exact eq_comm
  · simpa only [inScope, hjoined, decide_eq_true_eq] using haddress

end ShareLedger

/-- The row of a name is found under it, and only a full table has none to give. -/
theorem Resolved.selects {ledger ledger' : ShareLedger} {key : Str × Str} {r : Option ℕ}
    (hr : Resolved ledger key r ledger') (h : ledger.Sound) :
    ledger'.Sound ∧ (r = none → maxLedgerWorkers ≤ ledger.workers.length) ∧
      ∀ id, r = some id → ledger'.selectWorkerId key.1 key.2 = some id := by
  cases hr with
  | found hselect => exact ⟨h, nofun, fun _ hid => Option.some.inj hid ▸ hselect⟩
  | full _ hfull => exact ⟨h, fun _ => hfull, nofun⟩
  | made _ hreg => exact ⟨hreg.sound, nofun, fun _ hid => Option.some.inj hid ▸ hreg.select⟩

/-- **One name in four places.** The canonical name of an accepted name parses to the same identity,
it is what the dashboard makes of the accepted name, and the ledger row made for it is found under
that name alone and under its payout address. -/
theorem canonicalName_consistent (A : AddressLib) (hA : A.Printed) (raw : Str) (network : Network)
    (maxLen : ℕ) (i : MinerIdentity) (h : MinerIdentity.parse A raw network maxLen = .ok i) :
    ((utf8 i.canonicalName).length ≤ maxLen →
      MinerIdentity.parse A i.canonicalName network maxLen =
        .ok { i with fullName := i.canonicalName }) ∧
    canonicalScopeParam A raw network = some i.canonicalName ∧
    ∀ (db : Database) (state : WriterState) (now : ℕ), db.ledger.Sound →
      (resolveWorkerId i.canonicalName now).Ends db state
        (fun r db' _ =>
          (r = none → maxLedgerWorkers ≤ db.ledger.workers.length) ∧
          ∀ id, r = some id →
            (∀ name, db'.ledger.inScope (.worker name) id ↔ name = i.canonicalName) ∧
            db'.ledger.inScope (.user i.payout.address) id)
        (fun e _ _ => e = .failure) := by
  refine ⟨MinerIdentity.parse_canonicalName hA h, canonicalScopeParam_of_parse h,
    fun db state now hsound => ?_⟩
  obtain ⟨-, text, label, hsplit, -, a, ⟨-, ha⟩, rfl⟩ := MinerIdentity.parse_eq_ok.mp h
  have hlabel := (joinName_of_splitName hsplit).2
  have hhalves := splitWorker_joinName (hA.dot_notMem ha) label
  have hnamed : (splitWorker (joinName (A.display a) label)).1 ≠ [] := by
    rw [hhalves]
    exact hA.display_ne_nil ha
  refine (resolveWorkerId_ends hsound hnamed now).mono ?_ fun _ _ _ he => he
  rintro r db' - ⟨-, hresolved⟩
  obtain ⟨hsound', hfull, hselect⟩ := hresolved.selects hsound
  refine ⟨hfull, fun id hr => ?_⟩
  have hsel := hselect id hr
  rw [hhalves] at hsel
  exact hsound'.inScope_of_select hlabel hsel

theorem printed_regtestAddresses : regtestAddresses.Printed where
  parse_display _ := rfl
  display_ne_nil _ := show regtestPayout.address ≠ [] by decide
  alphanum_of_mem {_ _ c} _ := List.all_eq_true.mp (show regtestPayout.address.all _ from rfl) c

/-- The name of a device at the regtest address. -/
def regtestName : Str := regtestPayout.address ++ ".a.b".toList

/-- The name of one device, and its row in a file just created. -/
theorem canonicalName_consistent_regtest :
    ∃ i, MinerIdentity.parse regtestAddresses regtestName .regtest 128 = .ok i ∧
      canonicalScopeParam regtestAddresses regtestName .regtest = some i.canonicalName ∧
      ∃ id c, (resolveWorkerId i.canonicalName 0).run ⟨.create 0, .default, []⟩ =
        (.ok (some id), c) ∧
        (∀ name, c.db.ledger.inScope (.worker name) id ↔ name = i.canonicalName) ∧
        c.db.ledger.inScope (.user i.payout.address) id := by
  let i : MinerIdentity := ⟨regtestName, regtestName, regtestPayout, some "a.b".toList⟩
  have hparse : MinerIdentity.parse regtestAddresses regtestName .regtest 128 = .ok i := by
    decide +kernel
  obtain ⟨-, hparam, hrow⟩ := canonicalName_consistent regtestAddresses printed_regtestAddresses
    regtestName .regtest 128 i hparse
  have hends := hrow (.create 0) .default 0 ShareLedger.sound_empty []
  exact ⟨i, hparse, hparam, 1, _, rfl, hends.2 1 rfl⟩

end BtcPool.Stats
