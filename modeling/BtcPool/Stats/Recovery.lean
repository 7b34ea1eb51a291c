import BtcPool.Stats.Ledger

/-!
# Recovery from failures

Ledger minutes, found blocks and block resolutions are records. Whatever the pattern of failures, as
long as the backlog has room, the first pass that meets no failure empties it, and the database then
holds what it would hold if nothing had ever failed (`recovered_as_without_failures`): every entry
of the ledger counted once under its own name, every block with its resolution.

The argument follows the writes applied so far, in the order in which they were applied: the sums of
the ledger and the row of each block are functions of them (`Recovered`). The orders of the two runs
differ, but neither function looks at the order, because a block is enrolled once and resolved once.
-/

namespace BtcPool.Stats

open Rows Sqlite RetryQueue

/-! ## Records -/

/-- Whether a write makes a record that nothing makes again. -/
def isRecord : StoreWrite → Bool
  | .ledger _ | .blockFound _ | .blockResolved .. => true
  | _ => false

/-- The block of a write, if it is one with the hash. -/
def foundOf (hash : Str) : StoreWrite → Option PendingBlock
  | .blockFound block => if block.hash = hash then some block else none
  | _ => none

/-- The resolution of a write, if it is one of the hash. -/
def resolutionOf (hash : Str) : StoreWrite → Option (BlockResolution × ℕ)
  | .blockResolved hash' resolution resolvedTs =>
    if hash' = hash then some (resolution, resolvedTs) else none
  | _ => none

/-- The names, taken apart, of the workers in a write. -/
def workerKeys : StoreWrite → List (Str × Str)
  | .ledger minute => minute.entries.map fun e => splitWorker e.worker
  | _ => []

/-- The amounts a write adds for a name, taken apart, and an hour. -/
def amountsOfWrite (key : Str × Str) (hour : ℕ) : StoreWrite → LedgerPending
  | .ledger minute => minute.amounts key hour
  | _ => 0

/-- The table has a row for the block. -/
def HasRow (db : Database) (hash : Str) : Prop := ∃ r ∈ db.foundBlocks, r.hash = hash

/-- A block with the hash is among the writes. -/
def Enrols (hash : Str) (writes : List StoreWrite) : Prop :=
  ∃ block, .blockFound block ∈ writes ∧ block.hash = hash

/-- A resolution among the writes is of a hash that is known, or whose block comes before it. -/
def ResolvedAfterFound (known : Str → Prop) : List StoreWrite → Prop
  | [] => True
  | write :: writes =>
    (∀ hash resolution ts, write = .blockResolved hash resolution ts → known hash) ∧
      ResolvedAfterFound (fun hash => known hash ∨ Enrols hash [write]) writes

theorem enrols_append {hash : Str} {as bs : List StoreWrite} :
    Enrols hash (as ++ bs) ↔ Enrols hash as ∨ Enrols hash bs := by
  simp only [Enrols, List.mem_append, or_and_right, exists_or]

theorem ResolvedAfterFound.mono {known known' : Str → Prop} (hk : ∀ hash, known hash → known' hash)
    {writes : List StoreWrite} (h : ResolvedAfterFound known writes) :
    ResolvedAfterFound known' writes := by
  induction writes generalizing known known' with
  | nil => trivial
  | cons w ws ih =>
    refine ⟨fun hash r t hw => hk hash (h.1 hash r t hw), ih (fun hash => ?_) h.2⟩
    exact Or.imp_left (hk hash)

theorem resolvedAfterFound_concat {known : Str → Prop} {writes : List StoreWrite} {w : StoreWrite} :
    ResolvedAfterFound known (writes ++ [w]) ↔ ResolvedAfterFound known writes ∧
      ∀ hash resolution ts, w = .blockResolved hash resolution ts →
        known hash ∨ Enrols hash writes := by
  induction writes generalizing known with
  | nil => simp [ResolvedAfterFound, Enrols]
  | cons v ws ih =>
    rw [List.cons_append, ResolvedAfterFound, ResolvedAfterFound, ih, and_assoc]
    have hsplit : ∀ hash, ((known hash ∨ Enrols hash [v]) ∨ Enrols hash ws) ↔
        known hash ∨ Enrols hash (v :: ws) := by
      intro hash
      rw [or_assoc, ← enrols_append, List.singleton_append]
    simp only [hsplit]

/-! ## The row of a block -/

/-- The row of a hash after some writes, from the row it had before: that row or the first block
enrolled, with the first resolution. -/
def rowAfter (hash : Str) (before : Option FoundBlock) (writes : List StoreWrite) :
    Option FoundBlock :=
  let row := before.or ((writes.findSome? (foundOf hash)).map fun block =>
    { block with resolved := none })
  match writes.findSome? (resolutionOf hash) with
  | none => row
  | some (resolution, resolvedTs) => row.map (.resolve hash resolution resolvedTs)

/-- A block is resolved once. -/
theorem resolve_resolve (hash : Str) (a b : BlockResolution × ℕ) (r : FoundBlock) :
    (r.resolve hash a.1 a.2).resolve hash b.1 b.2 = r.resolve hash a.1 a.2 := by
  by_cases h : r.hash = hash ∧ r.resolved = none
  · simp [FoundBlock.resolve, h]
  · simp [FoundBlock.resolve, if_neg h]

theorem findBlock_map_resolve (hash hash' : Str) (resolution : BlockResolution) (ts : ℕ)
    (rows : List FoundBlock) :
    findBlock hash (rows.map (.resolve hash' resolution ts)) =
      (findBlock hash rows).map (.resolve hash' resolution ts) := by
  rw [findBlock, List.find?_map]
  congr 2
  funext r
  simp [hash_resolve]

theorem findBlock_insertFoundBlock (hash : Str) (block : PendingBlock) (rows : List FoundBlock) :
    findBlock hash (insertFoundBlock block rows) = (findBlock hash rows).or
      ((foundOf hash (.blockFound block)).map fun b => { b with resolved := none }) := by
  unfold insertFoundBlock
  rcases insertOrIgnore_cases (fun r : FoundBlock => r.hash) { block with resolved := none } rows
    with ⟨hmem, heq⟩ | ⟨-, heq⟩ <;> rw [heq]
  · by_cases hb : block.hash = hash
    · obtain ⟨r, hr, hrh⟩ := List.mem_map.mp hmem
      have hsome : findBlock hash rows ≠ none := fun hnone =>
        findBlock_eq_none.mp hnone r hr (hrh.trans hb)
      obtain ⟨row, hrow⟩ := Option.ne_none_iff_exists'.mp hsome
      simp [hrow]
    · simp [foundOf, hb]
  · rw [findBlock, List.find?_append]
    by_cases hb : block.hash = hash <;> simp [foundOf, hb, findBlock]

theorem findSome?_concat {α β : Type} (f : α → Option β) (l : List α) (a : α) :
    (l ++ [a]).findSome? f = (l.findSome? f).or (f a) := by
  rw [List.findSome?_append]
  cases h : f a <;> simp [h]

theorem rowAfter_blockFound {hash : Str} {before : Option FoundBlock} {writes : List StoreWrite}
    (hrow : writes.findSome? (resolutionOf hash) ≠ none → rowAfter hash before writes ≠ none)
    (block : PendingBlock) :
    rowAfter hash before (writes ++ [.blockFound block]) = (rowAfter hash before writes).or
      ((foundOf hash (.blockFound block)).map fun b => { b with resolved := none }) := by
  unfold rowAfter at hrow ⊢
  rw [findSome?_concat, findSome?_concat, show resolutionOf hash (.blockFound block) =
    none from rfl, Option.or_none]
  generalize writes.findSome? (foundOf hash) = found at hrow ⊢
  cases hr : writes.findSome? (resolutionOf hash) with
  | none => cases before <;> cases found <;> simp
  | some r =>
    -- a hash that was resolved had its row, so the new block is ignored
    rw [hr] at hrow
    have hsome := hrow (by simp)
    cases before <;> cases found <;> simp at hsome ⊢

/-- The row of a hash is a row of the hash. -/
theorem hash_of_or_findSome? {hash : Str} {before : Option FoundBlock} {writes : List StoreWrite}
    (hbefore : ∀ r, before = some r → r.hash = hash) {r : FoundBlock}
    (h : before.or ((writes.findSome? (foundOf hash)).map fun block =>
      { block with resolved := none }) = some r) : r.hash = hash := by
  cases hb : before with
  | some r' =>
    rw [hb, Option.some_or] at h
    exact hbefore r (hb.trans h)
  | none =>
    rw [hb, Option.none_or] at h
    obtain ⟨block, hblock, rfl⟩ := Option.map_eq_some_iff.mp h
    obtain ⟨w, -, hw⟩ := List.exists_of_findSome?_eq_some hblock
    cases w <;> simp [foundOf] at hw
    exact hw.2 ▸ hw.1

theorem rowAfter_blockResolved {hash : Str} {before : Option FoundBlock}
    (hbefore : ∀ r, before = some r → r.hash = hash) (writes : List StoreWrite) (hash' : Str)
    (resolution : BlockResolution) (ts : ℕ) :
    rowAfter hash before (writes ++ [.blockResolved hash' resolution ts]) =
      (rowAfter hash before writes).map (.resolve hash' resolution ts) := by
  unfold rowAfter
  rw [findSome?_concat, findSome?_concat,
    show foundOf hash (.blockResolved hash' resolution ts) = none from rfl, Option.or_none]
  have hhash : ∀ r, before.or ((writes.findSome? (foundOf hash)).map fun block =>
      ({ block with resolved := none } : FoundBlock)) = some r → r.hash = hash :=
    fun _ => hash_of_or_findSome? hbefore
  generalize before.or ((writes.findSome? (foundOf hash)).map fun block =>
    ({ block with resolved := none } : FoundBlock)) = row at hhash ⊢
  by_cases hh : hash' = hash
  · subst hh
    rw [show resolutionOf hash' (.blockResolved hash' resolution ts) = some (resolution, ts) from
      if_pos rfl]
    cases writes.findSome? (resolutionOf hash') with
    | none => simp
    | some p =>
      cases row with
      | none => rfl
      | some r => exact congrArg some (resolve_resolve hash' p (resolution, ts) r).symm
  · -- a row of another hash is left alone
    have hskip : ∀ r : FoundBlock, r.hash = hash → r.resolve hash' resolution ts = r := by
      intro r hr
      exact if_neg fun h => hh (h.1.symm.trans hr)
    rw [show resolutionOf hash (.blockResolved hash' resolution ts) = none from if_neg hh,
      Option.or_none]
    cases row with
    | none => cases writes.findSome? (resolutionOf hash) <;> rfl
    | some r =>
      cases writes.findSome? (resolutionOf hash) with
      | none => simp [hskip r (hhash r rfl)]
      | some p =>
        have hkept : (r.resolve hash p.1 p.2).hash = hash := by
          rw [hash_resolve, hhash r rfl]
        simp [hskip _ hkept]

/-- The row of a hash after one more record. -/
def rowStep (hash : Str) (row : Option FoundBlock) : StoreWrite → Option FoundBlock
  | .blockFound block =>
    row.or ((foundOf hash (.blockFound block)).map fun b => { b with resolved := none })
  | .blockResolved hash' resolution resolvedTs => row.map (.resolve hash' resolution resolvedTs)
  | _ => row

theorem rowStep_ne_none {hash : Str} {row : Option FoundBlock} {write : StoreWrite} :
    rowStep hash row write ≠ none ↔ row ≠ none ∨ Enrols hash [write] := by
  cases write with
  | blockFound block => by_cases h : block.hash = hash <;> simp [rowStep, foundOf, Enrols, h]
  | _ => simp [rowStep, Enrols]

theorem rowAfter_concat {hash : Str} {before : Option FoundBlock} {writes : List StoreWrite}
    (hbefore : ∀ r, before = some r → r.hash = hash)
    (hrow : writes.findSome? (resolutionOf hash) ≠ none → rowAfter hash before writes ≠ none)
    (write : StoreWrite) :
    rowAfter hash before (writes ++ [write]) =
      rowStep hash (rowAfter hash before writes) write := by
  cases write with
  | blockFound block => exact rowAfter_blockFound hrow block
  | blockResolved hash' resolution ts => exact rowAfter_blockResolved hbefore writes hash' _ _
  | _ =>
    unfold rowAfter
    rw [findSome?_concat, findSome?_concat]
    simp only [foundOf, resolutionOf, Option.or_none]
    rfl

theorem findBlock_rowsAfter (hash : Str) (rows : List FoundBlock) (write : StoreWrite) :
    findBlock hash (rowsAfter rows write) = rowStep hash (findBlock hash rows) write := by
  cases write with
  | blockFound block => exact findBlock_insertFoundBlock hash block rows
  | blockResolved hash' resolution ts => exact findBlock_map_resolve hash hash' resolution ts rows
  | _ => rfl

theorem hasRow_iff {db : Database} {hash : Str} :
    HasRow db hash ↔ findBlock hash db.foundBlocks ≠ none := by
  rw [HasRow, Ne, findBlock_eq_none]
  simp

/-! ## What the database records -/

/-- The database holds the sums and the rows of the writes applied to it. -/
structure Recorded (db₀ : Database) (K : Finset (Str × Str)) (outs : List StoreWrite)
    (store : Store) : Prop where
  inv : LedgerInv K store.db store.state
  hashes : (store.db.foundBlocks.map fun r => r.hash).Nodup
  sums : ∀ key hour, store.db.ledger.hourSum key hour =
    db₀.ledger.hourSum key hour + (outs.map (amountsOfWrite key hour)).sum
  rows : ∀ hash, findBlock hash store.db.foundBlocks =
    rowAfter hash (findBlock hash db₀.foundBlocks) outs
  resolved : ∀ hash, outs.findSome? (resolutionOf hash) ≠ none → HasRow store.db hash

section Records

variable {db₀ : Database} {K : Finset (Str × Str)} {ins outs backlog : List StoreWrite}
  {store store' : Store} {write : StoreWrite} {faults faults' : List Bool}

theorem hash_of_findBlock {hash : Str} {rows : List FoundBlock} {r : FoundBlock}
    (h : findBlock hash rows = some r) : r.hash = hash := by
  simpa using List.find?_some h

/-- The sums after an attempt that succeeded. -/
theorem hourSum_of_tryWrite (hK : K.card ≤ maxLedgerWorkers)
    (hinv : LedgerInv K store.db store.state)
    (hw : isRecord write) (hkeys : ∀ key ∈ workerKeys write, key ∈ K)
    (ht : tryWrite write store faults = (true, store', faults')) :
    LedgerInv K store'.db store'.state ∧ ∀ key hour, store'.db.ledger.hourSum key hour =
      store.db.ledger.hourSum key hour + amountsOfWrite key hour write := by
  have happlied := applied_of_tryWrite ht
  cases write with
  | ledger minute =>
    refine (ends_of_tryWrite (ledger_counted hK hinv fun e he => ?_) ht).1
    exact hkeys _ (List.mem_map_of_mem he)
  | blockFound block =>
    rw [happlied.1, happlied.2]
    exact ⟨⟨hinv.sound, hinv.knows, hinv.cached⟩, fun key hour => (add_zero _).symm⟩
  | blockResolved hash resolution ts =>
    rw [happlied.2.1, happlied.2.2]
    exact ⟨⟨hinv.sound, hinv.knows, hinv.cached⟩, fun key hour => (add_zero _).symm⟩
  | _ => cases hw

theorem Recorded.apply (h : Recorded db₀ K outs store) (hK : K.card ≤ maxLedgerWorkers)
    (hw : isRecord write) (hkeys : ∀ key ∈ workerKeys write, key ∈ K)
    (ht : tryWrite write store faults = (true, store', faults')) :
    Recorded db₀ K (outs ++ [write]) store' ∧
      ∀ hash, HasRow store'.db hash ↔ HasRow store.db hash ∨ Enrols hash [write] := by
  have happlied := applied_of_tryWrite ht
  have hblocks := foundBlocks_of_applied happlied
  obtain ⟨hinv, hsums⟩ := hourSum_of_tryWrite hK h.inv hw hkeys ht
  have hgrow : ∀ hash, HasRow store'.db hash ↔ HasRow store.db hash ∨ Enrols hash [write] := by
    intro hash
    rw [hasRow_iff, hasRow_iff, hblocks, findBlock_rowsAfter, rowStep_ne_none]
  refine ⟨⟨hinv, ?_, fun key hour => ?_, fun hash => ?_, fun hash hsome => ?_⟩, hgrow⟩
  · rw [hblocks]
    exact nodup_rowsAfter h.hashes write
  · rw [hsums, h.sums, List.map_append, List.sum_append, List.map_singleton, List.sum_singleton,
      add_assoc]
  · rw [hblocks, findBlock_rowsAfter, h.rows, rowAfter_concat]
    · exact fun r => hash_of_findBlock
    · intro hsome
      rw [← h.rows, ← hasRow_iff]
      exact h.resolved hash hsome
  · rw [hgrow]
    rw [findSome?_concat] at hsome
    by_cases hbefore : outs.findSome? (resolutionOf hash) = none
    · -- the new write is the resolution, and it was applied to a row
      rw [hbefore, Option.none_or] at hsome
      cases write with
      | blockResolved hash' resolution ts =>
        obtain rfl : hash' = hash := by simpa [resolutionOf] using hsome
        exact .inl happlied.1
      | _ => exact absurd rfl hsome
    · exact .inl (h.resolved hash hbefore)

/-- A record that is refused changes nothing; without a fault it is a resolution whose block is
missing. -/
theorem Recorded.refuse (h : Recorded db₀ K outs store) (hK : K.card ≤ maxLedgerWorkers)
    (hw : isRecord write) (hkeys : ∀ key ∈ workerKeys write, key ∈ K)
    (ht : tryWrite write store faults = (false, store', faults')) :
    Recorded db₀ K outs store' ∧ store'.db = store.db ∧ (true ∉ faults →
      ∃ hash resolution ts, write = .blockResolved hash resolution ts ∧
      ¬ HasRow store.db hash) := by
  have hsame : store'.db = store.db → LedgerInv K store'.db store'.state →
      Recorded db₀ K outs store' := by
    intro hdb hinv
    refine ⟨hinv, ?_, ?_, ?_, ?_⟩ <;> rw [hdb]
    · exact h.hashes
    · exact h.sums
    · exact h.rows
    · exact h.resolved
  obtain ⟨e, hrefused, he⟩ := refused_of_tryWrite ht
  cases write with
  | ledger minute =>
    have hcounted := ledger_counted hK h.inv fun e he => hkeys _ (List.mem_map_of_mem he)
    obtain ⟨e, ⟨hfailure, hdb, hinv⟩, hne⟩ := ends_of_tryWrite_failed hcounted ht
    exact ⟨hsame hdb hinv, hdb, fun hf => absurd hfailure (hne hf)⟩
  | blockFound block =>
    obtain ⟨hfailure, hdb, hstate⟩ := hrefused
    exact ⟨hsame hdb (by rw [hdb, hstate]; exact h.inv), hdb, fun hf => absurd hfailure (he hf)⟩
  | blockResolved hash resolution ts =>
    obtain ⟨hwhy, hdb, hstate⟩ := hrefused
    refine ⟨hsame hdb (by rw [hdb, hstate]; exact h.inv), hdb, fun hf => ⟨hash, _, _, rfl, ?_⟩⟩
    rintro ⟨r, hr, hhash⟩
    exact hwhy.resolve_left (he hf) r hr hhash
  | _ => cases hw

/-! ## What is queued and parked -/

/-- A queue of records: of each block hash there is one block and one resolution at most, the
resolution comes after the block, and the workers are among `K`. -/
structure RecordQueue (db₀ : Database) (K : Finset (Str × Str)) (writes : List StoreWrite) :
    Prop where
  records : ∀ w ∈ writes, isRecord w
  workers : ∀ w ∈ writes, ∀ key ∈ workerKeys w, key ∈ K
  enrolledOnce : ∀ hash, (writes.filterMap (foundOf hash)).length ≤ 1
  resolvedOnce : ∀ hash, (writes.filterMap (resolutionOf hash)).length ≤ 1
  resolvedAfterFound : ResolvedAfterFound (HasRow db₀) writes

theorem RecordQueue.init (h : RecordQueue db₀ K (ins ++ [write])) : RecordQueue db₀ K ins := by
  have hsub : ins.Sublist (ins ++ [write]) := List.sublist_append_left _ _
  refine ⟨fun w hw => h.records w (by simp [hw]), fun w hw => h.workers w (by simp [hw]),
    fun hash => ?_, fun hash => ?_, (resolvedAfterFound_concat.mp h.resolvedAfterFound).1⟩
  · exact (hsub.filterMap _).length_le.trans (h.enrolledOnce hash)
  · exact (hsub.filterMap _).length_le.trans (h.resolvedOnce hash)

/-- The writes applied and parked were received, the block of every hash enrolled is in the table or
parked, and a parked resolution is behind its block. -/
structure Parked (db₀ : Database) (ins outs backlog : List StoreWrite) (db : Database) : Prop where
  writes : ∀ w ∈ outs ++ backlog, w ∈ ins
  kept : ∀ hash, HasRow db₀ hash ∨ Enrols hash ins → HasRow db hash ∨ Enrols hash backlog
  resolvedAfterFound : ResolvedAfterFound (HasRow db) backlog

theorem Parked.mem_of_backlog {db : Database} (h : Parked db₀ ins outs backlog db) {w : StoreWrite}
    (hw : w ∈ backlog) : w ∈ ins :=
  h.writes w (List.mem_append_right _ hw)

theorem Parked.retried {db db' : Database} (h : Parked db₀ ins outs (write :: backlog) db)
    (hgrow : ∀ hash, HasRow db' hash ↔ HasRow db hash ∨ Enrols hash [write]) :
    Parked db₀ ins (outs ++ [write]) backlog db' := by
  refine ⟨?_, fun hash hknown => ?_, h.resolvedAfterFound.2.mono fun hash => (hgrow hash).mpr⟩
  · simpa using h.writes
  · rw [hgrow, or_assoc, ← enrols_append]
    exact h.kept hash hknown

theorem Parked.applied {db db' : Database} (h : Parked db₀ ins outs backlog db)
    (hgrow : ∀ hash, HasRow db' hash ↔ HasRow db hash ∨ Enrols hash [write]) :
    Parked db₀ (ins ++ [write]) (outs ++ [write]) backlog db' := by
  refine ⟨fun w hw => ?_, fun hash hknown => ?_,
    h.resolvedAfterFound.mono fun hash hrow => (hgrow hash).mpr (.inl hrow)⟩
  · have hmem : w ∈ outs ++ backlog ∨ w = write := by
      simp only [List.mem_append, List.mem_singleton] at hw ⊢
      tauto
    rcases hmem with hmem | rfl
    · exact List.mem_append_left _ (h.writes w hmem)
    · simp
  · rw [enrols_append, ← or_assoc] at hknown
    rw [hgrow]
    rcases hknown with hknown | hnew
    · exact (h.kept hash hknown).imp_left .inl
    · exact .inl (.inr hnew)

theorem Parked.parked {db : Database} (h : Parked db₀ ins outs backlog db)
    (hq : RecordQueue db₀ K (ins ++ [write])) :
    Parked db₀ (ins ++ [write]) outs (backlog ++ [write]) db := by
  refine ⟨fun w hw => ?_, fun hash hknown => ?_, resolvedAfterFound_concat.mpr
    ⟨h.resolvedAfterFound, fun hash resolution ts hw => ?_⟩⟩
  · rw [← List.append_assoc, List.mem_append] at hw
    exact List.mem_append.mpr (hw.imp_left (h.writes w))
  · rw [enrols_append, ← or_assoc] at hknown ⊢
    exact hknown.imp_left (h.kept hash)
  · exact h.kept hash ((resolvedAfterFound_concat.mp hq.resolvedAfterFound).2 hash resolution ts hw)

theorem isDurable_of_isRecord (hw : isRecord write) : isDurable write := by
  cases write <;> first | rfl | cases hw

/-- Whatever fails, the database holds the writes applied to it and the others are parked. -/
theorem recovered_rule (db₀ : Database) (hK : K.card ≤ maxLedgerWorkers) :
    writer.Rule writer.Room fun ins outs backlog store => RecordQueue db₀ K ins →
      Recorded db₀ K outs store ∧ Parked db₀ ins outs backlog store.db where
  recovered := by
    intro ins outs w rest store f store' f' h ht hq
    obtain ⟨hrec, hpark⟩ := h hq
    have hmem : w ∈ ins := hpark.mem_of_backlog (by simp)
    obtain ⟨hrec', hgrow⟩ := hrec.apply hK (hq.records w hmem) (hq.workers w hmem) ht
    exact ⟨hrec', hpark.retried hgrow⟩
  refused := by
    intro ins outs w rest store f store' f' h ht hq
    obtain ⟨hrec, hpark⟩ := h hq
    have hmem : w ∈ ins := hpark.mem_of_backlog (by simp)
    obtain ⟨hrec', hdb, -⟩ := hrec.refuse hK (hq.records w hmem) (hq.workers w hmem) ht
    exact ⟨hrec', hdb ▸ hpark⟩
  applied := by
    intro ins outs w backlog store f store' f' _ h ht hq
    obtain ⟨hrec, hpark⟩ := h hq.init
    obtain ⟨hrec', hgrow⟩ := hrec.apply hK (hq.records w (by simp)) (hq.workers w (by simp)) ht
    exact ⟨hrec', hpark.applied hgrow⟩
  parked := by
    intro ins outs w backlog store f store' f' hroom h ht _ hq
    obtain ⟨hrec, hpark⟩ := h hq.init
    obtain ⟨hrec', hdb, -⟩ := hrec.refuse hK (hq.records w (by simp)) (hq.workers w (by simp)) ht
    rw [Writer.park_of_room hroom]
    exact ⟨hrec', hdb ▸ hpark.parked hq⟩
  dropped := by
    intro ins outs w backlog store f store' f' _ _ _ hd hq
    exact absurd (isDurable_of_isRecord (hq.records w (by simp))) hd

/-- A pass that meets no failure empties the backlog. -/
theorem Recorded.retryPass_left (hK : K.card ≤ maxLedgerWorkers) (hq : RecordQueue db₀ K ins)
    (hrec : Recorded db₀ K outs store) (hpark : Parked db₀ ins outs backlog store.db)
    (hf : true ∉ faults) : (writer.retryPass backlog store faults).left = [] := by
  refine (Writer.retryPass_left (W := writer) (H := fun f => true ∉ f)
    (Q := fun backlog store => ∃ outs, Recorded db₀ K outs store ∧
      Parked db₀ ins outs backlog store.db) ?_ ⟨outs, hrec, hpark⟩ hf).1
  rintro w rest store f ⟨outs, hrec, hpark⟩ hf
  have hmem : w ∈ ins := hpark.mem_of_backlog (by simp)
  rcases ht : tryWrite w store f with ⟨_ | _, store', f'⟩
  · -- the block of the oldest write is in the table, so it cannot be refused
    obtain ⟨-, -, hwhy⟩ := hrec.refuse hK (hq.records w hmem) (hq.workers w hmem) ht
    obtain ⟨hash, resolution, ts, rfl, hnone⟩ := hwhy hf
    exact absurd (hpark.resolvedAfterFound.1 hash resolution ts rfl) hnone
  · obtain ⟨hrec', hgrow⟩ := hrec.apply hK (hq.records w hmem) (hq.workers w hmem) ht
    exact ⟨store', f', ht, ⟨_, hrec', hpark.retried hgrow⟩,
      (ends_of_tryWrite (applyWrite_ends w store.db store.state) ht).2 hf⟩

/-! ## The run without failures -/

/-- Without failures every record is applied as it comes. -/
theorem recorded_of_failureFree {writes : List StoreWrite} (hK : K.card ≤ maxLedgerWorkers)
    (hstart : Recorded db₀ K [] ⟨db₀, .default⟩) (hq : RecordQueue db₀ K writes) :
    Recorded db₀ K writes
      (writer.process.run (startWriter db₀) (failureFree writes)).state.store := by
  have h := Writer.applied_on_receipt (W := writer) (C := Healthy) (Q := RecordQueue db₀ K)
    (P := fun ins store => Recorded db₀ K ins store ∧ Parked db₀ ins ins [] store.db)
    RecordQueue.init ?_ rfl (meets_failureFree (startWriter db₀) writes)
    ⟨hstart, ⟨fun w hw => hw, fun hash h => h, trivial⟩⟩ (by rwa [received_failureFree])
  · rw [received_failureFree] at h
    exact h.2.2.1
  · rintro ins backlog w store f hf hq ⟨hrec, hpark⟩
    rcases ht : tryWrite w store f with ⟨_ | _, store', f'⟩
    · obtain ⟨-, -, hwhy⟩ := hrec.refuse hK (hq.records w (by simp)) (hq.workers w (by simp)) ht
      obtain ⟨hash, resolution, ts, hw, hnone⟩ := hwhy hf
      have hknown := (resolvedAfterFound_concat.mp hq.resolvedAfterFound).2 hash resolution ts hw
      rcases hpark.kept hash hknown with hrow | ⟨_, hmem, -⟩
      · exact absurd hrow hnone
      · simp at hmem
    · obtain ⟨hrec', hgrow⟩ := hrec.apply hK (hq.records w (by simp)) (hq.workers w (by simp)) ht
      exact ⟨store', f', ht, hrec', hpark.applied hgrow⟩

/-! ## The two runs compared -/

theorem findSome?_perm {α β : Type} {f : α → Option β} {l l' : List α} (h : l.Perm l')
    (hl : (l.filterMap f).length ≤ 1) : l.findSome? f = l'.findSome? f := by
  rw [← List.head?_filterMap, ← List.head?_filterMap]
  have hperm := h.filterMap f
  cases hbs : l.filterMap f with
  | nil =>
    rw [hbs] at hperm
    rw [hperm.nil_eq]
  | cons b bs =>
    rw [hbs] at hl hperm
    obtain rfl : bs = [] := List.length_eq_zero_iff.mp (by simpa using hl)
    rw [List.perm_singleton.mp hperm.symm]

/-- The order of the writes does not matter to the row of a hash. -/
theorem RecordQueue.rowAfter_perm (h : RecordQueue db₀ K ins) (hperm : ins.Perm outs) (hash : Str)
    (before : Option FoundBlock) : rowAfter hash before ins = rowAfter hash before outs := by
  unfold rowAfter
  rw [findSome?_perm hperm (h.enrolledOnce hash), findSome?_perm hperm (h.resolvedOnce hash)]

/-- Rows with unique hashes are known by the row of each hash. -/
theorem mem_iff_findBlock {rows : List FoundBlock} (h : (rows.map fun r => r.hash).Nodup)
    {r : FoundBlock} : r ∈ rows ↔ findBlock r.hash rows = some r := by
  refine ⟨fun hr => ?_, List.mem_of_find?_eq_some⟩
  cases hfind : findBlock r.hash rows with
  | none => exact absurd rfl (findBlock_eq_none.mp hfind r hr)
  | some r' =>
    rw [List.inj_on_of_nodup_map h (List.mem_of_find?_eq_some hfind) hr (hash_of_findBlock hfind)]

theorem perm_of_findBlock {rows rows' : List FoundBlock} (h : (rows.map fun r => r.hash).Nodup)
    (h' : (rows'.map fun r => r.hash).Nodup)
    (hfind : ∀ hash, findBlock hash rows = findBlock hash rows') : rows.Perm rows' := by
  refine (List.perm_ext_iff_of_nodup h.of_map h'.of_map).mpr fun r => ?_
  rw [mem_iff_findBlock h, mem_iff_findBlock h', hfind]

/-- The resolution of a block that had none. -/
theorem RecordQueue.resolved_of_mem (hq : RecordQueue db₀ K ins) {hash : Str}
    {resolution : BlockResolution} {ts : ℕ} (hmem : .blockResolved hash resolution ts ∈ ins)
    {before : Option FoundBlock}
    (hbefore : ∀ r, before = some r → r.hash = hash ∧ r.resolved = none)
    {r : FoundBlock} (hr : rowAfter hash before ins = some r) :
    r.resolved = some (resolution, ts) := by
  have hfirst : ins.findSome? (resolutionOf hash) = some (resolution, ts) := by
    have hres : (resolution, ts) ∈ ins.filterMap (resolutionOf hash) :=
      List.mem_filterMap.mpr ⟨_, hmem, if_pos rfl⟩
    obtain ⟨p, hp⟩ := List.length_eq_one_iff.mp
      (le_antisymm (hq.resolvedOnce hash) (List.length_pos_of_mem hres))
    rw [hp] at hres
    rw [← List.head?_filterMap, hp, List.mem_singleton.mp hres]
    rfl
  rw [rowAfter, hfirst] at hr
  obtain ⟨row, hrow, rfl⟩ := Option.map_eq_some_iff.mp hr
  have hpending : row.hash = hash ∧ row.resolved = none := by
    refine ⟨hash_of_or_findSome? (fun r hr => (hbefore r hr).1) hrow, ?_⟩
    cases hb : before with
    | some r' =>
      rw [hb, Option.some_or] at hrow
      exact (hbefore row (hb.trans hrow)).2
    | none =>
      rw [hb, Option.none_or] at hrow
      obtain ⟨block, -, rfl⟩ := Option.map_eq_some_iff.mp hrow
      rfl
  rw [FoundBlock.resolve, if_pos hpending]

end Records

/-- A database whose rows refer to each other as the schema says. -/
structure Database.Sound (db : Database) : Prop where
  ledger : db.ledger.Sound
  hashes : (db.foundBlocks.map fun r => r.hash).Nodup

/-- Whatever the failures, as long as the backlog has room: the first pass that meets none empties
it, and the database holds what it would hold had nothing failed. -/
theorem recovered_as_without_failures {db : Database} (hdb : db.Sound) {K : Finset (Str × Str)}
    (hK : db.ledger.Knows K) (hcard : K.card < maxLedgerWorkers) {events : List WriterEvent}
    (hq : RecordQueue db K (received events))
    (hroom : writer.process.Meets writer.Room (startWriter db) events) {faults : List Bool}
    (hf : true ∉ faults) :
    let failed := writer.process.run (startWriter db) events
    let recovered := (writer.step failed.state (.retry faults)).state
    let smooth := (writer.process.run (startWriter db) (failureFree (received events))).state
    recovered.backlog = [] ∧
      (∀ key hour, recovered.store.db.ledger.hourSum key hour =
        smooth.store.db.ledger.hourSum key hour) ∧
      (∀ key hour, recovered.store.db.ledger.hourSum key hour = db.ledger.hourSum key hour +
        ((received events).map (amountsOfWrite key hour)).sum) ∧
      recovered.store.db.foundBlocks.Perm smooth.store.db.foundBlocks ∧
      ∀ hash resolution ts, .blockResolved hash resolution ts ∈ received events →
        (∀ r ∈ db.foundBlocks, r.hash = hash → r.resolved = none) →
        ∃ r ∈ recovered.store.db.foundBlocks, r.hash = hash ∧
        r.resolved = some (resolution, ts) := by
  intro failed recovered smooth
  have hle : K.card ≤ maxLedgerWorkers := hcard.le
  have hstart : Recorded db K [] ⟨db, .default⟩ ∧ Parked db [] [] [] db := by
    refine ⟨⟨⟨hdb.ledger, hK, fun _ _ h => by cases h⟩, hdb.hashes, fun _ _ => (add_zero _).symm,
      fun hash => ?_, fun hash h => absurd rfl h⟩, ⟨fun w hw => hw, fun hash h => h, trivial⟩⟩
    rw [rowAfter, List.findSome?_nil, List.findSome?_nil, Option.map_none, Option.or_none]
  obtain ⟨hrec, hpark⟩ := (recovered_rule db hle).run hroom (fun _ => hstart) hq
  have hsmooth := recorded_of_failureFree hle hstart.1 hq
  have hempty : recovered.backlog = [] := hrec.retryPass_left hle hq hpark hf
  -- the pass applies what was parked, so that all that was received is applied in some order
  obtain ⟨hrec', -⟩ := (recovered_rule db hle).retryPass faults (fun _ => ⟨hrec, hpark⟩) hq
  have hparked : (writer.retryPass failed.state.backlog failed.state.store faults).recovered =
      failed.state.backlog := by
    have h :=
      Writer.recovered_append_left (W := writer) failed.state.backlog failed.state.store faults
    rwa [show (writer.retryPass failed.state.backlog failed.state.store faults).left =
      [] from hempty, List.append_nil] at h
  have hperm : (received events).Perm (applied failed.outputs ++ failed.state.backlog) := by
    have hdurable : ∀ w ∈ received events, writer.durable w := fun w hw =>
      isDurable_of_isRecord (hq.records w hw)
    have h := Writer.perm_of_run hroom rfl
    rwa [List.filter_eq_self.mpr hdurable, List.filter_eq_self.mpr fun w hw =>
      hdurable w (hpark.writes w (List.mem_append_left _ hw))] at h
  rw [hparked] at hrec'
  have hsums : ∀ key hour, recovered.store.db.ledger.hourSum key hour =
      db.ledger.hourSum key hour + ((received events).map (amountsOfWrite key hour)).sum := by
    intro key hour
    rw [(hperm.map _).sum_eq]
    exact hrec'.sums key hour
  have hrows : ∀ hash, findBlock hash recovered.store.db.foundBlocks =
      rowAfter hash (findBlock hash db.foundBlocks) (received events) := by
    intro hash
    rw [hq.rowAfter_perm hperm]
    exact hrec'.rows hash
  refine ⟨hempty, fun key hour => (hsums key hour).trans (hsmooth.sums key hour).symm, hsums,
    perm_of_findBlock hrec'.hashes hsmooth.hashes fun hash => (hrows hash).trans
      (hsmooth.rows hash).symm, fun hash resolution ts hmem hpending => ?_⟩
  have hrow : HasRow recovered.store.db hash := by
    refine hrec'.resolved hash ?_
    rw [← findSome?_perm hperm (hq.resolvedOnce hash), Ne, List.findSome?_eq_none_iff]
    exact fun hnone => absurd (hnone _ hmem) (by simp [resolutionOf])
  obtain ⟨r, hr⟩ := Option.ne_none_iff_exists'.mp (hasRow_iff.mp hrow)
  refine ⟨r, List.mem_of_find?_eq_some hr, hash_of_findBlock hr, ?_⟩
  refine hq.resolved_of_mem hmem (fun r hr => ?_) ((hrows hash).symm.trans hr)
  exact ⟨hash_of_findBlock hr, hpending r (List.mem_of_find?_eq_some hr) (hash_of_findBlock hr)⟩

/-- A minute in which a worker had one share accepted. -/
def regtestMinute : LedgerMinute where
  minuteTs := 60
  entries := [{ work := 1, accepted := 1, rejected := 0, worker := "w.rig".toList }]
  aligned := rfl
  named := by decide

/-- A minute and a resolution fail while the block between them gets through. -/
theorem recovered_as_without_failures_regtest :
    let events := [⟨some (.ledger regtestMinute), [], [true]⟩,
      ⟨some (.blockFound (regtestBlock "00".toList 7 true)), [true], []⟩,
      ⟨some (.blockResolved "00".toList .confirmed 9), [true], [true]⟩].flatMap Turn.events
    let failed := writer.process.run (startWriter (.create 0)) events
    let recovered := (writer.step failed.state (.retry [])).state
    failed.state.backlog.length = 2 ∧ recovered.backlog = [] ∧
      recovered.store.db.ledger.hourSum ("w".toList, "rig".toList) 0 = ⟨1, 1, 0⟩ := by
  intro events failed recovered
  have hreceived : received events = [.ledger regtestMinute,
      .blockFound (regtestBlock "00".toList 7 true), .blockResolved "00".toList .confirmed 9] := rfl
  have hq : RecordQueue (.create 0) {("w".toList, "rig".toList)} (received events) := by
    rw [hreceived]
    refine ⟨by simp [isRecord], ?_, fun hash => ?_, fun hash => ?_, ?_⟩
    · simp only [List.mem_cons, List.not_mem_nil, or_false, forall_eq_or_imp, forall_eq]
      exact ⟨by decide, by decide, by decide⟩
    · simp only [List.filterMap_cons, foundOf, List.filterMap_nil]
      split <;> simp
    · simp only [List.filterMap_cons, resolutionOf, List.filterMap_nil]
      split <;> simp
    · refine ⟨by simp, by simp, fun hash resolution ts h => ?_, trivial⟩
      cases h
      exact .inr ⟨_, List.mem_singleton_self _, rfl⟩
  have hroom : writer.process.Meets writer.Room (startWriter (.create 0)) events := by
    decide +kernel
  have hdb : (Database.create 0).Sound := ⟨ShareLedger.sound_empty, List.nodup_nil⟩
  obtain ⟨hempty, -, hsums, -⟩ := recovered_as_without_failures hdb (fun _ h => by cases h)
    (by decide) hq hroom List.not_mem_nil
  -- the final state as the theorem writes it, so that nothing is run to compare the two
  have hrecovered : recovered = (writer.step
      (writer.process.run (startWriter (.create 0)) events).state (.retry [])).state := rfl
  rw [hrecovered]
  exact ⟨by decide +kernel, hempty, (hsums _ _).trans (by decide +kernel)⟩

end BtcPool.Stats
