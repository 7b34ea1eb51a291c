import Mathlib.Data.List.Infix

/-!
# Programs over a database that can fail

A program over a database of type `δ` that keeps a memory of its own of type `μ`. Each statement
either fails, as a pattern of faults says, and then changes nothing, or does what it says. A
transaction that fails anywhere between its begin and its commit leaves the database as it found it;
the memory is the program's and is not rolled back.

`Ends x db memory Q E` says how `x` ends whatever the faults: with a result that meets `Q`, or with
an error that meets `E`. It is derived by the rules `Ends.pure`, `Ends.bind`, `Ends.statement`,
`Ends.transaction`, … A program that meets no fault does not end with a failure of the disk
(`Sql.ne_failure`), so the errors left to it are those it makes itself.

`Respects S x` compares two runs of `x`: from databases related by `S`, and with the same memory and
the same faults, they end with the same result and on related databases.
-/

namespace BtcPool.Sqlite

/-- Why a statement fails. -/
inductive Error
  /-- The disk, or a lock held past the busy timeout. -/
  | failure
  | constraint
  | queryReturnedNoRows
  deriving DecidableEq

/-- A connection: the database, the memory of the program that uses it, and which of the statements
to come fail (none after the end of the list). -/
structure Conn (δ μ : Type) where
  db : δ
  memory : μ
  faults : List Bool

namespace Conn

variable {δ μ : Type}

/-- Whether the next statement fails. -/
def failing (c : Conn δ μ) : Bool := c.faults.head? == some true

/-- The connection once one more statement was tried. -/
def next (c : Conn δ μ) : Conn δ μ := { c with faults := c.faults.tail }

theorem mem_faults_of_failing {c : Conn δ μ} (h : c.failing) : true ∈ c.faults := by
  cases hf : c.faults with
  | nil => simp [failing, hf] at h
  | cons b faults =>
    obtain rfl : b = true := by simpa [failing, hf] using h
    simp

end Conn

/-- What a run from `c` may come to: it has consumed faults from the front, and a failure of the
disk is a fault it has met. -/
def Honest {δ μ α : Type} (c : Conn δ μ) (r : Except Error α × Conn δ μ) : Prop :=
  r.2.faults <:+ c.faults ∧ (r.1 = .error .failure → true ∈ c.faults)

/-- A program. -/
structure Sql (δ μ α : Type) where
  run : Conn δ μ → Except Error α × Conn δ μ
  honest : ∀ c, Honest c (run c)

namespace Sql

variable {δ μ α β : Type}

theorem ne_failure (x : Sql δ μ α) {c : Conn δ μ} (h : true ∉ c.faults) :
    (x.run c).1 ≠ .error .failure :=
  fun hrun => h ((x.honest c).2 hrun)

/-- A program leaves no fault behind where there was none. -/
theorem notMem_faults (x : Sql δ μ α) {c : Conn δ μ} (h : true ∉ c.faults) :
    true ∉ (x.run c).2.faults :=
  fun hmem => h ((x.honest c).1.subset hmem)

theorem honest_of_eq (x : Sql δ μ α) {c c' : Conn δ μ} {r : Except Error α}
    (h : x.run c = (r, c')) : Honest c (r, c') :=
  h ▸ x.honest c

theorem honest_failing {c : Conn δ μ} (h : c.failing) :
    Honest c ((.error .failure, c.next) : Except Error α × Conn δ μ) :=
  ⟨List.tail_suffix _, fun _ => Conn.mem_faults_of_failing h⟩

theorem honest_of_ne {c c' : Conn δ μ} {r : Except Error α} (h : c'.faults <:+ c.faults)
    (hr : r ≠ .error .failure) : Honest c (r, c') :=
  ⟨h, fun hfailure => absurd hfailure hr⟩

/-! ## Sequences -/

/-- Nothing but a value. -/
def ret (a : α) : Sql δ μ α where
  run c := (.ok a, c)
  honest _ := honest_of_ne (List.suffix_refl _) (by simp)

/-- One program after another. -/
def runBind (x : Sql δ μ α) (f : α → Sql δ μ β) (c : Conn δ μ) : Except Error β × Conn δ μ :=
  match x.run c with
  | (.ok a, c) => (f a).run c
  | (.error e, c) => (.error e, c)

theorem honest_runBind (x : Sql δ μ α) (f : α → Sql δ μ β) (c : Conn δ μ) :
    Honest c (runBind x f c) := by
  unfold runBind
  rcases hrun : x.run c with ⟨e | a, c'⟩ <;> obtain ⟨hsuffix, hfaulted⟩ := x.honest_of_eq hrun
  · exact ⟨hsuffix, fun h => hfaulted (by simpa using h)⟩
  · obtain ⟨hsuffix', hfaulted'⟩ := (f a).honest c'
    exact ⟨hsuffix'.trans hsuffix, fun h => hsuffix.subset (hfaulted' h)⟩

instance : Monad (Sql δ μ) where
  pure := ret
  bind x f := ⟨runBind x f, honest_runBind x f⟩

/-- End with an error of the program's own. -/
def throw (e : Error) (he : e ≠ .failure) : Sql δ μ α where
  run c := (.error e, c)
  honest _ := honest_of_ne (List.suffix_refl _) (by simpa using he)

/-! ## Statements and transactions -/

/-- A statement, which the disk may refuse. -/
def runStatement (f : δ → Except Error (α × δ)) (c : Conn δ μ) : Except Error α × Conn δ μ :=
  if c.failing then (.error .failure, c.next)
  else
    match f c.db with
    | .ok (a, db) => (.ok a, { c.next with db })
    | .error e => (.error e, c.next)

/-- One statement, whose own errors are not failures of the disk. -/
def statement (f : δ → Except Error (α × δ)) (hf : ∀ db, f db ≠ .error .failure) : Sql δ μ α where
  run := runStatement f
  honest c := by
    unfold runStatement
    split
    · exact honest_failing ‹_›
    · cases hdb : f c.db with
      | error e =>
        refine honest_of_ne (List.tail_suffix _) fun h => hf c.db ?_
        rw [hdb, Except.error.inj h]
      | ok p => exact honest_of_ne (List.tail_suffix _) (by simp)

/-- A statement that changes rows and says something about them. -/
def update (f : δ → α × δ) : Sql δ μ α := statement (fun db => .ok (f db)) (by simp)

/-- A statement that changes rows. -/
def execute (f : δ → δ) : Sql δ μ Unit := update fun db => ((), f db)

/-- A statement that changes rows unless it breaks a constraint. -/
def executeChecked (ok : δ → Bool) (f : δ → δ) : Sql δ μ Unit :=
  statement (fun db => if ok db then .ok ((), f db) else .error .constraint) fun db => by
    split <;> simp

/-- A statement of which only its failing matters. -/
def touch : Sql δ μ Unit := execute id

/-- A query for one row. -/
def queryRow (f : δ → Option α) : Sql δ μ α :=
  statement (fun db => match f db with
    | some a => .ok (a, db)
    | none => .error .queryReturnedNoRows) fun db => by split <;> simp

/-- A query that always has its row. -/
def query (f : δ → α) : Sql δ μ α := statement (fun db => .ok (f db, db)) (by simp)

/-- A body whose writes stand only if the commit succeeds. -/
def runTransaction (body : Sql δ μ α) (c : Conn δ μ) : Except Error α × Conn δ μ :=
  if c.failing then (.error .failure, c.next)
  else
    match body.run c.next with
    | (.error e, c') => (.error e, { c' with db := c.db })
    | (.ok a, c') =>
      if c'.failing then (.error .failure, { c'.next with db := c.db }) else (.ok a, c'.next)

/-- Begin, the body, commit; the database is rolled back if any of them fails. -/
def transaction (body : Sql δ μ α) : Sql δ μ α where
  run := runTransaction body
  honest c := by
    unfold runTransaction
    split
    · exact honest_failing ‹_›
    · have hnext : c.next.faults <:+ c.faults := List.tail_suffix _
      rcases hrun : body.run c.next with ⟨e | a, c'⟩ <;>
        obtain ⟨hsuffix, hfaulted⟩ := body.honest_of_eq hrun
      · exact ⟨hsuffix.trans hnext, fun h => hnext.subset (hfaulted h)⟩
      · have hsuffix' : c'.faults <:+ c.faults := hsuffix.trans hnext
        have htail : c'.faults.tail <:+ c.faults := (List.tail_suffix _).trans hsuffix'
        dsimp only
        split
        · exact ⟨htail, fun _ => hsuffix'.subset (Conn.mem_faults_of_failing ‹_›)⟩
        · exact honest_of_ne htail (by simp)

/-! ## Memory and errors -/

/-- Read the state in memory. -/
def readMemory (f : μ → α) : Sql δ μ α where
  run c := (.ok (f c.memory), c)
  honest _ := honest_of_ne (List.suffix_refl _) (by simp)

/-- Change the state in memory. -/
def modifyMemory (f : μ → μ) : Sql δ μ Unit where
  run c := (.ok (), { c with memory := f c.memory })
  honest _ := honest_of_ne (List.suffix_refl _) (by simp)

/-- A program that changes the state in memory when it fails. -/
def runOnError (x : Sql δ μ α) (f : μ → μ) (c : Conn δ μ) : Except Error α × Conn δ μ :=
  match x.run c with
  | (.ok a, c) => (.ok a, c)
  | (.error e, c) => (.error e, { c with memory := f c.memory })

/-- Tidy up the memory if the program fails. -/
def onError (x : Sql δ μ α) (f : μ → μ) : Sql δ μ α where
  run := runOnError x f
  honest c := by
    unfold runOnError
    rcases hrun : x.run c with ⟨e | a, c'⟩ <;> obtain ⟨hsuffix, hfaulted⟩ := x.honest_of_eq hrun <;>
      exact ⟨hsuffix, hfaulted⟩

/-- Carry on whether or not the program failed. -/
def ignore (x : Sql δ μ Unit) : Sql δ μ Unit where
  run c := (.ok (), (x.run c).2)
  honest c := honest_of_ne (x.honest c).1 (by simp)

/-- A program for which no row is an answer too. -/
def runOptional (x : Sql δ μ α) (c : Conn δ μ) : Except Error (Option α) × Conn δ μ :=
  match x.run c with
  | (.ok a, c) => (.ok (some a), c)
  | (.error e, c) => if e = .queryReturnedNoRows then (.ok none, c) else (.error e, c)

/-- A query that may have no row. -/
def optional (x : Sql δ μ α) : Sql δ μ (Option α) where
  run := runOptional x
  honest c := by
    unfold runOptional
    rcases hrun : x.run c with ⟨e | a, c'⟩ <;> obtain ⟨hsuffix, hfaulted⟩ := x.honest_of_eq hrun
    · dsimp only
      split
      · exact honest_of_ne hsuffix (by simp)
      · exact ⟨hsuffix, fun h => hfaulted (by simpa using h)⟩
    · exact honest_of_ne hsuffix (by simp)

/-! ## How programs end -/

/-- A result that meets `Q`, or an error that meets `E`. -/
def Met (Q : α → δ → μ → Prop) (E : Error → δ → μ → Prop) : Except Error α × Conn δ μ → Prop
  | (.ok a, c) => Q a c.db c.memory
  | (.error e, c) => E e c.db c.memory

/-- Whatever the faults, the program ends with a result that meets `Q` or an error that meets
`E`. -/
def Ends (x : Sql δ μ α) (db : δ) (memory : μ) (Q : α → δ → μ → Prop)
    (E : Error → δ → μ → Prop) : Prop :=
  ∀ faults, Met Q E (x.run ⟨db, memory, faults⟩)

variable {x : Sql δ μ α} {f : α → Sql δ μ β} {db : δ} {memory : μ} {Q Q' : α → δ → μ → Prop}
  {R : β → δ → μ → Prop} {E E' : Error → δ → μ → Prop}

theorem Met.mono {r : Except Error α × Conn δ μ} (h : Met Q E r)
    (hQ : ∀ a db memory, Q a db memory → Q' a db memory)
    (hE : ∀ e db memory, E e db memory → E' e db memory) : Met Q' E' r := by
  rcases r with ⟨e | a, c⟩
  · exact hE _ _ _ h
  · exact hQ _ _ _ h

theorem Ends.mono (h : Ends x db memory Q E) (hQ : ∀ a db memory, Q a db memory → Q' a db memory)
    (hE : ∀ e db memory, E e db memory → E' e db memory) : Ends x db memory Q' E' :=
  fun faults => (h faults).mono hQ hE

theorem Ends.and (h : Ends x db memory Q E) (h' : Ends x db memory Q' E') :
    Ends x db memory (fun a db memory => Q a db memory ∧ Q' a db memory)
      (fun e db memory => E e db memory ∧ E' e db memory) := by
  intro faults
  have hfirst := h faults
  have hsecond := h' faults
  rcases hrun : x.run ⟨db, memory, faults⟩ with ⟨e | a, c⟩ <;> rw [hrun] at hfirst hsecond
  · exact ⟨hfirst, hsecond⟩
  · exact ⟨hfirst, hsecond⟩

theorem Ends.pure {a : α} (h : Q a db memory) : Ends (Pure.pure a : Sql δ μ α) db memory Q E :=
  fun _ => h

theorem Ends.bind (h : Ends x db memory (fun a db memory => Ends (f a) db memory R E) E) :
    Ends (x >>= f) db memory R E := by
  intro faults
  have hx := h faults
  change Met R E (runBind x f ⟨db, memory, faults⟩)
  unfold runBind
  rcases hrun : x.run ⟨db, memory, faults⟩ with ⟨e | a, c⟩ <;> rw [hrun] at hx
  · exact hx
  · exact hx c.faults

theorem Ends.throw {e : Error} (he : e ≠ .failure) (h : E e db memory) :
    Ends (Sql.throw e he : Sql δ μ α) db memory Q E :=
  fun _ => h

theorem Ends.statement {g : δ → Except Error (α × δ)} {hg : ∀ db, g db ≠ .error .failure}
    (hfail : E .failure db memory) (hok : ∀ {a db'}, g db = .ok (a, db') → Q a db' memory)
    (herror : ∀ {e}, g db = .error e → E e db memory) :
    Ends (Sql.statement g hg) db memory Q E := by
  intro faults
  change Met Q E (runStatement g ⟨db, memory, faults⟩)
  unfold runStatement
  by_cases hc : (⟨db, memory, faults⟩ : Conn δ μ).failing
  · rw [if_pos hc]
    exact hfail
  · rw [if_neg hc]
    dsimp only
    cases hdb : g db with
    | error e => exact herror hdb
    | ok p => exact hok hdb

theorem Ends.update {g : δ → α × δ} (hfail : E .failure db memory)
    (hok : Q (g db).1 (g db).2 memory) : Ends (Sql.update g) db memory Q E :=
  .statement hfail (fun h => by rw [Except.ok.inj h] at hok; exact hok) (fun h => by cases h)

theorem Ends.execute {g : δ → δ} {Q : Unit → δ → μ → Prop} (hfail : E .failure db memory)
    (hok : Q () (g db) memory) : Ends (Sql.execute g) db memory Q E :=
  .update hfail hok

theorem Ends.executeChecked {ok : δ → Bool} {g : δ → δ} {Q : Unit → δ → μ → Prop}
    (hfail : E .failure db memory) (hok : ok db → Q () (g db) memory)
    (hconstraint : ¬ ok db → E .constraint db memory) :
    Ends (Sql.executeChecked ok g) db memory Q E := by
  by_cases hdb : ok db
  · refine .statement hfail (fun h => ?_) (fun h => ?_)
    · rw [if_pos hdb] at h
      cases h
      exact hok hdb
    · rw [if_pos hdb] at h
      cases h
  · refine .statement hfail (fun h => ?_) (fun h => ?_)
    · rw [if_neg hdb] at h
      cases h
    · rw [if_neg hdb] at h
      cases h
      exact hconstraint hdb

theorem Ends.touch {Q : Unit → δ → μ → Prop} (hfail : E .failure db memory) (hok : Q () db memory) :
    Ends Sql.touch db memory Q E :=
  .execute hfail hok

theorem Ends.query {g : δ → α} (hfail : E .failure db memory) (hok : Q (g db) db memory) :
    Ends (Sql.query g) db memory Q E :=
  .statement hfail (fun h => by cases h; exact hok) (fun h => by cases h)

theorem Ends.queryRow {g : δ → Option α} (hfail : E .failure db memory)
    (hok : ∀ {a}, g db = some a → Q a db memory)
    (hnone : g db = none → E .queryReturnedNoRows db memory) :
    Ends (Sql.queryRow g) db memory Q E := by
  cases hdb : g db with
  | none =>
    refine .statement hfail (fun h => ?_) (fun h => ?_) <;> simp only [hdb] at h <;> cases h
    exact hnone hdb
  | some a =>
    refine .statement hfail (fun h => ?_) (fun h => ?_) <;> simp only [hdb] at h <;> cases h
    exact hok hdb

theorem Ends.optional {Q : Option α → δ → μ → Prop}
    (h : Ends x db memory (fun a db memory => Q (some a) db memory) (fun e db memory =>
      if e = .queryReturnedNoRows then Q none db memory else E e db memory)) :
    Ends (Sql.optional x) db memory Q E := by
  intro faults
  have hx := h faults
  change Met Q E (runOptional x ⟨db, memory, faults⟩)
  unfold runOptional
  rcases hrun : x.run ⟨db, memory, faults⟩ with ⟨e | a, c⟩ <;> rw [hrun] at hx
  · by_cases he : e = .queryReturnedNoRows <;> simpa [Met, he] using hx
  · exact hx

/-- A transaction that fails leaves the database as it was. -/
theorem Ends.transaction (hfail : E .failure db memory)
    (hbody : Ends x db memory (fun a db' memory' => Q a db' memory' ∧ E .failure db memory')
      (fun e _ memory' => E e db memory')) :
    Ends (Sql.transaction x) db memory Q E := by
  intro faults
  have hx := hbody faults.tail
  change Met Q E (runTransaction x ⟨db, memory, faults⟩)
  unfold runTransaction
  by_cases hc : (⟨db, memory, faults⟩ : Conn δ μ).failing
  · rw [if_pos hc]
    exact hfail
  · rw [if_neg hc, show Conn.next ⟨db, memory, faults⟩ = ⟨db, memory, faults.tail⟩ from rfl]
    rcases hrun : x.run ⟨db, memory, faults.tail⟩ with ⟨e | a, c⟩ <;> rw [hrun] at hx
    · exact hx
    · dsimp only
      by_cases hcommit : c.failing
      · rw [if_pos hcommit]
        exact hx.2
      · rw [if_neg hcommit]
        exact hx.1

theorem Ends.readMemory {g : μ → α} (h : Q (g memory) db memory) :
    Ends (Sql.readMemory g) db memory Q E :=
  fun _ => h

theorem Ends.modifyMemory {g : μ → μ} {Q : Unit → δ → μ → Prop} (h : Q () db (g memory)) :
    Ends (Sql.modifyMemory g) db memory Q E :=
  fun _ => h

theorem Ends.onError {g : μ → μ}
    (h : Ends x db memory Q (fun e db memory => E e db (g memory))) :
    Ends (x.onError g) db memory Q E := by
  intro faults
  have hx := h faults
  change Met Q E (runOnError x g ⟨db, memory, faults⟩)
  unfold runOnError
  rcases hrun : x.run ⟨db, memory, faults⟩ with ⟨e | a, c⟩ <;> rw [hrun] at hx <;> exact hx

theorem Ends.ignore {y : Sql δ μ Unit} {Q : Unit → δ → μ → Prop}
    (h : Ends y db memory Q (fun _ db memory => Q () db memory)) :
    Ends y.ignore db memory Q E := by
  intro faults
  have hx := h faults
  change Q () (y.run ⟨db, memory, faults⟩).2.db (y.run ⟨db, memory, faults⟩).2.memory
  rcases hrun : y.run ⟨db, memory, faults⟩ with ⟨e | ⟨⟩, c⟩ <;> rw [hrun] at hx <;> exact hx

/-! ## Runs on related databases -/

/-- Two runs that ended alike, on related databases. -/
structure Alike (S : δ → δ → Prop) (r r' : Except Error α × Conn δ μ) : Prop where
  result : r.1 = r'.1
  db : S r.2.db r'.2.db
  memory : r.2.memory = r'.2.memory
  faults : r.2.faults = r'.2.faults

/-- The program ends alike on related databases, with the same memory and the same faults. -/
def Respects (S : δ → δ → Prop) (x : Sql δ μ α) : Prop :=
  ∀ c c' : Conn δ μ, S c.db c'.db → c.memory = c'.memory → c.faults = c'.faults →
    Alike S (x.run c) (x.run c')

section Respects

variable {S : δ → δ → Prop}

theorem Respects.pure (a : α) : Respects S (Pure.pure a : Sql δ μ α) :=
  fun _ _ hdb hmemory hfaults => ⟨rfl, hdb, hmemory, hfaults⟩

theorem Respects.bind (hx : Respects S x) (hf : ∀ a, Respects S (f a)) :
    Respects S (x >>= f) := by
  intro c c' hdb hmemory hfaults
  have hfirst := hx c c' hdb hmemory hfaults
  change Alike S (runBind x f c) (runBind x f c')
  unfold runBind
  rcases hrun : x.run c with ⟨e | a, d⟩ <;> rcases hrun' : x.run c' with ⟨e' | a', d'⟩ <;>
    rw [hrun, hrun'] at hfirst <;> obtain ⟨hresult, hdb', hmemory', hfaults'⟩ := hfirst <;>
    cases hresult
  · exact ⟨rfl, hdb', hmemory', hfaults'⟩
  · exact hf a d d' hdb' hmemory' hfaults'

theorem failing_congr {c c' : Conn δ μ} (h : c.faults = c'.faults) : c.failing = c'.failing := by
  rw [Conn.failing, Conn.failing, h]

/-- A statement respects a relation if on related databases it says the same, error or result, and
leaves them related. -/
theorem Respects.statement {g : δ → Except Error (α × δ)} {hg : ∀ db, g db ≠ .error .failure}
    (h : ∀ db db', S db db' → (∃ e, g db = .error e ∧ g db' = .error e) ∨
      ∃ a d d', g db = .ok (a, d) ∧ g db' = .ok (a, d') ∧ S d d') :
    Respects S (Sql.statement g hg : Sql δ μ α) := by
  intro c c' hdb hmemory hfaults
  have htail : c.faults.tail = c'.faults.tail := congrArg List.tail hfaults
  change Alike S (runStatement g c) (runStatement g c')
  unfold runStatement
  rw [failing_congr hfaults]
  by_cases hc : c'.failing
  · rw [if_pos hc, if_pos hc]
    exact ⟨rfl, hdb, hmemory, htail⟩
  · rw [if_neg hc, if_neg hc]
    rcases h c.db c'.db hdb with ⟨e, he, he'⟩ | ⟨a, d, d', hd, hd', hS⟩
    · rw [he, he']
      exact ⟨rfl, hdb, hmemory, htail⟩
    · rw [hd, hd']
      exact ⟨rfl, hS, hmemory, htail⟩

theorem Respects.execute {g : δ → δ} (h : ∀ db db', S db db' → S (g db) (g db')) :
    Respects S (Sql.execute g : Sql δ μ Unit) := by
  unfold Sql.execute Sql.update
  exact .statement fun db db' hdb => .inr ⟨(), g db, g db', rfl, rfl, h db db' hdb⟩

theorem Respects.executeChecked {ok : δ → Bool} {g : δ → δ}
    (hok : ∀ db db', S db db' → ok db = ok db')
    (h : ∀ db db', S db db' → ok db' → S (g db) (g db')) :
    Respects S (Sql.executeChecked ok g : Sql δ μ Unit) := by
  refine .statement fun db db' hdb => ?_
  rw [hok db db' hdb]
  by_cases hallowed : ok db' = true
  · rw [if_pos hallowed, if_pos hallowed]
    exact .inr ⟨(), g db, g db', rfl, rfl, h db db' hdb hallowed⟩
  · rw [if_neg hallowed, if_neg hallowed]
    exact .inl ⟨.constraint, rfl, rfl⟩

theorem Respects.touch : Respects S (Sql.touch : Sql δ μ Unit) := .execute fun _ _ hdb => hdb

theorem Respects.query {g : δ → α} (h : ∀ db db', S db db' → g db = g db') :
    Respects S (Sql.query g : Sql δ μ α) :=
  .statement fun db db' hdb => .inr ⟨g db, db, db', rfl, by rw [h db db' hdb], hdb⟩

theorem Respects.queryRow {g : δ → Option α} (h : ∀ db db', S db db' → g db = g db') :
    Respects S (Sql.queryRow g : Sql δ μ α) := by
  refine .statement fun db db' hdb => ?_
  rw [h db db' hdb]
  cases g db' with
  | none => exact .inl ⟨.queryReturnedNoRows, rfl, rfl⟩
  | some a => exact .inr ⟨a, db, db', rfl, rfl, hdb⟩

theorem Respects.optional (hx : Respects S x) : Respects S (Sql.optional x) := by
  intro c c' hdb hmemory hfaults
  have hrow := hx c c' hdb hmemory hfaults
  change Alike S (runOptional x c) (runOptional x c')
  unfold runOptional
  rcases hrun : x.run c with ⟨e | a, d⟩ <;> rcases hrun' : x.run c' with ⟨e' | a', d'⟩ <;>
    rw [hrun, hrun'] at hrow <;> obtain ⟨hresult, hdb', hmemory', hfaults'⟩ := hrow <;>
    cases hresult
  · dsimp only
    split
    · exact ⟨rfl, hdb', hmemory', hfaults'⟩
    · exact ⟨rfl, hdb', hmemory', hfaults'⟩
  · exact ⟨rfl, hdb', hmemory', hfaults'⟩

/-- A transaction that is rolled back ends on the databases it began on. -/
theorem Respects.transaction (hx : Respects S x) : Respects S (Sql.transaction x) := by
  intro c c' hdb hmemory hfaults
  have htail : c.faults.tail = c'.faults.tail := congrArg List.tail hfaults
  have hbody := hx c.next c'.next hdb hmemory htail
  change Alike S (runTransaction x c) (runTransaction x c')
  unfold runTransaction
  rw [failing_congr hfaults]
  by_cases hc : c'.failing
  · rw [if_pos hc, if_pos hc]
    exact ⟨rfl, hdb, hmemory, htail⟩
  · rw [if_neg hc, if_neg hc]
    rcases hrun : x.run c.next with ⟨e | a, d⟩ <;>
      rcases hrun' : x.run c'.next with ⟨e' | a', d'⟩ <;> rw [hrun, hrun'] at hbody <;>
      obtain ⟨hresult, hdb', hmemory', hfaults'⟩ := hbody <;> cases hresult
    · exact ⟨rfl, hdb, hmemory', hfaults'⟩
    · have htail' : d.faults.tail = d'.faults.tail := congrArg List.tail hfaults'
      dsimp only
      rw [failing_congr hfaults']
      by_cases hcommit : d'.failing
      · rw [if_pos hcommit, if_pos hcommit]
        exact ⟨rfl, hdb, hmemory', htail'⟩
      · rw [if_neg hcommit, if_neg hcommit]
        exact ⟨rfl, hdb', hmemory', htail'⟩

theorem Respects.readMemory (g : μ → α) : Respects S (Sql.readMemory g : Sql δ μ α) :=
  fun _ _ hdb hmemory hfaults => ⟨congrArg (Except.ok ∘ g) hmemory, hdb, hmemory, hfaults⟩

theorem Respects.modifyMemory (g : μ → μ) : Respects S (Sql.modifyMemory g : Sql δ μ Unit) :=
  fun _ _ hdb hmemory hfaults => ⟨rfl, hdb, congrArg g hmemory, hfaults⟩

theorem Respects.onError (hx : Respects S x) (g : μ → μ) : Respects S (x.onError g) := by
  intro c c' hdb hmemory hfaults
  have hrow := hx c c' hdb hmemory hfaults
  change Alike S (runOnError x g c) (runOnError x g c')
  unfold runOnError
  rcases hrun : x.run c with ⟨e | a, d⟩ <;> rcases hrun' : x.run c' with ⟨e' | a', d'⟩ <;>
    rw [hrun, hrun'] at hrow <;> obtain ⟨hresult, hdb', hmemory', hfaults'⟩ := hrow <;>
    cases hresult
  · exact ⟨rfl, hdb', congrArg g hmemory', hfaults'⟩
  · exact ⟨rfl, hdb', hmemory', hfaults'⟩

end Respects

end Sql

end BtcPool.Sqlite
