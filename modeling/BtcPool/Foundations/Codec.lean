import BtcPool.Foundations.Bytes
import Mathlib.Control.Lawful

/-!
# Readers of binary formats

A reader takes a value off the front of a byte string and leaves the rest. `Reads r enc a` says
that `r` reads `a` off `enc` whatever follows, which is how a format is shown to be decoded: the
readers of its parts are composed (`Reads.bind`, `Reads.pure`, `Reads.many`) along the
concatenation of their encodings, and the reader of a whole string (`Reader.whole`) accepts
exactly what its reader takes off with nothing left over.

The formats provided are fixed-width little-endian numbers, counted byte strings and lists, and
the CompactSize count in front of them: one byte below `0xfd`, otherwise a marker byte and two,
four or eight bytes, the shortest that fits (`compactSize_shortest`). Its reader refuses counts
that are not in their shortest form.
-/

namespace BtcPool

/-- A reader of values of type `α`. -/
abbrev Reader (α : Type) := StateT Bytes Option α

/-- The reader `r` reads `a` off `enc`, whatever follows it. -/
def Reads {α : Type} (r : Reader α) (enc : Bytes) (a : α) : Prop :=
  ∀ rest, r.run (enc ++ rest) = some (a, rest)

/-- Read a whole byte string: nothing may be left over. -/
def Reader.whole {α : Type} (r : Reader α) (bs : Bytes) : Option α :=
  match r.run bs with
  | some (a, []) => some a
  | _ => none

namespace Reads

variable {α β : Type}

theorem pure (a : α) : Reads (Pure.pure a) [] a := fun rest => by simp

theorem bind {r : Reader α} {f : α → Reader β} {enc enc' : Bytes} {a : α} {b : β}
    (hr : Reads r enc a) (hf : Reads (f a) enc' b) : Reads (r >>= f) (enc ++ enc') b := by
  intro rest
  rw [StateT.run_bind, List.append_assoc, hr (enc' ++ rest)]
  exact hf rest

theorem map {r : Reader α} {enc : Bytes} {a : α} (g : α → β) (h : Reads r enc a) :
    Reads (r >>= fun x => Pure.pure (g x)) enc (g a) := by
  rw [← List.append_nil enc]
  exact h.bind (pure (g a))

theorem cast {r : Reader α} {enc enc' : Bytes} {a : α} (h : Reads r enc a) (e : enc = enc') :
    Reads r enc' a :=
  e ▸ h

theorem whole {r : Reader α} {enc : Bytes} {a : α} (h : Reads r enc a) :
    r.whole enc = some a := by
  have := h []
  rw [List.append_nil] at this
  simp [Reader.whole, this]

/-- Of two encodings one reader reads, neither is a proper start of the other. -/
theorem of_start {r : Reader α} {enc enc' : Bytes} {a b : α} (h : Reads r enc a)
    (h' : Reads r enc' b) (hstart : enc <+: enc') : a = b ∧ enc = enc' := by
  obtain ⟨rest, rfl⟩ := hstart
  have hread := h' []
  rw [List.append_nil, h rest] at hread
  obtain ⟨rfl, rfl⟩ := Prod.mk.inj (Option.some.inj hread)
  exact ⟨rfl, (List.append_nil enc).symm⟩

end Reads

/-! ## Fixed widths -/

/-- Read `n` bytes. -/
def readBytes (n : ℕ) : Reader Bytes := fun bs =>
  if n ≤ bs.length then some (bs.take n, bs.drop n) else none

theorem reads_bytes (bs : Bytes) : Reads (readBytes bs.length) bs bs := by
  intro rest
  change readBytes bs.length (bs ++ rest) = _
  simp [readBytes]

theorem reads_bytes_of_length {n : ℕ} {bs : Bytes} (h : bs.length = n) :
    Reads (readBytes n) bs bs := h ▸ reads_bytes bs

/-- Read a little-endian number of `w` bytes. -/
def readLe (w : ℕ) : Reader ℕ := do
  let bs ← readBytes w
  return leNat bs

theorem reads_le {w n : ℕ} (h : n < 256 ^ w) : Reads (readLe w) (leBytes w n) n := by
  have hread := (reads_bytes_of_length (length_leBytes w n)).map leNat
  rwa [leNat_leBytes_of_lt h] at hread

/-! ## Counts -/

/-- The shortest CompactSize encoding of a count. -/
def compactSize (n : ℕ) : Bytes :=
  if n < 0xfd then [UInt8.ofNat n]
  else if n ≤ 0xffff then 0xfd :: leBytes 2 n
  else if n ≤ 0xffffffff then 0xfe :: leBytes 4 n
  else 0xff :: leBytes 8 n

/-- Read the `w` bytes that follow a marker; counts below `least` have a shorter form. -/
def readMarked (w least : ℕ) : Reader ℕ := do
  let n ← readLe w
  if n < least then failure else return n

/-- Read a CompactSize count in its shortest form. -/
def readCompactSize : Reader ℕ := do
  let m ← readLe 1
  if m < 0xfd then return m
  else if m = 0xfd then readMarked 2 0xfd
  else if m = 0xfe then readMarked 4 0x10000
  else readMarked 8 0x100000000

theorem reads_marked {w least n : ℕ} (hlo : least ≤ n) (hhi : n < 256 ^ w) :
    Reads (readMarked w least) (leBytes w n) n := by
  refine ((reads_le hhi).bind ?_).cast (List.append_nil _)
  rw [if_neg (by omega)]
  exact Reads.pure n

theorem reads_compactSize {n : ℕ} (h : n < 2 ^ 64) : Reads readCompactSize (compactSize n) n := by
  have hmark : ∀ m : ℕ, m < 256 → Reads (readLe 1) [UInt8.ofNat m] m := fun m hm =>
    (reads_le (w := 1) (by simpa using hm)).cast rfl
  unfold compactSize
  split_ifs with h1 h2 h3
  · refine ((hmark n (by omega)).bind ?_).cast (List.append_nil _)
    rw [if_pos h1]
    exact Reads.pure n
  · refine (hmark 0xfd (by norm_num)).bind ?_
    exact reads_marked (by omega) (by omega)
  · refine (hmark 0xfe (by norm_num)).bind ?_
    exact reads_marked (by omega) (by omega)
  · refine (hmark 0xff (by norm_num)).bind ?_
    exact reads_marked (by omega) (by omega)

/-- An encoding of a count, shortest or not. -/
inductive IsCompactSize (n : ℕ) : Bytes → Prop
  | one (h : n < 0xfd) : IsCompactSize n [UInt8.ofNat n]
  | two (h : n < 2 ^ 16) : IsCompactSize n (0xfd :: leBytes 2 n)
  | four (h : n < 2 ^ 32) : IsCompactSize n (0xfe :: leBytes 4 n)
  | eight (h : n < 2 ^ 64) : IsCompactSize n (0xff :: leBytes 8 n)

/-- `compactSize` encodes the count, and no encoding of it is shorter. -/
theorem compactSize_shortest {n : ℕ} (h : n < 2 ^ 64) :
    IsCompactSize n (compactSize n) ∧
      ∀ bs, IsCompactSize n bs → (compactSize n).length ≤ bs.length := by
  refine ⟨?_, ?_⟩
  · unfold compactSize
    split_ifs with h1 h2 h3
    · exact .one h1
    · exact .two (by omega)
    · exact .four (by omega)
    · exact .eight h
  · intro bs hbs
    unfold compactSize
    cases hbs <;> split_ifs <;> simp only [List.length_cons, List.length_nil, length_leBytes] <;>
      omega

/-! ## Counted strings and lists -/

/-- A byte string with its length in front. -/
def varBytes (bs : Bytes) : Bytes := compactSize bs.length ++ bs

/-- Read a byte string with its length in front. -/
def readVarBytes : Reader Bytes := do
  let n ← readCompactSize
  readBytes n

theorem reads_varBytes {bs : Bytes} (h : bs.length < 2 ^ 64) :
    Reads readVarBytes (varBytes bs) bs :=
  (reads_compactSize h).bind (reads_bytes bs)

/-- Read `n` values in a row. -/
def readMany {α : Type} (r : Reader α) : ℕ → Reader (List α)
  | 0 => return []
  | n + 1 => do
    let a ← r
    let as ← readMany r n
    return a :: as

theorem Reads.many {α : Type} {r : Reader α} {enc : α → Bytes} (l : List α)
    (h : ∀ a ∈ l, Reads r (enc a) a) : Reads (readMany r l.length) (l.flatMap enc) l := by
  induction l with
  | nil => exact Reads.pure []
  | cons a l ih =>
    have htail := ih fun b hb => h b (List.mem_cons_of_mem a hb)
    rw [List.flatMap_cons]
    exact (h a List.mem_cons_self).bind (htail.map _)

/-- A list with its length in front. -/
def varList {α : Type} (enc : α → Bytes) (l : List α) : Bytes :=
  compactSize l.length ++ l.flatMap enc

/-- Read a list with its length in front. -/
def readVarList {α : Type} (r : Reader α) : Reader (List α) := do
  let n ← readCompactSize
  readMany r n

theorem reads_varList {α : Type} {r : Reader α} {enc : α → Bytes} {l : List α}
    (hlen : l.length < 2 ^ 64) (h : ∀ a ∈ l, Reads r (enc a) a) :
    Reads (readVarList r) (varList enc l) l :=
  (reads_compactSize hlen).bind (Reads.many l h)

end BtcPool
