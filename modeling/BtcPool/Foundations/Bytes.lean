import Mathlib.Data.Set.Lattice
import Mathlib.Order.CompletePartialOrder
import Mathlib.Data.Vector.Basic
import Mathlib.Tactic.Ring
import Mathlib.Tactic.Linarith

/-!
# Byte strings

Byte strings as lists of `UInt8`, arrays of a fixed width as `List.Vector`, and the operations
programs that speak binary formats use on them:

* `leBytes w n` and `leNat`, the little-endian bytes of a number and back (`leNat_leBytes`,
  `leBytes_leNat`), and `beNat`, the number with the given bytes most significant first;
* `lexLe`, the order in which arrays of bytes are compared, which on arrays of one width is the
  order of the numbers they hold most significant byte first (`lexLe_iff`);
* `splice l off r`, the list `l` with `r` copied over its elements from `off` on, as a slice
  assignment does it: it keeps the length and everything outside the region, and the region
  then holds `r` (`take_drop_splice`);
* `extensions total p`, the strings of one length that start with `p`: two such sets meet exactly
  if one start is a start of the other (`disjoint_extensions_iff`);
* `wordSwap`, every group of four bytes reversed, which is an involution.
-/

namespace BtcPool

/-- A string of bytes of any length. -/
abbrev Bytes := List UInt8

/-- An array of exactly `n` bytes. -/
abbrev ByteVec (n : ℕ) := List.Vector UInt8 n

/-! ## Numbers and their bytes -/

/-- The `w` little-endian bytes of `n`; what does not fit is dropped. -/
def leBytes : ℕ → ℕ → Bytes
  | 0, _ => []
  | w + 1, n => UInt8.ofNat n :: leBytes w (n / 256)

/-- The number with the given little-endian bytes. -/
def leNat : Bytes → ℕ
  | [] => 0
  | b :: bs => b.toNat + 256 * leNat bs

/-- The number with the given bytes, most significant first. -/
def beNat (bs : Bytes) : ℕ := leNat bs.reverse

@[simp] theorem length_leBytes (w n : ℕ) : (leBytes w n).length = w := by
  induction w generalizing n with
  | zero => rfl
  | succ w ih => simp [leBytes, ih]

theorem leNat_leBytes (w n : ℕ) : leNat (leBytes w n) = n % 256 ^ w := by
  induction w generalizing n with
  | zero => simp [leBytes, leNat, Nat.mod_one]
  | succ w ih =>
    have hb : (UInt8.ofNat n).toNat = n % 256 := by simp [UInt8.toNat_ofNat']
    rw [leBytes, leNat, ih, hb, pow_succ', Nat.mod_mul]

theorem leNat_leBytes_of_lt {w n : ℕ} (h : n < 256 ^ w) : leNat (leBytes w n) = n := by
  rw [leNat_leBytes, Nat.mod_eq_of_lt h]

theorem leNat_lt (bs : Bytes) : leNat bs < 256 ^ bs.length := by
  induction bs with
  | nil => simp [leNat]
  | cons b bs ih =>
    have hb := b.toNat_lt
    rw [leNat, List.length_cons, pow_succ]
    omega

theorem leBytes_leNat (bs : Bytes) : leBytes bs.length (leNat bs) = bs := by
  induction bs with
  | nil => rfl
  | cons b bs ih =>
    have hb := b.toNat_lt
    have hdiv : (b.toNat + 256 * leNat bs) / 256 = leNat bs := by omega
    have hmod : UInt8.ofNat (b.toNat + 256 * leNat bs) = b := by
      apply UInt8.toNat_inj.mp
      rw [UInt8.toNat_ofNat']
      omega
    rw [List.length_cons, leBytes, leNat, hdiv, hmod, ih]

theorem leBytes_inj_of_lt {w n m : ℕ} (hn : n < 256 ^ w) (hm : m < 256 ^ w)
    (h : leBytes w n = leBytes w m) : n = m := by
  have := congrArg leNat h
  rwa [leNat_leBytes_of_lt hn, leNat_leBytes_of_lt hm] at this

theorem leBytes_eq_iff {w n m : ℕ} : leBytes w n = leBytes w m ↔ n % 256 ^ w = m % 256 ^ w := by
  have hmod : ∀ n, leBytes w (n % 256 ^ w) = leBytes w n := by
    intro n
    simpa [leNat_leBytes] using leBytes_leNat (leBytes w n)
  constructor
  · intro h
    rw [← leNat_leBytes, ← leNat_leBytes, h]
  · intro h
    rw [← hmod n, ← hmod m, h]

theorem leBytes_add (w k n : ℕ) :
    leBytes (w + k) n = leBytes w n ++ leBytes k (n / 256 ^ w) := by
  induction w generalizing n with
  | zero => simp [leBytes]
  | succ w ih =>
    rw [Nat.succ_add, leBytes, leBytes, ih, List.cons_append, Nat.div_div_eq_div_mul, pow_succ']

theorem leBytes_zero (w : ℕ) : leBytes w 0 = List.replicate w 0 := by
  induction w with
  | zero => rfl
  | succ w ih => simp [leBytes, ih, List.replicate_succ]

theorem leNat_append (a b : Bytes) : leNat (a ++ b) = leNat a + 256 ^ a.length * leNat b := by
  induction a with
  | nil => simp [leNat]
  | cons x a ih =>
    rw [List.cons_append, leNat, leNat, ih, List.length_cons, pow_succ]
    ring

@[simp] theorem leNat_replicate_zero (n : ℕ) : leNat (List.replicate n 0) = 0 := by
  induction n with
  | zero => rfl
  | succ n ih => simp [List.replicate_succ, leNat, ih]

@[simp] theorem beNat_nil : beNat [] = 0 := rfl

theorem beNat_cons (b : UInt8) (bs : Bytes) :
    beNat (b :: bs) = b.toNat * 256 ^ bs.length + beNat bs := by
  simp only [beNat, List.reverse_cons, leNat_append, List.length_reverse, leNat]
  ring

theorem beNat_lt (bs : Bytes) : beNat bs < 256 ^ bs.length := by
  simpa [beNat] using leNat_lt bs.reverse

theorem beNat_append (a b : Bytes) : beNat (a ++ b) = beNat a * 256 ^ b.length + beNat b := by
  simp only [beNat, List.reverse_append, leNat_append, List.length_reverse]
  ring

/-! ## The order on arrays -/

/-- The lexicographic order in which arrays of bytes are compared. -/
def lexLe : Bytes → Bytes → Bool
  | [], _ => true
  | _ :: _, [] => false
  | a :: as, b :: bs => a < b || (a == b && lexLe as bs)

theorem lexLe_iff : ∀ {a b : Bytes}, a.length = b.length → (lexLe a b ↔ beNat a ≤ beNat b)
  | [], [], _ => by simp [lexLe]
  | a :: as, b :: bs, h => by
    have hlen : as.length = bs.length := by simpa using h
    have ih := lexLe_iff hlen
    have ha := beNat_lt as
    have hb := beNat_lt bs
    have hpos : 0 < 256 ^ bs.length := by positivity
    rw [beNat_cons, beNat_cons, hlen]
    rw [hlen] at ha
    simp only [lexLe, Bool.or_eq_true, decide_eq_true_eq, Bool.and_eq_true, beq_iff_eq, ih,
      UInt8.lt_iff_toNat_lt, ← UInt8.toNat_inj]
    constructor
    · rintro (hlt | ⟨heq, hle⟩)
      · have := Nat.mul_le_mul_right (256 ^ bs.length) (Nat.succ_le_of_lt hlt)
        rw [Nat.succ_mul] at this
        omega
      · rw [heq]
        omega
    · intro hle
      rcases Nat.lt_trichotomy a.toNat b.toNat with hlt | heq | hgt
      · exact Or.inl hlt
      · rw [heq] at hle
        exact Or.inr ⟨heq, by omega⟩
      · -- a larger head cannot be made up for by the tail
        have := Nat.mul_le_mul_right (256 ^ bs.length) (Nat.succ_le_of_lt hgt)
        rw [Nat.succ_mul] at this
        omega

/-! ## Copying into a slice -/

section Splice

variable {α : Type*}

/-- The middle of three parts, by position and length. -/
theorem take_drop_middle {a b c : List α} {m n : ℕ} (hm : a.length = m) (hn : b.length = n) :
    ((a ++ (b ++ c)).drop m).take n = b := by
  rw [List.drop_left' hm, List.take_left' hn]

/-- The list `l` with `r` copied over the elements from `off` on. -/
def splice (l : List α) (off : ℕ) (r : List α) : List α :=
  l.take off ++ r ++ l.drop (off + r.length)

theorem length_splice {l : List α} {off : ℕ} {r : List α} (h : off + r.length ≤ l.length) :
    (splice l off r).length = l.length := by
  simp only [splice, List.length_append, List.length_take, List.length_drop]
  omega

theorem take_splice {l : List α} {off : ℕ} {r : List α} (h : off + r.length ≤ l.length) :
    (splice l off r).take off = l.take off := by
  have hlen : (l.take off).length = off := by
    rw [List.length_take]
    omega
  rw [splice, List.append_assoc, List.take_left' hlen]

theorem drop_splice {l : List α} {off : ℕ} {r : List α} (h : off + r.length ≤ l.length) :
    (splice l off r).drop (off + r.length) = l.drop (off + r.length) := by
  have hlen : (l.take off ++ r).length = off + r.length := by
    rw [List.length_append, List.length_take]
    omega
  rw [splice, List.drop_left' hlen]

/-- A copy over the middle of three parts replaces it. -/
theorem splice_append {a z b r : List α} (h : r.length = z.length) :
    splice (a ++ z ++ b) a.length r = a ++ r ++ b := by
  have htake : (a ++ z ++ b).take a.length = a := by simp
  have hdrop : (a ++ z ++ b).drop (a.length + r.length) = b :=
    List.drop_left' (by rw [List.length_append, h])
  rw [splice, htake, hdrop]

/-- The region written holds what was written. -/
theorem take_drop_splice {l : List α} {off : ℕ} {r : List α} (h : off + r.length ≤ l.length) :
    ((splice l off r).drop off).take r.length = r := by
  have hlen : (l.take off).length = off := by
    rw [List.length_take]
    omega
  rw [splice, List.append_assoc, List.drop_left' hlen, List.take_left' rfl]

/-- Two adjacent copies are one copy of the two parts together. -/
theorem splice_splice {l : List α} {off : ℕ} {r s : List α}
    (h : off + (r.length + s.length) ≤ l.length) :
    splice (splice l off r) (off + r.length) s = splice l off (r ++ s) := by
  have hr : off + r.length ≤ l.length := by omega
  have hlen : (l.take off ++ r).length = off + r.length := by
    rw [List.length_append, List.length_take]
    omega
  have htake : (splice l off r).take (off + r.length) = l.take off ++ r := by
    rw [splice, List.take_left' hlen]
  have hdrop : (splice l off r).drop (off + r.length + s.length) =
      l.drop (off + r.length + s.length) := by
    rw [← List.drop_drop, drop_splice hr, List.drop_drop]
  rw [splice, htake, hdrop]
  simp only [splice, List.length_append, List.append_assoc, Nat.add_assoc]

/-- A copy changes nothing outside the region it writes. -/
theorem getElem?_splice_of_outside {l : List α} {off : ℕ} {r : List α}
    (h : off + r.length ≤ l.length) {i : ℕ} (hi : i < off ∨ off + r.length ≤ i) :
    (splice l off r)[i]? = l[i]? := by
  rcases hi with hi | hi
  · rw [← List.getElem?_take_of_lt hi, take_splice h, List.getElem?_take_of_lt hi]
  · obtain ⟨j, rfl⟩ := Nat.exists_eq_add_of_le hi
    rw [← List.getElem?_drop, drop_splice h, List.getElem?_drop]

end Splice

/-! ## Strings with a given start -/

section Extensions

variable {α : Type*}

/-- The lists of a length that start with `p`. -/
def extensions (total : ℕ) (p : List α) : Set (List α) := {x | p <+: x ∧ x.length = total}

theorem disjoint_extensions_iff [Inhabited α] {total : ℕ} {p q : List α} (hp : p.length ≤ total)
    (hq : q.length ≤ total) :
    Disjoint (extensions total p) (extensions total q) ↔ ¬ p <+: q ∧ ¬ q <+: p := by
  have hpad : ∀ {r : List α}, r.length ≤ total →
      r ++ List.replicate (total - r.length) default ∈ extensions total r :=
    fun hr => ⟨List.prefix_append .., by simp [Nat.add_sub_cancel' hr]⟩
  constructor
  · intro h
    have hmeet := Set.disjoint_left.mp h
    exact ⟨fun hpq => hmeet ⟨hpq.trans (hpad hq).1, (hpad hq).2⟩ (hpad hq),
      fun hqp => hmeet (hpad hp) ⟨hqp.trans (hpad hp).1, (hpad hp).2⟩⟩
  · rintro ⟨hpq, hqp⟩
    refine Set.disjoint_left.mpr fun x hx hx' => ?_
    rcases List.prefix_or_prefix_of_prefix hx.1 hx'.1 with h | h
    · exact hpq h
    · exact hqp h

/-- One list starts with the other exactly if they agree as far as both go. -/
theorem prefix_or_prefix_iff {p q : List α} : p <+: q ∨ q <+: p ↔
    p.take (min p.length q.length) = q.take (min p.length q.length) := by
  constructor
  · rintro (h | h)
    · rw [min_eq_left h.length_le, List.take_length, ← List.prefix_iff_eq_take]
      exact h
    · rw [min_eq_right h.length_le, List.take_length, eq_comm, ← List.prefix_iff_eq_take]
      exact h
  · intro h
    rcases le_total p.length q.length with hle | hle
    · rw [min_eq_left hle, List.take_length] at h
      exact Or.inl (List.prefix_iff_eq_take.mpr h)
    · rw [min_eq_right hle, List.take_length] at h
      exact Or.inr (List.prefix_iff_eq_take.mpr h.symm)

end Extensions

/-! ## Swapping words -/

/-- Every group of four elements reversed (a shorter last group as well). -/
def wordSwap {α : Type*} : List α → List α
  | a :: b :: c :: d :: t => d :: c :: b :: a :: wordSwap t
  | l => l.reverse

@[simp] theorem wordSwap_wordSwap {α : Type*} : ∀ l : List α, wordSwap (wordSwap l) = l
  | a :: b :: c :: d :: t => by simp [wordSwap, wordSwap_wordSwap t]
  | [] => rfl
  | [_] => rfl
  | [_, _] => rfl
  | [_, _, _] => rfl

@[simp] theorem length_wordSwap {α : Type*} : ∀ l : List α, (wordSwap l).length = l.length
  | a :: b :: c :: d :: t => by simp [wordSwap, length_wordSwap t]
  | [] => rfl
  | [_] => rfl
  | [_, _] => rfl
  | [_, _, _] => rfl

end BtcPool
