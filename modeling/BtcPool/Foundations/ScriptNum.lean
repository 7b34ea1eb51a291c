import BtcPool.Foundations.Codec
import Mathlib.Data.Nat.Digits.Lemmas

/-!
# Numbers in scripts

Scripts write a number in as few little-endian bytes as it takes, with the top bit of the last byte
as its sign; a number whose own top bit falls there gets one more byte, which is zero
(`scriptNumBytes`). `scriptNum` is the number a byte string stands for. The bytes of a number stand
for it (`scriptNum_scriptNumBytes`), and no shorter string does (`length_scriptNumBytes_le`).

`pushInt` is the script that pushes a number: an opcode for the numbers up to sixteen, otherwise the
length of its bytes and the bytes. `readInt` reads it back whatever follows (`reads_pushInt`), so
one push is never a proper start of another.
-/

namespace BtcPool

/-! ## Bytes of a number -/

/-- The number a byte string stands for: little-endian, the top bit of the last byte is the sign. -/
def scriptNum (bs : Bytes) : ℤ :=
  let sign := 128 * 256 ^ (bs.length - 1)
  if leNat bs < sign then leNat bs else -(leNat bs - sign : ℤ)

/-- As many little-endian bytes as the number has. -/
def digitBytes (n : ℕ) : Bytes := (Nat.digits 256 n).map UInt8.ofNat

/-- Whether the last byte of a number has its top bit set. -/
def topBit (n : ℕ) : Prop := ∃ d ∈ (Nat.digits 256 n).getLast?, 128 ≤ d

instance (n : ℕ) : Decidable (topBit n) :=
  inferInstanceAs (Decidable (∃ d ∈ (Nat.digits 256 n).getLast?, 128 ≤ d))

/-- The bytes of a number in a script. -/
def scriptNumBytes (n : ℕ) : Bytes := if topBit n then digitBytes n ++ [0] else digitBytes n

theorem leNat_map_ofNat {l : List ℕ} (h : ∀ d ∈ l, d < 256) :
    leNat (l.map UInt8.ofNat) = Nat.ofDigits 256 l := by
  induction l with
  | nil => rfl
  | cons d l ih =>
    have hd : (UInt8.ofNat d).toNat = d := by
      rw [UInt8.toNat_ofNat']
      exact Nat.mod_eq_of_lt (h d (by simp))
    rw [List.map_cons, leNat, hd, ih fun e he => h e (by simp [he]), Nat.ofDigits_cons]

theorem leNat_digitBytes (n : ℕ) : leNat (digitBytes n) = n := by
  rw [digitBytes, leNat_map_ofNat fun d hd => Nat.digits_lt_base (by norm_num) hd,
    Nat.ofDigits_digits]

theorem length_digitBytes (n : ℕ) : (digitBytes n).length = (Nat.digits 256 n).length :=
  List.length_map _

theorem lt_pow_length_digitBytes (n : ℕ) : n < 256 ^ (digitBytes n).length := by
  rw [length_digitBytes]
  exact Nat.lt_base_pow_length_digits (by norm_num)

theorem length_digitBytes_le {n k : ℕ} (h : n < 256 ^ k) : (digitBytes n).length ≤ k := by
  rw [length_digitBytes]
  exact (Nat.digits_length_le_iff (by norm_num) n).mpr h

theorem length_digitBytes_pos {n : ℕ} (h : 0 < n) : 0 < (digitBytes n).length := by
  rw [length_digitBytes, List.length_pos_iff, Nat.digits_ne_nil_iff_ne_zero]
  omega

/-- The top bit in terms of the number. -/
theorem topBit_iff {n : ℕ} (h : 0 < n) :
    topBit n ↔ 128 * 256 ^ ((digitBytes n).length - 1) ≤ n := by
  have hne : Nat.digits 256 n ≠ [] := Nat.digits_ne_nil_iff_ne_zero.mpr (by omega)
  obtain ⟨init, d, hdigits⟩ : ∃ init d, Nat.digits 256 n = init ++ [d] :=
    ⟨_, _, (List.dropLast_append_getLast hne).symm⟩
  have hinit : Nat.ofDigits 256 init < 256 ^ init.length := by
    apply Nat.ofDigits_lt_base_pow_length (by norm_num)
    intro e he
    exact Nat.digits_lt_base (m := n) (by norm_num) (by rw [hdigits]; simp [he])
  have hvalue : n = Nat.ofDigits 256 init + 256 ^ init.length * d := by
    conv_lhs => rw [← Nat.ofDigits_digits 256 n, hdigits]
    rw [Nat.ofDigits_append, Nat.ofDigits_singleton]
  have hlast : (Nat.digits 256 n).getLast? = some d := by rw [hdigits]; simp
  have hlen : (digitBytes n).length - 1 = init.length := by rw [length_digitBytes, hdigits]; simp
  rw [topBit, hlast, hlen]
  simp only [Option.mem_def, Option.some.injEq, exists_eq_left']
  constructor
  · intro hd
    have := Nat.mul_le_mul_left (256 ^ init.length) hd
    rw [Nat.mul_comm]
    omega
  · intro hle
    by_contra hd
    have := Nat.mul_le_mul_left (256 ^ init.length) (show d + 1 ≤ 128 by omega)
    rw [Nat.mul_add, Nat.mul_one] at this
    rw [Nat.mul_comm] at hle
    omega

theorem not_topBit_zero : ¬ topBit 0 := by
  rintro ⟨d, hd, -⟩
  simp at hd

/-- The bytes of a number stand for it. -/
theorem scriptNum_scriptNumBytes (n : ℕ) : scriptNum (scriptNumBytes n) = n := by
  have hlt := lt_pow_length_digitBytes n
  unfold scriptNumBytes scriptNum
  split
  · have hvalue : leNat (digitBytes n ++ [0]) = n := by
      rw [leNat_append, leNat_digitBytes]
      simp [leNat]
    have hsign : n < 128 * 256 ^ ((digitBytes n ++ [0]).length - 1) := by
      rw [List.length_append, List.length_singleton, Nat.add_sub_cancel]
      omega
    rw [hvalue, if_pos hsign]
  · rename_i htop
    have hsign : n < 128 * 256 ^ ((digitBytes n).length - 1) := by
      rcases Nat.eq_zero_or_pos n with rfl | hpos
      · positivity
      · exact Nat.not_le.mp fun h => htop ((topBit_iff hpos).mpr h)
    rw [leNat_digitBytes, if_pos hsign]

/-- No string shorter than its bytes stands for a number. -/
theorem length_scriptNumBytes_le {n : ℕ} {bs : Bytes} (h : scriptNum bs = n) :
    (scriptNumBytes n).length ≤ bs.length := by
  rcases Nat.eq_zero_or_pos n with rfl | hpos
  · simp [scriptNumBytes, not_topBit_zero, digitBytes]
  · have hvalue : leNat bs < 128 * 256 ^ (bs.length - 1) ∧ leNat bs = n := by
      unfold scriptNum at h
      dsimp only at h
      split_ifs at h with hsign
      · exact ⟨hsign, by exact_mod_cast h⟩
      · omega
    obtain ⟨hsign, hvalue⟩ := hvalue
    have hlen : (digitBytes n).length ≤ bs.length := by
      apply length_digitBytes_le
      rw [← hvalue]
      exact leNat_lt bs
    unfold scriptNumBytes
    split
    · -- a set top bit does not fit into as many bytes as the number has
      rename_i htop
      rw [topBit_iff hpos, ← hvalue] at htop
      have hpow : 256 ^ ((digitBytes (leNat bs)).length - 1) < 256 ^ (bs.length - 1) := by omega
      have hexp := (Nat.pow_lt_pow_iff_right (by norm_num)).mp hpow
      have hdigits := length_digitBytes_pos hpos
      rw [hvalue] at hexp
      rw [List.length_append, List.length_singleton]
      omega
    · exact hlen

theorem length_scriptNumBytes_lt {n : ℕ} (h : n < 256 ^ 8) : (scriptNumBytes n).length < 10 := by
  have hlen := length_digitBytes_le h
  unfold scriptNumBytes
  split
  · rw [List.length_append, List.length_singleton]
    omega
  · omega

/-! ## Pushes -/

/-- The script that pushes a number of at most 75 bytes. -/
def pushInt (n : ℕ) : Bytes :=
  if n = 0 then [0x00]
  else if n ≤ 16 then [UInt8.ofNat (0x50 + n)]
  else UInt8.ofNat (scriptNumBytes n).length :: scriptNumBytes n

/-- Read a script that pushes a number. -/
def readInt : Reader ℤ := do
  let opcode ← readLe 1
  if opcode = 0 then return 0
  else if 0x51 ≤ opcode ∧ opcode ≤ 0x60 then return ((opcode - 0x50 : ℕ) : ℤ)
  else if opcode < 76 then
    let data ← readBytes opcode
    return scriptNum data
  else failure

theorem reads_byte {n : ℕ} (h : n < 256) : Reads (readLe 1) [UInt8.ofNat n] n :=
  reads_le (w := 1) (by omega)

theorem reads_pushInt {n : ℕ} (h : n < 256 ^ 8) : Reads readInt (pushInt n) n := by
  unfold pushInt readInt
  split_ifs with h0 h16
  · subst n
    exact (reads_byte (n := 0) (by norm_num)).bind (Reads.pure (0 : ℤ))
  · rw [← List.append_nil [UInt8.ofNat (0x50 + n)]]
    refine (reads_byte (by omega)).bind ?_
    rw [if_neg (by omega), if_pos (by omega), Nat.add_sub_cancel_left]
    exact Reads.pure _
  · have hlen := length_scriptNumBytes_lt h
    have hpos : 0 < (scriptNumBytes n).length := by
      have hdigits := length_digitBytes_pos (n := n) (by omega)
      unfold scriptNumBytes
      split
      · simp
      · exact hdigits
    change Reads _ ([UInt8.ofNat (scriptNumBytes n).length] ++ scriptNumBytes n) _
    refine (reads_byte (by omega)).bind ?_
    rw [if_neg (by omega), if_neg (by omega), if_pos (by omega)]
    have hread := (reads_bytes (scriptNumBytes n)).map scriptNum
    rwa [scriptNum_scriptNumBytes] at hread

end BtcPool
