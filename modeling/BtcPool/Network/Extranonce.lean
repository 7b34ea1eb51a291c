import BtcPool.Foundations.Bytes

/-!
# Extranonce prefixes

`generate_extranonce1` gives out the pool's part of the extranonce from one counter of the process,
as many of its last big-endian bytes as asked for, or with zeroes in front.
-/

namespace BtcPool

/-- The extranonce of a counter: its last bytes, or all of them after zeros. -/
def generateExtranonce1 (counter : UInt64) (size : ℕ) : Bytes :=
  let bytes := (leBytes 8 counter.toNat).reverse
  if size ≤ bytes.length then bytes.drop (bytes.length - size)
  else List.replicate (size - bytes.length) 0 ++ bytes

/-- The big-endian bytes of the counter, in the width asked for. -/
theorem generateExtranonce1_eq (counter : UInt64) (size : ℕ) :
    generateExtranonce1 counter size = (leBytes size counter.toNat).reverse := by
  unfold generateExtranonce1
  simp only [List.length_reverse, length_leBytes]
  split
  · rename_i hle
    have hsplit := leBytes_add size (8 - size) counter.toNat
    rw [Nat.add_sub_cancel' hle] at hsplit
    rw [hsplit, List.reverse_append, List.drop_left' (by simp)]
  · rename_i hlt
    have hsmall : counter.toNat / 256 ^ 8 = 0 := Nat.div_eq_of_lt counter.toNat_lt
    have hsplit := leBytes_add 8 (size - 8) counter.toNat
    rw [Nat.add_sub_cancel' (by omega), hsmall, leBytes_zero] at hsplit
    rw [hsplit, List.reverse_append, List.reverse_replicate]

@[simp] theorem length_generateExtranonce1 (counter : UInt64) (size : ℕ) :
    (generateExtranonce1 counter size).length = size := by
  simp [generateExtranonce1_eq]

/-- The first bytes of a prefix are the prefix of a quotient of the counter. -/
theorem take_generateExtranonce1 (counter : UInt64) {size w : ℕ} (h : w ≤ size) :
    (generateExtranonce1 counter size).take w =
      (leBytes w (counter.toNat / 256 ^ (size - w))).reverse := by
  have hsplit := leBytes_add (size - w) w counter.toNat
  rw [Nat.sub_add_cancel h] at hsplit
  rw [generateExtranonce1_eq, hsplit, List.reverse_append, List.take_left' (by simp)]

end BtcPool
