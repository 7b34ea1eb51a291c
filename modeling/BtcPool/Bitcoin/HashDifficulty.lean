import BtcPool.Bitcoin.Target
import BtcPool.Foundations.Checked
import Mathlib.Algebra.Order.Floor.Semifield
import Mathlib.Data.Nat.Cast.Order.Field
import Mathlib.Data.Rat.Floor

/-!
# The difficulty of a hash

`hashToDifficulty` divides the difficulty-one target by the first eight significant bytes of a hash,
with 64 fractional bits, and shifts the quotient by the number of leading zero bytes. The
significand is the hash, scaled to 32 significant bytes and cut off below its eighth byte
(`significandChecked_eq`), so what is returned is one exact quotient, whatever the number of leading
zeroes (`toNat_hashToDifficulty`): the bounds, the order and the comparison with the share targets
all follow from that.

`hashToDifficultyChecked` and `divBeU256ByU64Checked` are the two computations with every shift,
division and cast checked. They are defined on every input (`hashToDifficultyChecked_eq`,
`divBeU256ByU64Checked_eq`): nothing overflows.
-/

namespace BtcPool.Bitcoin

/-! ## Long division -/

/-- The loop of `divBytes` with its shift, its divisions and the cast of a digit checked. -/
def divBytesChecked (divisor : ℕ) : ℕ → Bytes → Option Bytes
  | _, [] => some []
  | rem, b :: bs => do
    let high ← Checked.shl 128 rem 8
    let accum := high ||| b.toNat
    let digit ← Checked.cast 8 (← Checked.div accum divisor)
    let rest ← divBytesChecked divisor (← Checked.rem accum divisor) bs
    return UInt8.ofNat digit :: rest

/-- The long division with every operation of the machine checked. -/
def divBeU256ByU64Checked (value : ByteVec 32) (divisor : UInt64) : Option Bytes :=
  divBytesChecked divisor.toNat 0 value.toList

/-- A remainder below the divisor, shifted by a byte, fits its register, and gives one byte of the
quotient. -/
theorem divBytesChecked_eq {divisor rem : ℕ} (hd : divisor < 2 ^ 64) (hrem : rem < divisor)
    (bs : Bytes) : divBytesChecked divisor rem bs = some (divBytes divisor rem bs) := by
  induction bs generalizing rem with
  | nil => rfl
  | cons b bs ih =>
    have hb := b.toNat_lt
    have hpos : 0 < divisor := by omega
    have hshift : Checked.shl 128 rem 8 = some ((rem <<< 8) % 2 ^ 128) := by
      rw [Checked.shl_of_lt (by omega) (by omega), Nat.shiftLeft_eq, Nat.mod_eq_of_lt (by omega)]
    have haccum := divAccum_eq b (lt_trans hrem hd)
    have hdigit : (rem * 256 + b.toNat) / divisor < 256 := by
      rw [Nat.div_lt_iff_lt_mul hpos]
      nlinarith
    have hcast : Checked.cast 8 (((rem * 256 + b.toNat) / divisor : ℕ) : ℤ) =
        some ((rem * 256 + b.toNat) / divisor) :=
      Checked.cast_of_lt (Int.natCast_nonneg _) (by rw [Int.toNat_natCast]; exact hdigit)
    have hrest := ih (Nat.mod_lt (rem * 256 + b.toNat) hpos)
    simp only [divBytesChecked, divBytes, hshift, haccum, Option.bind_eq_bind, Option.bind_some,
      Checked.div_of_pos _ hpos, Checked.rem_of_pos _ hpos, hcast, hrest]
    rfl

theorem divBeU256ByU64Checked_eq (value : ByteVec 32) {divisor : UInt64} (h : divisor ≠ 0) :
    divBeU256ByU64Checked value divisor = some (divBeU256ByU64 value divisor).toList := by
  have hpos : 0 < divisor.toNat := by
    apply Nat.pos_of_ne_zero
    intro hzero
    exact h (UInt64.toNat_inj.mp hzero)
  exact divBytesChecked_eq divisor.toNat_lt hpos value.toList

/-! ## The significand -/

/-- The number of leading zero bytes, 31 for the zero hash. -/
def leadingZeros (hashBe : Bytes) : ℕ := (hashBe.findIdx? (· ≠ 0)).getD 31

/-- The fold of `foldBytes` with its shift checked. -/
def foldBytesChecked (bs : Bytes) : Option ℕ :=
  bs.foldlM (fun sig b => (Checked.shl 64 sig 8).map (· ||| b.toNat)) 0

/-- The leading bytes of a hash as a number, with every operation of the machine checked. -/
def significandChecked (hashBe : Bytes) (nz : ℕ) : Option ℕ := do
  let taken := min 8 (32 - nz)
  let sig ← foldBytesChecked ((hashBe.drop nz).take taken)
  Checked.shl 64 sig ((8 - taken) * 8)

/-- `hashToDifficulty` with every shift, the division and the cast of the shift amount checked. -/
def hashToDifficultyChecked (hash : ByteVec 32) : Option UInt64 := do
  let hashBe := hash.toList.reverse
  let nz := leadingZeros hashBe
  let hashSig ← significandChecked hashBe nz
  if hashSig = 0 then return UInt64.ofNat (2 ^ 64 - 1)
  else
    let dividend ← Checked.shl 128 0xffff000000000000 64
    let ratio ← Checked.div dividend hashSig
    let exp : ℤ := (nz - 4) * 8
    if exp > 64 then return UInt64.ofNat (2 ^ 64 - 1)
    else
      let shift ← Checked.cast 32 (64 - exp)
      let shifted ← Checked.shr 128 ratio shift
      return UInt64.ofNat (min shifted (2 ^ 64 - 1))

/-- The first bytes of a number are what is left of it without the others. -/
theorem beNat_take (l : Bytes) (k : ℕ) : beNat (l.take k) = beNat l / 256 ^ (l.length - k) := by
  have hlt := beNat_lt (l.drop k)
  have hsplit := beNat_append (l.take k) (l.drop k)
  rw [List.take_append_drop, List.length_drop] at hsplit
  rw [List.length_drop] at hlt
  rw [hsplit, Nat.mul_comm, Nat.mul_add_div (by positivity), Nat.div_eq_of_lt hlt, Nat.add_zero]

/-- A number that is not zero starts with zeroes and a byte that is not zero. -/
theorem exists_leading {l : Bytes} (h : beNat l ≠ 0) : ∃ nz b rest,
    l.findIdx? (· ≠ 0) = some nz ∧ l = List.replicate nz 0 ++ b :: rest ∧ b ≠ 0 := by
  induction l with
  | nil => exact absurd rfl h
  | cons a l ih =>
    by_cases ha : a = 0
    · subst a
      have hrest : beNat l ≠ 0 := by simpa [beNat_cons] using h
      obtain ⟨nz, b, rest, hfind, rfl, hb⟩ := ih hrest
      refine ⟨nz + 1, b, rest, ?_, rfl, hb⟩
      rw [List.findIdx?_cons, hfind]
      rfl
    · exact ⟨0, a, l, by simp [List.findIdx?_cons, ha], rfl, ha⟩

/-- The position of the first significant byte of a 32-byte number, in terms of the number. -/
structure Leading (l : Bytes) (nz : ℕ) : Prop where
  le : nz ≤ 31
  low : 256 ^ (31 - nz) ≤ beNat l
  high : beNat l < 256 ^ (32 - nz)
  rest : beNat (l.drop nz) = beNat l

theorem leading_leadingZeros {l : Bytes} (hlen : l.length = 32) (h : beNat l ≠ 0) :
    Leading l (leadingZeros l) := by
  obtain ⟨nz, b, rest, hfind, hl, hb⟩ := exists_leading h
  have hnz : leadingZeros l = nz := by rw [leadingZeros, hfind]; rfl
  have hlength : nz + (rest.length + 1) = 32 := by simpa [hl] using hlen
  have hdrop : l.drop nz = b :: rest := by rw [hl, List.drop_left' (by simp)]
  have hzero : beNat (List.replicate nz 0) = 0 := by simp [beNat]
  have hvalue : beNat l = beNat (b :: rest) := by
    rw [hl, beNat_append, hzero, Nat.zero_mul, Nat.zero_add]
  have hlt := beNat_lt (b :: rest)
  have hpos : 1 ≤ b.toNat := by
    apply Nat.pos_of_ne_zero
    intro hzero
    exact hb (UInt8.toNat_inj.mp hzero)
  have h31 : 31 - nz = rest.length := by omega
  have h32 : 32 - nz = rest.length + 1 := by omega
  rw [hnz]
  refine ⟨by omega, ?_, ?_, by rw [hdrop, hvalue]⟩
  · rw [hvalue, h31, beNat_cons]
    have := Nat.mul_le_mul_right (256 ^ rest.length) hpos
    omega
  · rw [hvalue, h32]
    exact hlt

/-- Folding at most eight bytes into a 64-bit register gives the number they hold. -/
theorem foldlM_shl {bs : Bytes} {acc : ℕ} (h : acc * 256 ^ bs.length + beNat bs < 2 ^ 64) :
    bs.foldlM (fun sig b => (Checked.shl 64 sig 8).map (· ||| b.toNat)) acc =
      some (acc * 256 ^ bs.length + beNat bs) := by
  induction bs generalizing acc with
  | nil => simp
  | cons b bs ih =>
    have hb := b.toNat_lt
    have hregroup : acc * 256 ^ (bs.length + 1) + (b.toNat * 256 ^ bs.length + beNat bs) =
        (acc * 256 + b.toNat) * 256 ^ bs.length + beNat bs := by ring
    have hpow : 1 ≤ 256 ^ bs.length := Nat.one_le_pow _ _ (by norm_num)
    have hle : acc * 256 + b.toNat ≤ (acc * 256 + b.toNat) * 256 ^ bs.length :=
      Nat.le_mul_of_pos_right _ hpow
    rw [List.length_cons, beNat_cons, hregroup] at h ⊢
    have hor : acc * 2 ^ 8 ||| b.toNat = acc * 256 + b.toNat := by
      rw [← Nat.shiftLeft_eq, ← Nat.shiftLeft_add_eq_or_of_lt (by omega), Nat.shiftLeft_eq]
    rw [List.foldlM_cons, Checked.shl_of_lt (by norm_num) (by omega), Option.map_some, hor]
    exact ih h

theorem foldBytesChecked_eq {bs : Bytes} (h : bs.length ≤ 8) :
    foldBytesChecked bs = some (beNat bs) := by
  have hlt := beNat_lt bs
  have hpow : 256 ^ bs.length ≤ 256 ^ 8 := Nat.pow_le_pow_right (by norm_num) h
  have hfits : 0 * 256 ^ bs.length + beNat bs < 2 ^ 64 := by omega
  have hfold := foldlM_shl hfits
  rwa [Nat.zero_mul, Nat.zero_add] at hfold

/-- The significand: the number scaled to 32 significant bytes, without all but the first eight. -/
theorem significandChecked_eq {l : Bytes} {nz : ℕ} (hlen : l.length = 32) (h : Leading l nz) :
    significandChecked l nz = some (beNat l * 256 ^ nz / 256 ^ 24) := by
  have hle := h.le
  have hdrop : (l.drop nz).length = 32 - nz := by rw [List.length_drop, hlen]
  unfold significandChecked
  dsimp only
  rw [foldBytesChecked_eq (by rw [List.length_take]; omega), beNat_take, hdrop, h.rest]
  dsimp only [Option.bind_eq_bind, Option.bind_some]
  rcases Nat.lt_or_ge 24 nz with hshort | hlong
  · -- fewer than eight bytes are left, which are aligned to the left
    have hpow : (256 : ℕ) ^ nz = 256 ^ (nz - 24) * 256 ^ 24 := by
      rw [← pow_add]
      congr 1
      omega
    have hfits : beNat l * 256 ^ (nz - 24) < 256 ^ (32 - nz) * 256 ^ (nz - 24) :=
      Nat.mul_lt_mul_of_pos_right h.high (by positivity)
    have height : (256 : ℕ) ^ (32 - nz) * 256 ^ (nz - 24) = 2 ^ 64 := by
      rw [← pow_add, show 32 - nz + (nz - 24) = 8 by omega]
      norm_num
    have hbytes : (2 : ℕ) ^ ((nz - 24) * 8) = 256 ^ (nz - 24) := by
      rw [Nat.mul_comm, pow_mul]
      norm_num
    have htaken : min 8 (32 - nz) = 32 - nz := by omega
    rw [htaken, Nat.sub_self, pow_zero, Nat.div_one, show 8 - (32 - nz) = nz - 24 by omega,
      Checked.shl_of_lt (by omega) (by rw [hbytes]; omega), hbytes, hpow, ← mul_assoc,
      Nat.mul_div_cancel _ (by positivity)]
  · have htaken : min 8 (32 - nz) = 8 := by omega
    have hpow : (256 : ℕ) ^ 24 = 256 ^ (24 - nz) * 256 ^ nz := by
      rw [← pow_add]
      congr 1
      omega
    have hsame : beNat l * 256 ^ nz / 256 ^ 24 = beNat l / 256 ^ (24 - nz) := by
      rw [hpow, Nat.mul_div_mul_right _ _ (by positivity)]
    have hfits : beNat l / 256 ^ (24 - nz) < 2 ^ 64 := by
      rw [Nat.div_lt_iff_lt_mul (by positivity), show (2 : ℕ) ^ 64 = 256 ^ 8 by norm_num, ← pow_add,
        show 8 + (24 - nz) = 32 - nz by omega]
      exact h.high
    rw [htaken, hsame, show 32 - nz - 8 = 24 - nz by omega, Nat.sub_self, Nat.zero_mul,
      Checked.shl_of_lt (by norm_num) (by simpa using hfits), pow_zero, Nat.mul_one]

/-! ## The quotient -/

/-- The significand of a number with `nz` leading zero bytes. -/
def significand (h nz : ℕ) : ℕ := h * 256 ^ nz / 256 ^ 24

/-- The difficulty-one target divided by the number that has only the significand of `h`. -/
def significandQuotient (h nz : ℕ) : ℕ := diff1 * 256 ^ nz / (significand h nz * 256 ^ 24)

section Significand

variable {l : Bytes} {nz : ℕ}

theorem Leading.significand_bounds (h : Leading l nz) :
    2 ^ 56 ≤ significand (beNat l) nz ∧ significand (beNat l) nz < 2 ^ 64 := by
  have hle := h.le
  constructor
  · rw [significand, Nat.le_div_iff_mul_le (by positivity)]
    calc 2 ^ 56 * 256 ^ 24 = 256 ^ (31 - nz) * 256 ^ nz := by
          rw [← pow_add, Nat.sub_add_cancel hle]
          norm_num
      _ ≤ beNat l * 256 ^ nz := Nat.mul_le_mul_right _ h.low
  · rw [significand, Nat.div_lt_iff_lt_mul (by positivity)]
    calc beNat l * 256 ^ nz < 256 ^ (32 - nz) * 256 ^ nz :=
          Nat.mul_lt_mul_of_pos_right h.high (by positivity)
      _ = 2 ^ 64 * 256 ^ 24 := by
          rw [← pow_add, Nat.sub_add_cancel (by omega)]
          norm_num

/-- The fixed-point quotient shifted to the right is the exact one. -/
theorem shifted_eq (h12 : nz ≤ 12) (sig : ℕ) :
    0xffff000000000000 * 2 ^ 64 / sig / 2 ^ (96 - 8 * nz) =
      diff1 * 256 ^ nz / (sig * 256 ^ 24) := by
  have hbytes : (256 : ℕ) ^ nz = 2 ^ (8 * nz) := by
    rw [pow_mul]
    norm_num
  have hdividend : diff1 * 256 ^ nz = 0xffff000000000000 * 2 ^ 64 * 2 ^ (96 + 8 * nz) := by
    rw [hbytes, pow_add, diff1]
    ring
  have hdivisor : sig * 256 ^ 24 = sig * 2 ^ (96 - 8 * nz) * 2 ^ (96 + 8 * nz) := by
    rw [mul_assoc, ← pow_add, show 96 - 8 * nz + (96 + 8 * nz) = 192 by omega]
    norm_num
  rw [Nat.div_div_eq_div_mul, hdividend, hdivisor, Nat.mul_div_mul_right _ _ (by positivity)]

/-- With thirteen zero bytes in front the quotient is beyond 64 bits. -/
theorem saturated_of_lt (h12 : 12 < nz) {sig : ℕ} (hpos : 0 < sig) (hlt : sig < 2 ^ 64) :
    2 ^ 64 - 1 ≤ diff1 * 256 ^ nz / (sig * 256 ^ 24) := by
  have hpow : (256 : ℕ) ^ 13 ≤ 256 ^ nz := Nat.pow_le_pow_right (by norm_num) h12
  rw [Nat.le_div_iff_mul_le (by positivity)]
  calc (2 ^ 64 - 1) * (sig * 256 ^ 24) ≤ 2 ^ 64 * (2 ^ 64 * 256 ^ 24) :=
        Nat.mul_le_mul (Nat.sub_le _ _) (Nat.mul_le_mul_right _ hlt.le)
    _ ≤ diff1 * 256 ^ 13 := by
        rw [diff1]
        norm_num
    _ ≤ diff1 * 256 ^ nz := Nat.mul_le_mul_left _ hpow

end Significand

theorem beNat_reverse (hash : ByteVec 32) : beNat hash.toList.reverse = leNat hash.toList := by
  rw [beNat, List.reverse_reverse]

/-- A hash that is zero has no significand. -/
theorem hashToDifficultyChecked_zero {hash : ByteVec 32} (h : leNat hash.toList = 0) :
    hashToDifficultyChecked hash = some (UInt64.ofNat (2 ^ 64 - 1)) := by
  have hbytes : hash.toList = List.replicate 32 0 := by
    rw [← leBytes_leNat hash.toList, h, hash.toList_length, leBytes_zero]
  rw [hashToDifficultyChecked, hbytes]
  rfl

/-- The checked computation is defined and gives the quotient, as far as 64 bits reach. -/
theorem hashToDifficultyChecked_of_ne {hash : ByteVec 32} (h : leNat hash.toList ≠ 0) :
    hashToDifficultyChecked hash = some (UInt64.ofNat
      (min (significandQuotient (leNat hash.toList) (leadingZeros hash.toList.reverse))
        (2 ^ 64 - 1))) := by
  have hlen : hash.toList.reverse.length = 32 := by rw [List.length_reverse, hash.toList_length]
  have hleading : Leading hash.toList.reverse (leadingZeros hash.toList.reverse) :=
    leading_leadingZeros hlen (by rwa [beNat_reverse])
  obtain ⟨hlow, hhigh⟩ := hleading.significand_bounds
  have hsig := significandChecked_eq hlen hleading
  rw [beNat_reverse] at hlow hhigh hsig
  unfold hashToDifficultyChecked significandQuotient
  dsimp only
  generalize leadingZeros hash.toList.reverse = nz at *
  change significandChecked hash.toList.reverse nz =
    some (significand (leNat hash.toList) nz) at hsig
  generalize significand (leNat hash.toList) nz = sig at *
  simp only [Option.bind_eq_bind]
  rw [hsig, Option.bind_some, if_neg (by omega), Checked.shl_of_lt (by norm_num) (by norm_num),
    Option.bind_some, Checked.div_of_pos _ (by omega), Option.bind_some]
  split_ifs with hexp
  · rw [min_eq_right (saturated_of_lt (by omega) (by omega) hhigh)]
    rfl
  · have h12 : nz ≤ 12 := by omega
    have hshift : (64 - ((nz : ℤ) - 4) * 8).toNat = 96 - 8 * nz := by omega
    rw [Checked.cast_of_lt (by omega) (by omega), Option.bind_some, hshift,
      Checked.shr_of_lt _ (by omega), Option.bind_some, shifted_eq h12]
    rfl

/-! ## The computation of the pool -/

/-- Where the checked fold is defined, the fold modulo `2 ^ 64` agrees with it. -/
theorem foldl_of_foldlM {bs : Bytes} {acc r : ℕ}
    (h : bs.foldlM (fun sig b => (Checked.shl 64 sig 8).map (· ||| b.toNat)) acc = some r) :
    bs.foldl (fun sig b => (sig <<< 8) % 2 ^ 64 ||| b.toNat) acc = r := by
  induction bs generalizing acc with
  | nil => exact Option.some.inj h
  | cons b bs ih =>
    rw [List.foldlM_cons, Option.bind_eq_bind, Option.bind_eq_some_iff] at h
    obtain ⟨next, hnext, hrest⟩ := h
    obtain ⟨high, hshift, rfl⟩ := Option.map_eq_some_iff.mp hnext
    rw [List.foldl_cons, Checked.mod_of_shl hshift]
    exact ih hrest

/-- Where the checked computation is defined, the one of the pool agrees with it. -/
theorem hashToDifficulty_of_checked {hash : ByteVec 32} {r : UInt64}
    (h : hashToDifficultyChecked hash = some r) : hashToDifficulty hash = r := by
  simp only [hashToDifficultyChecked, significandChecked, Option.bind_eq_bind,
    Option.bind_eq_some_iff] at h
  obtain ⟨hashSig, ⟨sig, hfold, halign⟩, h⟩ := h
  have hsig := Checked.mod_of_shl halign
  rw [← foldl_of_foldlM hfold] at hsig
  unfold hashToDifficulty
  dsimp only [foldBytes]
  rw [leadingZeros] at hsig h
  rw [hsig]
  split_ifs at h ⊢ with hzero hexp
  · exact Option.some.inj h
  · simp only [Option.bind_eq_some_iff] at h
    obtain ⟨dividend, -, ratio, -, h⟩ := h
    exact Option.some.inj h
  · simp only [Option.bind_eq_some_iff] at h
    obtain ⟨dividend, hdividend, ratio, hratio, shift, hshift, shifted, hshifted, h⟩ := h
    have hfull : 0xffff000000000000 <<< 64 = dividend := Checked.mod_of_shl hdividend
    rw [hfull, Checked.div_of_div hratio, (Checked.toNat_of_cast hshift).1,
      Checked.shiftRight_of_shr hshifted]
    exact Option.some.inj h

/-- The value returned for a hash other than zero. -/
theorem toNat_hashToDifficulty {hash : ByteVec 32} (h : leNat hash.toList ≠ 0) :
    ∃ nz, Leading hash.toList.reverse nz ∧
      (hashToDifficulty hash).toNat =
        min (significandQuotient (leNat hash.toList) nz) (2 ^ 64 - 1) := by
  have hlen : hash.toList.reverse.length = 32 := by rw [List.length_reverse, hash.toList_length]
  refine ⟨_, leading_leadingZeros hlen (by rwa [beNat_reverse]), ?_⟩
  rw [hashToDifficulty_of_checked (hashToDifficultyChecked_of_ne h), UInt64.toNat_ofNat']
  exact Nat.mod_eq_of_lt (by omega)

theorem hashToDifficulty_zero {hash : ByteVec 32} (h : leNat hash.toList = 0) :
    (hashToDifficulty hash).toNat = 2 ^ 64 - 1 := by
  rw [hashToDifficulty_of_checked (hashToDifficultyChecked_zero h)]
  rfl

/-- No operation of the computation overflows. -/
theorem hashToDifficultyChecked_eq (hash : ByteVec 32) :
    hashToDifficultyChecked hash = some (hashToDifficulty hash) := by
  by_cases h : leNat hash.toList = 0
  · rw [hashToDifficulty_of_checked (hashToDifficultyChecked_zero h),
      hashToDifficultyChecked_zero h]
  · rw [hashToDifficulty_of_checked (hashToDifficultyChecked_of_ne h),
      hashToDifficultyChecked_of_ne h]

/-! ## Bounds and order -/

section Bounds

variable {l : Bytes} {nz : ℕ}

/-- Cutting a hash off never makes its difficulty smaller. -/
theorem Leading.div_le_significandQuotient (h : Leading l nz) :
    diff1 / beNat l ≤ significandQuotient (beNat l) nz := by
  have hsig := h.significand_bounds.1
  have hcut : significand (beNat l) nz * 256 ^ 24 ≤ beNat l * 256 ^ nz := Nat.div_mul_le_self _ _
  calc diff1 / beNat l = diff1 * 256 ^ nz / (beNat l * 256 ^ nz) :=
        (Nat.mul_div_mul_right _ _ (by positivity)).symm
    _ ≤ significandQuotient (beNat l) nz := Nat.div_le_div_left hcut (by positivity)

/-- What is cut off is less than one part in `2 ^ 56`. -/
theorem Leading.significandQuotient_le (h : Leading l nz) :
    significandQuotient (beNat l) nz ≤ ⌊(diff1 : ℚ) / beNat l * (1 + 1 / 2 ^ 56)⌋₊ := by
  have hsig := h.significand_bounds.1
  have hpos : 0 < beNat l := lt_of_lt_of_le (by positivity) h.low
  have hcut : beNat l * 256 ^ nz < (significand (beNat l) nz + 1) * 256 ^ 24 :=
    Nat.lt_mul_of_div_lt (Nat.lt_succ_self _) (by positivity)
  unfold significandQuotient
  generalize significand (beNat l) nz = sig at *
  have hnat : beNat l * 256 ^ nz * 2 ^ 56 ≤ sig * 256 ^ 24 * (2 ^ 56 + 1) := by
    calc beNat l * 256 ^ nz * 2 ^ 56 ≤ (sig + 1) * 256 ^ 24 * 2 ^ 56 :=
      Nat.mul_le_mul_right _ hcut.le
      _ = sig * 256 ^ 24 * 2 ^ 56 + 2 ^ 56 * 256 ^ 24 := by ring
      _ ≤ sig * 256 ^ 24 * 2 ^ 56 + sig * 256 ^ 24 :=
        Nat.add_le_add_left (Nat.mul_le_mul_right _ hsig) _
      _ = sig * 256 ^ 24 * (2 ^ 56 + 1) := by ring
  have hrat : (beNat l : ℚ) * 256 ^ nz * 2 ^ 56 ≤ sig * 256 ^ 24 * (2 ^ 56 + 1) := by
    have hcast := (Nat.cast_le (α := ℚ)).mpr hnat
    simp only [Nat.cast_mul, Nat.cast_pow, Nat.cast_add, Nat.cast_ofNat, Nat.cast_one] at hcast
    exact hcast
  have hh : (0 : ℚ) < beNat l := by exact_mod_cast hpos
  have hs : (0 : ℚ) < sig * 256 ^ 24 := by
    have : (0 : ℚ) < sig := by exact_mod_cast lt_of_lt_of_le (by norm_num) hsig
    positivity
  apply Nat.le_floor
  calc ((diff1 * 256 ^ nz / (sig * 256 ^ 24) : ℕ) : ℚ)
      ≤ ((diff1 * 256 ^ nz : ℕ) : ℚ) / ((sig * 256 ^ 24 : ℕ) : ℚ) := Nat.cast_div_le
    _ = (diff1 : ℚ) * 256 ^ nz / (sig * 256 ^ 24) := by push_cast; rfl
    _ ≤ diff1 * (1 + 1 / 2 ^ 56) / beNat l := by
        rw [div_le_div_iff₀ hs hh, mul_assoc, mul_assoc]
        apply mul_le_mul_of_nonneg_left _ (Nat.cast_nonneg _)
        linarith
    _ = (diff1 : ℚ) / beNat l * (1 + 1 / 2 ^ 56) := by ring

/-- The number of leading zeroes does not grow with the number. -/
theorem Leading.anti {l' : Bytes} {nz' : ℕ} (h : Leading l nz) (h' : Leading l' nz')
    (hle : beNat l ≤ beNat l') : nz' ≤ nz := by
  have hlt : 256 ^ (31 - nz) < 256 ^ (32 - nz') := lt_of_le_of_lt (h.low.trans hle) h'.high
  have hexp : 31 - nz < 32 - nz' := (Nat.pow_lt_pow_iff_right (by norm_num)).mp hlt
  have := h.le
  have := h'.le
  omega

/-- A larger number has a larger significand, on one scale. -/
theorem Leading.significand_mono {l' : Bytes} {nz' : ℕ} (h : Leading l nz) (h' : Leading l' nz')
    (hle : beNat l ≤ beNat l') :
    significand (beNat l) nz * 256 ^ nz' ≤ significand (beNat l') nz' * 256 ^ nz := by
  rcases Nat.eq_or_lt_of_le (h.anti h' hle) with rfl | hlt
  · exact Nat.mul_le_mul_right _ (Nat.div_le_div_right (Nat.mul_le_mul_right _ hle))
  · -- one more zero byte outweighs any difference between two significands
    have hsmall := h.significand_bounds.2
    have hlarge := h'.significand_bounds.1
    calc significand (beNat l) nz * 256 ^ nz' ≤ 2 ^ 64 * 256 ^ nz' :=
      Nat.mul_le_mul_right _ hsmall.le
      _ = 2 ^ 56 * 256 ^ (nz' + 1) := by rw [pow_succ]; ring
      _ ≤ significand (beNat l') nz' * 256 ^ nz :=
          Nat.mul_le_mul hlarge (Nat.pow_le_pow_right (by norm_num) hlt)

theorem Leading.significandQuotient_anti {l' : Bytes} {nz' : ℕ} (h : Leading l nz)
    (h' : Leading l' nz') (hle : beNat l ≤ beNat l') :
    significandQuotient (beNat l') nz' ≤ significandQuotient (beNat l) nz := by
  have hmono := h.significand_mono h' hle
  have hsig := h.significand_bounds.1
  have hsig' := h'.significand_bounds.1
  unfold significandQuotient
  rw [← Nat.mul_div_mul_right (diff1 * 256 ^ nz') _ (show 0 < 256 ^ nz by positivity),
    ← Nat.mul_div_mul_right (diff1 * 256 ^ nz) _ (show 0 < 256 ^ nz' by positivity),
    show diff1 * 256 ^ nz' * 256 ^ nz = diff1 * 256 ^ nz * 256 ^ nz' by ring]
  apply Nat.div_le_div_left
  · calc significand (beNat l) nz * 256 ^ 24 * 256 ^ nz'
        = significand (beNat l) nz * 256 ^ nz' * 256 ^ 24 := by ring
      _ ≤ significand (beNat l') nz' * 256 ^ nz * 256 ^ 24 := Nat.mul_le_mul_right _ hmono
      _ = significand (beNat l') nz' * 256 ^ 24 * 256 ^ nz := by ring
  · have : 0 < significand (beNat l) nz := by omega
    positivity

end Bounds

theorem hashToDifficulty_anti {hash hash' : ByteVec 32}
    (hle : leNat hash.toList ≤ leNat hash'.toList) :
    (hashToDifficulty hash').toNat ≤ (hashToDifficulty hash).toNat := by
  by_cases h : leNat hash.toList = 0
  · have hlt := (hashToDifficulty hash').toNat_lt
    rw [hashToDifficulty_zero h]
    omega
  · obtain ⟨nz, hnz, hvalue⟩ := toNat_hashToDifficulty h
    have h' : leNat hash'.toList ≠ 0 := by omega
    obtain ⟨nz', hnz', hvalue'⟩ := toNat_hashToDifficulty h'
    have hquotient := hnz.significandQuotient_anti hnz' (by rwa [beNat_reverse, beNat_reverse])
    rw [beNat_reverse, beNat_reverse] at hquotient
    rw [hvalue, hvalue']
    omega

/-- A hash that meets the target of a difficulty is read as at least that difficult. -/
theorem le_hashToDifficulty_of_meetsTarget {hash : ByteVec 32} {d : UInt64} (hd : 1 ≤ d.toNat)
    (h : meetsTarget hash (difficultyToTarget d)) : d.toNat ≤ (hashToDifficulty hash).toNat := by
  have hlt := d.toNat_lt
  rw [meetsTarget_iff, beNat_difficultyToTarget, max_eq_left hd,
    Nat.le_div_iff_mul_le (by omega)] at h
  by_cases hzero : leNat hash.toList = 0
  · rw [hashToDifficulty_zero hzero]
    omega
  · obtain ⟨nz, hnz, hvalue⟩ := toNat_hashToDifficulty hzero
    have hdiv : d.toNat ≤ diff1 / leNat hash.toList := by
      rw [Nat.le_div_iff_mul_le (by omega), Nat.mul_comm]
      exact h
    have hquotient := hnz.div_le_significandQuotient
    rw [beNat_reverse] at hquotient
    rw [hvalue]
    omega

/-- The difficulty of a hash of value `h` is the difficulty-one target divided by `h`, rounded down,
with an error of at most one part in `2 ^ 56` upwards and cut off at 64 bits. It does not grow with
the hash, is computed without overflow, and is never below a difficulty whose target the hash
meets. -/
theorem hashToDifficulty_spec (hash : ByteVec 32) :
    (leNat hash.toList = 0 → (hashToDifficulty hash).toNat = 2 ^ 64 - 1) ∧
    (leNat hash.toList ≠ 0 →
      min (diff1 / leNat hash.toList) (2 ^ 64 - 1) ≤ (hashToDifficulty hash).toNat ∧
      (hashToDifficulty hash).toNat ≤
        min ⌊(diff1 : ℚ) / leNat hash.toList * (1 + 1 / 2 ^ 56)⌋₊ (2 ^ 64 - 1)) ∧
    (∀ hash' : ByteVec 32, leNat hash.toList ≤ leNat hash'.toList →
      (hashToDifficulty hash').toNat ≤ (hashToDifficulty hash).toNat) ∧
    hashToDifficultyChecked hash = some (hashToDifficulty hash) ∧
    ∀ d : UInt64, 1 ≤ d.toNat → meetsTarget hash (difficultyToTarget d) →
      d.toNat ≤ (hashToDifficulty hash).toNat := by
  refine ⟨hashToDifficulty_zero, fun h => ?_, fun hash' => hashToDifficulty_anti,
    hashToDifficultyChecked_eq hash, fun d => le_hashToDifficulty_of_meetsTarget⟩
  obtain ⟨nz, hnz, hvalue⟩ := toNat_hashToDifficulty h
  have hlow := hnz.div_le_significandQuotient
  have hhigh := hnz.significandQuotient_le
  rw [beNat_reverse] at hlow hhigh
  rw [hvalue]
  exact ⟨min_le_min_right _ hlow, min_le_min_right _ hhigh⟩

end BtcPool.Bitcoin
