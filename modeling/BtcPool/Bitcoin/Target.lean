import BtcPool.Error

/-!
# Targets and difficulties

The conversions of `bitcoin/template.rs` between compact targets, 32-byte targets and
difficulties, and the comparison of a hash with a target.

* `compactToTarget` holds the mantissa at the place its exponent says: its value is `compactValue`
  (`beNat_compactToTarget`), which never overflows at the exponents accepted. Two of the exponents
  refused have mantissas that would fit (`compactToTarget_exact_iff`).
* `divBeU256ByU64` is the long division of a 32-byte number by a 64-bit one, a byte at a time;
  `beNat_divBytes` is its loop invariant, and `beNat_difficultyToTarget` gives the value of a share
  target, `diff1 / max d 1`.
* `meetsTarget` compares the hash read little-endian with the target read big-endian
  (`meetsTarget_iff`).
-/

namespace BtcPool.Bitcoin

/-! ## Compact targets -/

/-- Write `r` over the zeroes of a 32-byte array from `off` on. -/
def placeBytes (off : ℕ) (r : Bytes) (h : off + r.length ≤ 32) : ByteVec 32 :=
  ⟨splice (List.replicate 32 0) off r, by rw [length_splice] <;> simp [h]⟩

theorem beNat_placeBytes {off : ℕ} {r : Bytes} (h : off + r.length ≤ 32) :
    beNat (placeBytes off r h).toList = beNat r * 256 ^ (32 - off - r.length) := by
  have hzero : ∀ n, beNat (List.replicate n 0) = 0 := fun n => by simp [beNat]
  have hdrop : 32 - (off + r.length) = 32 - off - r.length := by omega
  change beNat (splice (List.replicate 32 0) off r) = _
  simp only [splice, List.take_replicate, List.drop_replicate, beNat_append, hzero, hdrop,
    List.length_replicate]
  ring

/-- The exponent of a compact target. -/
def compactExponent (bits : UInt32) : ℕ := ((bits >>> 24) &&& 0xff).toNat

/-- The mantissa of a compact target; bit 23 is its sign and is masked off. -/
def compactMantissa (bits : UInt32) : UInt32 := bits &&& 0x007fffff

theorem compactMantissa_lt (bits : UInt32) : (compactMantissa bits).toNat < 2 ^ 23 := by
  rw [compactMantissa, UInt32.toNat_and]
  exact Nat.and_lt_two_pow _ (by decide)

/-- The 256-bit target of a compact encoding. -/
def compactToTarget (bits : UInt32) : Except PoolError (ByteVec 32) :=
  let exponent := compactExponent bits
  let mantissa := compactMantissa bits
  if mantissa = 0 then .ok (List.Vector.replicate 32 0)
  else if exponent ≤ 3 then
    let value := mantissa.toNat >>> (8 * (3 - exponent))
    .ok (placeBytes 28 (leBytes 4 value).reverse (by simp))
  else
    let shift := exponent - 3
    if shift > 29 then
      let shown := (hex08 bits).show
      .error (.other s!"bits overflow target width: {shown}")
    else
      .ok (placeBytes (32 - 3 - shift) (leBytes 3 mantissa.toNat).reverse (by simp))

/-- The number a compact target denotes: the mantissa shifted by whole bytes. -/
def compactValue (bits : UInt32) : ℕ :=
  (compactMantissa bits).toNat * 256 ^ compactExponent bits / 256 ^ 3

theorem beNat_compactToTarget {bits : UInt32} {target : ByteVec 32}
    (h : compactToTarget bits = .ok target) : beNat target.toList = compactValue bits := by
  have hm := compactMantissa_lt bits
  simp only [compactToTarget, compactValue] at h ⊢
  split_ifs at h with hzero hsmall hbig <;> cases h
  · rw [hzero, UInt32.toNat_zero, Nat.zero_mul, Nat.zero_div]
    rfl
  · have hle : (compactMantissa bits).toNat >>> (8 * (3 - compactExponent bits)) < 256 ^ 4 := by
      rw [Nat.shiftRight_eq_div_pow]
      exact lt_of_le_of_lt (Nat.div_le_self _ _) (by omega)
    rw [beNat_placeBytes, beNat, List.reverse_reverse, leNat_leBytes_of_lt hle,
      Nat.shiftRight_eq_div_pow]
    simp only [List.length_reverse, length_leBytes]
    norm_num
    have hpow : (256 : ℕ) ^ 3 =
        256 ^ compactExponent bits * 2 ^ (8 * (3 - compactExponent bits)) := by
      rw [pow_mul, show (2 : ℕ) ^ 8 = 256 by norm_num, ← pow_add]
      congr 1
      omega
    rw [show (16777216 : ℕ) = 256 ^ 3 by norm_num, hpow,
      Nat.mul_comm (compactMantissa bits).toNat, Nat.mul_div_mul_left _ _ (by positivity)]
  · have hlt : (compactMantissa bits).toNat < 256 ^ 3 := by omega
    have hpow : (256 : ℕ) ^ compactExponent bits = 256 ^ (compactExponent bits - 3) * 256 ^ 3 := by
      rw [← pow_add]
      congr 1
      omega
    rw [beNat_placeBytes, beNat, List.reverse_reverse, leNat_leBytes_of_lt hlt, hpow, ← mul_assoc,
      Nat.mul_div_cancel _ (by positivity)]
    simp only [List.length_reverse, length_leBytes]
    congr 2
    omega

/-- A target is given exactly for a zero mantissa and for the exponents up to 32. -/
theorem compactToTarget_isOk (bits : UInt32) :
    (∃ target, compactToTarget bits = .ok target) ↔
      compactMantissa bits = 0 ∨ compactExponent bits ≤ 32 := by
  unfold compactToTarget
  dsimp only
  split_ifs with hzero hsmall hbig
  · exact ⟨fun _ => Or.inl hzero, fun _ => ⟨_, rfl⟩⟩
  · exact ⟨fun _ => Or.inr (by omega), fun _ => ⟨_, rfl⟩⟩
  · constructor
    · rintro ⟨target, h⟩
      cases h
    · rintro (h | h)
      · exact absurd h hzero
      · omega
  · exact ⟨fun _ => Or.inr (by omega), fun _ => ⟨_, rfl⟩⟩

/-- The mantissas that still fit 32 bytes at the two exponents just above those accepted. -/
def FitsAbove32 (bits : UInt32) : Prop :=
  compactMantissa bits ≠ 0 ∧
    (compactExponent bits = 33 ∧ (compactMantissa bits).toNat < 2 ^ 16 ∨
      compactExponent bits = 34 ∧ (compactMantissa bits).toNat < 2 ^ 8)

/-- With an exponent of at least three the number denoted is a product. -/
theorem compactValue_of_le {bits : UInt32} (h : 3 ≤ compactExponent bits) :
    compactValue bits = (compactMantissa bits).toNat * 256 ^ (compactExponent bits - 3) := by
  have hpow : (256 : ℕ) ^ compactExponent bits = 256 ^ (compactExponent bits - 3) * 256 ^ 3 := by
    rw [← pow_add, Nat.sub_add_cancel h]
  rw [compactValue, hpow, ← mul_assoc, Nat.mul_div_cancel _ (by positivity)]

/-- Above the exponents accepted, the numbers below `2 ^ 256` are those of the small mantissas. -/
theorem compactValue_lt_iff {bits : UInt32} (hm : compactMantissa bits ≠ 0)
    (he : 32 < compactExponent bits) : compactValue bits < 2 ^ 256 ↔ FitsAbove32 bits := by
  have hpos : 0 < (compactMantissa bits).toNat := by
    apply Nat.pos_of_ne_zero
    intro hzero
    exact hm (UInt32.toNat_inj.mp hzero)
  rw [compactValue_of_le (by omega), FitsAbove32]
  generalize (compactMantissa bits).toNat = m at *
  rcases Nat.lt_or_ge 34 (compactExponent bits) with hlarge | hsmall
  · have hpow : (256 : ℕ) ^ 32 ≤ 256 ^ (compactExponent bits - 3) :=
      Nat.pow_le_pow_right (by norm_num) (by omega)
    have hbig : 2 ^ 256 ≤ m * 256 ^ (compactExponent bits - 3) :=
      calc 2 ^ 256 = 1 * 256 ^ 32 := by norm_num
        _ ≤ m * 256 ^ (compactExponent bits - 3) := Nat.mul_le_mul hpos hpow
    constructor
    · intro h
      exact absurd h (Nat.not_lt.mpr hbig)
    · rintro ⟨-, ⟨h, -⟩ | ⟨h, -⟩⟩ <;> omega
  · rcases (show compactExponent bits = 33 ∨ compactExponent bits = 34 by omega) with h | h
    · rw [h, show (2 : ℕ) ^ 256 = 2 ^ 16 * 256 ^ (33 - 3) by norm_num,
        Nat.mul_lt_mul_right (by positivity)]
      simp [hm]
    · rw [h, show (2 : ℕ) ^ 256 = 2 ^ 8 * 256 ^ (34 - 3) by norm_num,
        Nat.mul_lt_mul_right (by positivity)]
      simp [hm]

/-- A compact target gives the number it denotes whenever that has 32 bytes, and an error otherwise:
this holds of exactly those `bits` that are not among the small mantissas at the exponents 33 and
34. -/
theorem compactToTarget_exact_iff (bits : UInt32) :
    ((compactValue bits < 2 ^ 256 →
        ∃ target, compactToTarget bits = .ok target ∧ beNat target.toList = compactValue bits) ∧
      ((∃ e, compactToTarget bits = .error e) ↔ ¬ compactValue bits < 2 ^ 256)) ↔
    ¬ FitsAbove32 bits := by
  have hok := compactToTarget_isOk bits
  constructor
  · rintro ⟨hvalue, -⟩ hfits
    have he : 32 < compactExponent bits := by
      rcases hfits.2 with ⟨h, -⟩ | ⟨h, -⟩ <;> omega
    obtain ⟨target, htarget, -⟩ := hvalue ((compactValue_lt_iff hfits.1 he).mpr hfits)
    rcases hok.mp ⟨target, htarget⟩ with h | h
    · exact hfits.1 h
    · omega
  · intro hfits
    cases htarget : compactToTarget bits with
    | ok target =>
      have hvalue := beNat_compactToTarget htarget
      have hlt := beNat_lt target.toList
      rw [target.toList_length, hvalue] at hlt
      refine ⟨fun _ => ⟨target, rfl, hvalue⟩, ?_⟩
      constructor
      · rintro ⟨e, he⟩
        cases he
      · intro h
        exact absurd (lt_of_lt_of_eq hlt (by norm_num)) h
    | error e =>
      have hrefused : ¬ (compactMantissa bits = 0 ∨ compactExponent bits ≤ 32) := by
        intro h
        obtain ⟨target, hother⟩ := hok.mpr h
        rw [htarget] at hother
        cases hother
      rw [not_or] at hrefused
      have hbig : ¬ compactValue bits < 2 ^ 256 := fun h =>
        hfits ((compactValue_lt_iff hrefused.1 (by omega)).mp h)
      exact ⟨fun h => absurd h hbig, fun _ => hbig, fun _ => ⟨e, rfl⟩⟩

/-- A mantissa of two bytes at the exponent 33 has its top byte at the top of the target; it is
refused as an overflow. -/
theorem compactToTarget_refuses_fitting :
    compactValue 0x2100ffff = 0xffff * 256 ^ 30 ∧ compactValue 0x2100ffff < 2 ^ 256 ∧
      compactToTarget 0x2100ffff = .error (.other "bits overflow target width: 2100ffff") := by
  decide +kernel

/-- The target of the `bits` field of a template. -/
def bitsToTarget (bitsHex : Str) : Except PoolError (ByteVec 32) :=
  match fromStrRadix16 32 bitsHex with
  | none =>
    let shown := bitsHex.show
    .error (.other s!"Invalid bits: {shown}")
  | some bits => compactToTarget (UInt32.ofNat bits)

/-! ## Share targets -/

/-- One byte of the quotient at a time, most significant first; the remainder is a `u128`. -/
def divBytes (divisor : ℕ) : ℕ → Bytes → Bytes
  | _, [] => []
  | rem, b :: bs =>
    let accum := (rem <<< 8) % 2 ^ 128 ||| b.toNat
    UInt8.ofNat (accum / divisor) :: divBytes divisor (accum % divisor) bs

@[simp] theorem length_divBytes (divisor rem : ℕ) (bs : Bytes) :
    (divBytes divisor rem bs).length = bs.length := by
  induction bs generalizing rem with
  | nil => rfl
  | cons b bs ih => simp [divBytes, ih]

/-- The accumulator of a division by a 64-bit number stays far below the width of its register. -/
theorem divAccum_eq {rem : ℕ} (b : UInt8) (h : rem < 2 ^ 64) :
    (rem <<< 8) % 2 ^ 128 ||| b.toNat = rem * 256 + b.toNat := by
  have hb := b.toNat_lt
  have hshift : rem <<< 8 = rem * 256 := by rw [Nat.shiftLeft_eq]
  rw [Nat.mod_eq_of_lt (by omega), ← Nat.shiftLeft_add_eq_or_of_lt (by omega), hshift]

/-- The bytes written are those of the quotient of the remainder and the bytes still to read. -/
theorem beNat_divBytes {divisor rem : ℕ} (hd : divisor < 2 ^ 64) (hrem : rem < divisor)
    (bs : Bytes) :
    beNat (divBytes divisor rem bs) = (rem * 256 ^ bs.length + beNat bs) / divisor := by
  induction bs generalizing rem with
  | nil => simp [divBytes, Nat.div_eq_of_lt hrem]
  | cons b bs ih =>
    have hb := b.toNat_lt
    have hpos : 0 < divisor := by omega
    have hdigit : (rem * 256 + b.toNat) / divisor < 256 := by
      rw [Nat.div_lt_iff_lt_mul hpos]
      nlinarith
    have hbyte : (UInt8.ofNat ((rem * 256 + b.toNat) / divisor)).toNat =
        (rem * 256 + b.toNat) / divisor := by
      rw [UInt8.toNat_ofNat']
      exact Nat.mod_eq_of_lt hdigit
    have hsplit : rem * 256 ^ (bs.length + 1) + (b.toNat * 256 ^ bs.length + beNat bs) =
        ((rem * 256 + b.toNat) % divisor * 256 ^ bs.length + beNat bs) +
          divisor * ((rem * 256 + b.toNat) / divisor * 256 ^ bs.length) := by
      have hdm := Nat.mod_add_div (rem * 256 + b.toNat) divisor
      calc rem * 256 ^ (bs.length + 1) + (b.toNat * 256 ^ bs.length + beNat bs)
          = (rem * 256 + b.toNat) * 256 ^ bs.length + beNat bs := by ring
        _ = ((rem * 256 + b.toNat) % divisor + divisor * ((rem * 256 + b.toNat) / divisor)) *
              256 ^ bs.length + beNat bs := by rw [hdm]
        _ = _ := by ring
    simp only [divBytes, divAccum_eq b (lt_trans hrem hd), beNat_cons, length_divBytes,
      List.length_cons, hbyte, ih (Nat.mod_lt _ hpos)]
    rw [hsplit, Nat.add_mul_div_left _ _ hpos, Nat.add_comm]

/-- A big-endian number divided by a machine word, byte by byte. -/
def divBeU256ByU64 (value : ByteVec 32) (divisor : UInt64) : ByteVec 32 :=
  ⟨divBytes divisor.toNat 0 value.toList, by rw [length_divBytes, value.toList_length]⟩

/-- The target of difficulty one. -/
def diff1Target : ByteVec 32 := placeBytes 4 [0xff, 0xff] (by simp)

/-- The value of `diff1Target`. -/
def diff1 : ℕ := 0xffff * 2 ^ 208

theorem beNat_diff1Target : beNat diff1Target.toList = diff1 := by
  rw [diff1Target, beNat_placeBytes]
  rfl

/-- The target of a difficulty; difficulties below one count as one. -/
def difficultyToTarget (difficulty : UInt64) : ByteVec 32 :=
  if difficulty ≤ 1 then diff1Target else divBeU256ByU64 diff1Target difficulty

/-- A share target is the difficulty-one target divided by the difficulty, rounded down. -/
theorem beNat_difficultyToTarget (d : UInt64) :
    beNat (difficultyToTarget d).toList = diff1 / max d.toNat 1 := by
  have hd := d.toNat_lt
  unfold difficultyToTarget
  split_ifs with h
  · have hle : d.toNat ≤ 1 := by simpa [UInt64.le_iff_toNat_le] using h
    rw [beNat_diff1Target, max_eq_right hle, Nat.div_one]
  · have hlt : 1 < d.toNat := by
      rw [UInt64.le_iff_toNat_le] at h
      simpa using h
    change beNat (divBytes d.toNat 0 diff1Target.toList) = _
    rw [beNat_divBytes (by omega) (by omega), beNat_diff1Target, max_eq_left (by omega)]
    simp

/-! ## Hashes -/

/-- Whether a hash meets a target: its bytes reversed are at most the target's, in array order. -/
def meetsTarget (hash target : ByteVec 32) : Bool := lexLe hash.toList.reverse target.toList

theorem meetsTarget_iff (hash target : ByteVec 32) :
    meetsTarget hash target ↔ leNat hash.toList ≤ beNat target.toList := by
  rw [meetsTarget, lexLe_iff (by simp), beNat, List.reverse_reverse]

/-- The first eight significant bytes of a number, as far as it has them. -/
def foldBytes (bs : Bytes) : ℕ := bs.foldl (fun sig b => (sig <<< 8) % 2 ^ 64 ||| b.toNat) 0

/-- The difficulty of a share from its hash: a 64.64 fixed-point quotient of the significant bytes
of the difficulty-one target and of the hash, shifted by the difference of their leading zeroes. -/
def hashToDifficulty (hash : ByteVec 32) : UInt64 :=
  let hashBe := hash.toList.reverse
  -- position of the most significant byte, 31 for the zero hash
  let nz := (hashBe.findIdx? (· ≠ 0)).getD 31
  let taken := min 8 (32 - nz)
  let hashSig := (foldBytes ((hashBe.drop nz).take taken) <<< ((8 - taken) * 8)) % 2 ^ 64
  if hashSig = 0 then UInt64.ofNat (2 ^ 64 - 1)
  else
    let ratio := (0xffff000000000000 <<< 64) / hashSig
    let exp : ℤ := (nz - 4) * 8
    if exp > 64 then UInt64.ofNat (2 ^ 64 - 1)
    else
      let shifted := ratio >>> (64 - exp).toNat
      UInt64.ofNat (min shifted (2 ^ 64 - 1))

/-- The difficulty of a compact target, in exact arithmetic where the source uses floating point. -/
def bitsToDifficulty (bitsHex : Str) : Except PoolError ℚ :=
  match fromStrRadix16 32 bitsHex with
  | none =>
    let shown := bitsHex.show
    .error (.other s!"Invalid bits: {shown}")
  | some n =>
    let bits := UInt32.ofNat n
    let mantissa := (compactMantissa bits).toNat
    if mantissa = 0 then .error (.other "Invalid bits mantissa = 0")
    else .ok (0x00ffff / mantissa * 2 ^ (232 - 8 * (compactExponent bits : ℤ)))

end BtcPool.Bitcoin
