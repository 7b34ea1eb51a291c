import BtcPool.Foundations.Bytes

/-!
# Text and hexadecimal

Text as a sequence of characters, its bytes on the wire (`utf8`), and the two readings of
hexadecimal text programs use:

* `hexEncode` and `hexDecode`, two digits a byte, with the three ways decoding can fail
  (`FromHexError`). Decoding undoes encoding (`hexDecode_hexEncode`), at a fixed width as well
  (`hexDecodeTo_hexEncode`), and what decodes to an array has its width (`length_of_hexDecodeTo`);
* `fromStrRadix16 w`, the value of a hexadecimal numeral that fits in `w` bits. On the encoding
  of a byte string it is the number with these bytes, most significant first
  (`fromStrRadix16_hexEncode`).

Decoding works on the bytes of the text, as it must for text outside ASCII to be refused at the
right place.
-/

namespace BtcPool

/-- A text, as its sequence of Unicode scalar values. -/
abbrev Str := List Char

/-- The UTF-8 bytes of a text. -/
def utf8 (s : Str) : Bytes := s.flatMap String.utf8EncodeChar

@[simp] theorem utf8_nil : utf8 [] = [] := rfl

@[simp] theorem utf8_append (s t : Str) : utf8 (s ++ t) = utf8 s ++ utf8 t := by
  simp [utf8]

/-! ## Digits -/

/-- Why hexadecimal text does not decode. -/
inductive FromHexError
  | invalidHexCharacter (c : UInt8) (index : ℕ)
  | oddLength
  | invalidStringLength
  deriving DecidableEq, Repr

/-- The lower-case digit of a number below sixteen. -/
def hexDigit (n : UInt8) : Char := "0123456789abcdef".toList.getD n.toNat '0'

/-- The value of a hexadecimal digit of either case, given by its ASCII code. -/
def hexNibble (c : UInt8) : Option UInt8 :=
  if 0x30 ≤ c ∧ c ≤ 0x39 then some (c - 0x30)
  else if 0x61 ≤ c ∧ c ≤ 0x66 then some (c - 0x61 + 10)
  else if 0x41 ≤ c ∧ c ≤ 0x46 then some (c - 0x41 + 10)
  else none

/-- The value of the digit at position `index`, or the error that names it. -/
def hexVal (c : UInt8) (index : ℕ) : Except FromHexError UInt8 :=
  match hexNibble c with
  | some v => .ok v
  | none => .error (.invalidHexCharacter c index)

/-- The two halves of a byte, the high one first. -/
def nibbles (b : UInt8) : List UInt8 := [b >>> 4, b &&& 0xf]

/-- The two digits of a byte are ASCII, and their values are its two halves. -/
theorem hexDigits_byte (b : UInt8) :
    ∃ hi lo, utf8 ((nibbles b).map hexDigit) = [hi, lo] ∧
      hexNibble hi = some (b >>> 4) ∧ hexNibble lo = some (b &&& 0xf) := by
  have key : ∀ n : Fin 256,
      let b := UInt8.ofNat n.val
      ∃ hi ∈ utf8 [hexDigit (b >>> 4)], ∃ lo ∈ utf8 [hexDigit (b &&& 0xf)],
        utf8 ((nibbles b).map hexDigit) = [hi, lo] ∧
          hexNibble hi = some (b >>> 4) ∧ hexNibble lo = some (b &&& 0xf) := by
    decide +kernel
  obtain ⟨hi, -, lo, -, h⟩ := key ⟨b.toNat, b.toNat_lt⟩
  rw [UInt8.ofNat_toNat] at h
  exact ⟨hi, lo, h⟩

theorem nibbles_join (b : UInt8) : (b >>> 4) <<< 4 ||| (b &&& 0xf) = b := by
  have key : ∀ n : Fin 256, let b := UInt8.ofNat n.val
      (b >>> 4) <<< 4 ||| (b &&& 0xf) = b := by decide +kernel
  simpa [UInt8.ofNat_toNat] using key ⟨b.toNat, b.toNat_lt⟩

theorem nibbles_value (b : UInt8) : 16 * (b >>> 4).toNat + (b &&& 0xf).toNat = b.toNat := by
  have key : ∀ n : Fin 256, let b := UInt8.ofNat n.val
      16 * (b >>> 4).toNat + (b &&& 0xf).toNat = b.toNat := by decide +kernel
  have h := key ⟨b.toNat, b.toNat_lt⟩
  simpa only [UInt8.ofNat_toNat] using h

/-! ## Encoding and decoding -/

/-- Lower-case hexadecimal text of a byte string. -/
def hexEncode (bs : Bytes) : Str := (bs.flatMap nibbles).map hexDigit

@[simp] theorem hexEncode_nil : hexEncode [] = [] := rfl

theorem hexEncode_cons (b : UInt8) (bs : Bytes) :
    hexEncode (b :: bs) = (nibbles b).map hexDigit ++ hexEncode bs := rfl

/-- Decode pairs of digits from position `index` on. -/
def hexPairs : ℕ → Bytes → Except FromHexError Bytes
  | _, [] => .ok []
  | _, [_] => .error .oddLength
  | index, hi :: lo :: rest => do
    let h ← hexVal hi index
    let l ← hexVal lo (index + 1)
    let bs ← hexPairs (index + 2) rest
    return (h <<< 4 ||| l) :: bs

/-- Decode a whole text. -/
def hexDecode (s : Str) : Except FromHexError Bytes :=
  if (utf8 s).length % 2 ≠ 0 then .error .oddLength else hexPairs 0 (utf8 s)

/-- Decode a text into an array of `n` bytes. -/
def hexDecodeTo (n : ℕ) (s : Str) : Except FromHexError Bytes :=
  if (utf8 s).length % 2 ≠ 0 then .error .oddLength
  else if (utf8 s).length / 2 ≠ n then .error .invalidStringLength
  else hexPairs 0 (utf8 s)

theorem hexPairs_hexEncode (bs : Bytes) (index : ℕ) :
    hexPairs index (utf8 (hexEncode bs)) = .ok bs := by
  induction bs generalizing index with
  | nil => rfl
  | cons b bs ih =>
    obtain ⟨hi, lo, hdigits, hhi, hlo⟩ := hexDigits_byte b
    rw [hexEncode_cons, utf8_append, hdigits]
    simp only [List.cons_append, List.nil_append, hexPairs, hexVal, hhi, hlo, ih]
    simp [bind, Except.bind, pure, Except.pure, nibbles_join]

@[simp] theorem length_utf8_hexEncode (bs : Bytes) :
    (utf8 (hexEncode bs)).length = 2 * bs.length := by
  induction bs with
  | nil => rfl
  | cons b bs ih =>
    obtain ⟨hi, lo, hdigits, -, -⟩ := hexDigits_byte b
    rw [hexEncode_cons, utf8_append, hdigits, List.length_append, ih]
    simp only [List.length_cons, List.length_nil]
    omega

@[simp] theorem hexDecode_hexEncode (bs : Bytes) : hexDecode (hexEncode bs) = .ok bs := by
  simp [hexDecode, hexPairs_hexEncode]

@[simp] theorem hexDecodeTo_hexEncode (bs : Bytes) :
    hexDecodeTo bs.length (hexEncode bs) = .ok bs := by
  simp [hexDecodeTo, hexPairs_hexEncode]

theorem length_of_hexPairs : ∀ {index : ℕ} {ds bs : Bytes},
    hexPairs index ds = .ok bs → bs.length = ds.length / 2
  | _, [], bs, h => by
    cases h
    rfl
  | _, [_], bs, h => by cases h
  | index, hi :: lo :: rest, bs, h => by
    simp only [hexPairs, bind, Except.bind, pure, Except.pure] at h
    split at h <;> try cases h
    split at h <;> try cases h
    split at h <;> cases h
    rename_i hrest
    have ih := length_of_hexPairs hrest
    simp only [List.length_cons, ih]
    omega

/-- What decodes to an array of width `n` is `n` bytes. -/
theorem length_of_hexDecodeTo {n : ℕ} {s : Str} {bs : Bytes} (h : hexDecodeTo n s = .ok bs) :
    bs.length = n := by
  unfold hexDecodeTo at h
  split at h
  · cases h
  · split at h
    · cases h
    · rename_i hn
      rw [length_of_hexPairs h]
      omega

/-! ## Numerals -/

/-- The value of a list of digits, most significant first. -/
def hexNumber (ds : List UInt8) : ℕ := ds.foldl (fun v d => 16 * v + d.toNat) 0

/-- A numeral without the plus sign it may start with. -/
def stripPlus : Bytes → Bytes
  | [] => []
  | c :: rest => if c = 0x2b then rest else c :: rest

/-- The value of a hexadecimal numeral below `2 ^ w`, with an optional plus sign. -/
def fromStrRadix16 (w : ℕ) (s : Str) : Option ℕ :=
  if stripPlus (utf8 s) = [] then none
  else match (stripPlus (utf8 s)).mapM hexNibble with
    | none => none
    | some ds => if hexNumber ds < 2 ^ w then some (hexNumber ds) else none

theorem fromStrRadix16_lt {w : ℕ} {s : Str} {n : ℕ} (h : fromStrRadix16 w s = some n) :
    n < 2 ^ w := by
  unfold fromStrRadix16 at h
  split at h
  · cases h
  · split at h
    · cases h
    · split at h
      · cases h
        assumption
      · cases h

/-- The digits of an encoded byte string, read back as numbers below sixteen. -/
theorem mapM_hexNibble_hexEncode (bs : Bytes) :
    (utf8 (hexEncode bs)).mapM hexNibble = some (bs.flatMap nibbles) := by
  induction bs with
  | nil => rfl
  | cons b bs ih =>
    obtain ⟨hi, lo, hdigits, hhi, hlo⟩ := hexDigits_byte b
    rw [hexEncode_cons, utf8_append, hdigits]
    simp [List.mapM_cons, hhi, hlo, ih, nibbles]

theorem hexNumber_nibbles (bs : Bytes) : hexNumber (bs.flatMap nibbles) = beNat bs := by
  have key : ∀ (l : Bytes) (v : ℕ),
      (l.flatMap nibbles).foldl (fun v d => 16 * v + d.toNat) v = v * 256 ^ l.length + beNat l := by
    intro l
    induction l with
    | nil => simp
    | cons b l ih =>
      intro v
      have hb := nibbles_value b
      rw [List.flatMap_cons, List.foldl_append, ih, beNat_cons, List.length_cons, ← hb]
      simp only [nibbles, List.foldl_cons, List.foldl_nil]
      ring
  simpa [hexNumber] using key bs 0

/-- An encoded byte string does not start with the plus sign a numeral may carry. -/
theorem stripPlus_hexEncode (bs : Bytes) :
    stripPlus (utf8 (hexEncode bs)) = utf8 (hexEncode bs) := by
  cases bs with
  | nil => rfl
  | cons b bs =>
    obtain ⟨hi, lo, hdigits, hhi, -⟩ := hexDigits_byte b
    have hplus : hi ≠ 0x2b := by
      rintro rfl
      simp [hexNibble] at hhi
    rw [hexEncode_cons, utf8_append, hdigits]
    simp [stripPlus, hplus]

theorem fromStrRadix16_hexEncode {w : ℕ} {bs : Bytes} (hne : bs ≠ []) (hlt : beNat bs < 2 ^ w) :
    fromStrRadix16 w (hexEncode bs) = some (beNat bs) := by
  have hdigits : utf8 (hexEncode bs) ≠ [] := by
    rw [← List.length_pos_iff, length_utf8_hexEncode]
    have := List.length_pos_iff.mpr hne
    omega
  unfold fromStrRadix16
  rw [stripPlus_hexEncode, if_neg hdigits, mapM_hexNibble_hexEncode]
  simp only [hexNumber_nibbles, hlt, if_true]

end BtcPool
