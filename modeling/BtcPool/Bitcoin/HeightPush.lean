import BtcPool.Bitcoin.Coinbase
import BtcPool.Foundations.ScriptNum

/-!
# The push of the height

BIP34 requires a coinbase scriptSig to start with the push of the block's height, byte by byte as
Bitcoin Core's `CScript() << nHeight` writes it. `encodeBip34Height` is that push for every 64-bit
height (`encodeBip34Height_eq`); what the library says about pushes of numbers then holds of it: the
bytes are the fewest that stand for the height, the height can be read back, and no push is a proper
start of another (`encodeBip34Height_spec`).
-/

namespace BtcPool.Bitcoin

/-- The loop writes the digits of the height to the base 256. -/
theorem heightBytes_eq {fuel : ℕ} {n : UInt64} (h : n.toNat < 256 ^ fuel) :
    heightBytes fuel n = digitBytes n.toNat := by
  unfold digitBytes
  induction fuel generalizing n with
  | zero =>
    have hzero : n.toNat = 0 := by simpa using h
    simp [heightBytes, hzero]
  | succ fuel ih =>
    by_cases hpos : n > 0
    · have hnat : 0 < n.toNat := by simpa [UInt64.lt_iff_toNat_lt] using hpos
      have hshift : (n >>> 8).toNat = n.toNat / 256 := by
        rw [UInt64.toNat_shiftRight]
        simp [Nat.shiftRight_eq_div_pow]
      have hbyte : (n &&& 0xff).toUInt8 = UInt8.ofNat (n.toNat % 256) := by
        apply UInt8.toNat_inj.mp
        have hand : n.toNat % 256 &&& 255 = n.toNat % 256 % 256 :=
          Nat.and_two_pow_sub_one_eq_mod (n.toNat % 256) 8
        simp [hand]
      have hlt : (n >>> 8).toNat < 256 ^ fuel := by
        rw [hshift, Nat.div_lt_iff_lt_mul (by norm_num), ← pow_succ]
        exact h
      rw [heightBytes, if_pos hpos, Nat.digits_def' (by norm_num) hnat, List.map_cons, ih hlt,
        hshift, hbyte]
    · have hzero : n.toNat = 0 := by
        rw [gt_iff_lt, UInt64.lt_iff_toNat_lt] at hpos
        simpa using hpos
      simp [heightBytes, hpos, hzero]

/-- The sign byte is added exactly for a height with its top bit set. -/
theorem getLast?_digitBytes_any (n : ℕ) :
    (digitBytes n).getLast?.any (fun b => b &&& 0x80 ≠ 0) ↔ topBit n := by
  have hbit : ∀ d < 256, UInt8.ofNat d &&& 0x80 ≠ 0 ↔ 128 ≤ d := by decide +kernel
  rw [digitBytes, List.getLast?_map, topBit]
  cases hlast : (Nat.digits 256 n).getLast? with
  | none => simp
  | some d =>
    have hd : d < 256 := Nat.digits_lt_base (by norm_num) (List.mem_of_getLast? hlast)
    simpa using hbit d hd

/-- The push of a height is Core's. -/
theorem encodeBip34Height_eq (height : UInt64) :
    encodeBip34Height height = pushInt height.toNat := by
  have hlt := height.toNat_lt
  have hzero : height = 0 ↔ height.toNat = 0 := by rw [← UInt64.toNat_inj]; rfl
  have hsmall : height ≤ 16 ↔ height.toNat ≤ 16 := by rw [UInt64.le_iff_toNat_le]; rfl
  have hbytes : heightBytes 8 height = digitBytes height.toNat := heightBytes_eq (by omega)
  unfold encodeBip34Height pushInt scriptNumBytes
  simp only [hzero, hsmall, hbytes]
  by_cases h0 : height.toNat = 0
  · rw [if_pos h0, if_pos h0]
  · rw [if_neg h0, if_neg h0]
    by_cases h16 : height.toNat ≤ 16
    · rw [if_pos h16, if_pos h16]
      congr 1
      apply UInt8.toNat_inj.mp
      rw [UInt8.toNat_add, UInt64.toNat_toUInt8, UInt8.toNat_ofNat']
      change (80 + height.toNat % 256) % 256 = _
      omega
    · rw [if_neg h16, if_neg h16]
      by_cases htop : topBit height.toNat
      · rw [if_pos ((getLast?_digitBytes_any _).mpr htop), if_pos htop]
      · rw [if_neg fun h => htop ((getLast?_digitBytes_any _).mp h), if_neg htop]

/-- For every 64-bit height the push is Core's: an opcode up to sixteen, then the length of the
script number and its bytes, with a sign byte just when the top bit is set. The bytes are the fewest
that stand for the height. The push is read back as the height whatever follows, so pushes of
different heights differ and none is a proper start of another. -/
theorem encodeBip34Height_spec (height : UInt64) :
    encodeBip34Height height = pushInt height.toNat ∧
    (16 < height.toNat → ∃ data, encodeBip34Height height = UInt8.ofNat data.length :: data ∧
      data = (if topBit height.toNat then digitBytes height.toNat ++ [0]
        else digitBytes height.toNat) ∧
      data.length < 76 ∧ scriptNum data = height.toNat ∧
      ∀ bs, scriptNum bs = height.toNat → data.length ≤ bs.length) ∧
    (∀ rest, readInt.run (encodeBip34Height height ++ rest) = some ((height.toNat : ℤ), rest)) ∧
    (∀ other, encodeBip34Height height = encodeBip34Height other → height = other) ∧
    ∀ other, encodeBip34Height height <+: encodeBip34Height other →
      encodeBip34Height height = encodeBip34Height other := by
  have hreads : ∀ h : UInt64, Reads readInt (encodeBip34Height h) h.toNat := by
    intro h
    have hlt := h.toNat_lt
    rw [encodeBip34Height_eq]
    exact reads_pushInt (by omega)
  refine ⟨encodeBip34Height_eq height, fun h16 => ?_, hreads height, fun other heq => ?_,
    fun other hstart => ((hreads height).of_start (hreads other) hstart).2⟩
  · have hlt := height.toNat_lt
    have hlen := length_scriptNumBytes_lt (n := height.toNat) (by omega)
    refine ⟨scriptNumBytes height.toNat, ?_, rfl, by omega, scriptNum_scriptNumBytes _,
      fun bs => length_scriptNumBytes_le⟩
    rw [encodeBip34Height_eq, pushInt, if_neg (by omega), if_neg (by omega)]
  · have hsame := ((hreads height).of_start (hreads other) (heq ▸ List.prefix_rfl)).1
    exact UInt64.toNat_inj.mp (by exact_mod_cast hsame)

example : encodeBip34Height 128 = [0x02, 0x80, 0x00] := by decide

end BtcPool.Bitcoin
