import BtcPool.Bitcoin.HeightPush
import BtcPool.Config

/-!
# Every configured coinbase can be built

The builder of a coinbase can refuse for three reasons: the length of the scriptSig, the search that
pins the offset of the scriptSig, and the weight. For a configuration that passed `validate` none of
them can occur, at any height below `2 ^ 31` and for the scripts an address yields
(`buildJobForPayout_ok`).

The search is for the first place the scriptSig occurs. The bytes in front of it are `01 00 00 00
01`, zeros, four times `ff` and the length of the scriptSig. A scriptSig starts with the push of the
height, which is neither `00` nor `ff`, and is `01` only if a byte that is not zero follows
(`HeightPush`); so it does not occur among these bytes (`ne_of_mem_coinbaseFixed`). It cannot start
at its length byte either: then every byte of it would be that length, and the last byte, of the
zeroed extranonce region, is zero (`ne_of_shifted`).
-/

namespace BtcPool.Bitcoin

/-! ## The push of the height -/

/-- What the rest of the coinbase needs to know about the push of a height: its first byte is
neither of the bytes that stand in front of a scriptSig, and a first byte `01` is followed by a byte
that is not zero. -/
structure HeightPush (push : Bytes) : Prop where
  length_le : push.length ≤ 5
  first : ∃ b rest, push = b :: rest ∧ b ≠ 0 ∧ b ≠ 0xff ∧
    (b = 1 → ∃ c more, rest = c :: more ∧ c ≠ 0)

/-- The byte of a number is not a byte with another value. -/
theorem ofNat_ne {n : ℕ} (hn : n < 256) {b : UInt8} (h : n ≠ b.toNat) : UInt8.ofNat n ≠ b := by
  rintro rfl
  rw [UInt8.toNat_ofNat'] at h
  omega

/-- A height that has a byte of its own as an opcode. -/
theorem heightPush_opcode {n : ℕ} (h16 : n ≤ 16) : HeightPush [UInt8.ofNat (0x50 + n)] := by
  have hne : ∀ b : UInt8, b.toNat < 80 ∨ 96 < b.toNat → UInt8.ofNat (0x50 + n) ≠ b :=
    fun b hb => ofNat_ne (by omega) (by omega)
  refine ⟨by simp, _, [], rfl, hne 0 (by decide), hne 0xff (by decide), fun h => ?_⟩
  exact absurd h (hne 1 (by decide))

/-- A height above sixteen takes one to four bytes; if it is a single byte, that is the height. -/
theorem heightPush_data {n : ℕ} (h0 : 1 ≤ n) (h31 : n < 2 ^ 31) :
    HeightPush (UInt8.ofNat (scriptNumBytes n).length :: scriptNumBytes n) := by
  have hvalue := scriptNum_scriptNumBytes n
  have hfour : scriptNum (leBytes 4 n) = n := by
    rw [scriptNum, leNat_leBytes_of_lt (by omega), length_leBytes, if_pos (by omega)]
  have hlen : (scriptNumBytes n).length ≤ 4 := length_leBytes 4 n ▸ length_scriptNumBytes_le hfour
  generalize scriptNumBytes n = data at *
  have hpos : 1 ≤ data.length := by
    by_contra hnone
    rw [List.length_eq_zero_iff.mp (show data.length = 0 by omega)] at hvalue
    change (0 : ℤ) = n at hvalue
    omega
  refine ⟨by rw [List.length_cons]; omega, _, _, rfl, ofNat_ne (by omega) ?_,
    ofNat_ne (by omega) ?_,
    fun hone => ?_⟩
  · change data.length ≠ 0
    omega
  · change data.length ≠ 255
    omega
  · have hsingle : data.length = 1 := by
      by_contra hmore
      exact ofNat_ne (by omega) hmore hone
    obtain ⟨c, rfl⟩ := List.length_eq_one_iff.mp hsingle
    refine ⟨c, [], rfl, ?_⟩
    rintro rfl
    change (0 : ℤ) = n at hvalue
    omega

theorem heightPush_encodeBip34Height {height : UInt64} (h0 : 1 ≤ height.toNat)
    (h31 : height.toNat < 2 ^ 31) : HeightPush (encodeBip34Height height) := by
  rw [encodeBip34Height_eq, pushInt, if_neg (by omega)]
  split
  · exact heightPush_opcode ‹_›
  · exact heightPush_data h0 h31

/-! ## The search -/

/-- A search succeeds at the first window that matches. -/
theorem findBytes_eq_some {haystack needle : Bytes} {i : ℕ}
    (hlen : i + needle.length ≤ haystack.length)
    (hmatch : (haystack.drop i).take needle.length = needle)
    (hfirst : ∀ j < i, (haystack.drop j).take needle.length ≠ needle) :
    findBytes haystack needle = some i := by
  rw [findBytes, List.find?_range_eq_some]
  refine ⟨by simpa using hmatch, by simp; omega, fun j hj => ?_⟩
  simpa using hfirst j hj

/-- A window that matches agrees with the needle byte by byte. -/
theorem getElem?_of_window {haystack needle : Bytes} {j k : ℕ}
    (h : (haystack.drop j).take needle.length = needle) (hk : k < needle.length) :
    haystack[j + k]? = needle[k]? := by
  conv_rhs => rw [← h]
  rw [List.getElem?_take_of_lt hk, List.getElem?_drop]

/-- The bytes in front of the length of a scriptSig: version, count of inputs, outpoint. -/
def coinbaseFixed : Bytes :=
  [1, 0, 0, 0, 1] ++ List.replicate 32 0 ++ [0xff, 0xff, 0xff, 0xff]

theorem coinbaseHead_eq {n : ℕ} (h : n ≤ 100) :
    coinbaseHead n = coinbaseFixed ++ [UInt8.ofNat n] := by
  have hsize : compactSize n = [UInt8.ofNat n] := by rw [compactSize, if_pos (by omega)]
  rw [coinbaseHead, hsize]
  rfl

/-- Each of these bytes is `00` or `ff`, or a `01` in front of a `00`. -/
theorem ne_of_mem_coinbaseFixed : ∀ j < 41, coinbaseFixed[j]? = some 0 ∨
    coinbaseFixed[j]? = some 0xff ∨ coinbaseFixed[j]? = some 1 ∧
    coinbaseFixed[j + 1]? = some 0 := by
  decide +kernel

/-- A string that ends in zero is not its own length followed by all but its last byte. -/
theorem ne_of_shifted {s : Bytes} {b : UInt8} (hb : b ≠ 0)
    (h0 : s[0]? = some b) (hstep : ∀ k, k + 1 < s.length → s[k + 1]? = s[k]?)
    (hlast : s[s.length - 1]? = some 0) : False := by
  have hall : ∀ k < s.length, s[k]? = some b := by
    intro k
    induction k with
    | zero => exact fun _ => h0
    | succ k ih => exact fun hk => (hstep k hk).trans (ih (by omega))
  have hpos : 0 < s.length := by
    by_contra hzero
    have hnil : s = [] := List.length_eq_zero_iff.mp (by omega)
    simp [hnil] at h0
  have hbad := hall (s.length - 1) (by omega)
  rw [hlast] at hbad
  exact hb (Option.some.inj hbad).symm

/-- The scriptSig of a coinbase is found where it stands. -/
theorem findBytes_serialize_coinbaseTx {push tag : Bytes} {en : ℕ} (hpush : HeightPush push)
    (hen : 1 ≤ en) (h100 : push.length + tag.length + en ≤ 100) (reward : UInt64) (script : Bytes)
    (wc : Option Bytes) :
    findBytes (coinbaseTx (push ++ tag ++ List.replicate en 0) reward script wc).serialize
      (push ++ tag ++ List.replicate en 0) = some scriptSigOffset := by
  generalize hs : push ++ tag ++ List.replicate en 0 = s
  have hlen : s.length = push.length + tag.length + en := by simp [← hs, Nat.add_assoc]
  obtain ⟨b, rest, hcons, hb0, hbff, hone⟩ := hpush.first
  have hfirst : s[0]? = some b := by simp [← hs, hcons]
  have hlong : 2 ≤ s.length := by
    have hpos : 1 ≤ push.length := by simp [hcons]
    omega
  have hlast : s[s.length - 1]? = some 0 := by
    rw [hlen, ← hs, List.getElem?_append_right (by simp; omega), List.getElem?_replicate,
      if_pos (by simp; omega)]
  have hhead : coinbaseHead s.length = coinbaseFixed ++ [UInt8.ofNat s.length] :=
    coinbaseHead_eq (by omega)
  have hfixed : coinbaseFixed.length = 41 := rfl
  have hoffset : (coinbaseHead s.length).length = scriptSigOffset := length_coinbaseHead (by omega)
  rw [serialize_coinbaseTx]
  refine findBytes_eq_some ?_ ?_ fun j hj hwindow => ?_
  · rw [← hoffset]
    simp
  · rw [← hoffset, List.append_assoc, List.drop_left, List.take_left]
  · have hat : ∀ k < s.length,
        (coinbaseHead s.length ++ s ++ coinbaseTail reward script wc)[j + k]? =
        s[k]? := fun k hk => getElem?_of_window hwindow hk
    rw [hhead] at hat
    rcases Nat.lt_or_ge j 41 with hj41 | hj41
    · -- among the fixed bytes the first byte, or else the second, is another one
      have hat0 : coinbaseFixed[j]? = some b := by
        have h := hat 0 (by omega)
        rwa [hfirst, Nat.add_zero, List.append_assoc, List.append_assoc,
          List.getElem?_append_left (by omega)] at h
      rcases ne_of_mem_coinbaseFixed j hj41 with h | h | ⟨h, hnext⟩
      · exact hb0 (Option.some.inj (hat0.symm.trans h))
      · exact hbff (Option.some.inj (hat0.symm.trans h))
      · obtain ⟨c, more, hrest, hc⟩ := hone (Option.some.inj (hat0.symm.trans h))
        have hin : j + 1 < coinbaseFixed.length := by
          by_contra hout
          rw [List.getElem?_eq_none (by omega)] at hnext
          cases hnext
        have hat1 := hat 1 (by omega)
        rw [List.append_assoc, List.append_assoc, List.getElem?_append_left hin, hnext, ← hs, hcons,
          hrest] at hat1
        exact hc (Option.some.inj hat1).symm
    · -- at the length byte every byte would be the one before it
      obtain rfl : j = 41 := by
        unfold scriptSigOffset at hj
        omega
      have hbyte : b = UInt8.ofNat s.length := by
        have h := hat 0 (by omega)
        rw [hfirst, List.append_assoc, List.append_assoc,
          List.getElem?_append_right (by omega)] at h
        exact (Option.some.inj h).symm
      refine ne_of_shifted hb0 hfirst (fun k hk => ?_) hlast
      have h := hat (k + 1) hk
      rw [List.append_assoc, List.getElem?_append_right (by simp [hfixed]; omega),
        List.getElem?_append_left (by simp [hfixed]; omega)] at h
      rw [← h]
      congr 1
      simp [hfixed]
      omega

/-! ## The weight -/

theorem length_varBytes {bs : Bytes} (h : bs.length ≤ 100) :
    (varBytes bs).length = bs.length + 1 := by
  rw [varBytes, compactSize, if_pos (by omega)]
  simp

theorem length_encode_txOut_le (value : UInt64) {script : Bytes} {n : ℕ} (h : script.length ≤ n)
    (hn : n ≤ 100) : (TxOut.encode { value, scriptPubkey := script }).length ≤ n + 9 := by
  have hvar : (varBytes script).length = script.length + 1 := length_varBytes (by omega)
  simp only [TxOut.encode, List.length_append, length_encodeU64, hvar]
  omega

theorem length_coinbaseTail_le (reward : UInt64) {script : Bytes} {wc : Option Bytes}
    (hscript : script.length ≤ 42) (hwc : ∀ w, wc = some w → w.length ≤ 38) :
    (coinbaseTail reward script wc).length ≤ 107 := by
  have hpay := length_encode_txOut_le reward hscript (by norm_num)
  unfold coinbaseTail varList coinbaseTx
  cases wc with
  | none =>
    simp only [Option.map_none, Option.toList_none, List.length_append, length_encodeU32,
      List.flatMap_cons, List.flatMap_nil, List.length_nil]
    have hcount : (compactSize [(⟨reward, script⟩ : TxOut)].length).length = 1 := rfl
    omega
  | some w =>
    have hcommit := length_encode_txOut_le 0 (hwc w rfl) (by norm_num)
    simp only [Option.map_some, Option.toList_some, List.length_append, length_encodeU32,
      List.flatMap_cons, List.flatMap_nil, List.length_nil]
    have hcount : (compactSize [(⟨reward, script⟩ : TxOut), ⟨0, w⟩].length).length = 1 := rfl
    omega

/-! ## The builder -/

theorem buildCoinbase_ok {height : UInt64} {script : Bytes} {tag : Str} {en1 en2 : ℕ}
    {wc : Option Bytes} (reward : UInt64) (h0 : 1 ≤ height.toNat) (h31 : height.toNat < 2 ^ 31)
    (hen : 1 ≤ en1 + en2) (h100 : 5 + (utf8 tag).length + (en1 + en2) ≤ 100)
    (hscript : script.length ≤ 42) (hwc : ∀ w, wc = some w → w.length ≤ 38) :
    ∃ built, buildCoinbase height reward script tag en1 en2 wc = .ok built := by
  have hpush := heightPush_encodeBip34Height h0 h31
  have hlen := hpush.length_le
  have hpos : 1 ≤ (encodeBip34Height height).length := by
    obtain ⟨b, rest, hcons, -⟩ := hpush.first
    simp [hcons]
  have hweight : (coinbaseTx (encodeBip34Height height ++ utf8 tag ++ List.replicate (en1 + en2) 0)
      reward script wc).serialize.length * 4 + 36 ≤ coinbaseWeightReserve := by
    have htail := length_coinbaseTail_le reward hscript hwc
    have hhead := length_coinbaseHead (n := (encodeBip34Height height ++ utf8 tag ++
      List.replicate (en1 + en2) 0).length) (by simp; omega)
    rw [serialize_coinbaseTx, List.length_append, List.length_append, hhead, coinbaseWeightReserve]
    simp only [List.length_append, List.length_replicate]
    omega
  simp only [buildCoinbase, checkCoinbaseScriptSigLen, bind_eq_ok, ensure_eq_ok, pure_eq_ok]
  refine ⟨_, (), by omega, (), ⟨?_, ?_⟩, (), ?_, (), hweight, rfl⟩
  · unfold minCoinbaseScriptSig
    omega
  · unfold maxCoinbaseScriptSig
    omega
  · exact findBytes_serialize_coinbaseTx hpush hen (by omega) reward script wc

end BtcPool.Bitcoin

namespace BtcPool

open Bitcoin

/-- A template whose coinbase fits: of a height whose push has at most five bytes, with a commitment
no longer than the standard one. -/
structure Bitcoin.JobTemplate.Buildable (template : JobTemplate) : Prop where
  height_pos : 1 ≤ template.height.toNat
  height_le : template.height.toNat ≤ 2 ^ 31 - 1
  commitment : ∀ w, template.witnessCommitment = some w → w.length ≤ 38

theorem LoadedConfig.Accepted.exists_job {c : LoadedConfig} (hc : c.Accepted) (jobId : Str)
    {template : JobTemplate} (ht : template.Buildable) {payout : PayoutDescriptor}
    (hscript : payout.scriptPubkey.length ≤ 42) {en1 en2 : ℕ}
    (hsplit : en1 + en2 = c.pool.extranonce1Size + c.pool.extranonce2Size) :
    ∃ job, buildJobForPayout jobId template payout c.pool.coinbaseTag en1 en2 = .ok job := by
  have hen := hc.extranonce
  have h100 := hc.scriptSig
  have hheight := ht.height_le
  unfold LoadedConfig.scriptSigLen LoadedConfig.widestHeightPush at h100
  have h100' : 5 + (utf8 c.pool.coinbaseTag).length + (en1 + en2) ≤ 100 := by omega
  obtain ⟨built, hbuilt⟩ := buildCoinbase_ok template.coinbaseValue ht.height_pos (by omega)
    (by omega) h100' hscript ht.commitment
  unfold buildJobForPayout
  split
  · rename_i e herror
    rw [hbuilt] at herror
    cases herror
  · exact ⟨_, rfl⟩

/-- With a configuration that passed the check, a job can be built for every template of a height
from one to `2 ^ 31 - 1` with a commitment of at most 38 bytes, every payout script of at most 42
bytes, and every split of the configured extranonce width: that of Stratum V1, and the one a Stratum
V2 device asks for. -/
theorem buildJobForPayout_ok {c : LoadedConfig} (hc : c.validate = .ok ()) (jobId : Str)
    {template : JobTemplate} (h0 : 1 ≤ template.height.toNat)
    (h31 : template.height.toNat ≤ 2 ^ 31 - 1) {payout : PayoutDescriptor}
    (hscript : payout.scriptPubkey.length ≤ 42)
    (hwc : ∀ w, template.witnessCommitment = some w → w.length ≤ 38) {en1 en2 : ℕ}
    (hsplit : en1 + en2 = c.pool.extranonce1Size + c.pool.extranonce2Size) :
    ∃ job, buildJobForPayout jobId template payout c.pool.coinbaseTag en1 en2 = .ok job :=
  (LoadedConfig.validate_eq_ok.mp hc).exists_job jobId ⟨h0, h31, hwc⟩ hscript hsplit

/-- The split of Stratum V1 and one of Stratum V2 of the regtest pool. -/
theorem buildJobForPayout_ok_regtest :
    (∃ job, buildJobForPayout "1".toList regtestTemplate regtestPayout
      regtestLoaded.pool.coinbaseTag 4 4 = .ok job) ∧
    ∃ job, buildJobForPayout "1".toList regtestTemplate regtestPayout
      regtestLoaded.pool.coinbaseTag 2 6 = .ok job := by
  have hwc : ∀ w, regtestTemplate.witnessCommitment = some w → w.length ≤ 38 := by decide +kernel
  exact ⟨buildJobForPayout_ok validate_regtestLoaded _ (by decide +kernel) (by decide +kernel)
      (by decide +kernel) hwc (by decide +kernel),
    buildJobForPayout_ok validate_regtestLoaded _ (by decide +kernel) (by decide +kernel)
      (by decide +kernel) hwc (by decide +kernel)⟩

end BtcPool
