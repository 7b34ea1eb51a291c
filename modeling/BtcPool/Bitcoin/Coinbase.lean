import BtcPool.Bitcoin.Transaction
import BtcPool.Error
import BtcPool.Foundations.Fallible

/-!
# The coinbase transaction

`build_coinbase` and what it is made of: the BIP34 height push, the scriptSig with its reserved
extranonce region, the outputs, the search that pins the offset of the scriptSig, and the checks of
the scriptSig length and of the weight.

A coinbase that was built is the serialization of `coinbaseTx` with a zeroed region, and its offset
is that of the region (`buildCoinbase_spec`). Writing bytes over the region gives the serialization
of `coinbaseTx` with these bytes in the region (`splice_serialize_coinbaseTx`), whatever they are:
the region is inside the scriptSig and its length does not change.
-/

namespace BtcPool.Bitcoin

/-! ## The scriptSig -/

/-- The bytes of a height, least significant first, as long as there are any; a `u64` has eight. -/
def heightBytes : ℕ → UInt64 → Bytes
  | 0, _ => []
  | fuel + 1, n => if n > 0 then (n &&& 0xff).toUInt8 :: heightBytes fuel (n >>> 8) else []

/-- The script push of a block height that BIP34 asks for. -/
def encodeBip34Height (height : UInt64) : Bytes :=
  if height = 0 then [0x00]
  else if height ≤ 16 then [0x50 + height.toUInt8]
  else
    let bytes := heightBytes 8 height
    -- a set top bit would be read as a sign
    let bytes := if bytes.getLast?.any (fun b => b &&& 0x80 ≠ 0) then bytes ++ [0x00] else bytes
    UInt8.ofNat bytes.length :: bytes

/-- The longest scriptSig consensus allows in a coinbase. -/
def maxCoinbaseScriptSig : ℕ := 100

/-- The shortest scriptSig consensus allows in a coinbase. -/
def minCoinbaseScriptSig : ℕ := 2

/-- The check of the scriptSig's length, with the settings it depends on in its message. -/
def checkCoinbaseScriptSigLen (len : ℕ) : Except PoolError Unit :=
  ensure (minCoinbaseScriptSig ≤ len ∧ len ≤ maxCoinbaseScriptSig)
    (.other (s!"coinbase scriptSig would be {len} bytes; consensus requires " ++
      s!"{minCoinbaseScriptSig}..={maxCoinbaseScriptSig} " ++
      "(BIP34 height push + coinbase_tag + extranonce1_size + extranonce2_size)"))

/-! ## The transaction -/

/-- The coinbase with the given scriptSig; a commitment is one more output, of value zero. -/
def coinbaseTx (scriptSig : Bytes) (reward : UInt64) (rewardScript : Bytes)
    (witnessCommitment : Option Bytes) : Transaction where
  version := 1
  lockTime := 0
  input := [{ previousOutput := .null, scriptSig, sequence := 0xffffffff, witness := [] }]
  output := { value := reward, scriptPubkey := rewardScript } ::
    (witnessCommitment.map fun script => { value := 0, scriptPubkey := script }).toList

/-- The first occurrence of `needle` among the windows of `haystack`. -/
def findBytes (haystack needle : Bytes) : Option ℕ :=
  (List.range (haystack.length + 1 - needle.length)).find? fun i =>
    (haystack.drop i).take needle.length == needle

/-- Version, input count, outpoint and the one-byte length in front of the scriptSig. -/
def scriptSigOffset : ℕ := 4 + 1 + 36 + 1

/-- The weight that templates leave for the coinbase. -/
def coinbaseWeightReserve : ℕ := 4000

/-- The coinbase with zeros for the extranonce, and where the extranonce begins. -/
def buildCoinbase (height reward : UInt64) (rewardScript : Bytes) (tag : Str)
    (extranonce1Len extranonce2Len : ℕ) (witnessCommitment : Option Bytes) :
    Except PoolError (Bytes × ℕ) := do
  let heightScript := encodeBip34Height height
  let tagBytes := utf8 tag
  let enTotal := extranonce1Len + extranonce2Len
  ensure (enTotal ≠ 0) (.other "Total extranonce width must be at least one byte")
  let scriptSigLen := heightScript.length + tagBytes.length + enTotal
  checkCoinbaseScriptSigLen scriptSigLen
  let scriptSig := heightScript ++ tagBytes ++ List.replicate enTotal 0x00
  let serialized := (coinbaseTx scriptSig reward rewardScript witnessCommitment).serialize
  -- the offset is arithmetic; the search pins it against where the bytes landed
  ensure (findBytes serialized scriptSig = some scriptSigOffset)
    (.other (s!"coinbase scriptSig is not at offset {scriptSigOffset}; the " ++
      "serialization layout the extranonce splice depends on has changed"))
  let offset := scriptSigOffset + heightScript.length + tagBytes.length
  let coinbaseWeight := serialized.length * 4 + 36
  ensure (coinbaseWeight ≤ coinbaseWeightReserve)
    (.other (s!"coinbase weighs {coinbaseWeight} WU, over the " ++
      s!"{coinbaseWeightReserve} WU the block template reserved for it"))
  return (serialized, offset)

/-- What a coinbase that was built is: the serialization with a zeroed region at the offset. -/
structure BuiltCoinbase (height reward : UInt64) (rewardScript : Bytes) (tag : Str) (enTotal : ℕ)
    (witnessCommitment : Option Bytes) (bytes : Bytes) (offset : ℕ) : Prop where
  region : 0 < enTotal
  scriptSig : (encodeBip34Height height ++ utf8 tag).length + enTotal ≤ 100
  offset_eq : offset = 42 + (encodeBip34Height height ++ utf8 tag).length
  bytes_eq : bytes = (coinbaseTx (encodeBip34Height height ++ utf8 tag ++
    List.replicate enTotal 0) reward rewardScript witnessCommitment).serialize
  weight : bytes.length * 4 + 36 ≤ 4000

theorem buildCoinbase_spec {height reward : UInt64} {rewardScript : Bytes} {tag : Str}
    {en1 en2 : ℕ} {wc : Option Bytes} {bytes : Bytes} {offset : ℕ}
    (h : buildCoinbase height reward rewardScript tag en1 en2 wc = .ok (bytes, offset)) :
    BuiltCoinbase height reward rewardScript tag (en1 + en2) wc bytes offset := by
  simp only [buildCoinbase, checkCoinbaseScriptSigLen, bind_eq_ok, ensure_eq_ok, pure_eq_ok,
    Prod.mk.injEq] at h
  obtain ⟨-, hpos, -, hlen, -, -, -, hweight, rfl, rfl⟩ := h
  refine ⟨by omega, ?_, ?_, rfl, hweight⟩
  · rw [List.length_append]
    exact hlen.2
  · rw [List.length_append, ← Nat.add_assoc]
    rfl

/-! ## The layout -/

/-- The bytes in front of a scriptSig of the given length. -/
def coinbaseHead (scriptSigLen : ℕ) : Bytes :=
  encodeU32 1 ++ compactSize 1 ++ OutPoint.null.txid.toList ++ encodeU32 OutPoint.null.vout ++
    compactSize scriptSigLen

/-- The bytes behind the scriptSig. -/
def coinbaseTail (reward : UInt64) (rewardScript : Bytes) (witnessCommitment : Option Bytes) :
    Bytes :=
  encodeU32 0xffffffff ++
    varList TxOut.encode (coinbaseTx [] reward rewardScript witnessCommitment).output ++ encodeU32 0

/-- The pool's coinbase has no witness, so it is written in the legacy form. -/
theorem usesSegwit_coinbaseTx (s : Bytes) (reward : UInt64) (rewardScript : Bytes)
    (wc : Option Bytes) : (coinbaseTx s reward rewardScript wc).usesSegwit = false := rfl

theorem serialize_coinbaseTx (s : Bytes) (reward : UInt64) (rewardScript : Bytes)
    (wc : Option Bytes) :
    (coinbaseTx s reward rewardScript wc).serialize =
      coinbaseHead s.length ++ s ++ coinbaseTail reward rewardScript wc := by
  rw [Transaction.stripped_eq_serialize (usesSegwit_coinbaseTx ..)]
  simp [Transaction.stripped, coinbaseTx, coinbaseHead, coinbaseTail, varList, TxIn.encode,
    varBytes]

theorem length_coinbaseHead {n : ℕ} (h : n ≤ 100) : (coinbaseHead n).length = 42 := by
  have hone : ∀ m, m ≤ 100 → (compactSize m).length = 1 := fun m hm => by
    rw [compactSize, if_pos (by omega)]
    rfl
  simp only [coinbaseHead, List.length_append, length_encodeU32, hone 1 (by omega), hone n h,
    List.Vector.toList_length]

/-- Bytes written over the reserved region are the coinbase with these bytes in its scriptSig. -/
theorem splice_serialize_coinbaseTx {s r z : Bytes} (hlen : r.length = z.length)
    (h100 : s.length + z.length ≤ 100) (reward : UInt64) (rewardScript : Bytes)
    (wc : Option Bytes) :
    splice (coinbaseTx (s ++ z) reward rewardScript wc).serialize (42 + s.length) r =
      (coinbaseTx (s ++ r) reward rewardScript wc).serialize := by
  have hhead : (coinbaseHead (s ++ z).length ++ s).length = 42 + s.length := by
    rw [List.length_append, length_coinbaseHead (by simpa using h100)]
  have hsame : (s ++ z).length = (s ++ r).length := by simp [hlen]
  have hsplit : (coinbaseTx (s ++ z) reward rewardScript wc).serialize =
      (coinbaseHead (s ++ z).length ++ s) ++ z ++ coinbaseTail reward rewardScript wc := by
    rw [serialize_coinbaseTx]
    simp
  rw [hsplit, ← hhead, splice_append hlen, serialize_coinbaseTx, ← hsame]
  simp

/-- No part of a coinbase is longer than the whole. -/
theorem length_parts_coinbaseTx (s : Bytes) (reward : UInt64) (script : Bytes)
    (wc : Option Bytes) :
    s.length ≤ (coinbaseTx s reward script wc).serialize.length ∧
      ∀ o ∈ (coinbaseTx s reward script wc).output,
        o.scriptPubkey.length ≤ (coinbaseTx s reward script wc).serialize.length := by
  rw [serialize_coinbaseTx]
  refine ⟨by simp; omega, ?_⟩
  cases wc <;> simp [coinbaseTail, coinbaseTx, varList, TxOut.encode, varBytes] <;> omega

end BtcPool.Bitcoin
