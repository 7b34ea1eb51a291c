import BtcPool.Foundations.Codec

/-!
# Transactions and their consensus encoding

The part of the `bitcoin` crate the pool relies on: transactions, `serialize`, `deserialize` and
the txid. The encoding is the consensus one. A transaction without witness data is written in the
legacy form; one with a witness, or without inputs, in the segwit form, with a zero byte and the
flag `1` after the version and the witnesses before the lock time. `deserialize` reads both, and
refuses the segwit form when every witness is empty or the flag is unknown, and bytes left over.

`deserialize_serialize` is the round trip, for every transaction whose scripts, witness items and
lists have a length that fits a count (`Transaction.Bounded`). The txid is the hash of the stripped
encoding, which does not read the witnesses (`stripped_eq_serialize`).
-/

namespace BtcPool.Bitcoin

/-! ## Transactions -/

/-- A reference to an output of another transaction. -/
structure OutPoint where
  txid : ByteVec 32
  vout : UInt32
deriving DecidableEq

/-- The outpoint of a coinbase input: an all-zero txid and the highest index. -/
def OutPoint.null : OutPoint where
  txid := List.Vector.replicate 32 0
  vout := 0xffffffff

/-- An input, with its witness. -/
structure TxIn where
  previousOutput : OutPoint
  scriptSig : Bytes
  sequence : UInt32
  witness : List Bytes
deriving DecidableEq

/-- An output. -/
structure TxOut where
  value : UInt64
  scriptPubkey : Bytes
deriving DecidableEq

/-- A transaction, as the `bitcoin` crate holds it. -/
structure Transaction where
  version : UInt32
  lockTime : UInt32
  input : List TxIn
  output : List TxOut
deriving DecidableEq

/-- Every count in the encoding fits the eight bytes a count may take. -/
structure Transaction.Bounded (tx : Transaction) : Prop where
  input : tx.input.length < 2 ^ 64
  output : tx.output.length < 2 ^ 64
  scriptSig : ∀ i ∈ tx.input, i.scriptSig.length < 2 ^ 64
  witness : ∀ i ∈ tx.input, i.witness.length < 2 ^ 64
  witnessItem : ∀ i ∈ tx.input, ∀ w ∈ i.witness, w.length < 2 ^ 64
  scriptPubkey : ∀ o ∈ tx.output, o.scriptPubkey.length < 2 ^ 64

/-! ## Encoding -/

/-- A machine word of four bytes on the wire. -/
def encodeU32 (n : UInt32) : Bytes := leBytes 4 n.toNat

/-- A machine word of eight bytes on the wire. -/
def encodeU64 (n : UInt64) : Bytes := leBytes 8 n.toNat

@[simp] theorem length_encodeU32 (n : UInt32) : (encodeU32 n).length = 4 := length_leBytes _ _

@[simp] theorem length_encodeU64 (n : UInt64) : (encodeU64 n).length = 8 := length_leBytes _ _

theorem encodeU32_injective : Function.Injective encodeU32 := by
  intro a b h
  have ha := a.toNat_lt
  have hb := b.toNat_lt
  exact UInt32.toNat_inj.mp (leBytes_inj_of_lt (by omega) (by omega) h)

/-- An input without its witness on the wire. -/
def TxIn.encode (i : TxIn) : Bytes :=
  i.previousOutput.txid.toList ++ encodeU32 i.previousOutput.vout ++ varBytes i.scriptSig ++
    encodeU32 i.sequence

/-- An output on the wire. -/
def TxOut.encode (o : TxOut) : Bytes := encodeU64 o.value ++ varBytes o.scriptPubkey

/-- The witness of one input on the wire. -/
def encodeWitness (w : List Bytes) : Bytes := varList varBytes w

namespace Transaction

/-- The encoding without witness data. -/
def stripped (tx : Transaction) : Bytes :=
  encodeU32 tx.version ++ varList TxIn.encode tx.input ++ varList TxOut.encode tx.output ++
    encodeU32 tx.lockTime

/-- The segwit form is used when there is a witness, or when the legacy form would be ambiguous. -/
def usesSegwit (tx : Transaction) : Bool :=
  tx.input.any (fun i => !i.witness.isEmpty) || tx.input.isEmpty

/-- A transaction on the wire, with its witnesses if it has any. -/
def serialize (tx : Transaction) : Bytes :=
  if tx.usesSegwit then
    encodeU32 tx.version ++ [0, 1] ++ varList TxIn.encode tx.input ++
      varList TxOut.encode tx.output ++ tx.input.flatMap (fun i => encodeWitness i.witness) ++
      encodeU32 tx.lockTime
  else tx.stripped

/-- The txid: the hash of the stripped encoding. -/
def computeTxid (H : Bytes → ByteVec 32) (tx : Transaction) : ByteVec 32 := H tx.stripped

theorem stripped_eq_serialize {tx : Transaction} (h : tx.usesSegwit = false) :
    tx.serialize = tx.stripped := by
  simp [serialize, h]

end Transaction

/-! ## Decoding -/

/-- Read a word of four bytes. -/
def readU32 : Reader UInt32 := do
  let n ← readLe 4
  return UInt32.ofNat n

/-- Read a word of eight bytes. -/
def readU64 : Reader UInt64 := do
  let n ← readLe 8
  return UInt64.ofNat n

/-- Read a hash. -/
def readHash : Reader (ByteVec 32) := fun bs =>
  if h : (bs.take 32).length = 32 then some (⟨bs.take 32, h⟩, bs.drop 32) else none

/-- An input; its witness stands elsewhere in the encoding. -/
def readTxIn : Reader TxIn := do
  let txid ← readHash
  let vout ← readU32
  let scriptSig ← readVarBytes
  let sequence ← readU32
  return { previousOutput := { txid, vout }, scriptSig, sequence, witness := [] }

/-- Read an output. -/
def readTxOut : Reader TxOut := do
  let value ← readU64
  let scriptPubkey ← readVarBytes
  return { value, scriptPubkey }

/-- The witnesses of the given inputs, one after another. -/
def readWitnesses : List TxIn → Reader (List TxIn)
  | [] => return []
  | i :: is => do
    let w ← readVarList readVarBytes
    let rest ← readWitnesses is
    return { i with witness := w } :: rest

/-- Read what follows the marker of a transaction with witnesses. -/
def readSegwit (version : UInt32) : Reader Transaction := do
  let flag ← readLe 1
  if flag = 1 then
    let bare ← readVarList readTxIn
    let output ← readVarList readTxOut
    let input ← readWitnesses bare
    -- the flag promises at least one witness
    if !input.isEmpty && input.all (fun i => i.witness.isEmpty) then failure
    else
      let lockTime ← readU32
      return { version, lockTime, input, output }
  else failure

/-- Read a transaction; one that seems to have no inputs has witnesses. -/
def readTransaction : Reader Transaction := do
  let version ← readU32
  let input ← readVarList readTxIn
  if input.isEmpty then readSegwit version
  else
    let output ← readVarList readTxOut
    let lockTime ← readU32
    return { version, lockTime, input, output }

/-- Decode a transaction that is the whole of the given bytes. -/
def deserialize (bs : Bytes) : Option Transaction := readTransaction.whole bs

/-! ## The round trip -/

theorem reads_u32 (n : UInt32) : Reads readU32 (encodeU32 n) n := by
  have hn := n.toNat_lt
  have h := (reads_le (w := 4) (n := n.toNat) (by omega)).map UInt32.ofNat
  rwa [UInt32.ofNat_toNat] at h

theorem reads_u64 (n : UInt64) : Reads readU64 (encodeU64 n) n := by
  have hn := n.toNat_lt
  have h := (reads_le (w := 8) (n := n.toNat) (by omega)).map UInt64.ofNat
  rwa [UInt64.ofNat_toNat] at h

theorem reads_hash (v : ByteVec 32) : Reads readHash v.toList v := by
  intro rest
  have htake : (v.toList ++ rest).take 32 = v.toList := List.take_left' v.toList_length
  have hdrop : (v.toList ++ rest).drop 32 = rest := List.drop_left' v.toList_length
  change readHash (v.toList ++ rest) = _
  rw [readHash, dif_pos (by rw [htake, v.toList_length]), hdrop]
  exact congrArg (fun x => some (x, rest)) (Subtype.ext htake)

theorem reads_txIn {i : TxIn} (h : i.scriptSig.length < 2 ^ 64) :
    Reads readTxIn i.encode { i with witness := [] } := by
  simp only [TxIn.encode, List.append_assoc]
  refine (reads_hash _).bind ?_
  refine (reads_u32 _).bind ?_
  refine (reads_varBytes h).bind ?_
  exact (reads_u32 _).map _

theorem reads_txOut {o : TxOut} (h : o.scriptPubkey.length < 2 ^ 64) :
    Reads readTxOut o.encode o :=
  (reads_u64 _).bind ((reads_varBytes h).map _)

/-- Reading inputs gives them without their witnesses. -/
theorem reads_inputs {l : List TxIn} (hlen : l.length < 2 ^ 64)
    (h : ∀ i ∈ l, i.scriptSig.length < 2 ^ 64) :
    Reads (readVarList readTxIn) (varList TxIn.encode l)
      (l.map fun i => { i with witness := [] }) := by
  have hmany : Reads (readMany readTxIn (l.map fun i => { i with witness := [] }).length)
      ((l.map fun i => { i with witness := [] }).flatMap TxIn.encode)
      (l.map fun i => { i with witness := [] }) := by
    refine Reads.many _ fun i hi => ?_
    obtain ⟨j, hj, rfl⟩ := List.mem_map.mp hi
    exact reads_txIn (h j hj)
  have henc : (l.map fun i => { i with witness := [] }).flatMap TxIn.encode =
      l.flatMap TxIn.encode := by
    simp only [List.flatMap_map]
    rfl
  rw [henc, List.length_map] at hmany
  exact (reads_compactSize hlen).bind hmany

theorem reads_witnesses {l : List TxIn} (hlen : ∀ i ∈ l, i.witness.length < 2 ^ 64)
    (hitem : ∀ i ∈ l, ∀ w ∈ i.witness, w.length < 2 ^ 64) :
    Reads (readWitnesses (l.map fun i => { i with witness := [] }))
      (l.flatMap fun i => encodeWitness i.witness) l := by
  induction l with
  | nil => exact Reads.pure []
  | cons i l ih =>
    simp only [List.mem_cons, forall_eq_or_imp] at hlen hitem
    rw [List.flatMap_cons]
    refine (reads_varList hlen.1 fun w hw => reads_varBytes (hitem.1 w hw)).bind ?_
    exact (ih hlen.2 hitem.2).map _

theorem reads_segwit {tx : Transaction} (hb : tx.Bounded) (hs : tx.usesSegwit = true) :
    Reads (readSegwit tx.version)
      ([1] ++ varList TxIn.encode tx.input ++ varList TxOut.encode tx.output ++
        tx.input.flatMap (fun i => encodeWitness i.witness) ++ encodeU32 tx.lockTime) tx := by
  have hflag : Reads (readLe 1) [1] 1 := reads_le (w := 1) (n := 1) (by norm_num)
  have hsome : (!tx.input.isEmpty && tx.input.all fun i => i.witness.isEmpty) = false := by
    simp only [Transaction.usesSegwit, Bool.or_eq_true] at hs
    rcases hs with hs | hs
    · rw [← List.not_all_eq_any_not, Bool.not_eq_true'] at hs
      rw [hs, Bool.and_false]
    · simp [hs]
  simp only [List.append_assoc]
  refine hflag.bind ?_
  refine (reads_inputs hb.input hb.scriptSig).bind ?_
  refine (reads_varList hb.output fun o ho => reads_txOut (hb.scriptPubkey o ho)).bind ?_
  refine (reads_witnesses hb.witness hb.witnessItem).bind ?_
  rw [hsome]
  exact (reads_u32 _).map _

theorem reads_transaction {tx : Transaction} (hb : tx.Bounded) :
    Reads readTransaction tx.serialize tx := by
  cases hs : tx.usesSegwit with
  | true =>
    -- the zero byte of the segwit form is the count of an empty list of inputs
    have hzero : Reads (readVarList readTxIn) (varList TxIn.encode []) [] :=
      reads_varList (by norm_num) (by simp)
    rw [show varList TxIn.encode [] = [0] from rfl] at hzero
    rw [Transaction.serialize, if_pos hs]
    refine ((reads_u32 tx.version).bind (hzero.bind (reads_segwit hb hs))).cast ?_
    simp
  | false =>
    have hne : tx.input.isEmpty = false := by
      simp only [Transaction.usesSegwit, Bool.or_eq_false_iff] at hs
      exact hs.2
    have hbare : (tx.input.map fun i => { i with witness := [] }) = tx.input := by
      simp only [Transaction.usesSegwit, Bool.or_eq_false_iff, List.any_eq_false] at hs
      refine (List.map_congr_left fun i hi => ?_).trans tx.input.map_id
      have := hs.1 i hi
      simp only [Bool.not_eq_true, Bool.not_eq_false', List.isEmpty_iff] at this
      cases i
      simp_all
    rw [Transaction.stripped_eq_serialize hs]
    simp only [Transaction.stripped, List.append_assoc]
    refine (reads_u32 _).bind ?_
    refine (reads_inputs hb.input hb.scriptSig).bind ?_
    rw [hbare, hne]
    refine (reads_varList hb.output fun o ho => reads_txOut (hb.scriptPubkey o ho)).bind ?_
    exact (reads_u32 _).map _

/-- What is serialized is decoded to the same transaction. -/
theorem deserialize_serialize {tx : Transaction} (hb : tx.Bounded) :
    deserialize tx.serialize = some tx :=
  (reads_transaction hb).whole

end BtcPool.Bitcoin
