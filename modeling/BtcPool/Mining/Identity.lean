import BtcPool.Security
import Mathlib.Data.List.TakeWhile

/-!
# Miner identities

`MinerIdentity::parse`: the text before the first dot of a worker name is the payout address, the
rest a label. Addresses are those of the `bitcoin` crate, of which the pool uses four operations
(`AddressLib`); what it relies on about them is `AddressLib.Lawful`.

A session decides by the canonical name whether a name it is given is the identity it already holds.
That is sound for the payout: two identities with one canonical name pay to one script
(`payout_eq_of_canonicalName_eq`), because an address prints without a dot, so the canonical name
can be taken apart again.
-/

namespace BtcPool

/-- The networks an address can be of. -/
inductive Network
  | bitcoin
  | testnet
  | testnet4
  | signet
  | regtest
  deriving DecidableEq, Repr

/-- The name a network is shown with. -/
def networkName : Network → String
  | .bitcoin => "mainnet"
  | .testnet => "testnet"
  | .testnet4 => "testnet4"
  | .signet => "signet"
  | .regtest => "regtest"

/-- The operations on addresses the pool uses. -/
structure AddressLib where
  Address : Type
  parse : Str → Option Address
  validFor : Address → Network → Bool
  display : Address → Str
  scriptPubkey : Address → Bytes

/-- What the pool relies on: on one network the printed form of a checked address determines its
script, and it is made of base58 or bech32 characters and so has no dot. -/
structure AddressLib.Lawful (A : AddressLib) : Prop where
  script_of_display : ∀ {n a b}, A.validFor a n → A.validFor b n → A.display a = A.display b →
    A.scriptPubkey a = A.scriptPubkey b
  dot_notMem_display : ∀ {n a}, A.validFor a n → '.' ∉ A.display a

/-- The printed form of a checked address is a text of base58 or bech32 characters that parses to
the address again. -/
structure AddressLib.Printed (A : AddressLib) : Prop where
  parse_display : ∀ {n a}, A.validFor a n → A.parse (A.display a) = some a
  display_ne_nil : ∀ {n a}, A.validFor a n → A.display a ≠ []
  alphanum_of_mem : ∀ {n a c}, A.validFor a n → c ∈ A.display a → c.isAlphanum

/-- The scripts of addresses are the standard ones, of which the shortest, a witness program of two
bytes, has four bytes. -/
def AddressLib.StandardScripts (A : AddressLib) : Prop :=
  ∀ {n a}, A.validFor a n → 4 ≤ (A.scriptPubkey a).length

/-- An address and the script that pays it. -/
structure PayoutDescriptor where
  address : Str
  scriptPubkey : Bytes
deriving DecidableEq

/-- A miner: the name as it was sent, the name as it is booked, and where to pay. -/
structure MinerIdentity where
  fullName : Str
  canonicalName : Str
  payout : PayoutDescriptor
  workerLabel : Option Str
deriving DecidableEq

/-! ## Parsing -/

/-- The texts before and after the first occurrence of a character. -/
def splitOnce (c : Char) (s : Str) : Option (Str × Str) :=
  match s.dropWhile (· ≠ c) with
  | [] => none
  | _ :: rest => some (s.takeWhile (· ≠ c), rest)

/-- The error for a name that cannot be an identity. -/
def invalidIdentity (detail : String) : PoolError := .invalidParams "miner identity" detail

/-- The checks of the text of a name. -/
def validateIdentityText (raw : Str) (maxLen : ℕ) : Except PoolError Unit :=
  (validateWorkerName raw maxLen).mapError fun
    | .invalidParams _ detail => invalidIdentity detail
    | e => e

/-- The address text and the label of a name. -/
def splitName (raw : Str) : Except PoolError (Str × Option Str) :=
  match splitOnce '.' raw with
  | some (_, []) => .error (invalidIdentity "worker label after '.' must not be empty")
  | some (address, label) => .ok (address, some label)
  | none => .ok (raw, none)

/-- The name an identity is known by: the address, and its label after a dot. -/
def joinName (address : Str) : Option Str → Str
  | some label => address ++ '.' :: label
  | none => address

/-- An address text that is valid on the network. -/
def checkAddress (A : AddressLib) (network : Network) (text : Str) :
    Except PoolError A.Address :=
  match A.parse text with
  | none => .error (invalidIdentity "payout address is not a valid Bitcoin address")
  | some address =>
    let name := networkName network
    if A.validFor address network then .ok address
    else .error (invalidIdentity s!"payout address is not valid for {name}")

/-- The identity of a name: a checked address and, after a dot, a label. -/
def MinerIdentity.parse (A : AddressLib) (raw : Str) (network : Network) (maxLen : ℕ) :
    Except PoolError MinerIdentity := do
  validateIdentityText raw maxLen
  let (text, workerLabel) ← splitName raw
  ensure (text ≠ []) (invalidIdentity "payout address must not be empty")
  let checked ← checkAddress A network text
  let address := A.display checked
  return {
    fullName := raw
    canonicalName := joinName address workerLabel
    payout := { address, scriptPubkey := A.scriptPubkey checked }
    workerLabel }

/-! ## Canonical names -/

/-- An identity made from an address that is valid on the network. -/
def MinerIdentity.Checked (A : AddressLib) (network : Network) (i : MinerIdentity) : Prop :=
  ∃ a, A.validFor a network ∧ i.canonicalName = joinName (A.display a) i.workerLabel ∧
    i.payout = { address := A.display a, scriptPubkey := A.scriptPubkey a }

theorem checkAddress_eq_ok {A : AddressLib} {network : Network} {text : Str} {a : A.Address} :
    checkAddress A network text = .ok a ↔ A.parse text = some a ∧ A.validFor a network := by
  unfold checkAddress
  cases A.parse text with
  | none => simp
  | some b =>
    by_cases hb : A.validFor b network
    · simp only [hb, if_true, Except.ok.injEq, Option.some.injEq]
      exact ⟨fun h => ⟨h, h ▸ hb⟩, And.left⟩
    · simp only [hb, Bool.false_eq_true, if_false, Option.some.injEq]
      exact ⟨fun h => (by cases h), fun h => absurd (h.1 ▸ h.2) hb⟩

/-- What a name that parses went through. -/
theorem MinerIdentity.parse_eq_ok {A : AddressLib} {raw : Str} {network : Network} {maxLen : ℕ}
    {i : MinerIdentity} :
    parse A raw network maxLen = .ok i ↔
      validateIdentityText raw maxLen = .ok () ∧ ∃ text label,
        splitName raw = .ok (text, label) ∧ text ≠ [] ∧ ∃ a,
          (A.parse text = some a ∧ A.validFor a network) ∧
          ({ fullName := raw
             canonicalName := joinName (A.display a) label
             payout := { address := A.display a, scriptPubkey := A.scriptPubkey a }
             workerLabel := label } : MinerIdentity) = i := by
  simp only [parse, bind_eq_ok, pure_eq_ok, checkAddress_eq_ok, ensure_eq_ok, Prod.exists,
    Unique.exists_iff, PUnit.default_eq_unit]

theorem MinerIdentity.checked_of_parse {A : AddressLib} {raw : Str} {network : Network}
    {maxLen : ℕ} {i : MinerIdentity} (h : parse A raw network maxLen = .ok i) :
    i.Checked A network := by
  obtain ⟨-, text, label, -, -, a, ⟨-, hvalid⟩, rfl⟩ := parse_eq_ok.mp h
  exact ⟨a, hvalid, rfl, rfl⟩

theorem MinerIdentity.Checked.four_le_length_script {A : AddressLib} {network : Network}
    {i : MinerIdentity} (h : i.Checked A network) (hA : A.StandardScripts) :
    4 ≤ i.payout.scriptPubkey.length := by
  obtain ⟨a, hvalid, -, hpay⟩ := h
  rw [hpay]
  exact hA hvalid

/-- A name without a dot in the address is taken apart at the first dot. -/
theorem splitOnce_joinName {a : Str} (ha : '.' ∉ a) (label : Option Str) :
    splitOnce '.' (joinName a label) = label.map fun l => (a, l) := by
  have hall : ∀ c ∈ a, (decide (c ≠ '.')) = true := fun c hc => by
    rw [decide_eq_true_eq]
    rintro rfl
    exact ha hc
  cases label with
  | none =>
    unfold splitOnce joinName
    rw [List.dropWhile_eq_nil_iff.mpr hall]
    rfl
  | some label =>
    unfold splitOnce joinName
    rw [List.dropWhile_append_of_pos hall, List.takeWhile_append_of_pos hall]
    simp

theorem joinName_inj {a b : Str} (ha : '.' ∉ a) (hb : '.' ∉ b) {l m : Option Str}
    (h : joinName a l = joinName b m) : a = b := by
  have hsplit :=
    (splitOnce_joinName ha l).symm.trans ((congrArg _ h).trans (splitOnce_joinName hb m))
  cases l with
  | none =>
    cases m with
    | none => exact h
    | some m => cases hsplit
  | some l =>
    cases m with
    | none => cases hsplit
    | some m => exact congrArg Prod.fst (Option.some.inj hsplit)

/-- The parts of a name, put together again, are the name. -/
theorem joinName_of_splitName {raw text : Str} {label : Option Str}
    (h : splitName raw = .ok (text, label)) : raw = joinName text label ∧ label ≠ some [] := by
  unfold splitName at h
  split at h
  · cases h
  · rename_i address rest hne hsplit
    obtain ⟨rfl, rfl⟩ := Prod.mk.inj (Except.ok.inj h)
    refine ⟨?_, fun hnil => hne (Option.some.inj hnil)⟩
    unfold splitOnce at hsplit
    split at hsplit
    · cases hsplit
    · rename_i c tail hdrop
      obtain ⟨rfl, rfl⟩ := Prod.mk.inj (Option.some.inj hsplit)
      have hc : c = '.' := by
        have := List.head?_dropWhile_not (fun c => decide (c ≠ '.')) raw
        rw [hdrop] at this
        simpa using this
      subst hc
      rw [joinName, ← hdrop, List.takeWhile_append_dropWhile]
  · obtain ⟨rfl, rfl⟩ := Prod.mk.inj (Except.ok.inj h)
    exact ⟨rfl, by simp⟩

theorem splitName_joinName {a : Str} (ha : '.' ∉ a) {label : Option Str}
    (hlabel : label ≠ some []) :
    splitName (joinName a label) = .ok (a, label) := by
  unfold splitName
  rw [splitOnce_joinName ha]
  match label with
  | none => rfl
  | some [] => exact absurd rfl hlabel
  | some (_ :: _) => rfl

/-- Identities with one canonical name on one network pay to one address and script. -/
theorem payout_eq_of_canonicalName_eq {A : AddressLib} (hA : A.Lawful) {network : Network}
    {i j : MinerIdentity} (hi : i.Checked A network) (hj : j.Checked A network)
    (h : i.canonicalName = j.canonicalName) : i.payout = j.payout := by
  obtain ⟨a, ha, hname, hpay⟩ := hi
  obtain ⟨b, hb, hname', hpay'⟩ := hj
  have hdisplay : A.display a = A.display b :=
    joinName_inj (hA.dot_notMem_display ha) (hA.dot_notMem_display hb)
      (hname.symm.trans (h.trans hname'))
  rw [hpay, hpay', hdisplay, hA.script_of_display ha hb hdisplay]

/-! ## Canonical names parse again -/

theorem validateIdentityText_eq_ok {raw : Str} {maxLen : ℕ} :
    validateIdentityText raw maxLen = .ok () ↔ raw ≠ [] ∧ (utf8 raw).length ≤ maxLen ∧
      ∀ c ∈ raw, ¬ (isControl c || isWhitespace c) := by
  have hvalid : validateWorkerName raw maxLen = .ok () ↔ raw ≠ [] ∧ (utf8 raw).length ≤ maxLen ∧
      ∀ c ∈ raw, ¬ (isControl c || isWhitespace c) := by
    simp only [validateWorkerName, bind_eq_ok, ensure_eq_ok, List.any_eq_true, not_exists, not_and,
      Unique.exists_iff]
  rw [← hvalid]
  refine ⟨ok_of_mapError, fun h => ?_⟩
  rw [validateIdentityText, h]
  rfl

/-- A letter or a digit is neither a dot nor a control or whitespace character. -/
theorem plain_of_isAlphanum {c : Char} (h : c.isAlphanum) :
    c ≠ '.' ∧ ¬ (isControl c || isWhitespace c) := by
  have hrange : 0x30 ≤ c.toNat ∧ c.toNat ≤ 0x7a := by
    have hwithin : ∀ lo hi : Char, 0x30 ≤ lo.toNat → hi.toNat ≤ 0x7a →
        lo.val ≤ c.val ∧ c.val ≤ hi.val → 0x30 ≤ c.toNat ∧ c.toNat ≤ 0x7a :=
      fun lo hi hlo hhi h => ⟨hlo.trans (UInt32.le_iff_toNat_le.mp h.1),
        (UInt32.le_iff_toNat_le.mp h.2).trans hhi⟩
    rcases (Bool.or_eq_true _ _).mp h with h | h
    · rcases (Bool.or_eq_true _ _).mp h with h | h
      · exact hwithin 'A' 'Z' (by decide) (by decide) (of_decide_eq_true h)
      · obtain ⟨hlo, hhi⟩ := (Bool.and_eq_true _ _).mp h
        exact hwithin 'a' 'z' (by decide) (by decide) ⟨of_decide_eq_true hlo, of_decide_eq_true hhi⟩
    · obtain ⟨hlo, hhi⟩ := (Bool.and_eq_true _ _).mp h
      exact hwithin '0' '9' (by decide) (by decide) ⟨of_decide_eq_true hlo, of_decide_eq_true hhi⟩
  refine ⟨fun hdot => ?_, ?_⟩
  · rw [hdot] at hrange
    exact absurd hrange.1 (by decide)
  · simp only [isControl, isWhitespace, List.contains_eq_mem, List.mem_cons, List.not_mem_nil,
      or_false, Bool.or_eq_true, Bool.and_eq_true, decide_eq_true_eq]
    omega

theorem AddressLib.Printed.dot_notMem {A : AddressLib} (hA : A.Printed) {network : Network}
    {a : A.Address} (ha : A.validFor a network) : '.' ∉ A.display a :=
  fun hdot => (plain_of_isAlphanum (hA.alphanum_of_mem ha hdot)).1 rfl

/-- A canonical name that is not too long parses to the identity it came from. -/
theorem MinerIdentity.parse_canonicalName {A : AddressLib} (hA : A.Printed) {raw : Str}
    {network : Network} {maxLen : ℕ} {i : MinerIdentity} (h : parse A raw network maxLen = .ok i)
    (hlen : (utf8 i.canonicalName).length ≤ maxLen) :
    parse A i.canonicalName network maxLen =
      .ok { i with fullName := i.canonicalName } := by
  obtain ⟨hvalid, text, label, hsplit, -, a, ⟨-, ha⟩, rfl⟩ := parse_eq_ok.mp h
  obtain ⟨rfl, hlabel⟩ := joinName_of_splitName hsplit
  refine parse_eq_ok.mpr ⟨validateIdentityText_eq_ok.mpr ⟨?_, hlen, ?_⟩, _, label,
    splitName_joinName (hA.dot_notMem ha) hlabel, hA.display_ne_nil ha, a,
    ⟨hA.parse_display ha, ha⟩, rfl⟩
  · cases label <;> simp [joinName, hA.display_ne_nil ha]
  · intro c hc
    -- the characters of the label are those of the name that was given
    have hchars := (validateIdentityText_eq_ok.mp hvalid).2.2
    cases label with
    | none => exact (plain_of_isAlphanum (hA.alphanum_of_mem ha hc)).2
    | some label =>
      rcases List.mem_append.mp hc with hc | hc
      · exact (plain_of_isAlphanum (hA.alphanum_of_mem ha hc)).2
      · exact hchars c (List.mem_append_right _ hc)

end BtcPool
