import Mathlib.Data.List.Basic
import Mathlib.Order.Nat

/-!
# Broadcast channels

A channel keeps the last `cap` of the values sent; a receiver has taken everything up to its
position and gets the next value, or is told how many it missed. The values have a key, and some of
them are *fresh*: they start a new key. In a `Linked` channel every other value has the key of the
one before it, so the key at a position stays the same for as long as nothing fresh is passed
(`Linked.keyAt_eq`).
-/

namespace BtcPool.Broadcast

variable {α κ : Type*}

/-! ## Receiving -/

/-- What a receiver gets: an item, or the number of items it missed. -/
inductive Received (α : Type*)
  | item (a : α)
  | lagged (missed : ℕ)

/-- What a receiver at a position gets, and its position after that; nothing if it has
everything. -/
def recv (cap : ℕ) (sent : List α) (next : ℕ) : Option (Received α × ℕ) :=
  if next + cap < sent.length then some (.lagged (sent.length - cap - next), sent.length - cap)
  else sent[next]?.map fun a => (.item a, next + 1)

theorem recv_item {cap next next' : ℕ} {sent : List α} {a : α}
    (h : recv cap sent next = some (.item a, next')) : sent[next]? = some a ∧ next' = next + 1 := by
  unfold recv at h
  split at h
  · cases h
  · obtain ⟨b, hb, heq⟩ := Option.map_eq_some_iff.mp h
    cases heq
    exact ⟨hb, rfl⟩

theorem recv_lagged {cap next next' missed : ℕ} {sent : List α}
    (h : recv cap sent next = some (.lagged missed, next')) :
    next + cap < sent.length ∧ next' = sent.length - cap := by
  unfold recv at h
  split at h
  · cases h
    exact ⟨‹_›, rfl⟩
  · obtain ⟨b, hb, heq⟩ := Option.map_eq_some_iff.mp h
    cases heq

/-- A receiver never goes past the end, and never back. -/
theorem recv_le {cap next next' : ℕ} {sent : List α} {received : Received α}
    (h : recv cap sent next = some (received, next')) : next ≤ next' ∧ next' ≤ sent.length := by
  cases received with
  | item a =>
    obtain ⟨ha, rfl⟩ := recv_item h
    obtain ⟨hlt, -⟩ := List.getElem?_eq_some_iff.mp ha
    omega
  | lagged missed =>
    obtain ⟨hlt, rfl⟩ := recv_lagged h
    omega

/-- What a receiver at a position has missed. -/
def missed (cap : ℕ) (sent : List α) (next : ℕ) : List α :=
  (sent.take (sent.length - cap)).drop next

/-! ## Keys -/

section Keys

variable (key : α → κ) (fresh : α → Bool)

/-- The key of the last value before a position. -/
def keyAt (sent : List α) (n : ℕ) : Option κ := (sent.take n).getLast?.map key

/-- Every value that is not fresh has the key of the one before it. -/
def Linked (sent : List α) : Prop :=
  ∀ n a, sent[n]? = some a → fresh a = false → keyAt key sent n = some (key a)

variable {key fresh} {sent : List α} {n m : ℕ} {a : α}

theorem keyAt_succ (h : sent[n]? = some a) : keyAt key sent (n + 1) = some (key a) := by
  rw [keyAt, List.take_add_one, h]
  simp

theorem keyAt_append (h : n ≤ sent.length) (more : List α) :
    keyAt key (sent ++ more) n = keyAt key sent n := by
  rw [keyAt, List.take_append_of_le_length h, keyAt]

theorem keyAt_length : keyAt key sent sent.length = sent.getLast?.map key := by
  rw [keyAt, List.take_length]

theorem linked_nil : Linked key fresh ([] : List α) := by
  intro n a h
  simp at h

/-- A value may be sent if it is fresh, or has the key of the last one. -/
theorem Linked.concat (h : Linked key fresh sent)
    (ha : fresh a = false → sent.getLast?.map key = some (key a)) :
    Linked key fresh (sent ++ [a]) := by
  intro n b hb hfresh
  rcases Nat.lt_or_ge n sent.length with hn | hn
  · rw [List.getElem?_append_left hn] at hb
    rw [keyAt_append hn.le]
    exact h n b hb hfresh
  · obtain rfl : n = sent.length := by
      obtain ⟨hlt, -⟩ := List.getElem?_eq_some_iff.mp hb
      rw [List.length_append, List.length_singleton] at hlt
      omega
    obtain rfl : a = b := by simpa using hb
    rw [keyAt_append le_rfl, keyAt_length]
    exact ha hfresh

/-- Nothing fresh is passed between two positions. -/
def Settled (fresh : α → Bool) (sent : List α) (n m : ℕ) : Prop :=
  ∀ k a, n ≤ k → k < m → sent[k]? = some a → fresh a = false

/-- What a value that is not fresh comes before stays settled with it. -/
theorem Settled.of_succ (h : Settled fresh sent (n + 1) m) (ha : sent[n]? = some a)
    (hstale : fresh a = false) : Settled fresh sent n m := by
  intro k b hnk hkm hb
  rcases Nat.lt_or_eq_of_le hnk with hlt | rfl
  · exact h k b hlt hkm hb
  · rw [ha] at hb
    exact Option.some.inj hb ▸ hstale

/-- Up to a position that was reached, it does not matter what was sent later. -/
theorem settled_append {more : List α} (hm : m ≤ sent.length) :
    Settled fresh (sent ++ more) n m ↔ Settled fresh sent n m := by
  refine forall₄_congr fun k a _ hkm => ?_
  rw [List.getElem?_append_left (hkm.trans_le hm)]

theorem Settled.mono {m' : ℕ} (h : Settled fresh sent n m') (hm : m ≤ m') :
    Settled fresh sent n m :=
  fun k a hnk hkm ha => h k a hnk (hkm.trans_le hm) ha

theorem settled_of_missed {cap : ℕ} (h : ∀ a ∈ missed cap sent n, fresh a = false) :
    Settled fresh sent n (sent.length - cap) := by
  intro k a hnk hk ha
  refine h a (List.mem_of_getElem? (i := k - n) ?_)
  rw [missed, List.getElem?_drop, Nat.add_sub_cancel' hnk, List.getElem?_take_of_lt hk, ha]

theorem Linked.keyAt_eq (h : Linked key fresh sent) (hnm : n ≤ m) (hm : m ≤ sent.length)
    (hsettled : Settled fresh sent n m) : keyAt key sent m = keyAt key sent n := by
  induction m, hnm using Nat.le_induction with
  | base => rfl
  | succ m hnm ih =>
    obtain ⟨a, ha⟩ : ∃ a, sent[m]? = some a := ⟨_, List.getElem?_eq_getElem hm⟩
    have hstale := hsettled m a hnm (by omega) ha
    rw [keyAt_succ ha, ← h m a ha hstale]
    exact ih (by omega) fun k b hk hkm hb => hsettled k b hk (by omega) hb

end Keys

end BtcPool.Broadcast
