import BtcPool.Foundations.Runs
import Mathlib.Algebra.BigOperators.Group.List.Basic
import Mathlib.Data.List.Perm.Basic
import Mathlib.Data.List.Perm.Subperm
import Mathlib.Tactic.Abel

/-!
# Writers that park what fails

A writer takes writes one at a time and tries to apply each to a store. A durable write that fails
is parked at the end of a backlog of bounded length, which drops its oldest write when it is full; a
write that is not durable is dropped. A retry pass tries the parked writes, oldest first, until one
fails.

`Rule` says which moves keep a property of the writes received, the writes applied, the backlog and
the store, and `Rule.run` carries it through whole runs. Two properties hold of every writer: where
no parked write is dropped, the durable writes received are the ones applied and the ones parked
(`perm_of_run`); and the writes of a kind are applied in the order they came in as long as none of
the kind is applied on receipt past a parked one (`ordered_of_run`).
-/

namespace BtcPool.RetryQueue

variable {ω σ φ : Type*}

/-- A writer: one attempt of a write on the store under given faults, which writes are durable, and
how many writes the backlog holds. -/
structure Writer (ω σ φ : Type*) where
  attempt : ω → σ → φ → Bool × σ × φ
  durable : ω → Bool
  cap : ℕ

/-- The writes that were parked, and the store. -/
structure State (ω σ : Type*) where
  backlog : List ω
  store : σ

/-- What the loop turns to next. -/
inductive Event (ω φ : Type*)
  /-- A pass over the backlog. -/
  | retry (faults : φ)
  /-- A new write. -/
  | handle (write : ω) (faults : φ)

/-- What became of a write. -/
inductive Output (ω : Type*)
  | applied (write : ω)
  | parked (write : ω)
  | dropped (write : ω)

/-- The new write of an event. -/
def Event.received : Event ω φ → Option ω
  | .retry _ => none
  | .handle write _ => some write

/-- The write of an output that says it was applied. -/
def Output.appliedWrite : Output ω → Option ω
  | .applied write => some write
  | _ => none

/-- The writes received in a list of events. -/
def received (events : List (Event ω φ)) : List ω := events.filterMap Event.received

/-- The writes applied according to a list of outputs. -/
def applied (outputs : List (Output ω)) : List ω := outputs.filterMap Output.appliedWrite

@[simp] theorem received_nil : received ([] : List (Event ω φ)) = [] := rfl

@[simp] theorem received_retry (f : φ) (events : List (Event ω φ)) :
    received (.retry f :: events) = received events := rfl

@[simp] theorem received_handle (w : ω) (f : φ) (events : List (Event ω φ)) :
    received (.handle w f :: events) = w :: received events := rfl

@[simp] theorem received_append (as bs : List (Event ω φ)) :
    received (as ++ bs) = received as ++ received bs := List.filterMap_append

@[simp] theorem applied_nil : applied ([] : List (Output ω)) = [] := rfl

@[simp] theorem applied_applied (w : ω) (outputs : List (Output ω)) :
    applied (.applied w :: outputs) = w :: applied outputs := rfl

@[simp] theorem applied_parked (w : ω) (outputs : List (Output ω)) :
    applied (.parked w :: outputs) = applied outputs := rfl

@[simp] theorem applied_dropped (w : ω) (outputs : List (Output ω)) :
    applied (.dropped w :: outputs) = applied outputs := rfl

@[simp] theorem applied_append (as bs : List (Output ω)) :
    applied (as ++ bs) = applied as ++ applied bs := List.filterMap_append

@[simp] theorem applied_map (ws : List ω) : applied (ws.map Output.applied) = ws := by
  induction ws with
  | nil => rfl
  | cons w ws ih => exact congrArg (w :: ·) ih

namespace Writer

variable (W : Writer ω σ φ)

/-- What a pass over a backlog came to. -/
structure Pass (ω σ : Type*) where
  recovered : List ω
  left : List ω
  store : σ

/-- Try the parked writes, oldest first; stop at the first that fails. -/
def retryPass : List ω → σ → φ → Pass ω σ
  | [], store, _ => { recovered := [], left := [], store }
  | write :: rest, store, faults =>
    match W.attempt write store faults with
    | (true, store, faults) =>
      let pass := retryPass rest store faults
      { pass with recovered := write :: pass.recovered }
    | (false, store, _) => { recovered := [], left := write :: rest, store }

/-- A pass over the backlog as a step of the loop. -/
def retry (s : State ω σ) (faults : φ) : Outcome (State ω σ) (Output ω) :=
  let pass := W.retryPass s.backlog s.store faults
  { state := { backlog := pass.left, store := pass.store }
    outputs := pass.recovered.map .applied
    live := true }

/-- Put a failed write at the end of the backlog, which makes room if it is full. -/
def park (backlog : List ω) (write : ω) : List ω :=
  (if W.cap ≤ backlog.length then backlog.tail else backlog) ++ [write]

/-- A new write: it is applied, parked if it is durable, or dropped. -/
def handle (s : State ω σ) (write : ω) (faults : φ) : Outcome (State ω σ) (Output ω) :=
  match W.attempt write s.store faults with
  | (true, store, _) =>
    { state := { s with store }, outputs := [.applied write], live := true }
  | (false, store, _) =>
    if W.durable write then
      { state := { backlog := W.park s.backlog write, store }
        outputs := [.parked write]
        live := true }
    else { state := { s with store }, outputs := [.dropped write], live := true }

/-- A step of the loop. -/
def step (s : State ω σ) : Event ω φ → Outcome (State ω σ) (Output ω)
  | .retry faults => W.retry s faults
  | .handle write faults => W.handle s write faults

/-- The loop as a process. -/
def process : Process (State ω σ) (Event ω φ) (Output ω) where
  step := W.step

theorem live_step (s : State ω σ) (e : Event ω φ) : (W.process.step s e).live := by
  cases e with
  | retry f => rfl
  | handle w f =>
    change (W.handle s w f).live
    unfold handle
    split
    · rfl
    · split <;> rfl

theorem run_cons (s : State ω σ) (e : Event ω φ) (events : List (Event ω φ)) :
    W.process.run s (e :: events) =
      { W.process.run (W.step s e).state events with
        outputs := (W.step s e).outputs ++ (W.process.run (W.step s e).state events).outputs } :=
  Process.run_cons_of_live (W.live_step s e)

/-! ## Moves -/

/-- The moves keep a property of the writes received, those applied, the backlog and the store, in
events that meet a condition `C`. -/
structure Rule (C : State ω σ → Event ω φ → Prop) (P : List ω → List ω → List ω → σ → Prop) :
    Prop where
  recovered : ∀ {ins outs w rest store f store' f'}, P ins outs (w :: rest) store →
    W.attempt w store f = (true, store', f') → P ins (outs ++ [w]) rest store'
  refused : ∀ {ins outs w rest store f store' f'}, P ins outs (w :: rest) store →
    W.attempt w store f = (false, store', f') → P ins outs (w :: rest) store'
  applied : ∀ {ins outs w backlog store f store' f'}, C ⟨backlog, store⟩ (.handle w f) →
    P ins outs backlog store → W.attempt w store f = (true, store', f') →
    P (ins ++ [w]) (outs ++ [w]) backlog store'
  parked : ∀ {ins outs w backlog store f store' f'}, C ⟨backlog, store⟩ (.handle w f) →
    P ins outs backlog store → W.attempt w store f = (false, store', f') → W.durable w →
    P (ins ++ [w]) outs (W.park backlog w) store'
  dropped : ∀ {ins outs w backlog store f store' f'}, C ⟨backlog, store⟩ (.handle w f) →
    P ins outs backlog store → W.attempt w store f = (false, store', f') → ¬ W.durable w →
    P (ins ++ [w]) outs backlog store'

variable {W} {C : State ω σ → Event ω φ → Prop} {P : List ω → List ω → List ω → σ → Prop}

theorem Rule.retryPass (h : W.Rule C P) {ins outs : List ω} {backlog : List ω} {store : σ} (f : φ)
    (hP : P ins outs backlog store) :
    P ins (outs ++ (W.retryPass backlog store f).recovered) (W.retryPass backlog store f).left
      (W.retryPass backlog store f).store := by
  induction backlog generalizing outs store f with
  | nil => simpa [Writer.retryPass] using hP
  | cons w rest ih =>
    unfold Writer.retryPass
    rcases hw : W.attempt w store f with ⟨_ | _, store', f'⟩
    · simpa using h.refused hP hw
    · simpa using ih f' (h.recovered hP hw)

theorem Rule.step (h : W.Rule C P) {ins outs : List ω} {s : State ω σ} {e : Event ω φ}
    (hC : C s e) (hP : P ins outs s.backlog s.store) :
    P (ins ++ RetryQueue.received [e]) (outs ++ RetryQueue.applied (W.step s e).outputs)
      (W.step s e).state.backlog (W.step s e).state.store := by
  cases e with
  | retry f => simpa [Writer.step, Writer.retry] using h.retryPass f hP
  | handle w f =>
    simp only [received_handle, received_nil, Writer.step, Writer.handle]
    rcases hw : W.attempt w s.store f with ⟨_ | _, store', f'⟩
    · by_cases hd : W.durable w
      · simpa [hd] using h.parked hC hP hw hd
      · simpa [hd] using h.dropped hC hP hw hd
    · simpa using h.applied hC hP hw

theorem Rule.run_from (h : W.Rule C P) {ins outs : List ω} {s : State ω σ}
    {events : List (Event ω φ)} (hC : W.process.Meets C s events)
    (hP : P ins outs s.backlog s.store) :
    P (ins ++ received events) (outs ++ RetryQueue.applied (W.process.run s events).outputs)
      (W.process.run s events).state.backlog (W.process.run s events).state.store := by
  induction events generalizing ins outs s with
  | nil => simpa [Process.run] using hP
  | cons e events ih =>
    have hrest := ih (hC.2 (W.live_step s e)) (h.step hC.1 hP)
    rw [run_cons, applied_append, ← List.append_assoc]
    have hins : ins ++ received (e :: events) = ins ++ received [e] ++ received events := by
      rw [List.append_assoc, ← received_append, List.singleton_append]
    rw [hins]
    exact hrest

theorem Rule.run (h : W.Rule C P) {s : State ω σ} {events : List (Event ω φ)}
    (hC : W.process.Meets C s events) (hP : P [] [] s.backlog s.store) :
    P (received events) (RetryQueue.applied (W.process.run s events).outputs)
      (W.process.run s events).state.backlog (W.process.run s events).state.store := by
  simpa using h.run_from hC hP

theorem mem_park {backlog : List ω} {w v : ω} (h : v ∈ W.park backlog w) : v ∈ backlog ∨ v = w := by
  unfold park at h
  rcases List.mem_append.mp h with h | h
  · split at h
    · exact .inl (List.mem_of_mem_tail h)
    · exact .inl h
  · exact .inr (List.mem_singleton.mp h)

/-- A property of the store that an attempt keeps, whether it succeeds or not, for writes that have
a property of their own. -/
theorem step_of_attempts {A : ω → Prop} {P : σ → Prop}
    (h : ∀ {w store f b store' f'}, A w → P store → W.attempt w store f = (b, store', f') →
      P store')
    {s : State ω σ} {e : Event ω φ} (he : ∀ w ∈ e.received, A w)
    (hs : (∀ w ∈ s.backlog, A w) ∧ P s.store) :
    (∀ w ∈ (W.step s e).state.backlog, A w) ∧ P (W.step s e).state.store := by
  have hrule : W.Rule (fun _ e => ∀ w ∈ e.received, A w) fun _ _ backlog store =>
      (∀ w ∈ backlog, A w) ∧ P store := by
    refine ⟨?_, ?_, ?_, ?_, ?_⟩
    · rintro ins outs w rest store f store' f' ⟨hA, hP⟩ ht
      exact ⟨fun v hv => hA v (List.mem_cons_of_mem w hv), h (hA w List.mem_cons_self) hP ht⟩
    · rintro ins outs w rest store f store' f' ⟨hA, hP⟩ ht
      exact ⟨hA, h (hA w List.mem_cons_self) hP ht⟩
    · rintro ins outs w backlog store f store' f' hw ⟨hA, hP⟩ ht
      exact ⟨hA, h (hw w rfl) hP ht⟩
    · rintro ins outs w backlog store f store' f' hw ⟨hA, hP⟩ ht -
      refine ⟨fun v hv => ?_, h (hw w rfl) hP ht⟩
      rcases mem_park hv with hv | rfl
      · exact hA v hv
      · exact hw v rfl
    · rintro ins outs w backlog store f store' f' hw ⟨hA, hP⟩ ht -
      exact ⟨hA, h (hw w rfl) hP ht⟩
  exact @Rule.step _ _ _ W _ _ hrule [] [] s e he hs

/-! ## No write is lost -/

theorem recovered_append_left (backlog : List ω) (store : σ) (f : φ) :
    (W.retryPass backlog store f).recovered ++ (W.retryPass backlog store f).left = backlog := by
  induction backlog generalizing store f with
  | nil => rfl
  | cons w rest ih =>
    unfold retryPass
    rcases W.attempt w store f with ⟨_ | _, store', f'⟩
    · rfl
    · exact congrArg (w :: ·) (ih store' f')

variable (W) in
/-- The backlog has room for the write of the event. -/
def Room (s : State ω σ) : Event ω φ → Prop
  | .retry _ => True
  | .handle _ _ => s.backlog.length < W.cap

instance (s : State ω σ) : (e : Event ω φ) → Decidable (W.Room s e)
  | .retry _ => inferInstanceAs (Decidable True)
  | .handle _ _ => inferInstanceAs (Decidable (s.backlog.length < W.cap))

theorem park_of_room {backlog : List ω} (h : backlog.length < W.cap) (w : ω) :
    W.park backlog w = backlog ++ [w] := by
  rw [park, if_neg (by omega)]

/-- With room in the backlog every durable write received was applied once or is parked. -/
theorem perm_of_run {s : State ω σ} {events : List (Event ω φ)}
    (hC : W.process.Meets W.Room s events) (hs : s.backlog = []) :
    ((received events).filter W.durable).Perm
      ((applied (W.process.run s events).outputs).filter W.durable ++
        (W.process.run s events).state.backlog) := by
  have hrule : W.Rule W.Room fun ins outs backlog _ =>
      (ins.filter W.durable).Perm (outs.filter W.durable ++ backlog) ∧
        ∀ w ∈ backlog, W.durable w := by
    refine ⟨fun {ins outs w rest _ _ _ _} h _ => ?_, fun h _ => h, ?_, ?_, ?_⟩
    · have hw : W.durable w := h.2 w (by simp)
      exact ⟨by simpa [hw] using h.1, fun v hv => h.2 v (by simp [hv])⟩
    · intro ins outs w backlog _ _ _ _ _ h _
      by_cases hw : W.durable w
      · refine ⟨?_, h.2⟩
        have hmove : (outs.filter W.durable ++ backlog ++ [w]).Perm
            (outs.filter W.durable ++ [w] ++ backlog) := by
          rw [List.append_assoc, List.append_assoc]
          exact List.perm_append_comm.append_left _
        simpa [hw] using (h.1.append_right [w]).trans hmove
      · exact ⟨by simpa [hw] using h.1, h.2⟩
    · intro ins outs w backlog _ _ _ _ hroom h _ hw
      rw [park_of_room hroom]
      refine ⟨?_, fun v hv => ?_⟩
      · simpa [hw] using h.1.append_right [w]
      · rcases List.mem_append.mp hv with hv | hv
        · exact h.2 v hv
        · simpa [List.mem_singleton.mp hv] using hw
    · intro ins outs w backlog _ _ _ _ _ h _ hw
      exact ⟨by simpa [hw] using h.1, h.2⟩
  exact (hrule.run hC (by simp [hs])).1

/-! ## Amounts -/

variable (W) in
/-- The oldest parked write, where a write that fails takes its place in a full backlog. -/
def overflow (s : State ω σ) : Event ω φ → List ω
  | .retry _ => []
  | .handle write faults =>
    if (W.attempt write s.store faults).1 = false ∧ W.durable write ∧ W.cap ≤ s.backlog.length then
      s.backlog.take 1
    else []

section Amounts

variable {ν : Type*} [AddCommMonoid ν] {m : ω → ν}

theorem sum_park (backlog : List ω) (w : ω) :
    ((W.park backlog w).map m).sum +
        ((if W.cap ≤ backlog.length then backlog.take 1 else []).map m).sum =
      (backlog.map m).sum + m w := by
  unfold park
  split
  · rw [List.map_append, List.sum_append, List.map_singleton, List.sum_singleton, add_right_comm]
    congr 1
    cases backlog with
    | nil => exact add_zero _
    | cons oldest rest => simp [add_comm]
  · simp

/-- An amount that only durable writes bear is applied, parked, or dropped with the oldest write. -/
theorem sum_step (hm : ∀ w, ¬ W.durable w → m w = 0) (s : State ω σ) (e : Event ω φ) :
    ((applied (W.step s e).outputs).map m).sum + ((W.step s e).state.backlog.map m).sum +
        ((W.overflow s e).map m).sum =
      (s.backlog.map m).sum + ((received [e]).map m).sum := by
  cases e with
  | retry f =>
    have hpass := congrArg (fun ws => (ws.map m).sum)
      (recovered_append_left (W := W) s.backlog s.store f)
    simp only [List.map_append, List.sum_append] at hpass
    simp only [step, retry, overflow, applied_map, received_retry, received_nil, List.map_nil,
      List.sum_nil, add_zero]
    exact hpass
  | handle w f =>
    simp only [step, handle, overflow, received_handle, received_nil]
    rcases hw : W.attempt w s.store f with ⟨_ | _, store', f'⟩
    · by_cases hd : W.durable w
      · have hpark := sum_park (W := W) (m := m) s.backlog w
        simpa [hd] using hpark
      · simp [hd, hm w hd]
    · simp [add_comm]

theorem sum_run (hm : ∀ w, ¬ W.durable w → m w = 0) (s : State ω σ) (events : List (Event ω φ)) :
    ((applied (W.process.run s events).outputs).map m).sum +
        ((W.process.run s events).state.backlog.map m).sum +
        ((W.process.collect W.overflow s events).map m).sum =
      (s.backlog.map m).sum + ((received events).map m).sum := by
  induction events generalizing s with
  | nil => simp [Process.run, Process.collect]
  | cons e events ih =>
    have hstep := sum_step hm s e
    have hrest := ih (W.step s e).state
    have hreceived : received (e :: events) = received [e] ++ received events := by
      rw [← received_append, List.singleton_append]
    have hcollect : W.process.collect W.overflow s (e :: events) =
        W.overflow s e ++ W.process.collect W.overflow (W.step s e).state events :=
      congrArg (W.overflow s e ++ ·) (if_pos (W.live_step s e))
    rw [run_cons, hreceived, hcollect, applied_append]
    simp only [List.map_append, List.sum_append]
    generalize ((applied (W.process.run (W.step s e).state events).outputs).map m).sum = done at *
    generalize ((W.process.run (W.step s e).state events).state.backlog.map m).sum = left at *
    generalize ((W.process.collect W.overflow (W.step s e).state events).map m).sum = lost at *
    calc ((applied (W.step s e).outputs).map m).sum + done + left +
          (((W.overflow s e).map m).sum + lost)
        = ((applied (W.step s e).outputs).map m).sum + ((W.overflow s e).map m).sum +
            (done + left + lost) := by abel
      _ = ((applied (W.step s e).outputs).map m).sum + ((W.step s e).state.backlog.map m).sum +
            ((W.overflow s e).map m).sum + ((received events).map m).sum := by rw [hrest]; abel
      _ = _ := by rw [hstep, add_assoc]

end Amounts

/-! ## The order of a kind of writes -/

/-- The writes of a kind are applied in the order they came in, if none is applied past a parked one
and none is dropped from the backlog. -/
theorem ordered_of_run {p : ω → Bool} (hp : ∀ w, p w → W.durable w) {s : State ω σ}
    {events : List (Event ω φ)} (hs : s.backlog = [])
    (hC : W.process.Meets C s events)
    (hpass : ∀ {backlog store w f}, C ⟨backlog, store⟩ (.handle w f) → p w →
      backlog.filter p = [] ∨ (W.attempt w store f).1 = false)
    (hkeep : ∀ {backlog store w f}, C ⟨backlog, store⟩ (.handle w f) →
      (W.park backlog w).filter p = backlog.filter p ++ [w].filter p) :
    (received events).filter p =
      (applied (W.process.run s events).outputs).filter p ++
        (W.process.run s events).state.backlog.filter p := by
  have hrule : W.Rule C fun ins outs backlog _ =>
      ins.filter p = outs.filter p ++ backlog.filter p := by
    refine ⟨fun {ins outs w rest _ _ _ _} h _ => ?_, fun h _ => h, ?_, ?_, ?_⟩
    · rw [h, List.filter_append, List.append_assoc, ← List.filter_append [w], List.singleton_append]
    · intro ins outs w backlog _ _ _ _ hc h hw
      rw [List.filter_append, List.filter_append, h, List.append_assoc, List.append_assoc]
      by_cases hpw : p w
      · rcases hpass hc hpw with hnone | hfail
        · rw [hnone, List.nil_append, List.append_nil]
        · rw [hw] at hfail
          cases hfail
      · simp [hpw]
    · intro ins outs w backlog _ _ _ _ hc h _ _
      rw [hkeep hc, List.filter_append, h, List.append_assoc]
    · intro ins outs w backlog _ _ _ _ _ h _ hw
      have hpw : ¬ p w := fun hpw => hw (hp w hpw)
      simpa [hpw] using h
  exact hrule.run hC (by simp [hs])

/-! ## Runs without failures -/

/-- If every write succeeds that comes in under the condition `C`, nothing is ever parked, and a
property of the writes received and the store is kept. `Q` is what is known of the writes to
come. -/
theorem applied_on_receipt {P : List ω → σ → Prop} {Q : List ω → Prop}
    (hinit : ∀ {ins w}, Q (ins ++ [w]) → Q ins)
    (hok : ∀ {ins backlog w store f}, C ⟨backlog, store⟩ (.handle w f) → Q (ins ++ [w]) →
      P ins store → ∃ store' f', W.attempt w store f = (true, store', f') ∧ P (ins ++ [w]) store')
    {s : State ω σ} {events : List (Event ω φ)} (hs : s.backlog = [])
    (hC : W.process.Meets C s events) (hP : P [] s.store) (hQ : Q (received events)) :
    (W.process.run s events).state.backlog = [] ∧
      applied (W.process.run s events).outputs = received events ∧
      P (received events) (W.process.run s events).state.store := by
  have hrule : W.Rule C fun ins outs backlog store =>
      Q ins → backlog = [] ∧ outs = ins ∧ P ins store := by
    refine ⟨fun h _ hq => absurd (h hq).1 (List.cons_ne_nil _ _),
      fun h _ hq => absurd (h hq).1 (List.cons_ne_nil _ _), ?_, ?_, ?_⟩
    · intro ins outs w backlog store f store' f' hc h ht hq
      obtain ⟨hnil, rfl, hP⟩ := h (hinit hq)
      obtain ⟨store₁, f₁, hw, hP'⟩ := hok hc hq hP
      cases ht.symm.trans hw
      exact ⟨hnil, rfl, hP'⟩
    · intro ins outs w backlog store f store' f' hc h ht _ hq
      obtain ⟨store₁, f₁, hw, -⟩ := hok hc hq (h (hinit hq)).2.2
      cases ht.symm.trans hw
    · intro ins outs w backlog store f store' f' hc h ht _ hq
      obtain ⟨store₁, f₁, hw, -⟩ := hok hc hq (h (hinit hq)).2.2
      cases ht.symm.trans hw
  exact hrule.run hC (fun _ => ⟨hs, rfl, hP⟩) hQ

/-! ## A pass that succeeds -/

/-- A pass in which every attempt succeeds empties the backlog. -/
theorem retryPass_left {H : φ → Prop} {Q : List ω → σ → Prop}
    (hok : ∀ {w rest store f}, Q (w :: rest) store → H f →
      ∃ store' f', W.attempt w store f = (true, store', f') ∧ Q rest store' ∧ H f')
    {backlog : List ω} {store : σ} {f : φ} (hQ : Q backlog store) (hH : H f) :
    (W.retryPass backlog store f).left = [] ∧ Q [] (W.retryPass backlog store f).store := by
  induction backlog generalizing store f with
  | nil => exact ⟨rfl, hQ⟩
  | cons w rest ih =>
    obtain ⟨store', f', hw, hQ', hH'⟩ := hok hQ hH
    rw [retryPass, hw]
    exact ih hQ' hH'

end Writer

end BtcPool.RetryQueue
