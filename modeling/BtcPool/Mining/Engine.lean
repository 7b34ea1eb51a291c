import BtcPool.Bitcoin.Template
import BtcPool.Foundations.Broadcast

/-!
# The template engine

`TemplateEngine.refresh` takes the answer of the node to one getblocktemplate call: it checks the
rules the template announces, builds a `JobTemplate` from it, keeps that as the current one and
sends it to the sessions. A session may look between the write and the send, so the two are steps of
their own (`writeTemplate`, `send`), and `refresh` is both with nothing in between. The channel is
the list of everything ever sent; where a session stands in it belongs to the session.

What a refresh can do is said once, in `writeTemplate_cases`. The invariant `TemplateEngine.Inv` is
about the channel with the job that is still to be sent (`queue`), which the send does not change:
the current template is the one queued last, a job that is not clean is on the tip of the job before
it, and a template withdrawn for its rules is gone.
-/

namespace BtcPool

open Bitcoin Broadcast

/-- A template on its way to the sessions, and whether older jobs are void. -/
structure JobBroadcast where
  template : JobTemplate
  clean : Bool
deriving DecidableEq

/-- The tip a broadcast is for. -/
def JobBroadcast.tip (b : JobBroadcast) : Str := b.template.prevHash

/-- How many broadcasts the channel keeps for a receiver. -/
def jobBroadcastCap : ℕ := 64

/-- The engine that polls the node and tells the sessions. -/
structure TemplateEngine where
  strictGbtRules : Bool
  currentTemplate : Option JobTemplate
  unsupportedRules : List Str
  /-- The job of the current template, until it is sent. -/
  sending : Option JobBroadcast
  /-- Everything sent to the sessions, in order. -/
  jobTx : List JobBroadcast

namespace TemplateEngine

/-- An engine that has not polled the node yet. -/
def new (strictGbtRules : Bool) : TemplateEngine where
  strictGbtRules := strictGbtRules
  currentTemplate := none
  unsupportedRules := []
  sending := none
  jobTx := []

/-- Whether unimplemented rules are stopping work. -/
def isBlockedOnRules (engine : TemplateEngine) : Bool :=
  engine.strictGbtRules && !engine.unsupportedRules.isEmpty

/-- Whether a refresh tells miners to abandon their work: when the tip moved, or there was none. -/
def shouldForceClean (previous : Option Str) (newPrevHash : Str) : Bool :=
  previous ≠ some newPrevHash

/-- Whether a job may be built. A rule that is not implemented withdraws the current template if the
pool is strict. -/
def checkTemplateRules (engine : TemplateEngine) (gbt : GbtResult) : Bool × TemplateEngine :=
  let unsupported := unsupportedGbtRules gbt
  let engine := { engine with unsupportedRules := unsupported }
  if unsupported.isEmpty then (true, engine)
  else if ¬ engine.strictGbtRules then (true, engine)
  else (false, { engine with currentTemplate := none })

/-- Everything that was sent and what is about to be, in order. -/
def queue (engine : TemplateEngine) : List JobBroadcast := engine.jobTx ++ engine.sending.toList

/-- The send of a refresh. -/
def send (engine : TemplateEngine) : TemplateEngine :=
  { engine with sending := none, jobTx := engine.queue }

/-- Keep a template as the current one, with its job to be sent. -/
def publish (engine : TemplateEngine) (template : JobTemplate) : TemplateEngine :=
  let previousPrevHash := engine.currentTemplate.map fun t => t.prevHash
  let clean := shouldForceClean previousPrevHash template.prevHash
  { engine with currentTemplate := some template, sending := some { template, clean } }

/-- A refresh up to the write of the template. There is one refresh at a time, so what the one
before it had to send is sent. -/
def writeTemplate (H : Bytes → ByteVec 32) (engine : TemplateEngine)
    (result : Except PoolError GbtResult) : TemplateEngine :=
  let engine := engine.send
  match result with
  | .error _ => engine
  | .ok gbt =>
    let (passed, engine) := engine.checkTemplateRules gbt
    if ¬ passed then engine
    else
      match buildJobTemplate H gbt with
      | .error _ => engine
      | .ok template => engine.publish template

/-- A refresh, with nothing between its write and its send. -/
def refresh (H : Bytes → ByteVec 32) (engine : TemplateEngine)
    (result : Except PoolError GbtResult) : TemplateEngine :=
  (engine.writeTemplate H result).send

variable {H : Bytes → ByteVec 32} {engine : TemplateEngine}

@[simp]
theorem queue_send (engine : TemplateEngine) : engine.send.queue = engine.queue :=
  List.append_nil _

@[simp]
theorem jobTx_send (engine : TemplateEngine) : engine.send.jobTx = engine.queue := rfl

@[simp]
theorem sending_send (engine : TemplateEngine) : engine.send.sending = none := rfl

@[simp]
theorem strictGbtRules_send (engine : TemplateEngine) :
    engine.send.strictGbtRules = engine.strictGbtRules :=
  rfl

theorem jobTx_le_queue (engine : TemplateEngine) : engine.jobTx.length ≤ engine.queue.length := by
  rw [queue, List.length_append]
  omega

/-- What was sent is in its place in the queue. -/
theorem queue_of_jobTx {n : ℕ} {b : JobBroadcast} (h : engine.jobTx[n]? = some b) :
    engine.queue[n]? = some b := by
  rw [queue, List.getElem?_append_left (List.getElem?_eq_some_iff.mp h).1, h]

/-- Once everything is sent, the queue is the channel. -/
theorem queue_eq_jobTx (h : engine.queue.length ≤ engine.jobTx.length) :
    engine.queue = engine.jobTx := by
  rw [queue, List.length_append] at h
  have hnil : engine.sending.toList = [] := List.eq_nil_of_length_eq_zero (by omega)
  rw [queue, hnil, List.append_nil]

/-- A refresh sends what there was to send, and then leaves the templates alone, withdraws the
current one, or writes a new one. -/
theorem writeTemplate_cases (H : Bytes → ByteVec 32) (engine : TemplateEngine)
    (result : Except PoolError GbtResult) :
    engine.writeTemplate H result = engine.send ∨
    ∃ unsupportedRules,
      (engine.strictGbtRules = true ∧ unsupportedRules ≠ [] ∧
        engine.writeTemplate H result =
          { engine.send with unsupportedRules, currentTemplate := none }) ∨
      (¬ (engine.strictGbtRules = true ∧ unsupportedRules ≠ []) ∧
        (engine.writeTemplate H result = { engine.send with unsupportedRules } ∨
          ∃ gbt template, buildJobTemplate H gbt = .ok template ∧
            engine.writeTemplate H result =
              publish { engine.send with unsupportedRules } template)) := by
  unfold writeTemplate
  dsimp only
  split
  · exact Or.inl rfl
  · rename_i gbt
    refine Or.inr ⟨unsupportedGbtRules gbt, ?_⟩
    by_cases hstop : engine.strictGbtRules = true ∧ unsupportedGbtRules gbt ≠ []
    · exact Or.inl ⟨hstop.1, hstop.2, by simp [checkTemplateRules, hstop]⟩
    · refine Or.inr ⟨hstop, ?_⟩
      have hpassed : checkTemplateRules engine.send gbt =
          (true, { engine.send with unsupportedRules := unsupportedGbtRules gbt }) := by
        unfold checkTemplateRules
        by_cases hnone : unsupportedGbtRules gbt = []
        · simp [hnone]
        · have hlax : engine.strictGbtRules = false := by simpa [hnone] using hstop
          simp [hnone, hlax]
      simp only [hpassed]
      cases hbuild : buildJobTemplate H gbt with
      | error e => exact Or.inl rfl
      | ok template => exact Or.inr ⟨gbt, template, hbuild, rfl⟩

/-! ## The engine and its channel -/

/-- The broadcasts change the tip only when they are clean, end with the current template, and are
all built from templates of the node; an engine blocked on rules holds no template. -/
structure Inv (H : Bytes → ByteVec 32) (engine : TemplateEngine) : Prop where
  linked : Linked JobBroadcast.tip JobBroadcast.clean engine.queue
  current : ∀ template, engine.currentTemplate = some template →
    engine.queue.getLast?.map JobBroadcast.template = some template
  built : ∀ b ∈ engine.queue, ∃ gbt, buildJobTemplate H gbt = .ok b.template
  withdrawn : engine.isBlockedOnRules → engine.currentTemplate = none

theorem inv_new (H : Bytes → ByteVec 32) (strict : Bool) : (new strict).Inv H :=
  ⟨linked_nil, by simp [new], by simp [new, queue], fun _ => rfl⟩

/-- The tip of the current template is that of the queue. -/
theorem Inv.keyAt_current (h : engine.Inv H) {template : JobTemplate}
    (ht : engine.currentTemplate = some template) :
    keyAt JobBroadcast.tip engine.queue engine.queue.length = some template.prevHash := by
  obtain ⟨b, hb, rfl⟩ := Option.map_eq_some_iff.mp (h.current template ht)
  rw [keyAt_length, hb]
  rfl

theorem Inv.send (h : engine.Inv H) : engine.send.Inv H where
  linked := by rw [queue_send]; exact h.linked
  current := by rw [queue_send]; exact h.current
  built := by rw [queue_send]; exact h.built
  withdrawn := h.withdrawn

theorem queue_publish (engine : TemplateEngine) (hsent : engine.sending = none)
    (template : JobTemplate) :
    (engine.publish template).queue = engine.queue ++ [⟨template,
      shouldForceClean (engine.currentTemplate.map fun t => t.prevHash) template.prevHash⟩] := by
  rw [queue, queue, hsent]
  simp [publish]

theorem linked_publish (h : engine.Inv H) (hsent : engine.sending = none) (template : JobTemplate) :
    Linked JobBroadcast.tip JobBroadcast.clean (engine.publish template).queue := by
  rw [queue_publish _ hsent]
  refine h.linked.concat fun hclean => ?_
  -- a job that is not clean is on the tip of the current template, which was queued last
  have hprev : engine.currentTemplate.map (fun t => t.prevHash) = some template.prevHash := by
    simpa [shouldForceClean] using hclean
  obtain ⟨previous, hcurrent, htip⟩ := Option.map_eq_some_iff.mp hprev
  rw [← keyAt_length, h.keyAt_current hcurrent, htip]
  rfl

theorem Inv.writeTemplate (h : engine.Inv H) (result : Except PoolError GbtResult) :
    (engine.writeTemplate H result).Inv H := by
  have hsend := h.send
  rcases writeTemplate_cases H engine result with hr | ⟨rules, ⟨hstrict, hrules, hr⟩ |
    ⟨hpass, hr | ⟨gbt, template, hbuild, hr⟩⟩⟩ <;> rw [hr]
  · exact hsend
  · exact ⟨hsend.linked, by simp, hsend.built, fun _ => rfl⟩
  · refine ⟨hsend.linked, hsend.current, hsend.built, fun hblocked => absurd ?_ hpass⟩
    simpa [isBlockedOnRules] using hblocked
  · have hrules : ({ engine.send with unsupportedRules := rules } : TemplateEngine).Inv H := by
      refine ⟨hsend.linked, hsend.current, hsend.built, fun hblocked => absurd ?_ hpass⟩
      simpa [isBlockedOnRules] using hblocked
    have hqueue := queue_publish { engine.send with unsupportedRules := rules } rfl template
    refine ⟨linked_publish hrules rfl template, ?_, ?_, fun hblocked => absurd ?_ hpass⟩
    · rw [hqueue]
      simp [publish]
    · intro b hb
      rw [hqueue] at hb
      rcases List.mem_append.mp hb with hb | hb
      · exact hrules.built b hb
      · obtain rfl : b = _ := by simpa using hb
        exact ⟨gbt, hbuild⟩
    · simpa [isBlockedOnRules, publish] using hblocked

theorem Inv.refresh (h : engine.Inv H) (result : Except PoolError GbtResult) :
    (engine.refresh H result).Inv H :=
  (h.writeTemplate result).send

/-- What was queued stays where it is. -/
theorem queue_writeTemplate (H : Bytes → ByteVec 32) (engine : TemplateEngine)
    (result : Except PoolError GbtResult) :
    ∃ more, (engine.writeTemplate H result).queue = engine.queue ++ more := by
  rcases writeTemplate_cases H engine result with hr | ⟨rules, ⟨-, -, hr⟩ |
    ⟨-, hr | ⟨gbt, template, -, hr⟩⟩⟩ <;> rw [hr]
  · exact ⟨[], by simp⟩
  · exact ⟨[], by simp [queue]⟩
  · exact ⟨[], by simp [queue]⟩
  · have hqueue := queue_publish { engine.send with unsupportedRules := rules } rfl template
    have hsame : ({ engine.send with unsupportedRules := rules } : TemplateEngine).queue =
        engine.queue := queue_send engine
    rw [hsame] at hqueue
    exact ⟨_, hqueue⟩

/-- What is sent is sent in the order of the queue. -/
theorem jobTx_writeTemplate (H : Bytes → ByteVec 32) (engine : TemplateEngine)
    (result : Except PoolError GbtResult) :
    (engine.writeTemplate H result).jobTx = engine.queue := by
  rcases writeTemplate_cases H engine result with hr | ⟨rules, ⟨-, -, hr⟩ |
    ⟨-, hr | ⟨gbt, template, -, hr⟩⟩⟩ <;> rw [hr] <;> rfl

end TemplateEngine

end BtcPool
