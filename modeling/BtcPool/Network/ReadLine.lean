import BtcPool.Foundations.Bytes
import BtcPool.Foundations.Runs

/-!
# Reading lines

`read_line_bounded` reads one line of a Stratum V1 connection, a pass of its loop for each piece of
the stream the socket delivers, and collects the line in a buffer that it clears when it starts. The
session's select loop runs it beside the job broadcasts and drops it whenever a broadcast wins an
iteration; the next iteration starts another read.

A read that is dropped has already consumed what it collected, so a line of which a part was read is
handed on without that part (`broadcast_loses_part_of_line`). As long as no broadcast comes
while part of a line is held, and the stream does not end or overflow there, the lines handed on are
those of the stream (`handed_eq_terminatedLines`).
-/

namespace BtcPool.Sv1

/-! ## Lines -/

/-- The byte that ends a line. -/
def newline : UInt8 := 0x0a

/-- The lines of a stream that end with a newline, without it. -/
def terminatedLines (stream : Bytes) : List Bytes := (stream.splitOn newline).dropLast

theorem terminatedLines_of_notMem {bs : Bytes} (h : newline ∉ bs) : terminatedLines bs = [] := by
  rw [terminatedLines, List.splitOn_eq_singleton h, List.dropLast_singleton]

theorem terminatedLines_append {line : Bytes} (h : newline ∉ line) (rest : Bytes) :
    terminatedLines (line ++ newline :: rest) = line :: terminatedLines rest := by
  have hne : ∀ x ∈ line, (x == newline) = false := by
    intro x hx
    rw [beq_eq_false_iff_ne]
    rintro rfl
    exact h hx
  have hsplit : (line ++ newline :: rest).splitOn newline = line :: rest.splitOn newline :=
    List.splitOnP_append_cons_of_forall_mem hne newline (by simp) rest
  rw [terminatedLines, hsplit, List.dropLast_cons_of_ne_nil (List.splitOn_ne_nil _ _),
    terminatedLines]

/-- A line without the carriage return some miners put in front of the newline. -/
def stripCr (line : Bytes) : Bytes := if line.getLast? = some 0x0d then line.dropLast else line

/-! ## The reader -/

/-- A buffered reader: what it holds, and what the socket will deliver, one read at a time. An empty
read is the end of the stream. -/
structure Reader where
  buffered : Bytes
  chunks : List Bytes
deriving DecidableEq

namespace Reader

/-- What is buffered, or the next chunk if nothing is. -/
def fillBuf (r : Reader) : Bytes × Reader :=
  match r.buffered, r.chunks with
  | [], chunk :: chunks => (chunk, { buffered := chunk, chunks })
  | buffered, _ => (buffered, r)

/-- The buffer without the bytes that were used. -/
def consume (r : Reader) (n : ℕ) : Reader := { r with buffered := r.buffered.drop n }

/-- Everything that was not consumed yet. -/
def bytes (r : Reader) : Bytes := r.buffered ++ r.chunks.flatten

theorem buffered_fillBuf (r : Reader) : r.fillBuf.2.buffered = r.fillBuf.1 := by
  unfold fillBuf
  split <;> simp [*]

theorem bytes_fillBuf (r : Reader) : r.fillBuf.2.bytes = r.bytes := by
  unfold fillBuf
  split <;> simp [bytes, *]

theorem bytes_consume {r : Reader} {a b : Bytes} (h : r.buffered = a ++ b) :
    r.bytes = a ++ (r.consume a.length).bytes := by
  simp [bytes, consume, h]

end Reader

/-- What a read returns. -/
inductive LineRead
  | line (buf : Bytes)
  | eof
  | invalidData
  deriving DecidableEq

/-- What a pass of the reading loop comes to. -/
inductive Pass
  | more (buf : Bytes) (reader : Reader)
  | done (result : LineRead) (reader : Reader)
  deriving DecidableEq

/-- A pass of the loop of `read_line_bounded`, with what is collected so far. -/
def readPass (max : ℕ) (buf : Bytes) (reader : Reader) : Pass :=
  let (available, reader) := reader.fillBuf
  if available = [] then
    .done (if buf = [] then .eof else .line buf) reader
  else
    match available.idxOf? newline with
    | some pos =>
      let buf := stripCr (buf ++ available.take pos)
      let reader := reader.consume (pos + 1)
      .done (if max < buf.length then .invalidData else .line buf) reader
    | none =>
      let buf := buf ++ available
      let reader := reader.consume available.length
      if max < buf.length then .done .invalidData reader else .more buf reader

/-- The three things a pass may find: the end of the stream, the end of the line, or neither. -/
theorem readPass_cases (max : ℕ) (buf : Bytes) (reader : Reader) :
    (reader.fillBuf.1 = [] ∧ readPass max buf reader =
      .done (if buf = [] then .eof else .line buf) reader.fillBuf.2) ∨
    (∃ a b, reader.fillBuf.1 = a ++ newline :: b ∧ newline ∉ a ∧
      reader.bytes = a ++ newline :: (reader.fillBuf.2.consume (a.length + 1)).bytes ∧
      readPass max buf reader =
        .done (if max < (stripCr (buf ++ a)).length then .invalidData
          else .line (stripCr (buf ++ a))) (reader.fillBuf.2.consume (a.length + 1))) ∨
    (reader.fillBuf.1 ≠ [] ∧ newline ∉ reader.fillBuf.1 ∧
      reader.bytes = reader.fillBuf.1 ++
        (reader.fillBuf.2.consume reader.fillBuf.1.length).bytes ∧
      readPass max buf reader = if max < (buf ++ reader.fillBuf.1).length then
          .done .invalidData (reader.fillBuf.2.consume reader.fillBuf.1.length)
        else .more (buf ++ reader.fillBuf.1)
          (reader.fillBuf.2.consume reader.fillBuf.1.length)) := by
  have hbuf := reader.buffered_fillBuf
  have hbytes := reader.bytes_fillBuf
  unfold readPass
  generalize reader.fillBuf = filled at hbuf hbytes ⊢
  obtain ⟨available, filled⟩ := filled
  dsimp only at hbuf hbytes ⊢
  by_cases hempty : available = []
  · exact Or.inl ⟨hempty, if_pos hempty⟩
  · rw [if_neg hempty]
    cases hpos : available.idxOf? newline with
    | some pos =>
      obtain ⟨hlt, hget, hfirst⟩ := List.idxOf?_eq_some_iff.mp hpos
      have hsplit : available = available.take pos ++ newline :: available.drop (pos + 1) := by
        rw [← hget, ← List.drop_eq_getElem_cons hlt, List.take_append_drop]
      have hnew : newline ∉ available.take pos := by
        intro hmem
        obtain ⟨j, hj, hjeq⟩ := List.mem_take_iff_getElem.mp hmem
        exact hfirst j (by omega) hjeq
      have hlength : (available.take pos).length = pos := by
        rw [List.length_take, Nat.min_eq_left hlt.le]
      refine Or.inr (Or.inl ⟨available.take pos, _, hsplit, hnew, ?_, by rw [hlength]⟩)
      have hfront : filled.buffered =
          (available.take pos ++ [newline]) ++ available.drop (pos + 1) := by
        rw [hbuf, List.append_assoc]
        exact hsplit
      rw [← hbytes, Reader.bytes_consume hfront]
      simp [Nat.min_eq_left hlt.le]
    | none =>
      refine Or.inr (Or.inr ⟨hempty, List.idxOf?_eq_none_iff.mp hpos, ?_, rfl⟩)
      rw [← hbytes, Reader.bytes_consume (b := []) (by rw [hbuf, List.append_nil])]

/-- A pass that goes on has consumed something. -/
theorem length_bytes_lt_of_more {max : ℕ} {buf buf' : Bytes} {reader reader' : Reader}
    (h : readPass max buf reader = .more buf' reader') :
    reader'.bytes.length < reader.bytes.length := by
  rcases readPass_cases max buf reader with ⟨-, hpass⟩ | ⟨_, _, -, -, -, hpass⟩ |
    ⟨hne, -, hbytes, hpass⟩
  · rw [hpass] at h
    cases h
  · rw [hpass] at h
    cases h
  · rw [hpass] at h
    split at h
    · cases h
    · cases h
      rw [hbytes, List.length_append]
      have := List.length_pos_iff.mpr hne
      omega

/-- The loop, from what is collected so far. -/
def readLoop (max : ℕ) (buf : Bytes) (reader : Reader) : LineRead × Reader :=
  match _hpass : readPass max buf reader with
  | .more buf reader' => readLoop max buf reader'
  | .done result reader' => (result, reader')
termination_by reader.bytes.length
decreasing_by exact length_bytes_lt_of_more ‹_›

/-- The next line, if it fits. -/
def readLineBounded (max : ℕ) (reader : Reader) : LineRead × Reader := readLoop max [] reader

/-! ## The select loop -/

/-- The reading side of the session loop. Every iteration makes a new read, which clears the buffer
when it is first polled. -/
structure Inbound where
  reader : Reader
  lineBuf : Bytes
  reading : Bool
deriving DecidableEq

namespace Inbound

/-- A connection that has not been read from. -/
def new (chunks : List Bytes) : Inbound :=
  { reader := { buffered := [], chunks }, lineBuf := [], reading := false }

/-- The part of a line the read under way has collected. -/
def held (s : Inbound) : Bytes := if s.reading then s.lineBuf else []

@[simp] theorem held_reading (reader : Reader) (buf : Bytes) : held ⟨reader, buf, true⟩ = buf := rfl

@[simp] theorem held_idle (reader : Reader) (buf : Bytes) : held ⟨reader, buf, false⟩ = [] := rfl

/-- What the lines still to be handed on are read from. -/
def unread (s : Inbound) : Bytes := s.held ++ s.reader.bytes

/-- What happens in the loop. Whether it goes on after a line or a broadcast was handled is up to
the session. -/
inductive Event
  /-- The read is polled and the socket has something for it. -/
  | read (goesOn : Bool)
  /-- A broadcast wins the iteration and the read is dropped. -/
  | broadcast (goesOn : Bool)
  | timeout
  deriving DecidableEq

variable (isUtf8 : Bytes → Bool) (max : ℕ)

/-- What the loop does with a read that returned: a line goes to `handle_line` if it is a text. -/
def returned (goesOn : Bool) (result : LineRead) (reader : Reader) : Outcome Inbound Bytes :=
  match result with
  | .line buf => ⟨⟨reader, buf, false⟩, if isUtf8 buf then [buf] else [], isUtf8 buf && goesOn⟩
  | .eof => ⟨⟨reader, [], false⟩, [], false⟩
  | .invalidData => ⟨⟨reader, [], false⟩, [], false⟩

/-- A turn of the loop. -/
def step (s : Inbound) : Event → Outcome Inbound Bytes
  | .read goesOn =>
    match readPass max s.held s.reader with
    | .more buf reader => ⟨⟨reader, buf, true⟩, [], true⟩
    | .done result reader => returned isUtf8 goesOn result reader
  | .broadcast goesOn => ⟨{ s with reading := false }, [], goesOn⟩
  | .timeout => ⟨s, [], false⟩

/-- The outputs are the lines handed to `handle_line`. -/
def process : Process Inbound Event Bytes := { step := step isUtf8 max }

variable {isUtf8 max}

/-- A read that is not dropped is a call of `read_line_bounded`. -/
theorem exists_run_eq_returned (s : Inbound) (goesOn : Bool) :
    ∃ n, (process isUtf8 max).run s (List.replicate n (.read goesOn)) =
      returned isUtf8 goesOn (readLoop max s.held s.reader).1 (readLoop max s.held s.reader).2 := by
  induction hlen : s.reader.bytes.length using Nat.strongRecOn generalizing s with
  | ind k ih =>
    rw [readLoop]
    split
    · rename_i buf reader hpass
      obtain ⟨n, hrun⟩ := ih _ (hlen ▸ length_bytes_lt_of_more hpass) ⟨reader, buf, true⟩ rfl
      have hstep : (process isUtf8 max).step s (.read goesOn) =
          ⟨⟨reader, buf, true⟩, [], true⟩ := by
        simp [process, step, hpass]
      refine ⟨n + 1, ?_⟩
      rw [List.replicate_succ, Process.run_cons_of_live (by rw [hstep]), hstep, hrun]
      rfl
    · rename_i result reader hpass
      have hstep : (process isUtf8 max).step s (.read goesOn) =
          returned isUtf8 goesOn result reader := by
        simp [process, step, hpass]
      exact ⟨1, by rw [List.replicate_one, Process.run_singleton, hstep]⟩

/-! ## Lines are handed on as they are -/

/-- A broadcast, like the end of the stream, comes only between lines; and what is held of a line
that goes on fits in a message. -/
def Undisturbed (max : ℕ) (s : Inbound) : Event → Prop
  | .read _ => (s.reader.fillBuf.1 = [] → s.held = []) ∧
      (newline ∉ s.reader.fillBuf.1 → (s.held ++ s.reader.fillBuf.1).length ≤ max)
  | .broadcast _ => s.held = []
  | .timeout => True

instance (max : ℕ) (s : Inbound) : (event : Event) → Decidable (Undisturbed max s event)
  | .read _ => inferInstanceAs (Decidable (_ ∧ _))
  | .broadcast _ => inferInstanceAs (Decidable (_ = _))
  | .timeout => inferInstanceAs (Decidable True)

/-- Nothing of the stream is lost: what was handed on and what is still unread are its lines. -/
def Intact (lines handed : List Bytes) (s : Inbound) : Prop :=
  newline ∉ s.held ∧ handed ++ (terminatedLines s.unread).map stripCr = lines

theorem Intact.isPrefix {lines handed : List Bytes} {s : Inbound} (h : s.Intact lines handed) :
    handed <+: lines := ⟨_, h.2⟩

theorem Intact.step {lines handed : List Bytes} (hmax : ∀ line ∈ lines, line.length ≤ max)
    {s : Inbound} (h : s.Intact lines handed) {event : Event} (hC : Undisturbed max s event) :
    ((step isUtf8 max s event).live →
      (step isUtf8 max s event).state.Intact lines (handed ++ (step isUtf8 max s event).outputs)) ∧
    handed ++ (step isUtf8 max s event).outputs <+: lines := by
  obtain ⟨hheld, hlines⟩ := h
  cases event with
  | timeout => exact ⟨fun h => (by cases h), by simpa [Inbound.step] using ⟨_, hlines⟩⟩
  | broadcast goesOn =>
    have hnone : s.held = [] := hC
    have hunread : unread { s with reading := false } = s.unread := by
      rw [unread, unread, held_idle, hnone]
    refine ⟨fun _ => ⟨by simp [Inbound.step], ?_⟩, by simpa [Inbound.step] using ⟨_, hlines⟩⟩
    rw [Inbound.step, List.append_nil, hunread]
    exact hlines
  | read goesOn =>
    obtain ⟨hend, hfits⟩ := hC
    unfold Inbound.step
    rcases readPass_cases max s.held s.reader with ⟨hempty, hpass⟩ |
      ⟨a, b, -, hnew, hbytes, hpass⟩ | ⟨-, hnew, hbytes, hpass⟩
    · rw [hpass, hend hempty, if_pos rfl]
      exact ⟨fun h => (by cases h), by simpa [returned] using ⟨_, hlines⟩⟩
    · -- the line is complete: it is the first of what was unread
      have hfirst : terminatedLines s.unread = (s.held ++ a) ::
          terminatedLines (s.reader.fillBuf.2.consume (a.length + 1)).bytes := by
        rw [unread, hbytes, ← List.append_assoc]
        exact terminatedLines_append (by simp [hheld, hnew]) _
      rw [hfirst, List.map_cons] at hlines
      have hle : (stripCr (s.held ++ a)).length ≤ max :=
        hmax _ (hlines ▸ List.mem_append_right _ List.mem_cons_self)
      rw [hpass, if_neg (by omega)]
      cases hutf : isUtf8 (stripCr (s.held ++ a)) with
      | true =>
        simp only [returned, hutf, if_true]
        refine ⟨fun _ => ⟨by simp, ?_⟩, ?_⟩
        · simpa [unread] using hlines
        · exact ⟨_, by simpa using hlines⟩
      | false =>
        simp only [returned, hutf]
        exact ⟨fun h => (by simp at h), ⟨_, by simpa using hlines⟩⟩
    · rw [hpass, if_neg (by have := hfits hnew; omega)]
      refine ⟨fun _ => ⟨by simp [hheld, hnew], ?_⟩, ⟨_, by simpa using hlines⟩⟩
      rw [unread, hbytes] at hlines
      simpa [unread] using hlines

/-- In a run in which no broadcast comes between the parts of a line, and the stream does not end or
overflow there, the lines handed to `handle_line` are those of the stream: always the first of them,
with the rest still to be read while the session runs, and all of them once everything is read. -/
theorem handed_eq_terminatedLines (isUtf8 : Bytes → Bool) (max : ℕ) (chunks : List Bytes)
    (events : List Event)
    (hmax : ∀ line ∈ terminatedLines chunks.flatten, (stripCr line).length ≤ max)
    (hundisturbed : (process isUtf8 max).Meets (Undisturbed max) (new chunks) events) :
    let out := (process isUtf8 max).run (new chunks) events
    out.outputs <+: (terminatedLines chunks.flatten).map stripCr ∧
    (out.live → out.outputs ++ (terminatedLines out.state.unread).map stripCr =
      (terminatedLines chunks.flatten).map stripCr) ∧
    (out.live → out.state.reader.bytes = [] →
      out.outputs = (terminatedLines chunks.flatten).map stripCr) := by
  have hall : ∀ line ∈ (terminatedLines chunks.flatten).map stripCr, line.length ≤ max := by
    simpa using hmax
  have hstart : (new chunks).Intact ((terminatedLines chunks.flatten).map stripCr) [] :=
    ⟨by simp [new], by simp [new, unread, Reader.bytes]⟩
  obtain ⟨hhanded, hlive⟩ := Process.run_invariant (p := process isUtf8 max)
    (fun h => h.isPrefix) (fun h hC => h.step hall hC) hstart hundisturbed
  refine ⟨hhanded, fun hl => (hlive hl).2, fun hl hread => ?_⟩
  obtain ⟨hheld, hlines⟩ := hlive hl
  rw [unread, hread, List.append_nil, terminatedLines_of_notMem hheld, List.map_nil,
    List.append_nil] at hlines
  exact hlines

/-- The lines "ab", with a carriage return, and "cd" in three pieces, with a broadcast between
them. -/
theorem handed_eq_terminatedLines_two :
    ((process (fun _ => true) 8).run (new [[0x61], [0x62, 0x0d, 0x0a, 0x63], [0x64, 0x0a]])
      [.read true, .read true, .broadcast true, .read true, .read true]).outputs =
        [[0x61, 0x62], [0x63, 0x64]] :=
  (handed_eq_terminatedLines (fun _ => true) 8 [[0x61], [0x62, 0x0d, 0x0a, 0x63], [0x64, 0x0a]]
    [.read true, .read true, .broadcast true, .read true, .read true] (by decide +kernel)
    (by decide +kernel)).2.2 (by decide +kernel) (by decide +kernel)

/-- The line "ab" comes in two pieces. A broadcast between them drops the read that holds the first,
and the line handed on is "b". -/
theorem broadcast_loses_part_of_line :
    ((process (fun _ => true) 8).run (new [[0x61], [0x62, 0x0a]])
      [.read true, .broadcast true, .read true]).outputs = [[0x62]] ∧
    (terminatedLines [0x61, 0x62, 0x0a]).map stripCr = [[0x61, 0x62]] := by
  decide +kernel

end Inbound

end BtcPool.Sv1
