import BtcPool.Network.ReadLine
import Mathlib.Data.List.DropRight
import Mathlib.Data.List.Infix

/-!
# Lines and the pieces they come in

Calls of `read_line_bounded`, one after the other and none of them dropped, on a stream of lines.
Each should give the next line without its carriage return, or the error if that is longer than
`max` (`verdict`), however the stream is cut into reads.

The length is checked twice: with the carriage return taken off when the newline is found, and as it
stands at the end of a piece without one. So a cut after more than `max` bytes of a line gives an
error at the cut, and the rest of the line is read as another line. `calls_eq_verdicts_iff`: the
results are those of the lines exactly if there is no such cut.
-/

namespace BtcPool.Sv1

/-! ## The end of a stream -/

/-- What comes after the last newline. -/
def unterminated (bs : Bytes) : Bytes := bs.rtakeWhile fun b => b ≠ newline

theorem unterminated_append_of_notMem (a : Bytes) {b : Bytes} (h : newline ∉ b) :
    unterminated (a ++ b) = unterminated a ++ b := by
  have hall : ∀ x ∈ b.reverse, decide (x ≠ newline) = true := by
    intro x hx
    rw [decide_eq_true_eq]
    rintro rfl
    exact h (List.mem_reverse.mp hx)
  rw [unterminated, List.rtakeWhile, List.reverse_append, List.takeWhile_append_of_pos hall,
    List.reverse_append, List.reverse_reverse]
  rfl

theorem unterminated_of_notMem {bs : Bytes} (h : newline ∉ bs) : unterminated bs = bs :=
  (unterminated_append_of_notMem [] h).trans (List.nil_append bs)

theorem unterminated_append_newline (a b : Bytes) :
    unterminated (a ++ newline :: b) = unterminated b := by
  rw [unterminated, List.rtakeWhile, List.reverse_append, List.reverse_cons, List.append_assoc,
    List.takeWhile_append]
  split
  · rename_i hall
    have hself : b.reverse.takeWhile (fun b => decide (b ≠ newline)) = b.reverse :=
      (List.takeWhile_sublist _).eq_of_length hall
    rw [unterminated, List.rtakeWhile, hself]
    simp
  · rfl

/-- Every line of the stream ends with a newline. -/
def Terminated (stream : Bytes) : Prop := unterminated stream = []

theorem terminated_append_newline {a b : Bytes} :
    Terminated (a ++ newline :: b) ↔ Terminated b := by
  rw [Terminated, unterminated_append_newline, Terminated]

theorem length_terminatedLines_append {part : Bytes} (h : newline ∉ part) (rest : Bytes) :
    (terminatedLines (part ++ rest)).length = (terminatedLines rest).length := by
  by_cases hrest : newline ∈ rest
  · obtain ⟨line, rest, rfl, hline⟩ := List.eq_append_cons_of_mem hrest
    rw [← List.append_assoc, terminatedLines_append (by simp [h, hline]),
      terminatedLines_append hline, List.length_cons, List.length_cons]
  · rw [terminatedLines_of_notMem (by simp [h, hrest]), terminatedLines_of_notMem hrest]

theorem eq_nil_of_terminated {stream : Bytes} (h : Terminated stream) (hnone : newline ∉ stream) :
    stream = [] := by
  rwa [Terminated, unterminated_of_notMem hnone] at h

/-! ## Pieces -/

namespace Reader

/-- The reads that are still to come, the rest of the last one first. -/
def pieces (r : Reader) : List Bytes := if r.buffered = [] then r.chunks else r.buffered :: r.chunks

theorem bytes_eq_flatten (r : Reader) : r.bytes = r.pieces.flatten := by
  unfold pieces bytes
  split
  · rename_i h
    rw [h, List.nil_append]
  · rfl

theorem fillBuf_of_nil {r : Reader} (h : r.pieces = []) : r.fillBuf.1 = [] := by
  obtain ⟨buffered, chunks⟩ := r
  unfold pieces at h
  split at h
  · rename_i hempty
    dsimp only at h hempty
    subst h hempty
    rfl
  · cases h

theorem fillBuf_of_cons {r : Reader} {p : Bytes} {ps : List Bytes} (h : r.pieces = p :: ps) :
    r.fillBuf = (p, ⟨p, ps⟩) := by
  obtain ⟨buffered, chunks⟩ := r
  unfold pieces at h
  split at h
  · rename_i hempty
    dsimp only at h hempty
    subst h hempty
    rfl
  · rename_i hheld
    obtain ⟨rfl, rfl⟩ := List.cons.inj h
    unfold fillBuf
    split
    · rename_i hnil _
      exact absurd hnil hheld
    · rfl

theorem pieces_consume (a b : Bytes) (ps : List Bytes) :
    (consume ⟨a ++ b, ps⟩ a.length).pieces = if b = [] then ps else b :: ps := by
  unfold pieces consume
  rw [List.drop_left]

theorem pieces_consume_line (a b : Bytes) (ps : List Bytes) :
    (consume ⟨a ++ newline :: b, ps⟩ (a.length + 1)).pieces = if b = [] then ps else b :: ps := by
  have hconsumed := pieces_consume (a ++ [newline]) b ps
  rwa [List.append_assoc, List.length_append] at hconsumed

theorem pieces_consume_all (p : Bytes) (ps : List Bytes) :
    (consume ⟨p, ps⟩ p.length).pieces = ps := by
  have hconsumed := pieces_consume p [] ps
  rwa [List.append_nil, if_pos rfl] at hconsumed

end Reader

/-- The unfinished line never exceeds `max` at the end of a piece, with what was read of it
before. -/
def Fits (max : ℕ) (buf : Bytes) (ps : List Bytes) : Prop :=
  ∀ before ∈ ps.inits, (unterminated (buf ++ before.flatten)).length ≤ max

theorem fits_nil {max : ℕ} {buf : Bytes} : Fits max buf [] ↔ (unterminated buf).length ≤ max := by
  simp [Fits]

theorem fits_cons {max : ℕ} {buf p : Bytes} {ps : List Bytes} :
    Fits max buf (p :: ps) ↔ (unterminated buf).length ≤ max ∧ Fits max (buf ++ p) ps := by
  simp [Fits]

/-- Lines that are complete do not count. -/
theorem fits_append_newline {max : ℕ} {a b : Bytes} {ps : List Bytes} :
    Fits max (a ++ newline :: b) ps ↔ Fits max b ps := by
  simp only [Fits, List.append_assoc, List.cons_append, unterminated_append_newline]

theorem fits_of_rest {max : ℕ} {b : Bytes} {ps : List Bytes} :
    Fits max [] (if b = [] then ps else b :: ps) ↔ Fits max b ps := by
  split
  · rename_i hb
    rw [hb]
  · rw [fits_cons, List.nil_append]
    exact and_iff_right (Nat.zero_le _)

/-- A line that grows beyond `max` does not fit. -/
theorem not_fits_of_lt {max : ℕ} {buf p : Bytes} {ps : List Bytes} (hbuf : newline ∉ buf)
    (hnone : newline ∉ p) (hover : max < (buf ++ p).length) : ¬ Fits max buf (p :: ps) := by
  intro hfits
  have hgrown : newline ∉ buf ++ p := by simp [hbuf, hnone]
  have hend := (fits_cons.mp hfits).2 [] ((List.mem_inits _ _).mpr List.nil_prefix)
  rw [List.flatten_nil, List.append_nil, unterminated_of_notMem hgrown] at hend
  omega

/-! ## Calls -/

/-- What a line should be read as. -/
def verdict (max : ℕ) (line : Bytes) : LineRead :=
  if max < (stripCr line).length then .invalidData else .line (stripCr line)

/-- The results of so many calls, each on the reader the last one left. -/
def calls (max : ℕ) : ℕ → Reader → List LineRead
  | 0, _ => []
  | n + 1, reader => (readLineBounded max reader).1 :: calls max n (readLineBounded max reader).2

theorem readLoop_of_more {max : ℕ} {buf buf' : Bytes} {reader reader' : Reader}
    (h : readPass max buf reader = .more buf' reader') :
    readLoop max buf reader = readLoop max buf' reader' := by
  rw [readLoop]
  split
  · rename_i hpass
    obtain ⟨rfl, rfl⟩ := Pass.more.inj (h.symm.trans hpass)
    rfl
  · rename_i hpass
    cases h.symm.trans hpass

theorem readLoop_of_done {max : ℕ} {buf : Bytes} {reader reader' : Reader} {result : LineRead}
    (h : readPass max buf reader = .done result reader') :
    readLoop max buf reader = (result, reader') := by
  rw [readLoop]
  split
  · rename_i hpass
    cases h.symm.trans hpass
  · rename_i hpass
    obtain ⟨rfl, rfl⟩ := Pass.done.inj (h.symm.trans hpass)
    rfl

/-- What a call comes to while a newline is still to come: it takes a line, whose pieces all fit; or
it gives up at the end of a piece that does not. -/
inductive Called (max : ℕ) (buf : Bytes) (reader : Reader) : LineRead × Reader → Prop
  | line {line : Bytes} {rest : Reader} (hline : newline ∉ line)
    (hbytes : reader.bytes = line ++ newline :: rest.bytes)
    (hpieces : ∀ p ∈ rest.pieces, p ≠ [])
    (hfits : Fits max buf reader.pieces ↔ Fits max [] rest.pieces) :
    Called max buf reader (verdict max (buf ++ line), rest)
  | cut {part : Bytes} {rest : Reader} (hpart : newline ∉ part)
    (hbytes : reader.bytes = part ++ rest.bytes) (hpieces : ∀ p ∈ rest.pieces, p ≠ [])
    (hover : ¬ Fits max buf reader.pieces) : Called max buf reader (.invalidData, rest)

/-- A piece without a newline goes before whatever the call then comes to. -/
theorem Called.more {max : ℕ} {buf p : Bytes} {reader reader' : Reader} {result : LineRead × Reader}
    (hnone : newline ∉ p) (hbytes : reader.bytes = p ++ reader'.bytes)
    (hiff : Fits max buf reader.pieces ↔ Fits max (buf ++ p) reader'.pieces)
    (h : Called max (buf ++ p) reader' result) : Called max buf reader result := by
  cases h with
  | @line line rest hline hbytes' hpieces hfits =>
    have hboth : newline ∉ p ++ line := by simp [hnone, hline]
    rw [List.append_assoc]
    refine .line hboth ?_ hpieces (hiff.trans hfits)
    rw [hbytes, hbytes', List.append_assoc]
  | @cut part rest hpart hbytes' hpieces hover =>
    have hboth : newline ∉ p ++ part := by simp [hnone, hpart]
    refine .cut hboth ?_ hpieces fun hfits => hover (hiff.mp hfits)
    rw [hbytes, hbytes', List.append_assoc]

theorem called_readLoop {max : ℕ} {buf : Bytes} {reader : Reader} (hbuf : newline ∉ buf)
    (hheld : buf.length ≤ max) (hpieces : ∀ p ∈ reader.pieces, p ≠ [])
    (hnewline : newline ∈ reader.bytes) :
    Called max buf reader (readLoop max buf reader) := by
  induction hps : reader.pieces generalizing buf reader with
  | nil =>
    rw [Reader.bytes_eq_flatten, hps] at hnewline
    cases hnewline
  | cons p ps ih =>
    have hfill := Reader.fillBuf_of_cons hps
    rw [hps, List.forall_mem_cons] at hpieces
    have hcons : Fits max buf reader.pieces ↔ Fits max (buf ++ p) ps := by
      rw [hps, fits_cons, unterminated_of_notMem hbuf]
      exact and_iff_right hheld
    rcases readPass_cases max buf reader with ⟨hempty, -⟩ | ⟨a, b, hsplit, ha, hbytes, hpass⟩ |
      ⟨-, hnone, hbytes, hpass⟩
    · rw [hfill] at hempty
      exact absurd hempty hpieces.1
    · -- the line ends in this piece
      rw [readLoop_of_done hpass]
      rw [hfill] at hsplit hbytes ⊢
      dsimp only at hsplit hbytes ⊢
      subst hsplit
      have hleft := Reader.pieces_consume_line a b ps
      refine .line ha hbytes ?_ ?_
      · rw [hleft]
        split
        · exact hpieces.2
        · rename_i hb
          exact List.forall_mem_cons.mpr ⟨hb, hpieces.2⟩
      · rw [hcons, hleft, fits_of_rest, ← List.append_assoc, fits_append_newline]
    · rw [hfill] at hnone hbytes hpass
      dsimp only at hnone hbytes hpass
      have hleft := Reader.pieces_consume_all p ps
      by_cases hover : max < (buf ++ p).length
      · rw [if_pos hover] at hpass
        rw [readLoop_of_done hpass]
        refine .cut hnone hbytes (by rw [hleft]; exact hpieces.2) ?_
        rw [hps]
        exact not_fits_of_lt hbuf hnone hover
      · rw [if_neg hover] at hpass
        rw [readLoop_of_more hpass]
        have hgrown : newline ∉ buf ++ p := by simp [hbuf, hnone]
        have hmore : newline ∈ (Reader.consume ⟨p, ps⟩ p.length).bytes := by
          rw [hbytes] at hnewline
          exact (List.mem_append.mp hnewline).resolve_left hnone
        refine .more hnone hbytes (by rw [hcons, hleft]) ?_
        exact ih hgrown (not_lt.mp hover) (by rw [hleft]; exact hpieces.2) hmore hleft

/-- A call takes at most one line of the stream. -/
theorem length_lines_le (max : ℕ) {reader : Reader} (hpieces : ∀ p ∈ reader.pieces, p ≠ [])
    (hnewline : newline ∈ reader.bytes) :
    (readLineBounded max reader).1 ≠ .eof ∧
    (∀ p ∈ (readLineBounded max reader).2.pieces, p ≠ []) ∧
    (terminatedLines reader.bytes).length ≤
      (terminatedLines (readLineBounded max reader).2.bytes).length + 1 := by
  have hcalled : Called max [] reader (readLineBounded max reader) :=
    called_readLoop (List.not_mem_nil) (Nat.zero_le _) hpieces hnewline
  generalize readLineBounded max reader = result at hcalled ⊢
  cases hcalled with
  | line hline hbytes hpieces' hfits =>
    refine ⟨?_, hpieces', ?_⟩
    · dsimp only
      unfold verdict
      split <;> simp
    · rw [hbytes, terminatedLines_append hline, List.length_cons]
  | cut hpart hbytes hpieces' hover =>
    refine ⟨by simp, hpieces', ?_⟩
    rw [hbytes, length_terminatedLines_append hpart]
    exact Nat.le_succ _

/-- The end of the stream is not reported before all of its lines had a call. -/
theorem length_lines_lt_of_eof {max n : ℕ} {reader : Reader}
    (hpieces : ∀ p ∈ reader.pieces, p ≠ []) (heof : .eof ∈ calls max n reader) :
    (terminatedLines reader.bytes).length < n := by
  induction n generalizing reader with
  | zero => cases heof
  | succ n ih =>
    by_cases hnewline : newline ∈ reader.bytes
    · obtain ⟨hne, hpieces', hle⟩ := length_lines_le max hpieces hnewline
      have hrest := ih hpieces' ((List.mem_cons.mp heof).resolve_left hne.symm)
      omega
    · rw [terminatedLines_of_notMem hnewline]
      exact Nat.succ_pos n

theorem calls_of_nil {max : ℕ} {reader : Reader} (h : reader.pieces = []) :
    calls max 1 reader = [.eof] := by
  have hread : readLineBounded max reader = (.eof, reader.fillBuf.2) := by
    refine readLoop_of_done ?_
    rcases readPass_cases max [] reader with ⟨-, hpass⟩ | ⟨a, b, hsplit, -⟩ | ⟨hne, -⟩
    · exact hpass
    · rw [Reader.fillBuf_of_nil h] at hsplit
      exact absurd hsplit.symm (by simp)
    · exact absurd (Reader.fillBuf_of_nil h) hne
  rw [calls, calls, hread]

theorem pieces_eq_nil {reader : Reader} (hpieces : ∀ p ∈ reader.pieces, p ≠ [])
    (h : reader.bytes = []) : reader.pieces = [] := by
  rw [Reader.bytes_eq_flatten, List.flatten_eq_nil_iff] at h
  exact List.eq_nil_iff_forall_not_mem.mpr fun p hp => hpieces p hp (h p hp)

/-- The results are those of the lines if no piece ends too far into a line, by induction on the
number of lines. A call that gives up leaves as many lines as there were, so that the calls do not
reach the end of the stream. -/
theorem calls_eq_verdicts_of_length {max n : ℕ} {reader : Reader}
    (hpieces : ∀ p ∈ reader.pieces, p ≠ []) (hstream : Terminated reader.bytes)
    (hn : (terminatedLines reader.bytes).length = n) :
    calls max (n + 1) reader = (terminatedLines reader.bytes).map (verdict max) ++ [.eof] ↔
      Fits max [] reader.pieces := by
  induction n generalizing reader with
  | zero =>
    have hnone : newline ∉ reader.bytes := by
      intro hmem
      obtain ⟨line, rest, heq, hline⟩ := List.eq_append_cons_of_mem hmem
      rw [heq, terminatedLines_append hline] at hn
      cases hn
    have hbytes := eq_nil_of_terminated hstream hnone
    have hnil := pieces_eq_nil hpieces hbytes
    rw [calls_of_nil hnil, hnil, terminatedLines_of_notMem hnone]
    exact iff_of_true rfl (fits_nil.mpr (Nat.zero_le _))
  | succ n ih =>
    have hnewline : newline ∈ reader.bytes := by
      by_contra hnone
      rw [terminatedLines_of_notMem hnone] at hn
      cases hn
    have hcalled : Called max [] reader (readLineBounded max reader) :=
      called_readLoop List.not_mem_nil (Nat.zero_le _) hpieces hnewline
    rw [calls]
    generalize readLineBounded max reader = result at hcalled ⊢
    cases hcalled with
    | @line line rest hline hbytes hpieces' hfits =>
      rw [hbytes, terminated_append_newline] at hstream
      rw [hbytes, terminatedLines_append hline, List.length_cons, Nat.add_right_cancel_iff] at hn
      rw [hfits, hbytes, terminatedLines_append hline, ← ih hpieces' hstream hn, List.nil_append,
        List.map_cons, List.cons_append, List.cons.injEq, and_iff_right rfl]
    | @cut part rest hpart hbytes hpieces' hover =>
      refine iff_of_false (fun heq => ?_) hover
      obtain ⟨first, lines, hlines⟩ := List.exists_cons_of_length_eq_add_one hn
      rw [hlines, List.map_cons, List.cons_append, List.cons.injEq] at heq
      have heof : .eof ∈ calls max (n + 1) rest := by
        rw [heq.2]
        exact List.mem_append_right _ List.mem_cons_self
      have hlt := length_lines_lt_of_eof hpieces' heof
      rw [hbytes, length_terminatedLines_append hpart] at hn
      omega

/-- **When lines are read as they are.** Calls on a stream of lines, cut into non-empty reads, give
the results of its lines and then the end of the stream exactly if no read ends after more than
`max` bytes of a line that goes on. -/
theorem calls_eq_verdicts_iff (max : ℕ) (chunks : List Bytes) (hchunks : ∀ c ∈ chunks, c ≠ [])
    (hstream : Terminated chunks.flatten) :
    calls max ((terminatedLines chunks.flatten).length + 1) ⟨[], chunks⟩ =
        (terminatedLines chunks.flatten).map (verdict max) ++ [.eof] ↔
      ∀ before ∈ chunks.inits, (unterminated before.flatten).length ≤ max :=
  calls_eq_verdicts_of_length hchunks hstream rfl

/-- The line "ab" with a carriage return, in three reads. -/
theorem calls_eq_verdicts_iff_three :
    calls 3 2 ⟨[], [[0x61], [0x62, 0x0d], [0x0a]]⟩ = [.line [0x61, 0x62], .eof] :=
  (calls_eq_verdicts_iff 3 [[0x61], [0x62, 0x0d], [0x0a]] (by decide) (by exact rfl)).mpr
    (by decide +kernel)

/-- With a limit of two bytes the line "ab" with a carriage return is read if it comes in one piece;
if the newline comes after a cut, it is refused, and an empty line is read after it. -/
theorem cut_line_refused :
    calls 2 2 ⟨[], [[0x61, 0x62, 0x0d, 0x0a]]⟩ = [.line [0x61, 0x62], .eof] ∧
    calls 2 2 ⟨[], [[0x61, 0x62, 0x0d], [0x0a]]⟩ = [.invalidData, .line []] := by
  decide +kernel

end BtcPool.Sv1
