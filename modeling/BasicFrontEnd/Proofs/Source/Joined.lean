import BasicFrontEnd.Proofs.Token.Lines
import BasicFrontEnd.Proofs.Token.Placed

/-!
Sources put together at a line feed. What stands before the line feed is read as it is alone, with a comment closed
by the line feed, and what stands behind it as it is alone, some lines further down. Main statement:
`Source.tokens_joined`.
-/

namespace BasicFrontEnd

open Text

-- The place `n` lines further down.
def Position.below (n : Nat) (p : Position) : Position :=
  ⟨p.line + n, p.column⟩

def Diagnostic.below (n : Nat) (d : Diagnostic) : Diagnostic :=
  { d with position := d.position.below n }

theorem Position.advance_below (n : Nat) (p : Position) (cs : List Char) :
    (p.below n).advance cs = (p.advance cs).below n := by
  induction cs generalizing p
  case nil => rfl
  case cons c cs ih =>
    have hafter : (p.below n).after c = (p.after c).below n := by
      unfold after below
      split
      case isTrue => simp [Nat.add_right_comm]
      case isFalse => rfl
    rw [advance_cons, advance_cons, hafter, ih]

namespace Lexical

variable {s t : Source} {segment : Segment} {text rest : List Char} {row : List Piece}

section Rows

theorem placedFrom_below (n : Nat) (p : Position) (row : List Piece) :
    placedFrom (p.below n) row = (placedFrom p row).map (Prod.map id (.below n)) := by
  induction row generalizing p
  case nil => rfl
  case cons q row ih =>
    rw [placedFrom, placedFrom, Position.advance_below, ih, List.map_append]
    cases q.word? <;> rfl

-- In front of a line feed a segment is cut off as it is, or it is a comment that the line feed closes.
theorem Spells.closed (h : Spells segment text) :
    (∀ rest, Cut segment text ('\n' :: rest)) ∨ segment = .comment ∧ ∀ rest, Cut .comment (text ++ ['\n']) rest := by
  cases h
  case blank hc => exact .inl fun _ => .of_blank hc
  case comment hc => exact .inr ⟨rfl, fun _ => .of_comment hc⟩
  case closedComment hc => exact .inl fun _ => .of_comment hc
  case lexeme h => exact .inl fun rest => h.cut (endsBefore_gap (.inl (by decide)) _)

-- A row up to the end of a source can be closed by a line feed: then anything may follow, and its words are the same.
theorem Row.exists_closed (h : Row row []) :
    ∃ closed, textOf closed = textOf row ++ ['\n'] ∧ (∀ rest, Row closed rest) ∧
      (∀ p, placedFrom p closed = placedFrom p row) ∧ ((∀ q ∈ row, q.Fits) → ∀ q ∈ closed, q.Fits) := by
  have hblank : Piece.Fits ⟨.blank, ['\n']⟩ := fits_of_word?_eq_none rfl
  induction row
  case nil =>
    exact ⟨[⟨.blank, ['\n']⟩], rfl, fun _ => .cons (.of_blank (by simp)) .nil, fun _ => rfl, by simpa using hblank⟩
  case cons q row ih =>
    obtain ⟨hcut, hrow⟩ := row_cons_iff.mp h
    obtain _ | ⟨q', row⟩ := row
    case cons =>
      obtain ⟨closed, htext, hclosed, hplaced, hfits⟩ := ih hrow
      have hne : textOf (q' :: row) ≠ [] := by simp [(row_cons_iff.mp hrow).1.spells.ne_nil]
      refine ⟨q :: closed, by simp [htext], fun rest => .cons ?_ (hclosed rest), fun p => ?_, fun h => ?_⟩
      case refine_1 =>
        have hhead : (textOf closed ++ rest).head? = (textOf (q' :: row) ++ []).head? := by
          rw [htext, List.append_assoc, List.head?_append_of_ne_nil _ hne, List.append_nil]
        exact hcut.refill (by simpa using hne) (.inl hhead)
      case refine_2 => rw [placedFrom, placedFrom, hplaced]
      case refine_3 =>
        rw [List.forall_mem_cons] at h ⊢
        exact ⟨h.1, hfits h.2⟩
    case nil =>
      obtain hcut' | ⟨hsegment, hcut'⟩ := hcut.spells.closed
      case inl =>
        refine ⟨[q, ⟨.blank, ['\n']⟩], by simp, fun rest => .cons (hcut' rest) (.cons (.of_blank (by simp)) .nil),
          fun p => rfl, fun h => ?_⟩
        simpa using ⟨h q List.mem_cons_self, hblank⟩
      case inr =>
        refine ⟨[⟨.comment, q.text ++ ['\n']⟩], by simp, fun rest => .cons (hcut' rest) .nil, fun p => ?_, fun _ => ?_⟩
        · simp [placedFrom, Piece.word?, hsegment]
        · simpa using fits_of_word?_eq_none rfl

end Rows

section Lines

variable {offset n : Nat} {whole : List UInt8} {d : Diagnostic}

-- Behind the first `offset` bytes of `s`, which are `n` whole lines, come the bytes and lines of `t`.
structure Resumes (s t : Source) (offset n : Nat) : Prop where
  place  : ∀ k, placeAt s.bytes (offset + k) = (placeAt t.bytes k).below n
  line   : ∀ m, s.lines.get (1 + m + n) = t.lines.get (1 + m)
  size   : s.lines.size = t.lines.size + n
  length : s.bytes.length = offset + t.bytes.length

theorem placeAt_eq_advance_take (bs : List UInt8) (k : Nat) :
    placeAt bs k = Position.start.advance (latin1 (bs.take k)) := by
  rw [advance_latin1, placeAt, placeAt, List.take_length]

theorem placeAt_of_ended (h : Ended (· == 0x0A) whole) :
    placeAt whole whole.length = Position.start.below (whole.count 0x0A) := by
  have hnil : ∀ b ∈ ([] : List UInt8), (b == 0x0A) = false := by simp
  have hplace := placeAt_append h hnil []
  simpa [Position.below, Position.start] using hplace

theorem resumes_of_ended (hs : s.Indexed) (ht : t.Indexed) (hbytes : s.bytes = whole ++ t.bytes)
    (hwhole : Ended (· == 0x0A) whole) : Resumes s t whole.length (whole.count 0x0A) := by
  obtain ⟨happend, hlength⟩ := hwhole.splitAfter_append t.bytes
  constructor
  case place =>
    intro k
    have hwholePlace := placeAt_of_ended hwhole
    rw [placeAt_eq_advance_take, List.take_length] at hwholePlace
    rw [placeAt_eq_advance_take, placeAt_eq_advance_take, hbytes, List.take_length_add_append, latin1, List.map_append,
      Position.advance_append, ← latin1, ← latin1, hwholePlace, Position.advance_below]
  case line =>
    intro m
    rw [hs, ht, Lines.get, Lines.get, Nat.add_assoc, Lines.get?_ofBytes, Lines.get?_ofBytes, hbytes, happend,
      List.count, ← hlength, List.getElem?_append_right (Nat.le_add_left _ _), Nat.add_sub_cancel]
  case size =>
    rw [hs, ht, Lines.size_ofBytes, Lines.size_ofBytes, hbytes, happend, List.length_append, hlength, Nat.add_comm]
    rfl
  case length => rw [hbytes, List.length_append]

namespace Resumes

theorem faultAt (h : Resumes s t offset n) (k : Nat) (cause : Cause) :
    Token.faultAt s.lines (placeAt s.bytes (offset + k)) cause =
      (Token.faultAt t.lines (placeAt t.bytes k) cause).below n := by
  rw [h.place, Token.faultAt, Token.faultAt, Diagnostic.below]
  exact congrArg (fun line => (⟨cause, _, some line⟩ : Diagnostic)) (h.line _)

theorem blocked (h : Resumes s t offset n) (hblocked : Blocked t k rest d) :
    Blocked s (offset + k) rest (d.below n) := by
  cases hblocked
  case stuck hstuck =>
    rw [← h.faultAt, ← Nat.add_assoc]
    exact .stuck hstuck
  case tooLong hcut hlong =>
    rw [← h.faultAt]
    exact .tooLong hcut hlong

-- The end is where it is without what comes before, unless nothing stands behind: then it is in the line before.
theorem endPosition (h : Resumes s t offset n) (hne : 0 < t.lines.size) : s.endPosition = t.endPosition.below n := by
  obtain ⟨m, hm⟩ := Nat.exists_eq_add_of_lt hne
  rw [Source.endPosition, Source.endPosition, h.length, h.place]
  have hline := h.line m
  have hsize := h.size
  rw [show 1 + m = t.lines.size by omega, ← hsize] at hline
  unfold Token.endPosition
  rw [hline]
  split
  case isTrue hend =>
    have hend' : 0 < t.lines.size ∧ t.lines.size < (placeAt t.bytes t.bytes.length).line := by
      simp only [Position.below] at hend
      omega
    rw [if_pos hend', Position.below, hsize]
  case isFalse hend =>
    have hend' : ¬(0 < t.lines.size ∧ t.lines.size < (placeAt t.bytes t.bytes.length).line) := by
      simp only [Position.below] at hend
      omega
    rw [if_neg hend']

-- Behind pieces that end in front of anything, the source has the pieces of what comes behind them, or is blocked where
-- that is.
theorem tokens_placed (h : Resumes s t (textOf row).length n) (hrow : ∀ rest, Row row rest) (hfit : ∀ q ∈ row, q.Fits)
    (hs : s.chars = textOf row ++ t.chars) (hne : 0 < t.lines.size) :
    (∀ second, t.tokens = .ok second → ∃ stream, s.tokens = .ok stream ∧
      stream.placed = (⟨.head, "HEAD"⟩, .start) ::
        (placedFrom .start row ++ second.placed.tail.map (Prod.map id (.below n)))) ∧
    ∀ d, t.tokens = .error d → s.tokens = .error (d.below n) := by
  refine ⟨fun second hsecond => ?_, fun d hd => ?_⟩
  case refine_1 =>
    obtain ⟨row', hrow', ht, hfit', hplaced⟩ := exists_row_placed hsecond
    have hboth : Row (row ++ row') [] := row_append_iff.mpr ⟨hrow _, hrow'⟩
    obtain ⟨stream, hstream, hwords⟩ :=
      tokens_placed_of_row hboth (List.forall_mem_append.mpr ⟨hfit, hfit'⟩) (by rw [hs, ht, textOf_append])
    have hstart : Position.start.advance (textOf row) = Position.start.below n := by
      rw [← placeAt_eq hs]
      exact h.place 0
    refine ⟨stream, hstream, ?_⟩
    rw [hwords, hplaced, placedWords, placedWords, placedFrom_append, hstart, placedFrom_below, h.endPosition hne]
    simp
  case refine_2 =>
    obtain ⟨-, hblocked⟩ := tokens_iff_row t
    obtain ⟨row', rest, hrow', ht, hfit', hd⟩ := (hblocked d).mp hd
    have hboth : Row (row ++ row') rest := row_append_iff.mpr ⟨hrow _, hrow'⟩
    refine tokens_of_blocked_row hboth (List.forall_mem_append.mpr ⟨hfit, hfit'⟩) ?_ ?_
    · rw [hs, ht, textOf_append, List.append_assoc]
    · rw [textOf_append, List.length_append]
      exact h.blocked hd

end Resumes

end Lines

end Lexical

namespace Source

open Lexical

variable {a b : List UInt8}

theorem chars_joined (path : String) (a b : List UInt8) :
    (ofBytes path (a ++ 0x0A :: b)).chars = (ofBytes path a).chars ++ ['\n'] ++ (ofBytes path b).chars := by
  rw [List.append_assoc]
  exact List.map_append

theorem resumes_joined (path : String) (a b : List UInt8) :
    Resumes (ofBytes path (a ++ 0x0A :: b)) (ofBytes path b) (a.length + 1) (1 + a.count 0x0A) := by
  have hbytes : (ofBytes path (a ++ 0x0A :: b)).bytes = (a ++ [0x0A]) ++ (ofBytes path b).bytes := by simp [ofBytes]
  have hended : Ended (· == 0x0A) (a ++ [0x0A]) := ended_concat.mpr (beq_self_eq_true _)
  have hresumes := resumes_of_ended (indexed_ofBytes _ _) (indexed_ofBytes _ _) hbytes hended
  simpa [Nat.add_comm] using hresumes

theorem size_lines_pos (path : String) (hb : b ≠ []) : 0 < (ofBytes path b).lines.size := by
  show 0 < (Lines.ofBytes b).size
  rw [Lines.size_ofBytes]
  exact List.length_pos_iff.mpr (mt splitAfter_eq_nil_iff.mp hb)

-- Where `a` has tokens, `a` and `b` with a line feed between them have tokens just if `b` has. They are those of `a`
-- but for its end, and then those of `b` but for its head, further down by the line feeds before `b`. If `b` has none,
-- the fault is the one of `b`, as far down.
theorem tokens_joined (path : String) {first : Stream} (ha : (ofBytes path a).tokens = .ok first) (hb : b ≠ []) :
    let whole := ofBytes path (a ++ 0x0A :: b)
    let n := 1 + a.count 0x0A
    ((∃ stream, whole.tokens = .ok stream) ↔ ∃ second, (ofBytes path b).tokens = .ok second) ∧
      (∀ stream second, whole.tokens = .ok stream → (ofBytes path b).tokens = .ok second →
        stream.placed = first.placed.dropLast ++ second.placed.tail.map (Prod.map id (.below n))) ∧
      ∀ d, (ofBytes path b).tokens = .error d → whole.tokens = .error (d.below n) := by
  intro whole n
  obtain ⟨row, hrow, hchars, hfit, hfirst⟩ := exists_row_placed ha
  obtain ⟨closed, htext, hclosed, hwords, hfits⟩ := hrow.exists_closed
  rw [← hchars] at htext
  have hlength : (textOf closed).length = a.length + 1 := by
    rw [htext, List.length_append, chars, length_latin1]
    rfl
  have hwhole : whole.chars = textOf closed ++ (ofBytes path b).chars := htext ▸ chars_joined path a b
  have hresumes : Resumes whole (ofBytes path b) (textOf closed).length n := hlength ▸ resumes_joined path a b
  obtain ⟨hok, herror⟩ := hresumes.tokens_placed hclosed (hfits hfit) hwhole (size_lines_pos path hb)
  have hdrop : first.placed.dropLast = (⟨.head, "HEAD"⟩, .start) :: placedFrom .start closed := by
    rw [hfirst, placedWords, ← List.cons_append, List.dropLast_concat, hwords]
  refine ⟨⟨?_, ?_⟩, fun stream second hstream hsecond => ?_, herror⟩
  case refine_1 =>
    rintro ⟨stream, hstream⟩
    cases hsecond : (ofBytes path b).tokens
    case ok second => exact ⟨second, rfl⟩
    case error d => cases hstream.symm.trans (herror d hsecond)
  case refine_2 =>
    rintro ⟨second, hsecond⟩
    obtain ⟨stream, hstream, -⟩ := hok second hsecond
    exact ⟨stream, hstream⟩
  case refine_3 =>
    obtain ⟨stream', hstream', hplaced⟩ := hok second hsecond
    obtain rfl : stream' = stream := Except.ok.inj (hstream'.symm.trans hstream)
    rw [hplaced, hdrop, List.cons_append]

-- `x 'c` in front of a line with the number `12`: the line feed closes the comment.
theorem tokens_joined_comment :
    ∃ first second stream, (ofBytes "f" [0x78, 0x20, 0x27, 0x63]).tokens = .ok first ∧
      (ofBytes "f" [0x31, 0x32, 0x0A]).tokens = .ok second ∧
      (ofBytes "f" [0x78, 0x20, 0x27, 0x63, 0x0A, 0x31, 0x32, 0x0A]).tokens = .ok stream ∧
      stream.placed = first.placed.dropLast ++ second.placed.tail.map (Prod.map id (.below 1)) := by
  obtain ⟨first, hfirst⟩ := exists_stream (s := ofBytes "f" [0x78, 0x20, 0x27, 0x63]) (by decide +kernel)
  obtain ⟨second, hsecond⟩ := exists_stream (s := ofBytes "f" [0x31, 0x32, 0x0A]) (by decide +kernel)
  obtain ⟨hiff, hplaced, -⟩ := tokens_joined "f" hfirst (b := [0x31, 0x32, 0x0A]) (by simp)
  obtain ⟨stream, hstream⟩ := hiff.mpr ⟨second, hsecond⟩
  exact ⟨first, second, stream, hfirst, hsecond, hstream, hplaced stream second hstream hsecond⟩

end Source

end BasicFrontEnd
