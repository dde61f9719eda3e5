import BasicFrontEnd.Proofs.Source.Ending
import BasicFrontEnd.Proofs.Token.Placed

/-!
Sources whose lines end in a carriage return and a line feed. They have the tokens of the sources whose lines end in
line feeds alone, all at the same places: a carriage return at the end of a line is a blank, or belongs to the comment
that the line feed closes. Main statement: `Source.tokens_returned`.
-/

namespace BasicFrontEnd

namespace Text

section Lists

variable {α : Type} [DecidableEq α] {cr lf : α} {xs ys : List α}

-- The list with `cr` in front of each `lf`.
def withReturns (cr lf : α) (xs : List α) : List α :=
  xs.flatMap fun x => if x = lf then [cr, lf] else [x]

theorem withReturns_cons_self : withReturns cr lf (lf :: xs) = cr :: lf :: withReturns cr lf xs := by
  rw [withReturns, List.flatMap_cons, if_pos rfl]
  rfl

theorem withReturns_cons_of_ne (h : x ≠ lf) : withReturns cr lf (x :: xs) = x :: withReturns cr lf xs := by
  rw [withReturns, List.flatMap_cons, if_neg h]
  rfl

theorem withReturns_append : withReturns cr lf (xs ++ ys) = withReturns cr lf xs ++ withReturns cr lf ys :=
  List.flatMap_append

theorem withReturns_eq_self (h : lf ∉ xs) : withReturns cr lf xs = xs := by
  induction xs
  case nil => rfl
  case cons x xs ih =>
    rw [List.mem_cons, not_or] at h
    rw [withReturns_cons_of_ne (Ne.symm h.1), ih h.2]

theorem withReturns_concat_self : withReturns cr lf (xs ++ [lf]) = withReturns cr lf xs ++ [cr] ++ [lf] := by
  rw [withReturns_append, withReturns_cons_self, List.append_assoc]
  rfl

theorem count_withReturns (h : cr ≠ lf) : (withReturns cr lf xs).count lf = xs.count lf := by
  induction xs
  case nil => rfl
  case cons x xs ih =>
    by_cases hx : x = lf
    case pos => rw [hx, withReturns_cons_self, List.count_cons_of_ne h, List.count_cons_self, List.count_cons_self, ih]
    case neg => rw [withReturns_cons_of_ne hx, List.count_cons_of_ne hx, List.count_cons_of_ne hx, ih]

end Lists

section Bytes

theorem latin1_withReturns (bs : List UInt8) :
    latin1 (withReturns 0x0D 0x0A bs) = withReturns '\r' '\n' (latin1 bs) := by
  induction bs
  case nil => rfl
  case cons b bs ih =>
    by_cases hb : b = 0x0A
    case pos =>
      rw [hb, withReturns_cons_self]
      exact (congrArg ('\r' :: '\n' :: ·) ih).trans withReturns_cons_self.symm
    case neg =>
      rw [withReturns_cons_of_ne hb]
      exact (congrArg (Char.ofUInt8 b :: ·) ih).trans
        (withReturns_cons_of_ne (mt Lexical.ofUInt8_eq_lineFeed.mp hb)).symm

theorem encode_withReturns (cs : List Char) :
    encode (withReturns '\r' '\n' cs) = withReturns 0x0D 0x0A (encode cs) := by
  induction cs
  case nil => rfl
  case cons c cs ih =>
    rw [encode_cons, withReturns_append, ← ih]
    by_cases hc : c = '\n'
    case pos =>
      rw [hc, withReturns_cons_self]
      rfl
    case neg =>
      rw [withReturns_cons_of_ne hc, encode_cons, withReturns_eq_self (lineFeed_not_mem_utf8EncodeChar hc)]

end Bytes

end Text

open Text

theorem Position.advance_withReturns (p : Position) (cs : List Char) :
    p.advance (withReturns '\r' '\n' cs) = p.advance cs := by
  induction cs generalizing p
  case nil => rfl
  case cons c cs ih =>
    by_cases hc : c = '\n'
    case pos =>
      rw [hc, withReturns_cons_self, advance_cons, advance_cons, ih]
      rfl
    case neg => rw [withReturns_cons_of_ne hc, advance_cons, advance_cons, ih]

namespace Lexical

variable {s t : Source} {segment : Segment} {text rest : List Char} {row : List Piece}

section Pieces

-- A lexeme is in one line.
def Piece.Unbroken (p : Piece) : Prop :=
  ∀ kind value, p.segment = .lexeme kind value → '\n' ∉ p.text

-- The pieces of a piece with a carriage return in front of each line feed. A line feed that is a blank gets one more
-- blank in front of it.
def Piece.returned (p : Piece) : List Piece :=
  if p.text = ['\n'] then [⟨.blank, ['\r']⟩, p] else [{ p with text := withReturns '\r' '\n' p.text }]

theorem Piece.textOf_returned (p : Piece) : textOf p.returned = withReturns '\r' '\n' p.text := by
  unfold returned
  split
  case isTrue h => simp [h, withReturns]
  case isFalse => simp

theorem Piece.fits_returned {p : Piece} (h : p.Fits) : ∀ q ∈ p.returned, q.Fits := by
  unfold returned
  split
  case isTrue => simpa using ⟨fits_of_word?_eq_none rfl, h⟩
  case isFalse => exact List.forall_mem_singleton.mpr h

theorem Piece.placedFrom_returned {p : Piece} (hp : p.Unbroken) (start : Position) :
    placedFrom start p.returned = placedFrom start [p] := by
  unfold returned
  split
  case isFalse => rfl
  case isTrue h =>
    have hword : p.word? = none := by
      cases hsegment : p.segment
      case lexeme => exact absurd (h ▸ List.mem_singleton_self _) (hp _ _ hsegment)
      all_goals simp [word?, hsegment]
    rw [placedFrom, placedFrom, placedFrom, placedFrom, hword]
    rfl

-- What a segment is cut off in front of may get carriage returns.
theorem Cut.withReturns (h : Cut segment text rest) : Cut segment text (Text.withReturns '\r' '\n' rest) := by
  cases rest
  case nil => exact h
  case cons c rest =>
    refine h.refill (List.cons_ne_nil _ _) ?_
    by_cases hc : c = '\n'
    case pos =>
      rw [hc, withReturns_cons_self]
      exact .inr ⟨'\r', _, rfl, .inl (by decide)⟩
    case neg =>
      rw [withReturns_cons_of_ne hc]
      exact .inl rfl

theorem Cut.row_returned {p : Piece} (h : Cut p.segment p.text rest) (hp : p.Unbroken) :
    Row p.returned (Text.withReturns '\r' '\n' rest) := by
  obtain ⟨segment, text⟩ := p
  unfold Piece.returned
  split
  case isTrue htext => exact .cons (.of_blank (by simp)) (.cons h.withReturns .nil)
  case isFalse htext =>
    refine .cons ?_ .nil
    have hsame (hmem : '\n' ∉ text) :
        Cut segment (Text.withReturns '\r' '\n' text) (Text.withReturns '\r' '\n' rest) := by
      rw [withReturns_eq_self hmem]
      exact h.withReturns
    cases h.spells
    case blank c hc => exact hsame fun hmem => htext (by rw [List.mem_singleton.mp hmem])
    case comment cs hcs => exact hsame (by simpa using hcs)
    case lexeme kind value hlexeme => exact hsame (hp kind value rfl)
    case closedComment cs hcs =>
      have hcs' : '\n' ∉ cs ++ ['\r'] := by simpa using hcs
      rw [← List.cons_append, withReturns_concat_self, withReturns_cons_of_ne (by decide), withReturns_eq_self hcs]
      exact .of_comment hcs'

end Pieces

section Rows

theorem textOf_flatMap_returned (row : List Piece) :
    textOf (row.flatMap Piece.returned) = withReturns '\r' '\n' (textOf row) := by
  induction row
  case nil => rfl
  case cons p row ih => rw [List.flatMap_cons, textOf_append, p.textOf_returned, ih, textOf_cons, withReturns_append]

theorem Row.returned (h : Row row rest) (hrow : ∀ p ∈ row, p.Unbroken) :
    Row (row.flatMap Piece.returned) (withReturns '\r' '\n' rest) := by
  induction h
  case nil => exact .nil
  case cons row rest p hcut _ ih =>
    rw [List.forall_mem_cons] at hrow
    rw [List.flatMap_cons, row_append_iff, textOf_flatMap_returned, ← withReturns_append]
    exact ⟨hcut.row_returned hrow.1, ih hrow.2⟩

theorem placedFrom_returned (hrow : ∀ p ∈ row, p.Unbroken) (start : Position) :
    placedFrom start (row.flatMap Piece.returned) = placedFrom start row := by
  induction row generalizing start
  case nil => rfl
  case cons p row ih =>
    rw [List.forall_mem_cons] at hrow
    rw [List.flatMap_cons, placedFrom_append, Piece.placedFrom_returned hrow.1, p.textOf_returned,
      Position.advance_withReturns, ih hrow.2, placedFrom, placedFrom, List.append_nil, placedFrom]

end Rows

section Ends

variable {bs whole line : List UInt8}

theorem withReturns_line (hline : ∀ b ∈ line, (b == 0x0A) = false) : withReturns 0x0D 0x0A line = line :=
  withReturns_eq_self fun hmem => absurd (hline _ hmem) (by decide)

theorem ended_withReturns (h : Ended (· == 0x0A) whole) : Ended (· == 0x0A) (withReturns 0x0D 0x0A whole) := by
  obtain rfl | ⟨whole, b, rfl⟩ := whole.eq_nil_or_concat'
  case inl => exact h
  case inr =>
    rw [show b = 0x0A by simpa using ended_concat.mp h, withReturns_concat_self]
    exact ended_concat.mpr (beq_self_eq_true _)

-- The carriage returns at the end of the last line are left out anyway.
theorem closedLine_withReturns (h : Ended (· == 0x0A) bs) : closedLine (withReturns 0x0D 0x0A bs) = closedLine bs := by
  obtain rfl | ⟨bs, b, rfl⟩ := bs.eq_nil_or_concat'
  case inl => rfl
  case inr =>
    obtain ⟨whole, line, rfl, hwhole, hline⟩ := exists_ended_append (· == 0x0A) bs
    have hreturn : ∀ b ∈ line ++ [0x0D], (b == 0x0A) = false := List.forall_mem_append.mpr ⟨hline, by simp⟩
    rw [show b = 0x0A by simpa using ended_concat.mp h, withReturns_concat_self, withReturns_append,
      withReturns_line hline, List.append_assoc (withReturns 0x0D 0x0A whole),
      closedLine_of_ended (ended_withReturns hwhole) hreturn, closedLine_of_ended hwhole hline, dropEndWhile_concat]
    rfl

theorem endPosition_withReturns (hs : s.Indexed) (ht : t.Indexed) (h : t.bytes = withReturns 0x0D 0x0A s.bytes) :
    t.endPosition = s.endPosition := by
  have hcount : t.bytes.count 0x0A = s.bytes.count 0x0A := by rw [h, count_withReturns (by decide)]
  obtain ⟨whole, line, hbytes, hwhole, hline⟩ := exists_ended_append (· == 0x0A) s.bytes
  by_cases hopen : line = []
  case neg =>
    have hbytes' : t.bytes = withReturns 0x0D 0x0A whole ++ line := by
      rw [h, hbytes, withReturns_append, withReturns_line hline]
    obtain ⟨-, hend, hplace⟩ := hs.endPosition_of_not_ended hbytes hwhole hline hopen
    obtain ⟨-, hend', hplace'⟩ := ht.endPosition_of_not_ended hbytes' (ended_withReturns hwhole) hline hopen
    rw [Source.endPosition, Source.endPosition, hend, hend', hplace, hplace', hcount]
  case pos =>
    have hended : Ended (· == 0x0A) s.bytes := by rwa [hbytes, hopen, List.append_nil]
    have hended' : Ended (· == 0x0A) t.bytes := h ▸ ended_withReturns hended
    by_cases hne : s.bytes = []
    case pos =>
      have hbytes' : t.bytes = s.bytes := by rw [h, hne]; rfl
      rw [Source.endPosition, Source.endPosition, hs, ht, hbytes']
    case neg =>
      have hne' : t.bytes ≠ [] := fun hnil => by
        have hpos := count_pos_of_ended hended hne
        rw [← hcount, hnil] at hpos
        exact Nat.lt_irrefl _ hpos
      obtain ⟨-, hend⟩ := hs.endPosition_of_ended hended hne
      obtain ⟨-, hend'⟩ := ht.endPosition_of_ended hended' hne'
      rw [Source.endPosition, Source.endPosition, hend, hend', withoutLineEnd_last hs hended hne,
        withoutLineEnd_last ht hended' hne', hcount, h, closedLine_withReturns hended]

end Ends

end Lexical

namespace Source

open Lexical

variable {s t : Source}

-- `t` is `s` with a carriage return in front of each line feed.
inductive Returned : Source → Source → Prop
  | text (text : String) : Returned (ofText text) (ofText (.ofList (withReturns '\r' '\n' text.toList)))
  | file (path : String) (bytes : List UInt8) :
    Returned (ofBytes path bytes) (ofBytes path (withReturns 0x0D 0x0A bytes))

-- Each string of the source is in one line.
def Unbroken (s : Source) : Prop :=
  ∀ row, Row row [] → s.chars = textOf row →
    ∀ p ∈ row, ∀ value, p.segment = .lexeme .string value → '\n' ∉ p.text

theorem Unbroken.piece (h : s.Unbroken) (hrow : Row row []) (hs : s.chars = textOf row) : ∀ p ∈ row, p.Unbroken := by
  intro p hp kind value hsegment
  by_cases hkind : kind = .string
  case pos => exact h row hrow hs p hp value (hkind ▸ hsegment)
  case neg =>
    have hspells := hrow.spells p hp
    rw [hsegment] at hspells
    cases hspells
    case lexeme hlexeme => exact fun hmem => absurd (hlexeme.isVisible hkind _ hmem) (by decide)

theorem Returned.indexed (h : Returned s t) : s.Indexed ∧ t.Indexed := by
  cases h
  case text => exact ⟨indexed_ofText _, indexed_ofText _⟩
  case file => exact ⟨indexed_ofBytes _ _, indexed_ofBytes _ _⟩

theorem Returned.bytes (h : Returned s t) : t.bytes = withReturns 0x0D 0x0A s.bytes := by
  cases h
  case text text =>
    rw [ofText, ofText, String.toList_ofList]
    exact encode_withReturns _
  case file => rfl

-- A source has the same tokens, at the same places, with a carriage return in front of each line feed, unless a string
-- goes over a line feed.
theorem tokens_returned {stream : Stream} (h : Returned s t) (hs : s.tokens = .ok stream) (hstrings : s.Unbroken) :
    ∃ stream', t.tokens = .ok stream' ∧ stream'.placed = stream.placed := by
  obtain ⟨row, hrow, hchars, hfit, hplaced⟩ := exists_row_placed hs
  have hunbroken := hstrings.piece hrow hchars
  have hchars' : t.chars = textOf (row.flatMap Piece.returned) := by
    rw [chars, h.bytes, latin1_withReturns, ← chars, hchars, textOf_flatMap_returned]
  have hfit' : ∀ p ∈ row.flatMap Piece.returned, p.Fits := fun q hq => by
    obtain ⟨p, hp, hq⟩ := List.mem_flatMap.mp hq
    exact Piece.fits_returned (hfit p hp) q hq
  obtain ⟨hindexed, hindexed'⟩ := h.indexed
  obtain ⟨stream', hstream', hplaced'⟩ := tokens_placed_of_row (hrow.returned hunbroken) hfit' hchars'
  refine ⟨stream', hstream', ?_⟩
  rw [hplaced', hplaced, placedWords, placedWords, placedFrom_returned hunbroken,
    endPosition_withReturns hindexed hindexed' h.bytes]

-- A string can only go over a line feed if a quote stands behind it.
theorem unbroken_of_pairwise (h : s.chars.Pairwise fun c d => c = '\n' → d ≠ '"') : s.Unbroken := by
  intro row hrow hs p hp value hsegment hmem
  have hspells := hrow.spells p hp
  have htext : p.text.Sublist s.chars := by
    rw [hs]
    exact List.sublist_flatten_of_mem (List.mem_map_of_mem hp)
  have hpairs := h.sublist htext
  obtain ⟨segment, text⟩ := p
  subst hsegment
  cases hspells
  case lexeme hlexeme =>
    cases hlexeme
    case string body hquotes =>
      rw [← List.cons_append, List.pairwise_append] at hpairs
      have hbody : '\n' ∈ '"' :: body := by simpa using hmem
      exact hpairs.2.2 _ hbody _ (List.mem_singleton_self _) rfl rfl

-- A string, a comment, a number and an operator that ends the text, each at the end of its line.
theorem tokens_returned_lineEnds :
    ∃ stream stream', (ofText "s := \"a\"\n'c\n12\n<\n").tokens = .ok stream ∧
      (ofText "s := \"a\"\r\n'c\r\n12\r\n<\r\n").tokens = .ok stream' ∧ stream'.placed = stream.placed := by
  obtain ⟨stream, hs⟩ := exists_stream (s := ofText "s := \"a\"\n'c\n12\n<\n") (by decide +kernel)
  have hstrings : (ofText "s := \"a\"\n'c\n12\n<\n").Unbroken := unbroken_of_pairwise (by decide +kernel)
  obtain ⟨stream', hstream', hplaced⟩ := tokens_returned (.text _) hs hstrings
  exact ⟨stream, stream', hs, hstream', hplaced⟩

end Source

end BasicFrontEnd
