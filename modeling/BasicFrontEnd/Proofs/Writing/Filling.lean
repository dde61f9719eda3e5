import BasicFrontEnd.Proofs.Token.Ascending
import BasicFrontEnd.Proofs.Writing.Tokens

/-!
Blanks and comments can be put in front of any token of a source: the kinds and values of its tokens stay. The pieces
before the token end where they did, since nothing goes on with what begins a blank or a comment.
-/

namespace BasicFrontEnd.Lexical

-- Blanks, or a comment with the line feed that ends it.
inductive Filler : List Char → Prop
  | blanks  : (∀ c ∈ cs, c = ' ' ∨ c = '\t' ∨ c = '\r' ∨ c = '\n') → Filler cs
  | comment : '\n' ∉ text → Filler ('\'' :: (text ++ ['\n']))

variable {segment : Segment} {text rest rest' : List Char}

section Cuts

-- What stands right behind a lexeme of the kind where it is cut off.
def StopsAt (kind : Kind) (rest : List Char) : Prop :=
  ∀ c, rest.head? = some c →
    match kind with
    | .keyword _ | .identifier => ¬(IsLetter c ∨ IsDigit c)
    | .integer                 => ¬IsDigit c ∧ c ≠ '.'
    | .float                   => ¬IsDigit c
    | .symbol s                => ∀ s' : Symbol, s'.chars ≠ s.chars ++ [c]
    | _                        => True

theorem EndsBefore.stopsAt (h : EndsBefore kind rest) : StopsAt kind rest := by
  intro c hc
  have := h c hc
  cases kind
  case float => exact this.1
  all_goals exact this

theorem Cut.not_spells (h : Cut segment text (c :: rest)) : ¬Spells other (text ++ [c]) := by
  intro hspells
  have := h.longest other _ hspells ⟨rest, by simp⟩
  simp at this

theorem exists_lexeme_of_word (hc : IsLetter c) (hcs : ∀ d ∈ cs, IsLetter d ∨ IsDigit d) :
    ∃ kind, Lexeme kind (c :: cs) (c :: cs) := by
  by_cases hk : ∃ k : Keyword, k.spelling.toList = c :: cs
  case pos =>
    obtain ⟨k, hk⟩ := hk
    exact ⟨.keyword k, hk ▸ Lexeme.keyword k⟩
  case neg => exact ⟨_, .identifier hc hcs (not_exists.mp hk)⟩

theorem Lexeme.stopsAt_of_cut (h : Lexeme kind text value) (hcut : Cut (.lexeme kind value) text rest) :
    StopsAt kind rest := by
  intro c hc
  obtain ⟨rest, rfl⟩ := List.head?_eq_some_iff.mp hc
  have hword : ∀ d ds, text = d :: ds → IsLetter d → (∀ e ∈ ds, IsLetter e ∨ IsDigit e) →
      ¬(IsLetter c ∨ IsDigit c) := by
    rintro d ds rfl hd hds hc
    obtain ⟨_, hlexeme⟩ := exists_lexeme_of_word hd (List.forall_mem_append.mpr ⟨hds, List.forall_mem_singleton.mpr hc⟩)
    exact hcut.not_spells (.lexeme hlexeme)
  cases h
  case keyword k =>
    obtain ⟨d, ds, hds⟩ := List.exists_cons_of_ne_nil (Lexeme.keyword k).ne_nil
    obtain ⟨hd, hparts⟩ := Front.of_keyword hds
    exact hword d ds hds hd hparts
  case identifier d ds hd hds _ => exact hword d ds rfl hd hds
  case integer hne hds =>
    refine ⟨fun hc => hcut.not_spells (.lexeme (.integer (by simp) ?_)), fun hpoint => ?_⟩
    · exact List.forall_mem_append.mpr ⟨hds, List.forall_mem_singleton.mpr hc⟩
    · exact hcut.point _ rfl (by simp [hpoint])
  case float hne hes hds hfraction =>
    intro hc
    have hlonger := Lexeme.float hne (by simp) hds
      (List.forall_mem_append.mpr ⟨hfraction, List.forall_mem_singleton.mpr hc⟩)
    exact hcut.not_spells (.lexeme (by simpa using hlonger))
  case symbol s => exact fun s' hs' => hcut.not_spells (.lexeme (hs' ▸ Lexeme.symbol s'))
  case string => trivial

theorem Lexeme.cut_of_stopsAt (h : Lexeme kind text value) (hrest : StopsAt kind rest) :
    Cut (.lexeme kind value) text rest := by
  cases h
  case float hne hes hds hfraction => exact .of_float hne hes hds hfraction hrest
  case keyword k => exact (Lexeme.keyword k).cut hrest
  case identifier hc hcs hk => exact (Lexeme.identifier hc hcs hk).cut hrest
  case integer hne hds => exact (Lexeme.integer hne hds).cut hrest
  case string hq => exact (Lexeme.string hq).cut hrest
  case symbol s => exact (Lexeme.symbol s).cut hrest

-- A segment that is not at the end is cut off too in front of what begins alike, or with a gap.
theorem Cut.refill (h : Cut segment text rest) (hne : rest ≠ [])
    (hrest : rest'.head? = rest.head? ∨ ∃ c cs, rest' = c :: cs ∧ (front c = .blank ∨ front c = .comment)) :
    Cut segment text rest' := by
  cases h.spells
  case blank hc => exact .of_blank hc
  case closedComment hcs => exact .of_comment hcs
  case comment cs hcs =>
    -- Without a line feed a comment goes on to the end.
    obtain ⟨c, rest, rfl⟩ := List.exists_cons_of_ne_nil hne
    by_cases hc : c = '\n'
    case pos => exact absurd (hc ▸ Spells.closedComment hcs) h.not_spells
    case neg => exact absurd (Spells.comment (by simp [hcs, Ne.symm hc])) h.not_spells
  case lexeme hlexeme =>
    refine hlexeme.cut_of_stopsAt ?_
    obtain hhead | ⟨c, cs, rfl, hc⟩ := hrest
    case inl => exact fun c hc => hlexeme.stopsAt_of_cut h c (hhead ▸ hc)
    case inr => exact (endsBefore_gap hc _).stopsAt

end Cuts

section Rows

variable {row row' : List Piece}

@[simp]
theorem row_cons_iff {p : Piece} :
    Row (p :: row) rest ↔ Cut p.segment p.text (textOf row ++ rest) ∧ Row row rest := by
  constructor
  case mp => rintro ⟨⟩; exact ⟨‹_›, ‹_›⟩
  case mpr => exact fun h => .cons h.1 h.2

theorem textOf_append : textOf (row ++ row') = textOf row ++ textOf row' :=
  List.flatMap_append

theorem row_append_iff : Row (row ++ row') rest ↔ Row row (textOf row' ++ rest) ∧ Row row' rest := by
  induction row
  case nil => exact ⟨fun h => ⟨.nil, h⟩, And.right⟩
  case cons p row ih => simp [ih, textOf_append, and_assoc]

-- The pieces of a filler, which become no words.
theorem Filler.exists_row (h : Filler cs) :
    ∃ row, textOf row = cs ∧ (∀ p ∈ row, p.word? = none) ∧ ∀ rest, Row row rest := by
  cases h
  case comment text htext =>
    exact ⟨[⟨.comment, '\'' :: (text ++ ['\n'])⟩], by simp, by simp [Piece.word?],
      fun rest => .cons (.of_comment htext) .nil⟩
  case blanks hcs =>
    induction cs
    case nil => exact ⟨[], rfl, by simp, fun _ => .nil⟩
    case cons c cs ih =>
      rw [List.forall_mem_cons] at hcs
      obtain ⟨row, rfl, hwords, hrow⟩ := ih hcs.2
      exact ⟨⟨.blank, [c]⟩ :: row, rfl, List.forall_mem_cons.mpr ⟨rfl, hwords⟩,
        fun rest => .cons (.of_blank hcs.1) (hrow rest)⟩

theorem fits_of_word?_eq_none {p : Piece} (h : p.word? = none) : p.Fits := by
  intro kind value hsegment
  simp [Piece.word?, hsegment] at h

theorem Filler.head_gap (h : Filler (c :: cs)) : front c = .blank ∨ front c = .comment := by
  cases h
  case blanks hcs => exact .inl (Front.of_isBlank (hcs c List.mem_cons_self))
  case comment => exact .inr (by decide)

theorem Row.fill (h : Row row rest) (hne : rest ≠ []) (hfiller : Filler filler) : Row row (filler ++ rest) := by
  induction h
  case nil => exact .nil
  case cons row rest p hcut _ ih =>
    refine .cons (hcut.refill (by simp [hne]) ?_) (ih hne)
    cases htext : textOf row
    case cons => exact .inl rfl
    case nil =>
      cases filler
      case nil => exact .inl rfl
      case cons c cs => exact .inr ⟨c, cs ++ rest, rfl, hfiller.head_gap⟩

end Rows

section Sources

variable {s s' : Source} {stream : Stream} {filler : List UInt8}

theorem chars_of_filled {before after : List Char} (hs : s.chars = before ++ after)
    (hs' : s'.bytes = s.bytes.take before.length ++ (filler ++ s.bytes.drop before.length)) :
    s'.chars = before ++ (Text.latin1 filler ++ after) := by
  have htake : Text.latin1 (s.bytes.take before.length) = before := by
    rw [Text.latin1, List.map_take, ← Text.latin1, ← Source.chars, hs, List.take_left]
  have hdrop : Text.latin1 (s.bytes.drop before.length) = after := by
    rw [Text.latin1, List.map_drop, ← Text.latin1, ← Source.chars, hs, List.drop_left]
  rw [Source.chars, hs', Text.latin1, List.map_append, List.map_append, ← Text.latin1, ← Text.latin1, ← Text.latin1,
    htake, hdrop]

theorem mem_tokensOf_of_mem {row : List Piece} (hstream : stream = .ofTokens (Token.headOf s.lines)
    (tokensOf s 0 row ++ [Token.eofOf s.lines p])) (ht : t ∈ stream.toList) (hhead : t.kind ≠ .head)
    (heof : t.kind ≠ .eof) : t ∈ tokensOf s 0 row := by
  rw [hstream] at ht
  simp only [Stream.ofTokens, Stream.toList, List.reverse_nil, List.nil_append, List.mem_cons, List.mem_append,
    List.not_mem_nil, or_false] at ht
  obtain rfl | ht | rfl := ht
  case inl => exact absurd rfl hhead
  case inr.inl => exact ht
  case inr.inr => exact absurd rfl heof

-- Where a token begins, blanks or a comment can be put in.
theorem words_tokens_of_filled {offset : Nat} (h : s.tokens = .ok stream) (ht : t ∈ stream.toList)
    (hhead : t.kind ≠ .head) (heof : t.kind ≠ .eof) (hoffset : offset ≤ s.bytes.length)
    (hposition : t.position = placeAt s.bytes offset) (hfiller : Filler (Text.latin1 filler))
    (hs' : s'.bytes = s.bytes.take offset ++ (filler ++ s.bytes.drop offset)) :
    ∃ stream', s'.tokens = .ok stream' ∧ stream'.words = stream.words := by
  obtain ⟨row, hrow, hs, hfit, hstream⟩ := exists_row_of_tokens h
  obtain ⟨before, p, after, rfl, hbefore⟩ := exists_split_of_mem_tokensOf (mem_tokensOf_of_mem hstream ht hhead heof)
  rw [Nat.zero_add] at hbefore
  rw [textOf_append] at hs
  have hlength : (textOf before).length ≤ s.bytes.length := by
    have := congrArg List.length hs
    simp only [Source.chars, Text.length_latin1, List.length_append] at this
    omega
  obtain rfl : (textOf before).length = offset := placeAt_inj hlength hoffset (hbefore.symm.trans hposition)
  obtain ⟨hrowBefore, hrowAfter⟩ := row_append_iff.mp hrow
  obtain ⟨fill, hfill, hfillWords, hrowFill⟩ := hfiller.exists_row
  have hchars : s'.chars = textOf (before ++ (fill ++ p :: after)) := by
    rw [chars_of_filled hs hs', textOf_append, textOf_append, hfill]
  have hne : textOf (p :: after) ++ [] ≠ [] := by
    simp [(row_cons_iff.mp hrowAfter).1.spells.ne_nil]
  have hrow' : Row (before ++ (fill ++ p :: after)) [] := by
    refine row_append_iff.mpr ⟨?_, row_append_iff.mpr ⟨hrowFill _, hrowAfter⟩⟩
    simpa [textOf_append, hfill] using hrowBefore.fill hne hfiller
  have hfit' : ∀ q ∈ before ++ (fill ++ p :: after), q.Fits := by
    simp only [List.forall_mem_append] at hfit ⊢
    exact ⟨hfit.1, fun q hq => fits_of_word?_eq_none (hfillWords q hq), hfit.2⟩
  refine ⟨_, tokens_of_whole_row hrow' hfit' hchars, ?_⟩
  rw [hstream, words_ofTokens, words_ofTokens]
  simp [List.filterMap_eq_nil_iff.mpr hfillWords]

end Sources

end BasicFrontEnd.Lexical
