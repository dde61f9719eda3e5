import BasicFrontEnd.Proofs.Writing.Filling

/-!
Tokens by what they are and where: the words of a row, each at the place where its piece begins. The place is counted
piece by piece, so a row needs no source around it. Main statement: `tokens_placed_of_row`.
-/

namespace BasicFrontEnd

def Token.placed (t : Token) : Word × Position :=
  (t.word, t.position)

-- The kinds, values and places of all tokens, in order.
def Stream.placed (s : Stream) : List (Word × Position) :=
  s.toList.map Token.placed

-- Where the end of the source is shown.
def Source.endPosition (s : Source) : Position :=
  Token.endPosition s.lines (Lexical.placeAt s.bytes s.bytes.length)

-- Whether a source has tokens can be computed.
theorem Source.exists_stream {s : Source} (h : s.tokens.toOption.isSome = true) : ∃ stream, s.tokens = .ok stream := by
  cases hs : s.tokens
  case error => simp [hs, Except.toOption] at h
  case ok stream => exact ⟨stream, rfl⟩

namespace Lexical

variable {s : Source} {row row' : List Piece} {pre rest : List Char}

-- The words of a row whose first piece is at `p`.
def placedFrom (p : Position) : List Piece → List (Word × Position)
  | []       => []
  | q :: row => (q.word?.map (·, p)).toList ++ placedFrom (p.advance q.text) row

-- The words of a source that is the row, between its head and its end.
def placedWords (row : List Piece) (endPosition : Position) : List (Word × Position) :=
  (⟨.head, "HEAD"⟩, .start) :: (placedFrom .start row ++ [(⟨.eof, "EOF"⟩, endPosition)])

theorem placedFrom_append (p : Position) (row row' : List Piece) :
    placedFrom p (row ++ row') = placedFrom p row ++ placedFrom (p.advance (textOf row)) row' := by
  induction row generalizing p
  case nil => rfl
  case cons q row ih => simp [placedFrom, ih, Position.advance_append]

theorem map_placed_tokensOf (hs : s.chars = pre ++ (textOf row ++ rest)) :
    (tokensOf s pre.length row).map Token.placed = placedFrom (.advance .start pre) row := by
  induction row generalizing pre
  case nil => rfl
  case cons q row ih =>
    have hs' : s.chars = (pre ++ q.text) ++ (textOf row ++ rest) := by simpa using hs
    have htoken : (q.token? s pre.length).toList.map Token.placed =
        (q.word?.map (·, Position.start.advance pre)).toList := by
      unfold Piece.token? Piece.word?
      cases q.segment
      case lexeme => simp [Token.placed, Token.word, placeAt_eq hs]
      all_goals rfl
    rw [tokensOf, List.map_append, htoken, ← List.length_append, ih hs', placedFrom, Position.advance_append]

theorem tokens_placed_of_row (h : Row row []) (hfit : ∀ p ∈ row, p.Fits) (hs : s.chars = textOf row) :
    ∃ stream, s.tokens = .ok stream ∧ stream.placed = placedWords row s.endPosition := by
  have hs' : s.chars = [] ++ (textOf row ++ []) := by simpa using hs
  have hmap := map_placed_tokensOf hs'
  refine ⟨_, tokens_of_whole_row h hfit hs, ?_⟩
  simpa [Stream.placed, Stream.toList, Stream.ofTokens, placedWords, Token.placed, Token.word, Token.headOf,
    Token.eofOf, Source.endPosition] using hmap

-- Every source that has tokens is a row.
theorem exists_row_placed {stream : Stream} (h : s.tokens = .ok stream) :
    ∃ row, Row row [] ∧ s.chars = textOf row ∧ (∀ p ∈ row, p.Fits) ∧ stream.placed = placedWords row s.endPosition := by
  obtain ⟨row, hrow, hs, hfit, -⟩ := exists_row_of_tokens h
  obtain ⟨stream', h', hplaced⟩ := tokens_placed_of_row hrow hfit hs
  obtain rfl : stream' = stream := Except.ok.inj (h'.symm.trans h)
  exact ⟨row, hrow, hs, hfit, hplaced⟩

end Lexical

end BasicFrontEnd
