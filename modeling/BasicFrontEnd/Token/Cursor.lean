import BasicFrontEnd.Token.Cursor.Segment

/-!
Tokens, read through a cursor from wherever it stands. They are those of the characters ahead, from its place on. Main
statement: `tokens_eq`.
-/

namespace BasicFrontEnd.Cursor

variable {k k' k'' : Cursor} {lines : Lines}

theorem length_lt_of_segment (h : k.get = (some c, k')) (hs : segment lines h = .ok (s, k'')) :
    k''.ahead.length < k.ahead.length := by
  obtain ⟨n, -, hpasses, -⟩ := exists_of_segment_eq_ok h hs
  exact hpasses.length_lt

/-- The tokens ahead, with the `eof` after them. -/
def scan (lines : Lines) (k : Cursor) : Except Diagnostic (List Token) :=
  match h : k.get with
  | (none, k')  => .ok [Token.eofOf lines k'.position]
  | (some _, _) =>
    match _hs : segment lines h with
    | .error d => .error d
    | .ok (.lexeme kind value, k'') => do
      let token ← Token.ofLexeme lines k.position kind value
      let tokens ← k''.scan lines
      return token :: tokens
    | .ok (_, k'') => k''.scan lines
termination_by k.ahead.length
decreasing_by all_goals exact length_lt_of_segment h ‹_›

/-- The stream of the tokens from here on. -/
def tokens (lines : Lines) (k : Cursor) : Except Diagnostic Stream :=
  (k.scan lines).map (Stream.ofTokens (Token.headOf lines))

theorem scan_eq (lines : Lines) (k : Cursor) : k.scan lines = Token.scan lines k.position k.ahead := by
  unfold scan
  split
  case h_1 k' h =>
    obtain ⟨hnil, hsame⟩ := get_eq_none h
    rw [hnil, hsame, Token.scan]
  case h_2 c k' h =>
    rw [(passes_get h).ahead, List.singleton_append, Token.scan]
    split
    case h_1 d hs =>
      obtain ⟨f, hfirst, rfl⟩ := exists_of_segment_eq_error h hs
      rw [hfirst]
    case h_2 kind value k'' hs =>
      obtain ⟨n, hfirst, hpasses, hahead⟩ := exists_of_segment_eq_ok h hs
      have hlt := hpasses.length_lt
      simp only [hfirst, ← hpasses.position, ← hahead, scan_eq lines k'']
    case h_3 segment k'' hlexeme hs =>
      obtain ⟨n, hfirst, hpasses, hahead⟩ := exists_of_segment_eq_ok h hs
      have hlt := hpasses.length_lt
      simp only [hfirst, ← hpasses.position, ← hahead, scan_eq lines k'']
termination_by k.ahead.length

-- Wherever the cursor stands and whatever it remembers, it reads the tokens of what is ahead.
theorem tokens_eq (lines : Lines) (k : Cursor) : k.tokens lines = Token.streamFrom lines k.position k.ahead :=
  congrArg (Except.map _) (scan_eq lines k)

end BasicFrontEnd.Cursor
