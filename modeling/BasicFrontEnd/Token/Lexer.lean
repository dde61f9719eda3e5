import BasicFrontEnd.Source
import BasicFrontEnd.Token.Segment
import BasicFrontEnd.Token.Stream

/-!
From a source to its tokens. Each lexeme becomes a token at the place of its first byte; blanks and comments only
move the place on. The stream is framed by a `head` and an `eof`.
-/

namespace BasicFrontEnd.Token

-- The greatest size of a token's text, as UTF-8 bytes.
def maxLength : Nat := 1024

-- Line number `n` of the source for a diagnostic.
def faultAt (lines : Lines) (p : Position) (cause : Cause) : Diagnostic :=
  ⟨cause, p, some (lines.get p.line)⟩

-- The token that stands before the first one of a source.
def headOf (lines : Lines) : Token :=
  ⟨.head, "HEAD", .start, lines.get 1⟩

-- The place of the end, when reading has stopped at `p`. A line feed at the end opens no line: the end is then
-- after the text of the last line.
def endPosition (lines : Lines) (p : Position) : Position :=
  if 0 < lines.size ∧ lines.size < p.line then
    ⟨lines.size, (Text.withoutLineEnd (lines.get lines.size)).utf8ByteSize + 1⟩
  else p

-- The token that stands after the last one of a source.
def eofOf (lines : Lines) (p : Position) : Token :=
  let p := endPosition lines p
  ⟨.eof, "EOF", p, lines.get p.line⟩

-- A lexeme as a token, unless its text is too long.
def ofLexeme (lines : Lines) (p : Position) (kind : Kind) (value : List Char) : Except Diagnostic Token :=
  let text := String.ofList value
  if maxLength < text.utf8ByteSize then .error (faultAt lines p (.lexemeTooLong maxLength))
  else .ok ⟨kind, text, p, lines.get p.line⟩

/-- The tokens of `cs`, whose first character is at `p`, with the `eof` after them. -/
def scan (lines : Lines) (p : Position) : List Char → Except Diagnostic (List Token)
  | [] => .ok [eofOf lines p]
  | c :: cs =>
    match Segment.first c cs with
    | .error fault => .error (faultAt lines (p.shift fault.offset) fault.cause)
    | .ok (segment, n) =>
      let next := p.advance (c :: cs.take n)
      match segment with
      | .lexeme kind value => do
        let token ← ofLexeme lines p kind value
        let tokens ← scan lines next (cs.drop n)
        return token :: tokens
      | _ => scan lines next (cs.drop n)
termination_by cs => cs.length
decreasing_by all_goals simp only [List.length_cons, List.length_drop]; omega

-- The stream of the tokens of `cs`, read from `p` on.
def streamFrom (lines : Lines) (p : Position) (cs : List Char) : Except Diagnostic Stream :=
  (scan lines p cs).map (Stream.ofTokens (headOf lines))

end Token

namespace Source

/-- All tokens of a source. -/
def tokens (s : Source) : Except Diagnostic Stream :=
  Token.streamFrom s.lines .start s.chars

end Source
end BasicFrontEnd
