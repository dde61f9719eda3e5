import BasicFrontEnd.Token

/-!
The lexical grammar. A source is a row of segments: single blanks, comments and lexemes, each as long as it can
be. Everything here is about characters alone; places come in with the tokens.
-/

namespace BasicFrontEnd

/-- What stands at the front of a source. -/
inductive Segment
  | blank
  | comment
  | lexeme (kind : Kind) (value : List Char)
  deriving DecidableEq

namespace Segment

/-- A source that does not go on as a segment: the cause, and where it shows, counted from the segment's first
character. -/
structure Fault where
  cause  : Cause
  offset : Nat
  deriving DecidableEq

-- A segment and the number of its characters after the first.
abbrev Result := Except Fault (Segment × Nat)

def isBlank (c : Char) : Bool :=
  c == ' ' || c == '\t' || c == '\r' || c == '\n'

def isWordStart (c : Char) : Bool :=
  c.isAlpha || c == '_'

def isWordPart (c : Char) : Bool :=
  c.isAlpha || c.isDigit || c == '_'

-- The character that a backslash and `c` stand for in a string.
def unescape? : Char → Option Char
  | 'n'  => some '\n'
  | 't'  => some '\t'
  | 'r'  => some '\r'
  | '0'  => some '\x00'
  | '\\' => some '\\'
  | '"'  => some '"'
  | _    => none

-- The value of a string whose opening quote has been read, with the number of characters up to and with the
-- closing quote. A backslash before any other character stands for itself.
def stringBody? : List Char → Option (List Char × Nat)
  | [] => none
  | '"' :: _ => some ([], 1)
  | ['\\'] => none
  | '\\' :: c :: cs =>
    match unescape? c with
    | some d => (stringBody? cs).map fun (value, n) => (d :: value, n + 2)
    | none   => (stringBody? (c :: cs)).map fun (value, n) => ('\\' :: value, n + 1)
  | c :: cs => (stringBody? cs).map fun (value, n) => (c :: value, n + 1)

-- How many characters a comment has after its first; a line feed belongs to it.
def commentLength (cs : List Char) : Nat :=
  let body := cs.takeWhile (· != '\n')
  if body.length < cs.length then body.length + 1 else body.length

def string (cs : List Char) : Result :=
  match stringBody? cs with
  | some (value, n) => .ok (.lexeme .string value, n)
  | none            => .error ⟨.unterminatedString, 0⟩

def word (c : Char) (cs : List Char) : Result :=
  let rest := cs.takeWhile isWordPart
  let kind := match Keyword.ofSpelling? (String.ofList (c :: rest)) with
    | some k => .keyword k
    | none   => .identifier
  .ok (.lexeme kind (c :: rest), rest.length)

-- Digits, or digits with a point among them. A point after digits must go on as a fraction.
def number (c : Char) (cs : List Char) : Result :=
  let whole := cs.takeWhile Char.isDigit
  match cs.dropWhile Char.isDigit with
  | ['.'] => .error ⟨.unknownCharacter '.', whole.length + 1⟩
  | '.' :: d :: rest =>
    if d.isDigit then
      let fraction := d :: rest.takeWhile Char.isDigit
      .ok (.lexeme .float (c :: whole ++ '.' :: fraction), whole.length + 1 + fraction.length)
    else .error ⟨.unknownCharacter d, whole.length + 2⟩
  | _ => .ok (.lexeme .integer (c :: whole), whole.length)

def symbol (c : Char) (cs : List Char) : Result :=
  match Symbol.longest? c cs.head? with
  | some s => .ok (.lexeme (.symbol s) s.chars, s.chars.length - 1)
  | none   => .error ⟨.unknownCharacter c, 0⟩

/-- The segment that begins with `c` and goes on in `cs`. -/
def first (c : Char) (cs : List Char) : Result :=
  if isBlank c then .ok (.blank, 0)
  else if c = '\'' then .ok (.comment, commentLength cs)
  else if c = '"' then string cs
  else if isWordStart c then word c cs
  else if c.isDigit then number c cs
  else symbol c cs

end Segment
end BasicFrontEnd
