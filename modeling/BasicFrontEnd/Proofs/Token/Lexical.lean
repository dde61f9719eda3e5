import BasicFrontEnd.Token.Lexer

/-!
The lexical grammar, told apart from the way a source is read: which characters write a segment, and when a source
is cut into segments that are each as long as they can be. Main definitions: `Spells`, `Cut` and `Row`.
-/

namespace BasicFrontEnd.Lexical

def IsLetter (c : Char) : Prop :=
  ('a' ≤ c ∧ c ≤ 'z') ∨ ('A' ≤ c ∧ c ≤ 'Z') ∨ c = '_'

def IsDigit (c : Char) : Prop :=
  '0' ≤ c ∧ c ≤ '9'

instance (c : Char) : Decidable (IsLetter c) :=
  inferInstanceAs (Decidable (_ ∨ _))

instance (c : Char) : Decidable (IsDigit c) :=
  inferInstanceAs (Decidable (_ ∧ _))

-- What may follow a backslash in a string, and what the two stand for.
inductive Escape : Char → Char → Prop
  | lineFeed       : Escape 'n' '\n'
  | tab            : Escape 't' '\t'
  | carriageReturn : Escape 'r' '\r'
  | null           : Escape '0' '\x00'
  | backslash      : Escape '\\' '\\'
  | quote          : Escape '"' '"'

-- What stands between the quotes of a string, and the value that it writes. A backslash that escapes nothing
-- stands for itself, and what follows it is read on its own.
inductive Quotes : List Char → List Char → Prop
  | nil       : Quotes [] []
  | plain     : c ≠ '"' → c ≠ '\\' → Quotes cs ds → Quotes (c :: cs) (c :: ds)
  | escape    : Escape c d → Quotes cs ds → Quotes ('\\' :: c :: cs) (d :: ds)
  | backslash : (∀ d, ¬Escape c d) → Quotes (c :: cs) ds → Quotes ('\\' :: c :: cs) ('\\' :: ds)

-- The characters that write a lexeme of a kind, and its value.
inductive Lexeme : Kind → List Char → List Char → Prop
  | keyword (k : Keyword) : Lexeme (.keyword k) k.spelling.toList k.spelling.toList
  | identifier : IsLetter c → (∀ d ∈ cs, IsLetter d ∨ IsDigit d) → (∀ k : Keyword, k.spelling.toList ≠ c :: cs) →
      Lexeme .identifier (c :: cs) (c :: cs)
  | integer : ds ≠ [] → (∀ d ∈ ds, IsDigit d) → Lexeme .integer ds ds
  | float : ds ≠ [] → es ≠ [] → (∀ d ∈ ds, IsDigit d) → (∀ e ∈ es, IsDigit e) →
      Lexeme .float (ds ++ '.' :: es) (ds ++ '.' :: es)
  | string : Quotes body value → Lexeme .string ('"' :: (body ++ ['"'])) value
  | symbol (s : Symbol) : Lexeme (.symbol s) s.chars s.chars

-- The characters that write a segment. A comment ends with a line feed, or with the source.
inductive Spells : Segment → List Char → Prop
  | blank : c = ' ' ∨ c = '\t' ∨ c = '\r' ∨ c = '\n' → Spells .blank [c]
  | comment : '\n' ∉ cs → Spells .comment ('\'' :: cs)
  | closedComment : '\n' ∉ cs → Spells .comment ('\'' :: (cs ++ ['\n']))
  | lexeme : Lexeme kind text value → Spells (.lexeme kind value) text

-- The segment `text` can be cut off in front of `rest`.
structure Cut (segment : Segment) (text rest : List Char) : Prop where
  spells  : Spells segment text
  longest : ∀ other longer, Spells other longer → longer <+: text ++ rest → longer.length ≤ text.length
  -- Digits with a point behind them have to go on as a fraction.
  point   : ∀ value, segment = .lexeme .integer value → rest.head? ≠ some '.'

-- A segment together with the characters that write it.
structure Piece where
  segment : Segment
  text    : List Char

def textOf (row : List Piece) : List Char :=
  row.flatMap (·.text)

-- The pieces can be cut off one after the other in front of `rest`.
inductive Row : List Piece → List Char → Prop
  | nil  : Row [] rest
  | cons : Cut p.segment p.text (textOf row ++ rest) → Row row rest → Row (p :: row) rest

-- A source from whose front no segment can be cut off, with the cause and how far from the front it shows.
inductive Stuck : List Char → Cause → Nat → Prop
  | string : (∀ body value rest, Quotes body value → cs ≠ body ++ '"' :: rest) →
      Stuck ('"' :: cs) .unterminatedString 0
  | point : ds ≠ [] → (∀ d ∈ ds, IsDigit d) → Stuck (ds ++ ['.']) (.unknownCharacter '.') ds.length
  | fraction : ds ≠ [] → (∀ d ∈ ds, IsDigit d) → ¬IsDigit c →
      Stuck (ds ++ '.' :: c :: rest) (.unknownCharacter c) (ds.length + 1)
  | character : c ≠ '"' → (∀ segment text, Spells segment text → ¬text <+: c :: cs) →
      Stuck (c :: cs) (.unknownCharacter c) 0

@[simp]
theorem textOf_nil : textOf [] = [] :=
  rfl

@[simp]
theorem textOf_cons (p : Piece) (row : List Piece) : textOf (p :: row) = p.text ++ textOf row :=
  rfl

end BasicFrontEnd.Lexical
