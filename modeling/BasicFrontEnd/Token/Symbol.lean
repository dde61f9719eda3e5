/-!
Punctuation and operators: the tokens spelled with one or two characters that are not letters.
-/

namespace BasicFrontEnd

inductive Symbol
  | openParen
  | closeParen
  | openBracket
  | closeBracket
  | openCurly
  | closeCurly
  | semicolon
  | colon
  | comma
  | dot
  | plus
  | minus
  | star
  | slash
  | percent
  | assign
  | equals
  | notEquals
  | less
  | lessEquals
  | greater
  | greaterEquals
  | bang
  | arrow
  deriving DecidableEq, Inhabited

namespace Symbol

def all : List Symbol :=
  [openParen, closeParen, openBracket, closeBracket, openCurly, closeCurly, semicolon, colon, comma, dot, plus,
   minus, star, slash, percent, assign, equals, notEquals, less, lessEquals, greater, greaterEquals, bang, arrow]

theorem mem_all (s : Symbol) : s ∈ all := by
  cases s <;> decide

def chars : Symbol → List Char
  | openParen     => ['(']
  | closeParen    => [')']
  | openBracket   => ['[']
  | closeBracket  => [']']
  | openCurly     => ['\x7b']
  | closeCurly    => ['\x7d']
  | semicolon     => [';']
  | colon         => [':']
  | comma         => [',']
  | dot           => ['.']
  | plus          => ['+']
  | minus         => ['-']
  | star          => ['*']
  | slash         => ['/']
  | percent       => ['%']
  | assign        => [':', '=']
  | equals        => ['=', '=']
  | notEquals     => ['!', '=']
  | less          => ['<']
  | lessEquals    => ['<', '=']
  | greater       => ['>']
  | greaterEquals => ['>', '=']
  | bang          => ['!']
  | arrow         => ['-', '>']

def spelling (s : Symbol) : String :=
  String.ofList s.chars

-- The symbol of those characters, if there is one.
def ofChars? (cs : List Char) : Option Symbol :=
  all.find? (·.chars == cs)

theorem ofChars?_chars (s : Symbol) : ofChars? s.chars = some s := by
  cases s <;> decide

theorem chars_of_ofChars? {cs : List Char} {s : Symbol} (h : ofChars? cs = some s) : s.chars = cs := by
  simpa using List.find?_some h

-- The longest symbol that begins with `c`, where `next?` is the character after it.
def longest? (c : Char) (next? : Option Char) : Option Symbol :=
  (next?.bind fun next => ofChars? [c, next]).or (ofChars? [c])

-- The name of the symbol's kind in listings of tokens.
def kindName : Symbol → String
  | openParen     => "OpenParen"
  | closeParen    => "CloseParen"
  | openBracket   => "OpenBracket"
  | closeBracket  => "CloseBracket"
  | openCurly     => "OpenCurly"
  | closeCurly    => "CloseCurly"
  | semicolon     => "Semicolon"
  | colon         => "Colon"
  | comma         => "Comma"
  | dot           => "Dot"
  | plus          => "Plus"
  | minus         => "Minus"
  | star          => "Star"
  | slash         => "Slash"
  | percent       => "Percent"
  | assign        => "Assign"
  | equals        => "Equals"
  | notEquals     => "NotEquals"
  | less          => "Less"
  | lessEquals    => "LessEquals"
  | greater       => "Greater"
  | greaterEquals => "GreaterEquals"
  | bang          => "Bang"
  | arrow         => "OfType"

end Symbol
end BasicFrontEnd
