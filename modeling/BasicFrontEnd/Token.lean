import BasicFrontEnd.Diagnostic
import BasicFrontEnd.Token.Keyword
import BasicFrontEnd.Token.Symbol

/-!
Tokens: a kind, the text of the lexeme (decoded, for strings), the place of its first byte and the line it begins
on.
-/

namespace BasicFrontEnd

/-- The kinds of tokens. `head` stands before the first token of a source and `eof` after the last. -/
inductive Kind
  | head
  | eof
  | symbol (s : Symbol)
  | keyword (k : Keyword)
  | identifier
  | string
  | integer
  | float
  deriving DecidableEq, Inhabited

namespace Kind

def all : List Kind :=
  [head, eof] ++ Symbol.all.map symbol ++ Keyword.all.map keyword ++ [identifier, string, integer, float]

def name : Kind → String
  | head       => "Head"
  | eof        => "EOF"
  | symbol s   => s.kindName
  | keyword k  => k.kindName
  | identifier => "Identifier"
  | string     => "StringLiteral"
  | integer    => "IntegerLiteral"
  | float      => "FloatLiteral"

def ofName? (name : String) : Option Kind :=
  all.find? (·.name == name)

theorem ofName?_name (k : Kind) : ofName? k.name = some k := by
  cases k
  case symbol s => cases s <;> decide
  case keyword k => cases k <;> decide
  all_goals decide

-- How messages speak of the kind.
def describe : Kind → String
  | head       => "start of file"
  | eof        => "end of file"
  | symbol s   => "'" ++ s.spelling ++ "'"
  | keyword k  => "'" ++ k.spelling ++ "'"
  | identifier => "identifier"
  | string     => "string literal"
  | integer    => "integer literal"
  | float      => "float literal"

def isKeyword : Kind → Bool
  | keyword _ => true
  | _         => false

-- The keywords that name a type.
def isTypeKeyword : Kind → Bool
  | keyword .intWord | keyword .boolWord | keyword .stringWord | keyword .floatWord | keyword .voidWord => true
  | _ => false

def isComparison : Kind → Bool
  | symbol .equals | symbol .notEquals | symbol .less | symbol .lessEquals | symbol .greater
  | symbol .greaterEquals => true
  | _ => false

def isNumber : Kind → Bool
  | integer | float => true
  | _ => false

end Kind

@[ext]
structure Token where
  kind     : Kind
  value    : String
  position : Position
  lineText : String := ""
  deriving DecidableEq, Inhabited

namespace Token

-- The token as a line of a listing: kind and place in columns, then the text.
def listing (t : Token) : String :=
  Text.padRight 14 t.kind.name ++ " " ++ Text.padRight 12 (toString t.position) ++ " " ++ t.value

-- A fault at the token.
def fault (t : Token) (cause : Cause) : Diagnostic :=
  ⟨cause, t.position, some t.lineText⟩

end Token
end BasicFrontEnd
