import BasicFrontEnd.Token

/-!
The operators between two operands.
-/

namespace BasicFrontEnd

inductive Operator
  | add
  | subtract
  | multiply
  | divide
  | modulo
  | equals
  | notEquals
  | less
  | lessEquals
  | greater
  | greaterEquals
  | and
  | or
  deriving DecidableEq, Inhabited

namespace Operator

def all : List Operator :=
  [add, subtract, multiply, divide, modulo, equals, notEquals, less, lessEquals, greater, greaterEquals, and, or]

-- The token that writes the operator.
def kind : Operator → Kind
  | add           => .symbol .plus
  | subtract      => .symbol .minus
  | multiply      => .symbol .star
  | divide        => .symbol .slash
  | modulo        => .symbol .percent
  | equals        => .symbol .equals
  | notEquals     => .symbol .notEquals
  | less          => .symbol .less
  | lessEquals    => .symbol .lessEquals
  | greater       => .symbol .greater
  | greaterEquals => .symbol .greaterEquals
  | and           => .keyword .andWord
  | or            => .keyword .orWord

def ofKind? (kind : Kind) : Option Operator :=
  all.find? (·.kind == kind)

def write : Operator → String
  | add           => "+"
  | subtract      => "-"
  | multiply      => "*"
  | divide        => "/"
  | modulo        => "%"
  | equals        => "=="
  | notEquals     => "!="
  | less          => "<"
  | lessEquals    => "<="
  | greater       => ">"
  | greaterEquals => ">="
  | and           => "and"
  | or            => "or"

def ofText? (text : String) : Option Operator :=
  all.find? (·.write == text)

def isComparison : Operator → Bool
  | equals | notEquals | less | lessEquals | greater | greaterEquals => true
  | _ => false

theorem ofKind?_kind (o : Operator) : ofKind? o.kind = some o := by
  cases o <;> decide

theorem isComparison_kind (o : Operator) : o.kind.isComparison = o.isComparison := by
  cases o <;> rfl

end Operator
end BasicFrontEnd
