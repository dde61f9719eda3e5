import BasicFrontEnd.Decimal.Shortest
import BasicFrontEnd.Program.Operator
import BasicFrontEnd.Program.Outline
import BasicFrontEnd.Program.TypeSpec

/-!
Expressions and their outlines.
-/

namespace BasicFrontEnd

inductive Expr
  | call (callee : String) (arguments : List Expr)
  | binary (operator : Operator) (left right : Expr)
  | assign (target value : Expr)
  | negate (operand : Expr)
  | not (operand : Expr)
  -- What a function without a result returns.
  | empty
  | member (record field : String)
  | array (elements : List Expr)
  -- Indices that follow each other belong to one node.
  | index (base : Expr) (indices : List Expr)
  | identifier (name : String)
  | integer (value : Int64)
  | float (value : Binary64)
  | string (value : String)
  | boolean (value : Bool)
  | nil
  deriving Inhabited

namespace Expr

def kindName : Expr → String
  | call _ _     => "CallExpr"
  | binary _ _ _ => "BinOpExpr"
  | assign _ _   => "AssignExpr"
  | negate _     => "NegExpr"
  | not _        => "NotExpr"
  | empty        => "EmptyExpr"
  | member _ _   => "StructAccessExpr"
  | array _      => "ArrayInitExpr"
  | index _ _    => "ArrayAccessExpr"
  | identifier _ => "Identifier"
  | integer _    => "IntegerLiteral"
  | float _      => "FloatLiteral"
  | string _     => "StringLiteral"
  | boolean _    => "BoolLiteral"
  | nil          => "Nil"

-- The type of a literal.
def literalType? : Expr → Option BaseType
  | integer _ => some .integer
  | float _   => some .float
  | string _  => some .string
  | boolean _ => some .boolean
  | nil       => some .nil
  | _         => none

-- Whether the expression may be assigned to.
def isTarget : Expr → Bool
  | identifier _ | member _ _ | index _ _ => true
  | _ => false

def isCall : Expr → Bool
  | call _ _ => true
  | _        => false

def wrap (kind payload : String) : Outline :=
  .leaf (kind ++ "(" ++ payload ++ ")")

mutual

def outline : Expr → Outline
  | call callee arguments =>
    .node "CallExpr" [.field "callee" callee, .group "args" (outlines arguments)]
  | binary operator left right =>
    .node "BinOpExpr" [.field "operator" operator.write, .group "lhs" [left.outline], .group "rhs" [right.outline]]
  | assign target value =>
    .node "AssignExpr" [.group "lhs" [target.outline], .group "rhs" [value.outline]]
  | negate operand => .node "NegExpr" [operand.outline]
  | not operand => .node "NotExpr" [operand.outline]
  | empty => .leaf "EmptyExpr"
  | member record field => wrap "StructAccessExpr" (record ++ "." ++ field)
  | array elements => .node "ArrayInitExpr" (outlines elements)
  | index base indices =>
    .node "ArrayAccessExpr" [.group "base" [base.outline], .group "indices" (outlines indices)]
  | identifier name => wrap "Identifier" name
  | integer value => wrap "IntegerLiteral" (toString value.toInt)
  | float value => wrap "FloatLiteral" value.write
  | string value => wrap "StringLiteral" (Text.quoted value)
  | boolean value => wrap "BoolLiteral" (if value then "true" else "false")
  | nil => .leaf "Nil"

def outlines : List Expr → List Outline
  | []      => []
  | e :: es => e.outline :: outlines es

end

end Expr
end BasicFrontEnd
