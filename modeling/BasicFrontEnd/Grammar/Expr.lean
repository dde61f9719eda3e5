import BasicFrontEnd.Grammar.Number
import BasicFrontEnd.Grammar.Rule

/-!
Reading expressions. From the loosest to the tightest: `or`, `and`, comparisons, sums, products, unary operators,
suffixes. All operators but comparisons group to the left; comparisons do not chain. Whatever is read one level
of nesting further in is a parameter of the rules here, and `inner` ties the knot: going one level in takes a
token, so the tokens that remain bound the levels.
-/

namespace BasicFrontEnd.Grammar

open Rule

/-- The rules for what stands one level of nesting further in. -/
structure Inner where
  expr  : Rule Expr
  unary : Rule Expr

-- Operands with operators of one level between them.
def binaryLevel (operators : List Operator) (operand : Rule Expr) : Rule Expr := do
  let first ← operand
  repeatFrom (fun left => do
    match (Operator.ofKind? (← peekKind)).filter (operators.contains ·) with
    | none => return .done left
    | some operator =>
      let _ ← consume
      return .again (.binary operator left (← operand))) first

-- One operand, or two with a comparison between them.
def comparison (operand : Rule Expr) : Rule Expr := do
  let left ← operand
  match (Operator.ofKind? (← peekKind)).filter (·.isComparison) with
  | none => return left
  | some operator =>
    let _ ← consume
    let right ← operand
    if (← peekKind).isComparison then unexpected "end of comparison"
    else return .binary operator left right

-- What follows an opening parenthesis in a call, up to the closing one.
def arguments (expr : Rule Expr) : Rule (List Expr) := do
  if ← accept (.symbol .closeParen) then return []
  else
    let items ← separated expr
    let _ ← expect (.symbol .closeParen)
    return items

-- Adds an index to an expression; indices that follow each other are gathered.
def addIndex (base index : Expr) : Expr :=
  match base with
  | .index base indices => .index base (indices ++ [index])
  | base                => .index base [index]

-- Member access, indices and calls behind an expression. Only a name has members and can be called.
def suffixes (inner : Inner) (base : Expr) : Rule Expr :=
  repeatFrom (fun e => do
    match ← peekKind with
    | .symbol .dot =>
      match e with
      | .identifier name =>
        let _ ← consume
        return .again (.member name (← expect .identifier).value)
      | _ => unexpected "identifier before '.'"
    | .symbol .openBracket =>
      let _ ← consume
      let index ← nested inner.expr
      let _ ← expect (.symbol .closeBracket)
      return .again (addIndex e index)
    | .symbol .openParen =>
      match e with
      | .identifier callee =>
        let _ ← consume
        return .again (.call callee (← nested (arguments inner.expr)))
      | _ => unexpected "identifier before '('"
    | _ => return .done e) base

-- Names, literals, and expressions in brackets. Parentheses leave no trace in the tree.
def primary (inner : Inner) : Rule Expr := do
  match ← peekKind with
  | .identifier => return .identifier (← consume).value
  | .integer | .float => number (← consume) false
  | .string => return .string (← consume).value
  | .keyword .trueWord =>
    let _ ← consume
    return .boolean true
  | .keyword .falseWord =>
    let _ ← consume
    return .boolean false
  | .keyword .nilWord =>
    let _ ← consume
    return .nil
  | .symbol .openParen =>
    let _ ← consume
    let e ← nested inner.expr
    let _ ← expect (.symbol .closeParen)
    return e
  | .symbol .openCurly =>
    let _ ← consume
    let elements ← nested (separated inner.expr)
    let _ ← expect (.symbol .closeCurly)
    return .array elements
  | _ => unexpected "expression"

-- An operand with its unary operators. A minus right before a number is part of the number.
def operand (inner : Inner) : Rule Expr := do
  match ← peekKind with
  | .symbol .minus =>
    let _ ← consume
    if (← peekKind).isNumber then
      let literal ← number (← consume) true
      suffixes inner literal
    else return .negate (← nested inner.unary)
  | .symbol .bang =>
    let _ ← consume
    return .not (← nested inner.unary)
  | _ =>
    let e ← primary inner
    suffixes inner e

-- An expression of the loosest level.
def disjunction (inner : Inner) : Rule Expr :=
  let product := binaryLevel [.multiply, .divide, .modulo] (operand inner)
  let sum := binaryLevel [.add, .subtract] product
  binaryLevel [.or] (binaryLevel [.and] (comparison sum))

-- The rules with no more levels within than `left` has members.
def inner : (left : List Token) → Inner
  | []        => ⟨unexpected "expression", unexpected "expression"⟩
  | _ :: left => ⟨fun s => disjunction (inner left) s, fun s => operand (inner left) s⟩

def expr : Rule Expr := do
  (inner (← get).stream.rest).expr

end BasicFrontEnd.Grammar
