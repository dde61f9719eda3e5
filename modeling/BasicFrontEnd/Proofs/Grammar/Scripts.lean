import BasicFrontEnd.Proofs.Grammar.Script

/-!
The scripts of the rules that open levels of nesting, up to the script of whole programs.
-/

namespace BasicFrontEnd.Grammar

open Rule State

namespace Script

section Loops

-- The current token and those after it.
def rest : Rule (List Token) := do
  return (← get).stream.rest

instance : rest.Blind :=
  ⟨fun _ _ _ => rfl⟩

def repeatWithin (round : β → Script (Round β γ)) (left : List Token) (b : β) : Script γ :=
  match left with
  | []        => ofRule (unexpected Kind.eof.describe)
  | _ :: left => do
    match ← round b with
    | .again b => repeatWithin round left b
    | .done c  => return c

def repeatFrom (round : β → Script (Round β γ)) (b : β) : Script γ := do
  repeatWithin round (← ofRule rest) b

theorem rule_repeatWithin (round : β → Script (Round β γ)) (left : List Token) (b : β) :
    (repeatWithin round left b).rule = Rule.repeatWithin (fun b => (round b).rule) left b := by
  induction left generalizing b
  case nil => exact rule_ofRule _
  case cons ih =>
    rw [repeatWithin, Rule.repeatWithin, rule_bind]
    congr
    funext r
    cases r
    case again => exact ih _
    case done => rfl

@[simp]
theorem rule_repeatFrom (round : β → Script (Round β γ)) (b : β) :
    (repeatFrom round b).rule = Rule.repeatFrom (fun b => (round b).rule) b := by
  simp [repeatFrom, Rule.repeatFrom, rest, rule_repeatWithin]

def commaRound (item : Script α) (items : List α) : Script (Round (List α) (List α)) := do
  if ← ofRule (accept (.symbol .comma)) then return .again ((← item) :: items)
  else return .done items.reverse

def separated (item : Script α) : Script (List α) := do
  repeatFrom (commaRound item) [← item]

@[simp]
theorem rule_commaRound (item : Script α) (items : List α) :
    (commaRound item items).rule = Grammar.commaRound item.rule items := by
  simp [commaRound, Grammar.commaRound]

@[simp]
theorem rule_separated (item : Script α) : (separated item).rule = Rule.separated item.rule := by
  simp [separated, separated_eq]

end Loops

section Exprs

-- The scripts for what stands one level of nesting further in.
structure Inner where
  expr  : Script Expr
  unary : Script Expr

def Inner.rules (inner : Script.Inner) : Grammar.Inner :=
  ⟨inner.expr.rule, inner.unary.rule⟩

def arguments (expr : Script Expr) : Script (List Expr) := do
  if ← ofRule (accept (.symbol .closeParen)) then return []
  else
    let items ← separated expr
    let _ ← ofRule (expect (.symbol .closeParen))
    return items

@[simp]
theorem rule_arguments (expr : Script Expr) : (arguments expr).rule = Grammar.arguments expr.rule := by
  simp [arguments, Grammar.arguments]

def suffixRound (inner : Script.Inner) (e : Expr) : Script (Round Expr Expr) := do
  match ← ofRule peekKind with
  | .symbol .dot =>
    match e with
    | .identifier name =>
      let _ ← ofRule consume
      return .again (.member name (← ofRule (expect .identifier)).value)
    | _ => ofRule (unexpected "identifier before '.'")
  | .symbol .openBracket =>
    let _ ← ofRule consume
    let index ← inner.expr.nested
    let _ ← ofRule (expect (.symbol .closeBracket))
    return .again (addIndex e index)
  | .symbol .openParen =>
    match e with
    | .identifier callee =>
      let _ ← ofRule consume
      return .again (.call callee (← (arguments inner.expr).nested))
    | _ => ofRule (unexpected "identifier before '('")
  | _ => return .done e

def suffixes (inner : Script.Inner) (base : Expr) : Script Expr :=
  repeatFrom (suffixRound inner) base

@[simp]
theorem rule_suffixRound (inner : Script.Inner) (e : Expr) :
    (suffixRound inner e).rule = Grammar.suffixRound inner.rules e := by
  simp only [suffixRound, Grammar.suffixRound, rule_bind, rule_ofRule]
  congr
  funext kind
  split
  case h_1 | h_3 => cases e <;> simp [Inner.rules]
  case h_2 => simp [Inner.rules]
  -- the last case excludes the kinds of the others
  case h_4 => simp_all

@[simp]
theorem rule_suffixes (inner : Script.Inner) (base : Expr) :
    (suffixes inner base).rule = Grammar.suffixes inner.rules base := by
  simp [suffixes, suffixes_eq]

def primary (inner : Script.Inner) : Script Expr := do
  match ← ofRule peekKind with
  | .identifier => return .identifier (← ofRule consume).value
  | .integer | .float => ofRule (liftM (number (← ofRule consume) false))
  | .string => return .string (← ofRule consume).value
  | .keyword .trueWord =>
    let _ ← ofRule consume
    return .boolean true
  | .keyword .falseWord =>
    let _ ← ofRule consume
    return .boolean false
  | .keyword .nilWord =>
    let _ ← ofRule consume
    return .nil
  | .symbol .openParen =>
    let _ ← ofRule consume
    let e ← inner.expr.nested
    let _ ← ofRule (expect (.symbol .closeParen))
    return e
  | .symbol .openCurly =>
    let _ ← ofRule consume
    let elements ← (separated inner.expr).nested
    let _ ← ofRule (expect (.symbol .closeCurly))
    return .array elements
  | _ => ofRule (unexpected "expression")

@[simp]
theorem rule_primary (inner : Script.Inner) : (primary inner).rule = Grammar.primary inner.rules := by
  simp only [primary, Grammar.primary, rule_bind, rule_ofRule]
  congr
  funext kind
  split
  case h_10 => simp_all
  all_goals simp [Inner.rules]

def operand (inner : Script.Inner) : Script Expr := do
  match ← ofRule peekKind with
  | .symbol .minus =>
    let _ ← ofRule consume
    if (← ofRule peekKind).isNumber then
      let literal ← ofRule (liftM (number (← ofRule consume) true))
      suffixes inner literal
    else return .negate (← inner.unary.nested)
  | .symbol .bang =>
    let _ ← ofRule consume
    return .not (← inner.unary.nested)
  | _ =>
    let e ← primary inner
    suffixes inner e

@[simp]
theorem rule_operand (inner : Script.Inner) : (operand inner).rule = Grammar.operand inner.rules := by
  simp only [operand, Grammar.operand, rule_bind, rule_ofRule]
  congr
  funext kind
  split
  case h_3 => simp_all
  all_goals simp [Inner.rules]

def binaryRound (operators : List Operator) (operand : Script Expr) (left : Expr) : Script (Round Expr Expr) := do
  match (Operator.ofKind? (← ofRule peekKind)).filter (operators.contains ·) with
  | none => return .done left
  | some operator =>
    let _ ← ofRule consume
    return .again (.binary operator left (← operand))

def binaryLevel (operators : List Operator) (operand : Script Expr) : Script Expr := do
  repeatFrom (binaryRound operators operand) (← operand)

@[simp]
theorem rule_binaryRound (operators : List Operator) (operand : Script Expr) (left : Expr) :
    (binaryRound operators operand left).rule = Grammar.binaryRound operators operand.rule left := by
  simp only [binaryRound, Grammar.binaryRound, rule_bind, rule_ofRule]
  congr
  funext kind
  cases (Operator.ofKind? kind).filter (operators.contains ·) <;> simp

@[simp]
theorem rule_binaryLevel (operators : List Operator) (operand : Script Expr) :
    (binaryLevel operators operand).rule = Grammar.binaryLevel operators operand.rule := by
  simp [binaryLevel, binaryLevel_eq]

def comparison (operand : Script Expr) : Script Expr := do
  let left ← operand
  match (Operator.ofKind? (← ofRule peekKind)).filter (·.isComparison) with
  | none => return left
  | some operator =>
    let _ ← ofRule consume
    let right ← operand
    if (← ofRule peekKind).isComparison then ofRule (unexpected "end of comparison")
    else return .binary operator left right

@[simp]
theorem rule_comparison (operand : Script Expr) : (comparison operand).rule = Grammar.comparison operand.rule := by
  simp only [comparison, Grammar.comparison, rule_bind, rule_ofRule]
  congr
  funext left
  congr
  funext kind
  cases (Operator.ofKind? kind).filter (·.isComparison) <;> simp

def disjunction (inner : Script.Inner) : Script Expr :=
  let product := binaryLevel [.multiply, .divide, .modulo] (operand inner)
  let sum := binaryLevel [.add, .subtract] product
  binaryLevel [.or] (binaryLevel [.and] (comparison sum))

@[simp]
theorem rule_disjunction (inner : Script.Inner) : (disjunction inner).rule = Grammar.disjunction inner.rules := by
  simp [disjunction, Grammar.disjunction]

def inner : (left : List Token) → Script.Inner
  | []        => ⟨ofRule (unexpected "expression"), ofRule (unexpected "expression")⟩
  | _ :: left => ⟨disjunction (inner left), operand (inner left)⟩

theorem rules_inner (left : List Token) : (inner left).rules = Grammar.inner left := by
  induction left
  case nil => simp [inner, Inner.rules, Grammar.inner]
  case cons ih => simp [inner, Inner.rules, Grammar.inner, ← ih]

def expr : Script Expr := do
  (inner (← ofRule rest)).expr

@[simp]
theorem rule_expr : expr.rule = Grammar.expr := by
  have : ∀ left, (inner left).expr.rule = (Grammar.inner left).expr := fun left =>
    congrArg Grammar.Inner.expr (rules_inner left)
  simp [expr, Grammar.expr, rest, this]

end Exprs

section Stmts

instance : dimensions.Blind := by
  have : ∀ n, (dimensionRound n).Blind := fun n => by
    unfold dimensionRound
    infer_instance
  exact inferInstanceAs (Rule.repeatFrom dimensionRound 0).Blind

instance : typeSpec.Blind := by
  unfold typeSpec
  infer_instance

instance : gotoStmt.Blind := by
  unfold gotoStmt
  infer_instance

-- Whether the name is that of a record.
def asksRecord (name : String) : Rule Bool := do
  return (← get).isRecord name

-- Whether the function around has no result.
def asksVoid : Rule Bool := do
  return (← get).resultType.any (·.isVoid)

instance {name : String} : (asksRecord name).Blind :=
  ⟨fun _ _ _ => rfl⟩

instance : asksVoid.Blind :=
  ⟨fun _ _ _ => rfl⟩

def declaration (name : Token) : Script Stmt := do
  let _ ← ofRule (expect (.symbol .colon))
  let next ← ofRule peek
  if next.kind.isTypeKeyword || (next.kind == .identifier && (← ofRule (asksRecord next.value))) then
    let type ← ofRule typeSpec
    if ← ofRule (accept (.symbol .assign)) then return .declare name.value type (some (← expr)) name.position
    else return .declare name.value type none name.position
  else return .label name.value name.position

@[simp]
theorem rule_declaration (name : Token) : (declaration name).rule = Grammar.declaration name := by
  simp [declaration, Grammar.declaration, asksRecord]

abbrev BodyScript := (close : Kind) → (others : List Kind) → Script Body

def BodyScript.rules (body : BodyScript) : BodyRule :=
  fun close others => (body close others).rule

def otherwise (body : BodyScript) : Script (Option Stmt) := do
  if ← ofRule (accept (.keyword .elseWord)) then
    let no ← (body (.keyword .endWord) []).nested
    return some (.block no.stmts no.position)
  else return none

def ifStmt (body : BodyScript) : Script Stmt := do
  let start ← ofRule (expect (.keyword .ifWord))
  let test ← expr
  let _ ← ofRule (expect (.keyword .thenWord))
  let yes ← (body (.keyword .endWord) [.keyword .elseWord]).nested
  let no ← otherwise body
  let _ ← ofRule (expect (.keyword .endWord))
  return .branch test (.block yes.stmts yes.position) no start.position

@[simp]
theorem rule_ifStmt (body : BodyScript) : (ifStmt body).rule = Grammar.ifStmt body.rules := by
  simp [ifStmt, otherwise, Grammar.ifStmt, BodyScript.rules]

def whileStmt (body : BodyScript) : Script Stmt := do
  let start ← ofRule (expect (.keyword .whileWord))
  let test ← expr
  let block ← (body (.keyword .endWord) []).nested
  let _ ← ofRule (expect (.keyword .endWord))
  return .loop test (.block block.stmts block.position) start.position

@[simp]
theorem rule_whileStmt (body : BodyScript) : (whileStmt body).rule = Grammar.whileStmt body.rules := by
  simp [whileStmt, Grammar.whileStmt, BodyScript.rules]

def returnStmt : Script Stmt := do
  let start ← ofRule (expect (.keyword .returnWord))
  if ← ofRule asksVoid then return .returning .empty start.position
  else return .returning (← expr) start.position

@[simp]
theorem rule_returnStmt : returnStmt.rule = Grammar.returnStmt := by
  simp [returnStmt, Grammar.returnStmt, asksVoid]

def expressionStmt : Script Stmt := do
  let position := (← ofRule peek).position
  let e ← expr
  if ← ofRule (accept (.symbol .assign)) then return .expression (.assign e (← expr)) position
  else if e.isCall then return .expression e position
  else ofRule (unexpected (Kind.symbol .assign).describe)

@[simp]
theorem rule_expressionStmt : expressionStmt.rule = Grammar.expressionStmt := by
  simp [expressionStmt, Grammar.expressionStmt]

def unended (body : BodyScript) : Script Stmt := do
  match ← ofRule peekKind with
  | .identifier =>
    let name ← ofRule consume
    if (← ofRule peekKind) = .symbol .colon then declaration name
    else
      ofRule backup
      expressionStmt
  | .keyword .gotoWord => ofRule gotoStmt
  | .keyword .ifWord => ifStmt body
  | .keyword .whileWord => whileStmt body
  | .keyword .returnWord => returnStmt
  | _ => expressionStmt

@[simp]
theorem rule_unended (body : BodyScript) : (unended body).rule = Grammar.unended body.rules := by
  simp only [unended, Grammar.unended, rule_bind, rule_ofRule]
  congr
  funext kind
  split
  case h_6 => simp_all
  all_goals simp

def ended (script : Script α) : Script α := do
  let a ← script
  let _ ← ofRule (accept (.symbol .semicolon))
  return a

@[simp]
theorem rule_ended (script : Script α) : (ended script).rule = Grammar.ended script.rule := by
  simp [ended, Grammar.ended]

def bodyRound (stmt : Script Stmt) (close : Kind) (others : List Kind) (stmts : List Stmt) :
    Script (Round (List Stmt) (List Stmt)) := do
  let kind ← ofRule peekKind
  if kind = close ∨ kind ∈ others then return .done stmts.reverse
  else if kind = .eof then ofRule (unexpected close.describe)
  else return .again ((← stmt) :: stmts)

def bodyWith (stmt : Script Stmt) : BodyScript := fun close others => do
  let position := (← ofRule peek).position
  return ⟨← repeatFrom (bodyRound stmt close others) [], position⟩

@[simp]
theorem rule_bodyRound (stmt : Script Stmt) (close : Kind) (others : List Kind) (stmts : List Stmt) :
    (bodyRound stmt close others stmts).rule = Grammar.bodyRound stmt.rule close others stmts := by
  simp [bodyRound, Grammar.bodyRound]

theorem rules_bodyWith (stmt : Script Stmt) : (bodyWith stmt).rules = Grammar.bodyWith stmt.rule := by
  funext close others
  simp [BodyScript.rules, bodyWith, bodyWith_eq]

def bodyWithin : (left : List Token) → BodyScript
  | []        => fun close _ => ofRule (unexpected close.describe)
  | _ :: left => bodyWith (ended (unended (bodyWithin left)))

theorem rules_bodyWithin (left : List Token) : (bodyWithin left).rules = Grammar.bodyWithin left := by
  induction left
  case nil =>
    funext close others
    simp [bodyWithin, BodyScript.rules, Grammar.bodyWithin]
  case cons ih => simp [bodyWithin, rules_bodyWith, Grammar.bodyWithin, ih, stmtWith_eq]

def body : BodyScript := fun close others => do
  bodyWithin (← ofRule rest) close others

theorem rules_body : body.rules = Grammar.body := by
  funext close others
  have : ∀ left, (bodyWithin left close others).rule = Grammar.bodyWithin left close others := fun left =>
    congrFun (congrFun (rules_bodyWithin left) close) others
  simp [BodyScript.rules, body, Grammar.body, rest, this]

def stmt : Script Stmt :=
  ended (unended body)

@[simp]
theorem rule_stmt : stmt.rule = Grammar.stmt := by
  simp [stmt, Grammar.stmt, rules_body, stmtWith_eq]

end Stmts

section Programs

instance : formal.Blind := by
  unfold formal
  infer_instance

instance : formals.Blind := by
  unfold formals Rule.separated
  infer_instance

instance : member.Blind := by
  unfold member
  infer_instance

instance : recordDecl.Blind := by
  unfold recordDecl
  infer_instance

def functionDecl : Script Stmt := do
  let start ← ofRule (expect (.keyword .funcWord))
  let name := (← ofRule (expect .identifier)).value
  let _ ← ofRule (expect (.symbol .openParen))
  let formals ← ofRule formals
  let _ ← ofRule (expect (.symbol .closeParen))
  let _ ← ofRule (expect (.symbol .arrow))
  let result ← ofRule typeSpec
  let body ← (body (.keyword .endWord) []).withResultType result
  let _ ← ofRule (expect (.keyword .endWord))
  return .function name result formals body.stmts body.position start.position

@[simp]
theorem rule_functionDecl : functionDecl.rule = Grammar.functionDecl := by
  have : ∀ close others, (body close others).rule = Grammar.body close others := fun close others =>
    congrFun (congrFun rules_body close) others
  simp [functionDecl, Grammar.functionDecl, this]

-- A function up to its body, and from there on.
def signature : Script Signature := do
  let start ← ofRule (expect (.keyword .funcWord))
  let name ← ofRule (expect .identifier)
  let _ ← ofRule (expect (.symbol .openParen))
  let formals ← ofRule formals
  let _ ← ofRule (expect (.symbol .closeParen))
  let _ ← ofRule (expect (.symbol .arrow))
  let result ← ofRule typeSpec
  return ⟨name.value, formals, result, start.position⟩

def signedFunction (signature : Signature) : Script Stmt := do
  let body ← (body (.keyword .endWord) []).withResultType signature.result
  let _ ← ofRule (expect (.keyword .endWord))
  return .function signature.name signature.result signature.formals body.stmts body.position signature.position

theorem functionDecl_eq : functionDecl = signature >>= signedFunction :=
  rfl

@[simp]
theorem rule_signature : signature.rule = Grammar.signature := by
  simp [signature, Grammar.signature]

def unendedTop : Script Stmt := do
  match ← ofRule peekKind with
  | .keyword .funcWord => functionDecl
  | .keyword .structWord => ofRule recordDecl
  | .identifier =>
    let name ← ofRule consume
    if (← ofRule peekKind) = .symbol .colon then declaration name
    else ofRule (unexpected (Kind.symbol .colon).describe)
  | _ => ofRule (unexpected "declaration")

@[simp]
theorem rule_unendedTop : unendedTop.rule = Grammar.unendedTop := by
  simp only [unendedTop, Grammar.unendedTop, rule_bind, rule_ofRule]
  congr
  funext kind
  split
  case h_4 => simp_all
  all_goals simp

def programRound (stmts : List Stmt) : Script (Round (List Stmt) Program) := do
  if (← ofRule peekKind) = .eof then return .done ⟨stmts.reverse⟩
  else return .again ((← ended unendedTop) :: stmts)

def program : Script Program :=
  repeatFrom programRound []

@[simp]
theorem rule_programRound (stmts : List Stmt) : (programRound stmts).rule = Grammar.programRound stmts := by
  simp [programRound, Grammar.programRound, topLevelStmt_eq]

-- The script is that of the rule for whole programs.
@[simp]
theorem rule_program : program.rule = Grammar.program := by
  simp only [program, rule_repeatFrom, rule_programRound]
  rfl

end Programs

end Script
end BasicFrontEnd.Grammar
