import BasicFrontEnd.Grammar.Expr
import BasicFrontEnd.Grammar.TypeSpec
import BasicFrontEnd.Program.Stmt

/-!
Reading the statements of a body. Each may end with a semicolon. As with expressions, the rule for bodies one level
of nesting further in is a parameter, bounded by the tokens that remain.
-/

namespace BasicFrontEnd.Grammar

open Rule

/-- The statements of a body and the place where it begins. -/
structure Body where
  stmts    : List Stmt
  position : Position

-- A rule for a body up to, and without, a token of the kind `close` or of one of the kinds in `others`.
abbrev BodyRule := (close : Kind) → (others : List Kind) → Rule Body

-- Behind a name, with a colon next. A type keyword or the name of a record after the colon begins a variable's
-- type; anything else leaves a label.
def declaration (name : Token) : Rule Stmt := do
  let _ ← expect (.symbol .colon)
  let next ← peek
  if next.kind.isTypeKeyword || (next.kind == .identifier && (← get).isRecord next.value) then
    let type ← typeSpec
    if ← accept (.symbol .assign) then return .declare name.value type (some (← expr)) name.position
    else return .declare name.value type none name.position
  else return .label name.value name.position

def gotoStmt : Rule Stmt := do
  let start ← expect (.keyword .gotoWord)
  return .goto (← expect .identifier).value start.position

def ifStmt (body : BodyRule) : Rule Stmt := do
  let start ← expect (.keyword .ifWord)
  let test ← expr
  let _ ← expect (.keyword .thenWord)
  let yes ← nested (body (.keyword .endWord) [.keyword .elseWord])
  let otherwise ← (do
    if ← accept (.keyword .elseWord) then
      let no ← nested (body (.keyword .endWord) [])
      return some (.block no.stmts no.position)
    else return none)
  let _ ← expect (.keyword .endWord)
  return .branch test (.block yes.stmts yes.position) otherwise start.position

def whileStmt (body : BodyRule) : Rule Stmt := do
  let start ← expect (.keyword .whileWord)
  let test ← expr
  let block ← nested (body (.keyword .endWord) [])
  let _ ← expect (.keyword .endWord)
  return .loop test (.block block.stmts block.position) start.position

-- In a function without a result nothing follows the word; elsewhere an expression does.
def returnStmt : Rule Stmt := do
  let start ← expect (.keyword .returnWord)
  if (← get).resultType.any (·.isVoid) then return .returning .empty start.position
  else return .returning (← expr) start.position

-- A call, or an assignment where `:=` follows the first expression.
def expressionStmt : Rule Stmt := do
  let position := (← peek).position
  let e ← expr
  if ← accept (.symbol .assign) then return .expression (.assign e (← expr)) position
  else if e.isCall then return .expression e position
  else unexpected (Kind.symbol .assign).describe

-- A name begins a declaration if a colon follows; otherwise it is taken back.
def stmtWith (body : BodyRule) : Rule Stmt := do
  let s ← (do
    match ← peekKind with
    | .identifier =>
      let name ← consume
      if (← peekKind) = .symbol .colon then declaration name
      else
        backup
        expressionStmt
    | .keyword .gotoWord => gotoStmt
    | .keyword .ifWord => ifStmt body
    | .keyword .whileWord => whileStmt body
    | .keyword .returnWord => returnStmt
    | _ => expressionStmt)
  let _ ← accept (.symbol .semicolon)
  return s

def bodyWith (stmt : Rule Stmt) : BodyRule := fun close others => do
  let position := (← peek).position
  let stmts ← repeatFrom (fun stmts => do
    let kind ← peekKind
    if kind = close ∨ kind ∈ others then return .done stmts.reverse
    else if kind = .eof then unexpected close.describe
    else return .again ((← stmt) :: stmts)) []
  return ⟨stmts, position⟩

-- The rule for bodies with no more levels within than `left` has members.
def bodyWithin : (left : List Token) → BodyRule
  | []        => fun close _ => unexpected close.describe
  | _ :: left => bodyWith fun s => stmtWith (bodyWithin left) s

def body : BodyRule := fun close others => do
  bodyWithin (← get).stream.rest close others

def stmt : Rule Stmt :=
  stmtWith body

end BasicFrontEnd.Grammar
