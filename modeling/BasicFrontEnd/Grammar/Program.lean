import BasicFrontEnd.Grammar.Stmt
import BasicFrontEnd.Program

/-!
Reading what stands outside of functions: functions, records, variables and labels, up to the end of the source.
-/

namespace BasicFrontEnd.Grammar

open Rule

-- A type, a name, and more dimensions.
def formal : Rule TypedName := do
  let position := (← peek).position
  let type ← typeSpec
  let name := (← expect .identifier).value
  return ⟨name, { type with dimensions := type.dimensions + (← dimensions) }, position⟩

def formals : Rule (List TypedName) := do
  if (← peekKind) = .symbol .closeParen then return [] else separated formal

-- Runs a rule with the result type set, and forgets the type after it, also where the rule fails.
def withResultType (type : TypeSpec) (rule : Rule α) : Rule α := fun s =>
  let (result, after) := rule { s with resultType := some type }
  (result, { after with resultType := none })

def functionDecl : Rule Stmt := do
  let start ← expect (.keyword .funcWord)
  let name := (← expect .identifier).value
  let _ ← expect (.symbol .openParen)
  let formals ← formals
  let _ ← expect (.symbol .closeParen)
  let _ ← expect (.symbol .arrow)
  let result ← typeSpec
  let body ← withResultType result (body (.keyword .endWord) [])
  let _ ← expect (.keyword .endWord)
  return .function name result formals body.stmts body.position start.position

def member : Rule TypedName := do
  let name ← expect .identifier
  let _ ← expect (.symbol .colon)
  let type ← typeSpec
  let _ ← accept (.symbol .semicolon)
  return ⟨name.value, type, name.position⟩

def recordDecl : Rule Stmt := do
  let start ← expect (.keyword .structWord)
  let name := (← expect .identifier).value
  let members ← repeatFrom (fun members => do
    if (← peekKind) = .keyword .endWord then return .done members.reverse
    else return .again ((← member) :: members)) []
  let _ ← expect (.keyword .endWord)
  return .record name members start.position

-- A statement outside of functions: a declaration or a label.
def topLevelStmt : Rule Stmt := do
  let s ← (do
    match ← peekKind with
    | .keyword .funcWord => functionDecl
    | .keyword .structWord => recordDecl
    | .identifier =>
      let name ← consume
      if (← peekKind) = .symbol .colon then declaration name
      else unexpected (Kind.symbol .colon).describe
    | _ => unexpected "declaration")
  let _ ← accept (.symbol .semicolon)
  return s

/-- All statements up to the end of the source. -/
def program : Rule Program :=
  repeatFrom (fun stmts => do
    if (← peekKind) = .eof then return .done ⟨stmts.reverse⟩
    else return .again ((← topLevelStmt) :: stmts)) []

end BasicFrontEnd.Grammar
