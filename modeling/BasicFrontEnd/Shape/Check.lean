import BasicFrontEnd.ChainedMap
import BasicFrontEnd.Event
import BasicFrontEnd.Program
import BasicFrontEnd.Shape.Fault

/-!
Checking the shape of a program. Statements are visited in the order of the source. A variable is visible from
the end of its declaration on, in its function and in those within; bodies open no scope. Labels belong to the
innermost function and are visible in all of it.
-/

namespace BasicFrontEnd.Shape

abbrev Scope := ChainedMap Position

-- Declares names in order, and stops at the first one that has been declared before.
def declareAll (names : List (String × Position)) (scope : Scope := .empty) : Except (String × Position) Scope :=
  match names with
  | [] => .ok scope
  | (name, p) :: names =>
    if scope.contains name then .error (name, p) else declareAll names (scope.insert name p)

mutual

-- The first fault in an expression, where `visible` tells the variables.
def exprFault? (visible : String → Bool) : Expr → Option Fault
  | .assign target value =>
    if target.isTarget then (exprFault? visible target).or (exprFault? visible value)
    else some (.notAssignable target.kindName)
  | .member record field => if visible record then none else some (.undeclared record field)
  | .call _ arguments => exprsFault? visible arguments
  | .binary _ left right => (exprFault? visible left).or (exprFault? visible right)
  | .negate operand | .not operand => exprFault? visible operand
  | .array elements => exprsFault? visible elements
  | .index base indices => (exprFault? visible base).or (exprsFault? visible indices)
  | .empty | .identifier _ | .integer _ | .float _ | .string _ | .boolean _ | .nil => none

def exprsFault? (visible : String → Bool) : List Expr → Option Fault
  | []      => none
  | e :: es => (exprFault? visible e).or (exprsFault? visible es)

end

mutual

-- The labels in a statement at any depth, in order, but not those of functions within.
def labels : Stmt → List (String × Position)
  | .label name p => [(name, p)]
  | .branch _ body otherwise _ =>
    labels body ++
      match otherwise with
      | none   => []
      | some s => labels s
  | .loop _ body _ => labels body
  | .block body _ => labelsOfAll body
  | _ => []

def labelsOfAll : List Stmt → List (String × Position)
  | []      => []
  | s :: ss => labels s ++ labelsOfAll ss

end

@[ext]
structure State where
  -- The open scopes, the innermost first; the last one holds the globals.
  scopes : List Scope
  -- The labels of the function around; none outside of functions.
  labels : Option Scope := none
  -- What has been reported, the latest first.
  events : List Event := []

namespace State

def initial : State where
  scopes := [.empty]

def isVisible (s : State) (name : String) : Bool :=
  s.scopes.any (·.contains name)

-- Adds a name to the innermost scope.
def declare (s : State) (name : String) (p : Position) : State :=
  match s.scopes with
  | []              => s
  | scope :: scopes => { s with scopes := scope.insert name p :: scopes }

def report (s : State) (event : Event) : State :=
  { s with events := event :: s.events }

end State

-- A check succeeds or stops at the first fault, and leaves a state in both cases.
abbrev Check := ExceptT Diagnostic (StateM State)

-- The names and places of declared names.
def namesOf (ts : List TypedName) : List (String × Position) :=
  ts.map fun t => (t.name, t.position)

-- Declares names in a scope of their own; a name that comes again is a fault at its second place.
def declared (names : List (String × Position)) (fault : String → Fault) : Check Scope :=
  match declareAll names with
  | .ok scope        => return scope
  | .error (name, p) => throw ((fault name).toDiagnostic p)

-- What a function reports of its labels or its locals.
def scopeEvent (title function : String) (scope : Scope) : Event :=
  ⟨.trace, title ++ ":\n" ++ scope.listing Position.listing, [("function", function)]⟩

-- Runs a check inside a function. Its scope and its labels are gone afterwards, also where the check fails.
def withinFunction (function : String) (scope labels : Scope) (check : Check Unit) : Check Unit := fun s =>
  let (result, after) := check { s with scopes := scope :: s.scopes, labels := some labels }
  match after.scopes with
  | []              => (result, { after with labels := s.labels })
  | locals :: outer =>
    (result, { after with scopes := outer, labels := s.labels }.report (scopeEvent "locals" function locals))

-- Checks an expression of the statement at `p`.
def checkExpr (e : Expr) (p : Position) : Check Unit := do
  match exprFault? (← get).isVisible e with
  | none       => return
  | some fault => throw (fault.toDiagnostic p)

mutual

def checkStmt : Stmt → Check Unit
  | .declare name _ initial p => do
    if let some e := initial then checkExpr e p
    modify (·.declare name p)
  | .record name members _ => do
    let _ ← declared (namesOf members) (.duplicateMember · name)
  | .function name _ formals body _ _ => do
    let scope ← declared (namesOf formals) (.duplicateFormal · name)
    let labels ← declared (labelsOfAll body) .duplicateLabel
    modify (·.report (scopeEvent "labels" name labels))
    withinFunction name scope labels (checkStmts body)
  | .label _ _ => return
  | .goto target p => do
    if !(← get).labels.any (·.contains target) then throw ((Fault.unknownTarget target).toDiagnostic p)
  | .returning value p => checkExpr value p
  | .branch test body otherwise p => do
    checkExpr test p
    checkStmt body
    match otherwise with
    | none   => return
    | some s => checkStmt s
  | .loop test body p => do
    checkExpr test p
    checkStmt body
  | .block body _ => checkStmts body
  | .expression e p => checkExpr e p

def checkStmts : List Stmt → Check Unit
  | []      => return
  | s :: ss => do
    checkStmt s
    checkStmts ss

end

-- How many names the outermost scope has.
def State.globalCount (s : State) : Nat :=
  (s.scopes.getLast?.map (·.size)).getD 0

-- Checks all of a program, and counts its globals if it passes.
def checkProgram (p : Program) : Check Unit := do
  checkStmts p.body
  modify fun s => s.report ⟨.debug, "validated", [("globals", toString s.globalCount)]⟩

end Shape

-- Whether the program has the right shape, and what the check reported.
def Program.check (p : Program) : Except Diagnostic Unit × List Event :=
  let (result, s) := Shape.checkProgram p |>.run |>.run .initial
  (result, s.events.reverse)

end BasicFrontEnd
