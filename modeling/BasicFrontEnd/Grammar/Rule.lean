import BasicFrontEnd.Program.TypeSpec
import BasicFrontEnd.Token.Stream

/-!
Rules of the grammar: functions that read from a stream of tokens and answer a value or the first fault. A rule
looks one token ahead and may take one token back. Where it fails, the state stays as the failure left it.
-/

namespace BasicFrontEnd.Grammar

-- How deep brackets, unary operators and bodies may nest.
def maxNesting : Nat := 128

@[ext]
structure State where
  stream     : Stream
  -- The names of all records declared anywhere in the stream.
  records    : List String
  -- How many levels of nesting are open.
  depth      : Nat := 0
  -- How many may be; no limit if none is given.
  limit      : Option Nat := some maxNesting
  -- The result type of the function whose body is being read.
  resultType : Option TypeSpec := none
  -- Every token consumed so far, the latest first; taking a token back does not strike it out.
  consumed   : List Token := []
  deriving DecidableEq

-- The names that directly follow the word that declares a record.
def declaredRecords : List Token → List String
  | s :: n :: ts =>
    if s.kind = .keyword .structWord ∧ n.kind = .identifier then n.value :: declaredRecords (n :: ts)
    else declaredRecords (n :: ts)
  | _ => []

namespace State

-- The state before the first rule. A record may be used before it is declared, so the names are collected
-- first.
def ofStream (s : Stream) : State where
  stream  := s
  records := (declaredRecords s.toList).eraseDups

def peek (s : State) : Token :=
  s.stream.peek

def isRecord (s : State) (name : String) : Bool :=
  s.records.contains name

-- The fault that the next token is not what was expected.
def unexpected (s : State) (expected : String) : Diagnostic :=
  s.peek.fault (.badToken expected s.peek.value)

-- Whether one more level of nesting may be opened.
def hasRoom (s : State) : Bool :=
  match s.limit with
  | none       => true
  | some limit => s.depth < limit

end State

-- A rule answers a value or a fault, and the state in both cases.
abbrev Rule (α : Type) := ExceptT Diagnostic (StateM State) α

namespace Rule

-- Fails at the next token.
def unexpected (expected : String) : Rule α := do
  throw ((← get).unexpected expected)

def peek : Rule Token := do
  return (← get).peek

def peekKind : Rule Kind := do
  return (← get).peek.kind

-- Moves past the next token and answers it.
def consume : Rule Token := do
  modify fun s => { s with stream := s.stream.consume, consumed := s.peek :: s.consumed }
  return (← get).stream.current

-- Takes the last token back.
def backup : Rule Unit :=
  modify fun s => { s with stream := s.stream.backup }

-- Moves past the next token if it is of the kind, and tells whether it did.
def accept (kind : Kind) : Rule Bool := do
  if (← peekKind) = kind then
    let _ ← consume
    return true
  else return false

-- Moves past the next token, which has to be of the kind.
def expect (kind : Kind) : Rule Token := do
  if (← peekKind) = kind then consume else unexpected kind.describe

-- Runs a rule one level of nesting further in.
def nested (rule : Rule α) : Rule α := fun s =>
  if s.hasRoom then
    let (result, after) := rule { s with depth := s.depth + 1 }
    (result, { after with depth := after.depth - 1 })
  else unexpected ("at most " ++ toString (s.limit.getD 0) ++ " levels of nesting") s

/-- What a round of a repeated rule decides. -/
inductive Round (β γ : Type)
  -- Go on with this.
  | again (b : β)
  -- Stop with this.
  | done (c : γ)

-- Repeats rounds, but no more of them than `left` has members.
def repeatWithin (round : β → Rule (Round β γ)) (left : List Token) (b : β) : Rule γ :=
  match left with
  | []        => unexpected Kind.eof.describe
  | _ :: left => do
    match ← round b with
    | .again b => repeatWithin round left b
    | .done c  => return c

-- Repeats rounds until one stops. A round that goes on has moved past a token, so there are at most as many as
-- tokens remain, and one.
def repeatFrom (round : β → Rule (Round β γ)) (b : β) : Rule γ := do
  repeatWithin round (← get).stream.rest b

-- One item or more, with commas between them.
def separated (item : Rule α) : Rule (List α) := do
  let first ← item
  repeatFrom (fun items => do
    if ← accept (.symbol .comma) then return .again ((← item) :: items)
    else return .done items.reverse) [first]

end Rule
end BasicFrontEnd.Grammar
