import BasicFrontEnd.Grammar.Program
import BasicFrontEnd.Shape.Check
import BasicFrontEnd.Token.Lexer

/-!
The whole front end: from a source to its checked program or the first diagnostic, with a report of each phase.
-/

namespace BasicFrontEnd

namespace Grammar.State

-- What reading has reported: how many records it knows, and each token consumed.
def events (s : State) : List Event :=
  ⟨.trace, "struct names", [("count", toString s.records.length)]⟩ ::
    s.consumed.reverse.map fun t => ⟨.trace, "consume", [("kind", t.kind.name), ("value", t.value)]⟩

end Grammar.State

namespace Stream

-- The listing of all tokens, and their number.
def events (s : Stream) : List Event :=
  s.toList.map (fun t => ⟨.trace, t.listing, []⟩) ++ [⟨.debug, "lexed", [("tokens", toString s.size)]⟩]

-- Reads the stream as a program, and answers what reading has reported too.
def read (s : Stream) : Except Diagnostic Program × List Event :=
  let (result, after) := Grammar.program.run.run (.ofStream s)
  (result, after.events)

end Stream

/-- The outcome of compiling: the program or the first diagnostic, and what was reported on the way. -/
structure Compilation where
  result : Except Diagnostic Program
  events : List Event

namespace Source

/-- Reads a source as a program without checking its shape. -/
def parse (s : Source) : Except Diagnostic Program := do
  (← s.tokens).read.1

def compile (s : Source) : Compilation :=
  match s.tokens with
  | .error d => ⟨.error d, []⟩
  | .ok stream =>
    let (parsed, readEvents) := stream.read
    match parsed with
    | .error d => ⟨.error d, stream.events ++ readEvents⟩
    | .ok program =>
      let (checked, checkEvents) := program.check
      let parsedEvent : Event := ⟨.debug, "parsed", [("statements", toString program.body.length)]⟩
      ⟨checked.map fun _ => program, stream.events ++ readEvents ++ parsedEvent :: checkEvents⟩

end Source
end BasicFrontEnd
