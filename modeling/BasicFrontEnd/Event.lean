/-!
What the phases report about their work. An event has a level, a message and named fields, all written out.
-/

namespace BasicFrontEnd

inductive Level
  | trace
  | debug
  | info
  | warn
  | error
  deriving DecidableEq, Inhabited

namespace Level

def name : Level → String
  | trace => "TRACE"
  | debug => "DEBUG"
  | info  => "INFO"
  | warn  => "WARN"
  | error => "ERROR"

-- How much attention the level asks for.
def weight : Level → Nat
  | trace => 0
  | debug => 1
  | info  => 2
  | warn  => 3
  | error => 4

end Level

@[ext]
structure Event where
  level   : Level
  message : String
  fields  : List (String × String) := []
  deriving DecidableEq

namespace Event

-- The events that are at least of the level.
def atLeast (level : Level) (events : List Event) : List Event :=
  events.filter (level.weight ≤ ·.level.weight)

end Event
end BasicFrontEnd
