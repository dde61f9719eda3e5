import BasicFrontEnd.Compile

/-!
The command: which request its arguments make, and what it prints and returns for it. What it logs is left out.
-/

namespace BasicFrontEnd.Command

-- The requests, how arguments are read as one of them, and the texts for help and version stand for a reader of command
-- lines that knows one optional path and two options.
inductive Request
  | version
  | help
  -- The arguments make no sense.
  | refused
  | compile (path : Option String)
  deriving DecidableEq

namespace Request

-- Reads the arguments after `--`, where all are paths, or rather the one path there may be.
def ofPaths (path : Option String) : List String → Request
  | [] => .compile path
  | arg :: args => if arg = "" ∨ path.isSome then .refused else ofPaths (some arg) args

-- The request of an option with one dash; its first letter decides.
def ofLetters : List Char → Request
  | 'v' :: _ => .version
  | 'h' :: _ => .help
  | _        => .refused

-- The request of an option with two dashes.
def ofLongName : List Char → Request
  | ['v', 'e', 'r', 's', 'i', 'o', 'n'] => .version
  | ['h', 'e', 'l', 'p']                => .help
  | _                                   => .refused

-- Reads arguments in order; the first option decides. A single dash is a path.
def ofArgs (path : Option String) : List String → Request
  | [] => .compile path
  | arg :: args =>
    match arg.toList with
    | ['-', '-']        => ofPaths path args
    | '-' :: '-' :: cs  => ofLongName cs
    | '-' :: c :: cs    => ofLetters (c :: cs)
    | _ => if arg = "" ∨ path.isSome then .refused else ofArgs (some arg) args

end Request

structure Outcome where
  exitCode : Nat
  output   : String
  deriving DecidableEq

def versionText : String := "lbasic 0.1.0\n"

def helpText : String :=
  "Front end for LBASIC: lexes, parses and checks one source file\n\n" ++
  "Usage: lbasic [PATH]\n\n" ++
  "Arguments:\n" ++
  "  [PATH]  Source file to compile\n\n" ++
  "Options:\n" ++
  "  -v, --version  Print version\n" ++
  "  -h, --help     Print help\n"

-- The exit code where no path is given.
def noPathCode : Nat := 102

-- The exit code for arguments that make no sense.
def usageCode : Nat := 2

-- What is printed of a diagnostic. The debug log would get its rendering too; logging is left out, and with it that
-- the command ends where it writes this log and there is no rendering (`Diagnostic.render?`).
def failure (d : Diagnostic) : Outcome :=
  ⟨d.cause.exitCode, d.message ++ "\nparse failed\n"⟩

-- Opens the source at a path that was looked up: a path that leads nowhere is told apart from a file that cannot
-- be read.
def openSource (path : String) (found : Except AccessFault FileTree) : Except Diagnostic Source :=
  match found with
  | .error _ => .error ⟨.unknownPath path, .nowhere, none⟩
  | .ok tree => Source.load path (.ok tree)

def compilePath (path : String) (found : Except AccessFault FileTree) : Outcome :=
  let outcome := do (← openSource path found).compile.result
  match outcome with
  | .ok _    => ⟨0, "parse success\n"⟩
  | .error d => failure d

/-- What the command does, where `find` looks up paths. -/
def run (find : String → Except AccessFault FileTree) (args : List String) : Outcome :=
  match Request.ofArgs none args with
  | .version             => ⟨0, versionText⟩
  | .help                => ⟨0, helpText⟩
  | .refused             => ⟨usageCode, ""⟩
  | .compile none        => ⟨noPathCode, helpText⟩
  | .compile (some path) => compilePath path (find path)

end BasicFrontEnd.Command
