import BasicFrontEnd.Diagnostic
import BasicFrontEnd.Source.FileTree
import BasicFrontEnd.Source.Lines

/-!
Sources: the bytes to read tokens from, and the same text as lines to show. A source is a text in memory or a file
that has been loaded.
-/

namespace BasicFrontEnd

@[ext]
structure Source where
  -- Where the bytes come from; none for a text in memory.
  path  : Option String
  bytes : List UInt8
  lines : Lines
  deriving DecidableEq

namespace Source

def ofText (text : String) : Source where
  path  := none
  bytes := Text.encode text.toList
  lines := .ofText text.toList

def ofBytes (path : String) (bytes : List UInt8) : Source where
  path  := some path
  bytes := bytes
  lines := .ofBytes bytes

-- The name to report the source by.
def name (s : Source) : String :=
  s.path.getD "<memory>"

-- The bytes as characters, one for each.
def chars (s : Source) : List Char :=
  Text.latin1 s.bytes

/-- Loads what a path was found to lead to. -/
def load (path : String) (found : Except AccessFault FileTree) : Except Diagnostic Source :=
  let refuse (fault : AccessFault) := .error ⟨.unreadableFile path fault.reason, .nowhere, none⟩
  match found with
  | .ok (.file bytes)   => .ok (ofBytes path bytes)
  | .ok (.directory _)  => refuse .isDirectory
  | .ok (.barred fault) => refuse fault
  | .error fault        => refuse fault

-- What building the source reports: its overlong lines, and for a loaded file its size and its lines.
def events (s : Source) : List Event :=
  s.lines.warnings ++
    match s.path with
    | none      => []
    | some path =>
      ⟨.debug, "loaded source",
        [("path", path), ("bytes", toString s.bytes.length), ("lines", toString s.lines.size)]⟩ :: s.lines.listing

end Source
end BasicFrontEnd
