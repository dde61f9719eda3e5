import BasicFrontEnd.Diagnostic.Cause
import BasicFrontEnd.Position
import BasicFrontEnd.Text.Blank

/-!
Diagnostics: a cause at a place, with the source line that shows it. `message` is the one-line report; `render?`
shows the line with a caret under the column, unless the caret stands further right than a padding may reach.
-/

namespace BasicFrontEnd

@[ext]
structure Diagnostic where
  cause    : Cause
  position : Position
  lineText : Option String := none
  deriving DecidableEq

namespace Diagnostic

/-- The report: what the grammar missed is told with its line, other faults with line and column, and faults of
files without a place. -/
def message (d : Diagnostic) : String :=
  match d.cause with
  | .badToken expected got =>
    "Syntax Error (line " ++ toString d.position.line ++ "): Expected " ++ expected ++ " but got '" ++ got ++ "'."
  | .unreadableFile _ _ | .unknownPath _ => d.cause.description
  | cause =>
    cause.description ++ " (line " ++ toString d.position.line ++ ", column " ++ toString d.position.column ++ ")"

-- The first line of a rendering: the name of the cause, with the tip in brackets.
def heading (d : Diagnostic) : String :=
  match d.cause.tip? with
  | none     => "error: " ++ d.cause.name
  | some tip => "error: " ++ d.cause.name ++ " (" ++ tip ++ ")"

private def isIndent (c : Char) : Bool :=
  c == ' ' || c == '\t'

-- How far the caret stands from the bar: at the column, less the blanks taken off the line, and at least 1.
def caretOffset (column removed : Nat) : Nat :=
  max (column - removed) 1

-- The width of the padding that ends in the caret. The spaces and tabs at the front of the line are taken off.
def caretPadding (p : Position) (lineText : String) : Nat :=
  caretOffset p.column (lineText.toList.takeWhile isIndent).length

-- The source line below its bar, and the caret below the line.
def excerpt (p : Position) (lineText : String) : List String :=
  let number := toString p.line
  let bar := Text.padLeft (number.length + 2) ' ' "|"
  let shown := Text.withoutBlankEnd (String.ofList (lineText.toList.dropWhile isIndent))
  [bar,
   number ++ " | " ++ shown,
   bar ++ " " ++ Text.padLeft (caretPadding p lineText) '-' "^"]

-- The diagnostic as lines, of the file with the given name.
def rendering (d : Diagnostic) (file : String) : List String :=
  [d.heading, "-> " ++ file] ++ (d.lineText.map (excerpt d.position)).getD []

-- Whether the caret's padding is one that may be asked for. Without a line there is no caret.
def fits (d : Diagnostic) : Bool :=
  d.lineText.all fun lineText => caretPadding d.position lineText ≤ Text.maxPadding

/-- The diagnostic with its source line, as long as it fits. -/
def render? (d : Diagnostic) (file : String) : Option String :=
  if d.fits then some (String.join ((d.rendering file).map (· ++ "\n"))) else none

theorem render?_eq_none_iff {d : Diagnostic} {file : String} :
    d.render? file = none ↔
      ∃ lineText, d.lineText = some lineText ∧ Text.maxPadding < caretPadding d.position lineText := by
  cases h : d.lineText <;> simp [render?, fits, h]

end Diagnostic
end BasicFrontEnd
