import BasicFrontEnd.Text.Blank

/-!
Outlines: trees of labels, written one label a line, each level indented by four more spaces, as long as no
indentation is wider than a padding may be.
-/

namespace BasicFrontEnd

inductive Outline
  | node (label : String) (children : List Outline)

namespace Outline

def indentWidth : Nat := 4

def leaf (label : String) : Outline :=
  node label []

-- A named value.
def field (key value : String) : Outline :=
  leaf (key ++ ": " ++ value)

-- A name above what it names.
def group (key : String) (children : List Outline) : Outline :=
  node (key ++ ":") children

def indent (depth : Nat) (label : String) : String :=
  String.ofList (List.replicate (depth * indentWidth) ' ') ++ label

mutual

-- The lines of an outline that stands `depth` levels deep.
def lines (depth : Nat) : Outline → List String
  | node label children => indent depth label :: linesOfAll (depth + 1) children

def linesOfAll (depth : Nat) : List Outline → List String
  | []      => []
  | o :: os => lines depth o ++ linesOfAll depth os

end

mutual

-- How many levels there are below the label at the top.
def height : Outline → Nat
  | node _ children => heightOfAll children

-- How many levels the outlines make below a label that they belong to.
def heightOfAll : List Outline → Nat
  | []      => 0
  | o :: os => max (height o + 1) (heightOfAll os)

end

-- Whether the deepest label's indentation is one that may be asked for.
def fits (o : Outline) : Bool :=
  o.height * indentWidth ≤ Text.maxPadding

/-- The outline's text, as long as it fits. -/
def write? (o : Outline) : Option String :=
  if o.fits then some (String.join ((o.lines 0).map (· ++ "\n"))) else none

theorem write?_eq_none_iff {o : Outline} : o.write? = none ↔ Text.maxPadding < o.height * indentWidth := by
  simp [write?, fits]

end Outline
end BasicFrontEnd
