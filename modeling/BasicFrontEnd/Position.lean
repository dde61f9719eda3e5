/-!
Places in a source text. Lines and columns count from 1, columns in bytes; the place `0:0` stands for
"nowhere in a text", as with a file that cannot be opened. They are counted without a bound. In a source of fewer than
`2 ^ 32 - 1` bytes, with a last line that reads as fewer too, they fit in 32 bits (`Source.countersFit`); over longer
sources counters of that size overflow.
-/

namespace BasicFrontEnd

@[ext]
structure Position where
  line   : Nat
  column : Nat
  deriving DecidableEq, Inhabited

namespace Position

-- The place of the first byte of a text.
def start : Position := ⟨1, 1⟩

def nowhere : Position := ⟨0, 0⟩

-- The place after reading `c` at `p`: a line feed opens the next line.
def after (p : Position) (c : Char) : Position :=
  if c = '\n' then ⟨p.line + 1, 1⟩ else ⟨p.line, p.column + 1⟩

-- The place after reading all of `cs` from `p` on.
def advance (p : Position) (cs : List Char) : Position :=
  cs.foldl after p

-- The place `n` columns further on the same line.
def shift (p : Position) (n : Nat) : Position :=
  ⟨p.line, p.column + n⟩

@[simp]
theorem advance_nil (p : Position) : p.advance [] = p :=
  rfl

@[simp]
theorem advance_cons (p : Position) (c : Char) (cs : List Char) :
    p.advance (c :: cs) = (p.after c).advance cs :=
  rfl

theorem advance_append (p : Position) (cs ds : List Char) :
    p.advance (cs ++ ds) = (p.advance cs).advance ds := by
  simp [advance]

-- Within a line, reading moves along the columns.
theorem advance_eq_shift {p : Position} {cs : List Char} (h : '\n' ∉ cs) : p.advance cs = p.shift cs.length := by
  induction cs generalizing p
  case nil => rfl
  case cons c cs hi =>
    simp only [List.mem_cons, not_or] at h
    simp only [advance_cons, hi h.right, after, Ne.symm h.left, if_false, shift, List.length_cons]
    simp [Nat.add_assoc, Nat.add_comm 1]

-- Written as `line:column`.
instance : ToString Position where
  toString p := toString p.line ++ ":" ++ toString p.column

-- The spelling used in listings of declared names.
def listing (p : Position) : String :=
  "Position(" ++ toString p.line ++ ", " ++ toString p.column ++ ")"

end Position
end BasicFrontEnd
