import BasicFrontEnd.Program.Stmt

/-!
Programs: the tree of a whole source.
-/

namespace BasicFrontEnd

/-- The statements of a source, in order. -/
@[ext]
structure Program where
  body : List Stmt

namespace Program

instance : Inhabited Program :=
  ⟨⟨[]⟩⟩

-- The tree as it is printed.
def outline (p : Program) : Outline :=
  .node "Program" (Stmt.outlines p.body)

-- The places of all statements and of what they declare, in order.
def places (p : Program) : List (String × Position) :=
  Stmt.placesOfAll p.body

end Program
end BasicFrontEnd
