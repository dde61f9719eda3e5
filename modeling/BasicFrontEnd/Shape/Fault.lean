import BasicFrontEnd.Diagnostic

/-!
The rules on the shape of a program that go beyond its grammar, told by their violations.
-/

namespace BasicFrontEnd.Shape

inductive Fault
  -- A record has two members of one name.
  | duplicateMember (member record : String)
  -- A function has two formals of one name.
  | duplicateFormal (formal function : String)
  -- A function's body has two labels of one name.
  | duplicateLabel (label : String)
  -- The target is no label of the function around it, or no function is around it.
  | unknownTarget (label : String)
  -- An expression of this kind cannot be assigned to.
  | notAssignable (kind : String)
  -- A member is accessed of a name that is no visible variable.
  | undeclared (variableName field : String)
  deriving DecidableEq

namespace Fault

def message : Fault → String
  | duplicateMember member record => "duplicate member `" ++ member ++ "` in struct `" ++ record ++ "`"
  | duplicateFormal formal function => "duplicate formal `" ++ formal ++ "` in function `" ++ function ++ "`"
  | duplicateLabel label => "duplicate label `" ++ label ++ "`"
  | unknownTarget label => "goto target `" ++ label ++ "` is not a label in this function"
  | notAssignable kind => "cannot assign to " ++ kind ++ ", it is not an lvalue"
  | undeclared name field =>
    "`" ++ name ++ "." ++ field ++ "` accesses `" ++ name ++ "`, which is not a declared variable"

-- The fault as a diagnostic, without a source line.
def toDiagnostic (fault : Fault) (p : Position) : Diagnostic :=
  ⟨.badTree fault.message, p, none⟩

end Fault
end BasicFrontEnd.Shape
