import BasicFrontEnd.Grammar.Rule

/-!
Reading types: a type keyword or the name of a record, then a pair of brackets for each dimension.
-/

namespace BasicFrontEnd.Grammar

open Rule

-- Counts pairs of brackets.
def dimensions : Rule Nat :=
  repeatFrom (fun n => do
    if ← accept (.symbol .openBracket) then
      let _ ← expect (.symbol .closeBracket)
      return .again (n + 1)
    else return .done n) 0

def typeSpec : Rule TypeSpec := do
  let kind ← peekKind
  if kind.isTypeKeyword then
    let _ ← consume
    return { base := .ofKind kind, dimensions := ← dimensions }
  else if kind = .identifier then
    let name := (← consume).value
    return { TypeSpec.ofRecord name with dimensions := ← dimensions }
  else unexpected "type"

end BasicFrontEnd.Grammar
