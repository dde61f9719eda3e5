import BasicFrontEnd.Program.Expr

/-!
Reading numbers. The sign belongs to the number, so the least integer can be written though its magnitude alone is
out of range.
-/

namespace BasicFrontEnd.Grammar

-- The integer that the text writes, behind a minus if `negative`, if it fits in 64 bits. Without this minus the text
-- may have a sign of its own in front of its digits.
def integer? (negative : Bool) (text : List Char) : Option Int64 :=
  let (negative, digits) := if negative then (true, text) else Binary64.splitSign text
  let magnitude : Int := Binary64.digitsValue digits
  let value := if negative then -magnitude else magnitude
  if digits.isEmpty || !digits.all Char.isDigit then none
  else if Int64.minValue.toInt ≤ value ∧ value ≤ Int64.maxValue.toInt then some (Int64.ofInt value)
  else none

-- The floating-point number that the text writes, unless it is too great for one.
def float? (text : String) : Option Binary64 :=
  (Binary64.read? text).filter (·.isFinite)

-- The literal that a number token writes, behind a minus if `negative`.
def number (token : Token) (negative : Bool) : Except Diagnostic Expr :=
  let text := if negative then "-" ++ token.value else token.value
  let literal? :=
    if token.kind = .float then (float? text).map Expr.float
    else (integer? negative token.value.toList).map Expr.integer
  match literal? with
  | some literal => .ok literal
  | none         => .error (token.fault (.badNumber text))

end BasicFrontEnd.Grammar
