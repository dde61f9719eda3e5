import BasicFrontEnd.Decimal.Nearest
import BasicFrontEnd.Text.Blank

/-!
From floating-point numbers to decimal text. `shortest` finds the fewest digits that read back as the number; of
these the nearest to it, and of two as near the greater. `write` lays the digits out.
-/

namespace BasicFrontEnd.Binary64

/-- A positive decimal `digits * 10 ^ exponent`. -/
structure Decimal where
  digits   : Nat
  exponent : Int

/-- The positive quotient `num / den`. -/
structure Ratio where
  num : Nat
  den : Nat

namespace Ratio

def le (a b : Ratio) : Bool := a.num * b.den ≤ b.num * a.den

def lt (a b : Ratio) : Bool := a.num * b.den < b.num * a.den

-- The quotient divided by `10 ^ e`.
def scaleDown (a : Ratio) (e : Int) : Ratio :=
  if 0 ≤ e then ⟨a.num, a.den * Nat.pow 10 e.toNat⟩ else ⟨a.num * Nat.pow 10 (-e).toNat, a.den⟩

end Ratio

-- The value of `quarters * 2 ^ (scale - 1074)`, counted in quarters of a unit.
def ratioOfQuarters (quarters scale : Nat) : Ratio :=
  if scale ≤ 1076 then ⟨quarters, Nat.pow 2 (1076 - scale)⟩ else ⟨quarters * Nat.pow 2 (scale - 1076), 1⟩

-- The value of a positive finite number.
def value (x : Binary64) : Ratio :=
  ratioOfQuarters (4 * x.significand) x.scale

-- The least real that reads back as the number, up to the end itself. Below a power of two the numbers lie
-- twice as dense.
def lowerEnd (x : Binary64) : Ratio :=
  ratioOfQuarters (4 * x.significand - if x.significand = fractionSize then 1 else 2) x.scale

def upperEnd (x : Binary64) : Ratio :=
  ratioOfQuarters (4 * x.significand + 2) x.scale

-- Whether the decimal reads back as the positive finite number `x`. A tie between two numbers reads as the even
-- one, so the ends belong to an even number.
def readsBack (x : Binary64) (d : Decimal) : Bool :=
  let r : Ratio := Ratio.scaleDown ⟨d.digits, 1⟩ (-d.exponent)
  if x.significand % 2 = 0 then x.lowerEnd.le r && r.le x.upperEnd
  else x.lowerEnd.lt r && r.lt x.upperEnd

-- The least `k` such that the quotient is below `10 ^ k`: its decimal length, found from a guess that is never
-- too great.
def decimalOrder (r : Ratio) : Int :=
  let guess : Int := (binaryOrder r.num r.den) * 30102 / 100000 - 1
  let below (k : Int) : Bool := r.lt (Ratio.scaleDown ⟨1, 1⟩ (-k))
  if below guess then guess
  else if below (guess + 1) then guess + 1
  else if below (guess + 2) then guess + 2
  else guess + 3

-- The point of the grid of step `10 ^ e` that stands for the number, if one of its two neighbours there reads
-- back.
def onGrid? (x : Binary64) (e : Int) : Option Decimal :=
  let r := x.value.scaleDown e
  let down : Decimal := ⟨r.num / r.den, e⟩
  let up : Decimal := ⟨r.num / r.den + 1, e⟩
  let downFits := readsBack x down
  let upFits := readsBack x up
  let nearerDown := 2 * (r.num % r.den) < r.den
  if downFits && (nearerDown || !upFits) then some down
  else if upFits then some up
  else none

-- The first grid with a hit, from `count` digits on; 17 digits always read back.
def shortestFrom (x : Binary64) (order : Int) : Nat → Nat → Decimal
  | 0, count        => ⟨(x.value.scaleDown (order - count)).num / (x.value.scaleDown (order - count)).den,
                         order - count⟩
  | rounds + 1, count =>
    match onGrid? x (order - count) with
    | some d => d
    | none   => shortestFrom x order rounds (count + 1)

-- The shortest decimal that reads back as the positive finite number.
def shortest (x : Binary64) : Decimal :=
  shortestFrom x (decimalOrder x.value) 17 1

-- Digits and a point: positional from `10 ^ -4` up to below `10 ^ 16`, and with an exponent elsewhere.
def layOut (d : Decimal) : List Char :=
  let digits := Text.dropEndWhile (· == '0') (Nat.toDigits 10 d.digits)
  let point : Int := (Nat.toDigits 10 d.digits).length + d.exponent
  if point ≤ -4 ∨ 16 < point then
    let fraction := digits.drop 1
    digits.take 1 ++ (if fraction.isEmpty then [] else '.' :: fraction) ++ 'e' :: (toString (point - 1)).toList
  else if point ≤ 0 then
    ['0', '.'] ++ List.replicate (-point).toNat '0' ++ digits
  else
    let whole := (digits.take point.toNat).rightpad point.toNat '0'
    let fraction := digits.drop point.toNat
    whole ++ '.' :: (if fraction.isEmpty then ['0'] else fraction)

/-- The text of a number: always with a point or an exponent, and with the sign also of zero. -/
def write (x : Binary64) : String :=
  if x.isNaN then "NaN"
  else
    let sign := if x.isNegative then ['-'] else []
    let magnitude :=
      if !x.isFinite then ['i', 'n', 'f']
      else if x.significand = 0 then ['0', '.', '0']
      else layOut x.shortest
    String.ofList (sign ++ magnitude)

end BasicFrontEnd.Binary64
