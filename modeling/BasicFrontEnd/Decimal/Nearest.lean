import BasicFrontEnd.Decimal.Binary64

/-!
From decimal text to floating-point numbers. `nearest` rounds an exact decimal to the nearest number, a tie to
the one with an even significand, and to infinity past the greatest one; `read?` accepts a sign, digits with at
most one point, an exponent, and the words for infinity and for what is not a number.
-/

namespace BasicFrontEnd.Binary64

-- The quotient rounded to the nearest integer, a tie to the even one.
def roundHalfEven (num den : Nat) : Nat :=
  let q := num / den
  let r := num % den
  if 2 * r < den then q
  else if den < 2 * r then q + 1
  else q + q % 2

-- The greatest `k` with `2 ^ k ≤ num / den`, of positive numbers.
def binaryOrder (num den : Nat) : Int :=
  let k : Int := (num.log2 : Int) - den.log2
  let fits := if 0 ≤ k then den * Nat.pow 2 k.toNat ≤ num else den ≤ num * Nat.pow 2 (-k).toNat
  if fits then k else k - 1

-- The number nearest to the positive quotient `num / den`. A significand that rounds up to the next power of
-- two carries into the exponent field.
def nearestQuotient (negative : Bool) (num den : Nat) : Binary64 :=
  let scale := (binaryOrder num den - 52 + 1074).toNat
  let significand :=
    if scale ≤ 1074 then roundHalfEven (num * Nat.pow 2 (1074 - scale)) den
    else roundHalfEven num (den * Nat.pow 2 (scale - 1074))
  let magnitude := scale * fractionSize + significand
  if topExponent * fractionSize ≤ magnitude then infinity negative
  else ofMagnitude negative magnitude

-- How many digits a number has in base 10; none for 0.
def decimalLength (n : Nat) : Nat :=
  if n = 0 then 0 else (Nat.toDigits 10 n).length

-- The number nearest to `m * 10 ^ e`. Far beyond the range of exponents no power is computed.
def nearest (negative : Bool) (m : Nat) (e : Int) : Binary64 :=
  if m = 0 then ofMagnitude negative 0
  else
    let order := e + decimalLength m
    if 310 < order then infinity negative
    else if order < -330 then ofMagnitude negative 0
    else if 0 ≤ e then nearestQuotient negative (m * Nat.pow 10 e.toNat) 1
    else nearestQuotient negative m (Nat.pow 10 (-e).toNat)

-- The value of a list of digits.
def digitsValue (ds : List Char) : Nat :=
  ds.foldl (fun n d => n * 10 + (d.toNat - '0'.toNat)) 0

-- Takes a sign off the front.
def splitSign : List Char → Bool × List Char
  | '-' :: cs => (true, cs)
  | '+' :: cs => (false, cs)
  | cs        => (false, cs)

-- The exponent that ends a number: nothing, or a letter, a sign and digits.
def readExponent? : List Char → Option Int
  | [] => some 0
  | c :: cs =>
    if c = 'e' ∨ c = 'E' then
      let (negative, ds) := splitSign cs
      if ds.isEmpty || !ds.all Char.isDigit then none
      else some (if negative then -(digitsValue ds : Int) else digitsValue ds)
    else none

-- A number without its sign.
def readUnsigned? (negative : Bool) (cs : List Char) : Option Binary64 :=
  let word := String.ofList (cs.map Char.toLower)
  if word = "inf" ∨ word = "infinity" then some (infinity negative)
  else if word = "nan" then some notANumber
  else
    let whole := cs.takeWhile Char.isDigit
    let rest := cs.dropWhile Char.isDigit
    let (fraction, rest) := match rest with
      | '.' :: rest => (rest.takeWhile Char.isDigit, rest.dropWhile Char.isDigit)
      | rest        => ([], rest)
    let digits := whole ++ fraction
    if digits.isEmpty then none
    else (readExponent? rest).map fun e => nearest negative (digitsValue digits) (e - fraction.length)

def read? (s : String) : Option Binary64 :=
  let (negative, cs) := splitSign s.toList
  readUnsigned? negative cs

end BasicFrontEnd.Binary64
