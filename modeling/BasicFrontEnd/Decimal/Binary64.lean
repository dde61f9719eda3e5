/-!
Floating-point numbers of 64 bits, kept as their bits: a sign, 11 bits of exponent and 52 bits of fraction. A
finite number is `significand * 2 ^ (scale - 1074)`, up to its sign.
-/

namespace BasicFrontEnd

@[ext]
structure Binary64 where
  bits : UInt64
  deriving DecidableEq, Inhabited

namespace Binary64

def signBit : Nat := 0x8000000000000000

def fractionSize : Nat := 0x10000000000000

-- The exponent field of infinities and of what is not a number.
def topExponent : Nat := 0x7FF

def isNegative (x : Binary64) : Bool :=
  signBit ≤ x.bits.toNat

def exponentField (x : Binary64) : Nat :=
  x.bits.toNat / fractionSize % 2048

def fractionField (x : Binary64) : Nat :=
  x.bits.toNat % fractionSize

def isFinite (x : Binary64) : Bool :=
  x.exponentField != topExponent

def isNaN (x : Binary64) : Bool :=
  x.exponentField == topExponent && x.fractionField != 0

-- Numbers with the exponent field 0 lack the leading one.
def significand (x : Binary64) : Nat :=
  if x.exponentField = 0 then x.fractionField else fractionSize + x.fractionField

def scale (x : Binary64) : Nat :=
  x.exponentField - 1

-- The number of that sign whose other fields are the bits of `magnitude`.
def ofMagnitude (negative : Bool) (magnitude : Nat) : Binary64 :=
  ⟨UInt64.ofNat (if negative then signBit + magnitude else magnitude)⟩

def infinity (negative : Bool) : Binary64 :=
  ofMagnitude negative (topExponent * fractionSize)

def notANumber : Binary64 :=
  ofMagnitude false (topExponent * fractionSize + fractionSize / 2)

end Binary64
end BasicFrontEnd
