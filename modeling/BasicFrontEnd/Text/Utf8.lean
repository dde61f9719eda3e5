/-!
Texts as bytes. `encode` writes characters as UTF-8. `decode` reads any bytes and never fails: each longest run
of bytes that could have begun a character, but does not go on as one, is read as one replacement character.
-/

namespace BasicFrontEnd.Text

-- Stands for bytes that are no character.
def replacement : Char := '\ufffd'

def encode (cs : List Char) : List UInt8 :=
  cs.flatMap String.utf8EncodeChar

/-- A character of which only the first bytes are read. -/
structure Partial where
  -- The bits read so far.
  payload : Nat
  -- The least and the greatest byte that may come next.
  low     : UInt8
  high    : UInt8
  -- How many bytes follow the next one.
  more    : Nat

namespace Partial

-- What a leading byte announces. The second byte's range leaves out overlong forms, surrogates and all
-- above U+10FFFF.
def ofLead? (b : UInt8) : Option Partial :=
  if 0xC2 ≤ b ∧ b ≤ 0xDF then some ⟨b.toNat % 32, 0x80, 0xBF, 0⟩
  else if b = 0xE0 then some ⟨0, 0xA0, 0xBF, 1⟩
  else if b = 0xED then some ⟨13, 0x80, 0x9F, 1⟩
  else if 0xE1 ≤ b ∧ b ≤ 0xEF then some ⟨b.toNat % 16, 0x80, 0xBF, 1⟩
  else if b = 0xF0 then some ⟨0, 0x90, 0xBF, 2⟩
  else if 0xF1 ≤ b ∧ b ≤ 0xF3 then some ⟨b.toNat % 8, 0x80, 0xBF, 2⟩
  else if b = 0xF4 then some ⟨4, 0x80, 0x8F, 2⟩
  else none

end Partial

-- Reads a byte that stands at the start of a character.
def decodeFirst (b : UInt8) : List Char × Option Partial :=
  if b < 0x80 then ([Char.ofNat b.toNat], none)
  else match Partial.ofLead? b with
    | some p => ([], some p)
    | none   => ([replacement], none)

-- Reads one byte: the characters that are complete with it, and what is begun.
def decodeByte : Option Partial → UInt8 → List Char × Option Partial
  | none, b => decodeFirst b
  | some p, b =>
    if p.low ≤ b ∧ b ≤ p.high then
      let bits := p.payload * 64 + b.toNat % 64
      match p.more with
      | 0     => ([Char.ofNat bits], none)
      | n + 1 => ([], some ⟨bits, 0x80, 0xBF, n⟩)
    else
      let (cs, next) := decodeFirst b
      (replacement :: cs, next)

-- Reads on from what is begun. A character that the end cuts off is replaced too.
def decodeFrom : Option Partial → List UInt8 → List Char
  | none,   [] => []
  | some _, [] => [replacement]
  | p, b :: bs => (decodeByte p b).1 ++ decodeFrom (decodeByte p b).2 bs

def decode (bs : List UInt8) : List Char :=
  decodeFrom none bs

-- Each byte as the Latin-1 character of its number.
def latin1 (bs : List UInt8) : List Char :=
  bs.map Char.ofUInt8

@[simp]
theorem length_latin1 (bs : List UInt8) : (latin1 bs).length = bs.length := by
  simp [latin1]

end BasicFrontEnd.Text
