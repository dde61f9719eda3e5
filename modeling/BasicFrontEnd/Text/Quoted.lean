import BasicFrontEnd.Text.Graphic

/-!
Texts between quotes. Inside, the quote and the backslash stand after a backslash, the usual controls have a
letter, and all else that is not graphic is written by its number.
-/

namespace BasicFrontEnd.Text

-- The digits of a number in base 16, in lower case.
def hexDigits (n : Nat) : List Char :=
  Nat.toDigits 16 n

-- One character as it stands between two `quote`s.
def escape (quote c : Char) : List Char :=
  if c = '\x00' then ['\\', '0']
  else if c = '\t' then ['\\', 't']
  else if c = '\r' then ['\\', 'r']
  else if c = '\n' then ['\\', 'n']
  else if c = '\\' ∨ c = quote then ['\\', c]
  else if isGraphic c then [c]
  else ['\\', 'u', '\x7b'] ++ hexDigits c.toNat ++ ['\x7d']

def quoteChars (quote : Char) (cs : List Char) : List Char :=
  quote :: cs.flatMap (escape quote) ++ [quote]

-- A text in double quotes.
def quoted (s : String) : String :=
  String.ofList (quoteChars '"' s.toList)

-- A character in single quotes.
def quotedChar (c : Char) : String :=
  String.ofList (quoteChars '\'' [c])

end BasicFrontEnd.Text
