import BasicFrontEnd.Event
import BasicFrontEnd.Sequence
import BasicFrontEnd.Text.Blank
import BasicFrontEnd.Text.Utf8

/-!
The lines of a source, numbered from 1. Each keeps the line feed that ends it. A text is cut after its line feeds;
bytes are cut after theirs, and each piece is then read as text.
-/

namespace BasicFrontEnd

@[ext]
structure Lines where
  texts : Sequence String
  deriving DecidableEq, Inhabited

namespace Lines

-- A line of more bytes than this draws a warning.
def maxLength : Nat := 4096

def ofList (texts : List String) : Lines :=
  ⟨.ofList texts⟩

def ofText (cs : List Char) : Lines :=
  ofList ((Text.splitAfter (· == '\n') cs).map String.ofList)

def ofBytes (bs : List UInt8) : Lines :=
  ofList ((Text.splitAfter (· == 0x0A) bs).map fun piece => String.ofList (Text.decode piece))

def toList (ls : Lines) : List String :=
  ls.texts.toList

-- Line number `n`, if there is one.
def get? (ls : Lines) (n : Nat) : Option String :=
  ls.texts.nth? n

-- Line number `n`, and the empty text where there is none.
def get (ls : Lines) (n : Nat) : String :=
  (ls.get? n).getD ""

def size (ls : Lines) : Nat :=
  ls.texts.size

def isEmpty (ls : Lines) : Bool :=
  ls.texts.isEmpty

-- One warning for each line that is too long.
def warnings (ls : Lines) : List Event :=
  (ls.toList.zipIdx 1).filterMap fun (text, n) =>
    if maxLength < text.utf8ByteSize then
      some ⟨.warn, "source line exceeds " ++ toString maxLength ++ " bytes",
        [("line", toString n), ("length", toString text.utf8ByteSize)]⟩
    else none

-- The lines as a numbered listing, without their line ends.
def listing (ls : Lines) : List Event :=
  (ls.toList.zipIdx 1).map fun (text, n) =>
    ⟨.debug, Text.padLeft 4 ' ' (toString n) ++ " | " ++ Text.withoutLineEnd text, []⟩

end Lines
end BasicFrontEnd
