/-!
Blank characters and the cutting of texts: white space as Unicode defines it, dropping at the end, padding to a
width, and lines that keep the character that ends them.
-/

namespace BasicFrontEnd.Text

-- The characters with the property White_Space.
def isBlank (c : Char) : Bool :=
  let n := c.toNat
  (0x09 ≤ n && n ≤ 0x0D) || n == 0x20 || n == 0x85 || n == 0xA0 || n == 0x1680 ||
    (0x2000 ≤ n && n ≤ 0x200A) || n == 0x2028 || n == 0x2029 || n == 0x202F || n == 0x205F || n == 0x3000

-- The list less its longest ending of members that satisfy `p`.
def dropEndWhile (p : α → Bool) (xs : List α) : List α :=
  (xs.reverse.dropWhile p).reverse

-- The text less the carriage returns and line feeds at its end.
def withoutLineEnd (s : String) : String :=
  String.ofList (dropEndWhile (fun c => c == '\r' || c == '\n') s.toList)

-- The text less the blanks at its end.
def withoutBlankEnd (s : String) : String :=
  String.ofList (dropEndWhile isBlank s.toList)

-- No padding may be asked to be wider.
def maxPadding : Nat := 65535

-- The text moved right to at least `width` characters.
def padLeft (width : Nat) (fill : Char) (s : String) : String :=
  String.ofList (s.toList.leftpad width fill)

-- The text filled up with spaces to at least `width` characters.
def padRight (width : Nat) (s : String) : String :=
  String.ofList (s.toList.rightpad width ' ')

-- Cuts a list after each member that satisfies `p`.
def splitAfter (p : α → Bool) : List α → List (List α)
  | [] => []
  | x :: xs =>
    if p x then [x] :: splitAfter p xs
    else match splitAfter p xs with
      | []      => [[x]]
      | l :: ls => (x :: l) :: ls

theorem flatten_splitAfter (p : α → Bool) (xs : List α) : (splitAfter p xs).flatten = xs := by
  induction xs with
  | nil => rfl
  | cons x xs ih =>
    simp only [splitAfter]
    split
    · simp [ih]
    · split
      · next h => simp [h] at ih; simp [← ih]
      · next h => simp [h] at ih; simp [← ih]

end BasicFrontEnd.Text
