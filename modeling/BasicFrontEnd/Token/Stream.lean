import BasicFrontEnd.Token

/-!
Streams of tokens with a cursor. The cursor stands on the token that was consumed last and never leaves the
stream: what lies behind it is kept in reverse, so that a step either way moves one token.
-/

namespace BasicFrontEnd

@[ext]
structure Stream where
  -- The tokens before the current one, the nearest first.
  behind  : List Token
  current : Token
  -- The tokens after the current one.
  ahead   : List Token
  deriving DecidableEq, Inhabited

namespace Stream

-- The stream that begins on `first`.
def ofTokens (first : Token) (rest : List Token) : Stream :=
  ⟨[], first, rest⟩

-- All tokens in order, wherever the cursor stands.
def toList (s : Stream) : List Token :=
  s.behind.reverse ++ s.current :: s.ahead

-- The token after the current one; on the last token, that token.
def peek (s : Stream) : Token :=
  s.ahead.headD s.current

-- Moves to the next token; stays on the last.
def consume (s : Stream) : Stream :=
  match s.ahead with
  | []      => s
  | t :: ts => ⟨s.current :: s.behind, t, ts⟩

-- Moves to the token before; stays on the first.
def backup (s : Stream) : Stream :=
  match s.behind with
  | []      => s
  | t :: ts => ⟨ts, t, s.current :: s.ahead⟩

-- Adds a token at the end.
def push (s : Stream) (t : Token) : Stream :=
  { s with ahead := s.ahead ++ [t] }

def size (s : Stream) : Nat :=
  s.behind.length + 1 + s.ahead.length

-- Token number `i`, counted from 0.
def get? (s : Stream) (i : Nat) : Option Token :=
  s.toList[i]?

-- A stream has at least its current token.
def isEmpty (s : Stream) : Bool :=
  s.size == 0

-- The current token and those after it.
def rest (s : Stream) : List Token :=
  s.current :: s.ahead

@[simp]
theorem toList_consume (s : Stream) : s.consume.toList = s.toList := by
  unfold consume
  split <;> simp_all [toList]

@[simp]
theorem toList_backup (s : Stream) : s.backup.toList = s.toList := by
  unfold backup
  split <;> simp_all [toList]

@[simp]
theorem toList_push (s : Stream) (t : Token) : (s.push t).toList = s.toList ++ [t] := by
  simp [push, toList]

@[simp]
theorem length_toList (s : Stream) : s.toList.length = s.size := by
  simp [toList, size]
  omega

theorem backup_consume (s : Stream) (h : s.ahead ≠ []) : s.consume.backup = s := by
  obtain ⟨behind, current, _ | ⟨t, ts⟩⟩ := s
  case nil => exact absurd rfl h
  case cons => rfl

theorem current_consume (s : Stream) : s.consume.current = s.peek := by
  unfold consume peek
  split <;> simp_all

end Stream
end BasicFrontEnd
