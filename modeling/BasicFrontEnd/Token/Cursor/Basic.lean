import BasicFrontEnd.Position

/-!
A cursor that reads a source character by character and can step back. It keeps count of its place; the column
before the line feed that was read last is remembered, to return to when that line feed is stepped back over. As with
places, the counters have no bound, but fit in 32 bits over fewer than `2 ^ 32 - 1` bytes (`Source.countersFit`).
-/

namespace BasicFrontEnd

@[ext]
structure Cursor where
  -- The characters read, the latest first.
  behind     : List Char
  ahead      : List Char
  line       : Nat
  column     : Nat
  -- The column before the line feed that was read last.
  lastColumn : Nat
  deriving DecidableEq

namespace Cursor

def ofChars (cs : List Char) : Cursor :=
  ⟨[], cs, 1, 1, 1⟩

def position (k : Cursor) : Position :=
  ⟨k.line, k.column⟩

-- Reads the next character.
def get (k : Cursor) : Option Char × Cursor :=
  match k.ahead with
  | []      => (none, k)
  | c :: cs =>
    if c = '\n' then (some c, ⟨c :: k.behind, cs, k.line + 1, 1, k.column⟩)
    else (some c, ⟨c :: k.behind, cs, k.line, k.column + 1, k.lastColumn⟩)

-- Steps back over the character read last; at the start it stays. There is no stepping back to before column 0,
-- as can happen when two line feeds are stepped back over.
def unget? (k : Cursor) : Option Cursor :=
  match k.behind with
  | []      => some k
  | c :: cs =>
    if c = '\n' then some ⟨cs, c :: k.ahead, k.line - 1, k.lastColumn, k.lastColumn⟩
    else if k.column = 0 then none
    else some ⟨cs, c :: k.ahead, k.line, k.column - 1, k.lastColumn⟩

-- Stepping back over the character just read returns to its place.
theorem unget?_get {k k' : Cursor} {c : Char} (h : k.get = (some c, k')) :
    k'.unget? = some { k with lastColumn := k'.lastColumn } := by
  obtain ⟨behind, _ | ⟨d, ds⟩, line, column, lastColumn⟩ := k
  case nil => simp [get] at h
  case cons =>
    simp only [get] at h
    split at h
    all_goals
      obtain ⟨_, rfl⟩ := Prod.mk.inj h
      simp_all [unget?]

/-- From the one cursor to the other lie the characters. What the other remembers of a line feed may be anything. -/
structure Passes (k : Cursor) (cs : List Char) (k' : Cursor) : Prop where
  behind   : k'.behind = cs.reverse ++ k.behind
  ahead    : k.ahead = cs ++ k'.ahead
  position : k'.position = k.position.advance cs

namespace Passes

variable {k k' k'' : Cursor} {cs ds : List Char}

theorem refl (k : Cursor) : k.Passes [] k :=
  ⟨rfl, rfl, rfl⟩

theorem trans (h : k.Passes cs k') (h' : k'.Passes ds k'') : k.Passes (cs ++ ds) k'' where
  behind   := by rw [h'.behind, h.behind, List.reverse_append, List.append_assoc]
  ahead    := by rw [h.ahead, h'.ahead, List.append_assoc]
  position := by rw [h'.position, h.position, Position.advance_append]

theorem length_le (h : k.Passes cs k') : k'.ahead.length ≤ k.ahead.length := by
  rw [h.ahead, List.length_append]
  exact Nat.le_add_left _ _

theorem length_lt (h : k.Passes (c :: cs) k') : k'.ahead.length < k.ahead.length := by
  rw [h.ahead, List.length_append, List.length_cons]
  omega

end Passes

section Steps

variable {k k' : Cursor} {c : Char}

theorem passes_get (h : k.get = (some c, k')) : k.Passes [c] k' := by
  obtain ⟨behind, _ | ⟨d, ds⟩, line, column, lastColumn⟩ := k
  case nil => simp [get] at h
  case cons =>
    simp only [get] at h
    split at h
    all_goals
      obtain ⟨hc, rfl⟩ := Prod.mk.inj h
      obtain rfl := Option.some.inj hc
      exact ⟨rfl, rfl, by simp [position, Position.after, *]⟩

theorem get_eq_none (h : k.get = (none, k')) : k.ahead = [] ∧ k' = k := by
  obtain ⟨behind, _ | ⟨d, ds⟩, line, column, lastColumn⟩ := k
  case nil => exact ⟨rfl, (Prod.mk.inj h).2.symm⟩
  case cons =>
    simp only [get] at h
    split at h <;> cases h

-- Steps back over the character that has just been read.
def undo (h : k.get = (some c, k')) : Cursor :=
  k'.unget?.get (by rw [unget?_get h]; rfl)

theorem passes_undo (h : k.get = (some c, k')) : k.Passes [] (undo h) := by
  have hundo : undo h = { k with lastColumn := k'.lastColumn } := by simp [undo, unget?_get h]
  rw [hundo]
  exact ⟨rfl, rfl, rfl⟩

-- Reads the next character if it is `c`.
def takeIf (k : Cursor) (c : Char) : Bool × Cursor :=
  match h : k.get with
  | (none, k')   => (false, k')
  | (some d, k') => if d = c then (true, k') else (false, undo h)

theorem takeIf_cases (k : Cursor) (c : Char) :
    (∃ k', k.takeIf c = (true, k') ∧ k.Passes [c] k') ∨
      (∃ k', k.takeIf c = (false, k') ∧ k.Passes [] k') ∧ k.ahead.head? ≠ some c := by
  unfold takeIf
  split
  case h_1 k' h =>
    obtain ⟨hnil, rfl⟩ := get_eq_none h
    exact .inr ⟨⟨_, rfl, .refl _⟩, by simp [hnil]⟩
  case h_2 d k' h =>
    split
    case isTrue hd => exact .inl ⟨_, rfl, hd ▸ passes_get h⟩
    case isFalse hd => exact .inr ⟨⟨_, rfl, passes_undo h⟩, by simpa [(passes_get h).ahead] using hd⟩

-- Reads `n` characters, or as many as there are.
def skip (k : Cursor) : Nat → Cursor
  | 0     => k
  | n + 1 => k.get.2.skip n

theorem passes_skip (k : Cursor) (n : Nat) : k.Passes (k.ahead.take n) (k.skip n) := by
  induction n generalizing k
  case zero => exact .refl k
  case succ n ih =>
    rw [skip]
    rcases hget : k.get with ⟨_ | c, k'⟩
    case none =>
      obtain ⟨hnil, rfl⟩ := get_eq_none hget
      simpa [hnil] using ih k'
    case some =>
      have hfirst := passes_get hget
      rw [hfirst.ahead]
      exact hfirst.trans (ih k')

-- Reads all characters up to the first that does not meet the condition.
def takeWhile (k : Cursor) (p : Char → Bool) : List Char × Cursor :=
  let cs := k.ahead.takeWhile p
  (cs, k.skip cs.length)

-- Where the next character meets the condition, it and all of its kind behind it are read.
theorem takeWhile_of_ahead {p : Char → Bool} (hahead : k.ahead = c :: cs) (hc : p c = true) :
    ∃ k', k.takeWhile p = (c :: cs.takeWhile p, k') ∧ k.Passes (c :: cs.takeWhile p) k' ∧
      k'.ahead = cs.dropWhile p := by
  have htaken : k.ahead.takeWhile p = c :: cs.takeWhile p := by simp [hahead, hc]
  have hfront : c :: cs.takeWhile p = k.ahead.take (c :: cs.takeWhile p).length :=
    htaken ▸ List.prefix_iff_eq_take.mp (List.takeWhile_prefix p)
  have hpasses := passes_skip k (c :: cs.takeWhile p).length
  rw [← hfront] at hpasses
  refine ⟨k.skip (c :: cs.takeWhile p).length, by rw [takeWhile, htaken], hpasses, ?_⟩
  have hsplit : c :: cs.takeWhile p ++ cs.dropWhile p = k.ahead := by
    rw [List.cons_append, List.takeWhile_append_dropWhile, hahead]
  exact (List.append_cancel_left (hsplit.trans hpasses.ahead)).symm

end Steps

end Cursor
end BasicFrontEnd
