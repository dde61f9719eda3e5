import BasicFrontEnd.Proofs.Token.Placed
import BasicFrontEnd.Token.Cursor

/-!
Reading that starts anywhere in a source. A cursor that steps back only over what it has just read keeps its place, and
from there on it reads the tokens that the rest of the source has alone, at their places in the whole. Main statement:
`Source.tokens_from_anywhere`.
-/

namespace BasicFrontEnd

namespace Cursor

/-- What a cursor can be told to do. -/
inductive Step
  | get
  | unget
  deriving DecidableEq

def step? (k : Cursor) : Step → Option Cursor
  | .get   => some k.get.2
  | .unget => k.unget?

-- The cursor after the steps, if none of them goes back to before column 0.
def run? (k : Cursor) (steps : List Step) : Option Cursor :=
  steps.foldlM step? k

-- Every step back comes right after a character has been read.
def Paired (k : Cursor) (steps : List Step) : Prop :=
  ∀ before after, steps = before ++ .unget :: after →
    ∃ earlier, before = earlier ++ [.get] ∧ ∀ k', k.run? earlier = some k' → k'.get.1 ≠ none

-- How many characters have been read.
def offset (k : Cursor) : Nat :=
  k.behind.length

variable {k k' : Cursor}

section Steps

theorem run?_concat (k : Cursor) (steps : List Step) (step : Step) :
    k.run? (steps ++ [step]) = (k.run? steps).bind (·.step? step) := by
  simp [run?, List.foldlM_append]

theorem Paired.of_append {steps more : List Step} (h : Paired k (steps ++ more)) : Paired k steps :=
  fun before after hsteps => h before (after ++ more) (by simp [hsteps])

-- Whether something has been read or not, the cursor stands behind it.
theorem exists_passes_get (k : Cursor) : ∃ cs, k.Passes cs k.get.2 := by
  rcases h : k.get with ⟨_ | c, k'⟩
  case none => exact ⟨[], (get_eq_none h).2 ▸ .refl k⟩
  case some => exact ⟨[c], passes_get h⟩

-- Paired steps never fail, and lead to where reading alone leads.
theorem exists_passes_of_paired {steps : List Step} (h : Paired k steps) :
    ∃ k' cs, k.run? steps = some k' ∧ k.Passes cs k' := by
  obtain rfl | ⟨steps, step, rfl⟩ := steps.eq_nil_or_concat'
  case inl => exact ⟨k, [], rfl, .refl k⟩
  case inr =>
    cases step
    case get =>
      obtain ⟨k', cs, hrun, hpasses⟩ := exists_passes_of_paired h.of_append
      obtain ⟨ds, hget⟩ := exists_passes_get k'
      exact ⟨_, cs ++ ds, by rw [run?_concat, hrun]; rfl, hpasses.trans hget⟩
    case unget =>
      obtain ⟨earlier, rfl, hread⟩ := h steps [] rfl
      obtain ⟨k', cs, hrun, hpasses⟩ := exists_passes_of_paired h.of_append.of_append
      rcases hget : k'.get with ⟨_ | c, k''⟩
      case none => exact absurd (congrArg Prod.fst hget) (hread k' hrun)
      case some =>
        refine ⟨_, cs, ?_, by simpa using hpasses.trans (passes_undo hget)⟩
        rw [run?_concat, run?_concat, hrun]
        simp [step?, hget, undo]
termination_by steps.length

end Steps

end Cursor

namespace Lexical

variable {s t : Source} {rest : List Char} {d : Diagnostic}

-- Where `t` is what comes behind the first `pre` of `s`, what `t` is blocked by blocks `s` too, as much further on.
theorem Blocked.behind (s : Source) (offset : Nat) (h : Blocked t n rest d) :
    ∃ d' m, Blocked s (offset + n) rest d' ∧ d'.cause = d.cause ∧ d.position = placeAt t.bytes m ∧
      d'.position = placeAt s.bytes (offset + m) := by
  cases h
  case stuck cause m h => exact ⟨_, n + m, .stuck h, rfl, rfl, by rw [Nat.add_assoc]; rfl⟩
  case tooLong hcut hlong => exact ⟨_, n, .tooLong hcut hlong, rfl, rfl, rfl⟩

end Lexical

namespace Source

open Cursor Lexical Text

variable {s t : Source} {k : Cursor}

-- Wherever the steps lead, the cursor knows its place there, and it goes on as `t` is read, which has the bytes that
-- are left and no others: to tokens of the same kinds and values, those of the same row of pieces, each at the place of
-- its first byte in `s`, or to a fault with the same cause, at the place of the same byte.
theorem tokens_from_anywhere {steps : List Step} (h : Paired (.ofChars s.chars) steps) :
    ∃ k, (Cursor.ofChars s.chars).run? steps = some k ∧ s.chars = k.behind.reverse ++ k.ahead ∧
      k.position = placeAt s.bytes k.offset ∧
      ∀ t : Source, t.bytes = s.bytes.drop k.offset →
        (∀ alone, t.tokens = .ok alone → ∃ stream row, k.tokens s.lines = .ok stream ∧ stream.words = alone.words ∧
          Row row [] ∧ t.chars = textOf row ∧
          stream = .ofTokens (Token.headOf s.lines)
            (tokensOf s k.offset row ++ [Token.eofOf s.lines (placeAt s.bytes s.bytes.length)])) ∧
        ∀ d, t.tokens = .error d → ∃ d' n, k.tokens s.lines = .error d' ∧ d'.cause = d.cause ∧
          d.position = placeAt t.bytes n ∧ d'.position = placeAt s.bytes (k.offset + n) := by
  obtain ⟨k, pre, hrun, hpasses⟩ := exists_passes_of_paired h
  have hbehind : k.behind = pre.reverse := by simpa [Cursor.ofChars] using hpasses.behind
  have hchars : s.chars = pre ++ k.ahead := hpasses.ahead
  have hoffset : k.offset = pre.length := by rw [offset, hbehind, List.length_reverse]
  have hposition : k.position = Position.start.advance pre := hpasses.position
  have hplace : k.position = placeAt s.bytes k.offset := by rw [hposition, hoffset, placeAt_eq hchars]
  refine ⟨k, hrun, by rwa [hbehind, List.reverse_reverse], hplace, fun t ht => ?_⟩
  have hahead : t.chars = k.ahead := by
    rw [chars, ht, latin1, List.map_drop, ← latin1, ← chars, hchars, hoffset, List.drop_left]
  rw [tokens_eq, Token.streamFrom, hposition, ← hahead]
  obtain ⟨hok, herror⟩ := tokens_iff_row t
  refine ⟨fun alone halone => ?_, fun d hd => ?_⟩
  case refine_1 =>
    obtain ⟨row, hrow, htext, hfit, rfl⟩ := (hok alone).mp halone
    rw [← hahead, htext] at hchars
    refine ⟨_, row, ?_, ?_, hrow, htext, rfl⟩
    case refine_1 =>
      rw [htext, scan_whole_row hrow hfit hchars, hoffset]
      rfl
    case refine_2 => rw [words_ofTokens, words_ofTokens]
  case refine_2 =>
    obtain ⟨row, rest, hrow, htext, hfit, hblocked⟩ := (herror d).mp hd
    obtain ⟨d', n, hblocked', hcause, hplace, hplace'⟩ := hblocked.behind s pre.length
    rw [← hahead, htext] at hchars
    refine ⟨d', n, ?_, hcause, hplace, hoffset ▸ hplace'⟩
    rw [htext, scan_blocked_row hrow hfit hchars hblocked']
    rfl

-- A line feed is read and stepped back over, and then the cursor goes into the comment behind it.
def intoComment : List Step :=
  [.get, .unget, .get, .get]

theorem tokens_from_anywhere_insideComment :
    Paired (.ofChars (ofText "\n'x 12\ny").chars) intoComment ∧
      ∃ k stream alone, (Cursor.ofChars (ofText "\n'x 12\ny").chars).run? intoComment = some k ∧
        k.position = placeAt (ofText "\n'x 12\ny").bytes k.offset ∧ (ofText "x 12\ny").tokens = .ok alone ∧
        k.tokens (ofText "\n'x 12\ny").lines = .ok stream ∧ stream.words = alone.words := by
  have hpaired : Paired (.ofChars (ofText "\n'x 12\ny").chars) intoComment := by
    rintro (_ | ⟨a, _ | ⟨b, _ | ⟨c, _ | ⟨d, before⟩⟩⟩⟩) after hsteps <;> simp [intoComment] at hsteps
    obtain ⟨rfl, -⟩ := hsteps
    refine ⟨[], rfl, ?_⟩
    rintro k' ⟨⟩
    decide
  obtain ⟨k, hrun, -, hposition, hrest⟩ := tokens_from_anywhere hpaired
  have hoffset : k.offset = 2 := by
    have hrun' : ((Cursor.ofChars (ofText "\n'x 12\ny").chars).run? intoComment).map offset = some 2 := by decide
    simpa [hrun] using hrun'
  obtain ⟨alone, halone⟩ := exists_stream (s := ofText "x 12\ny") (by decide +kernel)
  have hbytes : (ofText "x 12\ny").bytes = (ofText "\n'x 12\ny").bytes.drop k.offset := by rw [hoffset]; decide
  obtain ⟨stream, -, hstream, hwords, -⟩ := (hrest (ofText "x 12\ny") hbytes).1 alone halone
  exact ⟨hpaired, k, stream, alone, hrun, hposition, halone, hstream, hwords⟩

end Source

end BasicFrontEnd
