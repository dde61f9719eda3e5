import BasicFrontEnd.Proofs.Writing.Programs
import BasicFrontEnd.Proofs.Writing.Spelling

/-!
From programs to sources and back. Main statement: `parse_of_spaced`.
-/

namespace BasicFrontEnd

open Grammar Lexical

theorem exists_source (h : ∀ w ∈ words, Word.Spelled w) : ∃ s : Source, Spaced words s.chars := by
  obtain ⟨cs, hcs, hbytes⟩ := exists_spaced h
  obtain ⟨s, rfl⟩ := exists_chars_eq hbytes
  exact ⟨s, hcs⟩

namespace Program

-- A plain program can be written in each style, and whatever source it is written as, reading gives back the program
-- up to places. The nesting that the style needs must be within the limit of the reader.
theorem parse_of_spaced {p : Program} (h : p.Plain) (style : Style)
    (hnesting : (p.layout style).nesting ≤ maxNesting) :
    (∃ s : Source, Spaced (p.layout style).words s.chars) ∧
      ∀ s : Source, Spaced (p.layout style).words s.chars → ∃ q, s.parse = .ok q ∧ q.bare = p.bare := by
  refine ⟨exists_source h.spelled, fun s hs => ?_⟩
  obtain ⟨stream, ts, eof, htokens, hframed, hbefore, heof, hahead, hts⟩ := hs.tokens fun w hw => (h.spelled w hw).fits
  obtain ⟨q, hread, hbare⟩ := h.read hframed hbefore heof hahead ⟨hts, hnesting⟩
  refine ⟨q, ?_, hbare⟩
  rw [Source.parse, htokens]
  exact hread

-- Counts down with a label and a `goto`.
def countdown : Program :=
  ⟨[.function "down" ⟨.void, none, 0⟩ [⟨"n", ⟨.integer, none, 0⟩, .nowhere⟩]
    [.label "again" .nowhere,
     .branch (.binary .greater (.identifier "n") (.integer 0))
       (.block
         [.expression (.assign (.identifier "n") (.binary .subtract (.identifier "n") (.integer 1))) .nowhere,
          .goto "again" .nowhere] .nowhere)
       none .nowhere]
    .nowhere .nowhere]⟩

theorem countdown_plain : countdown.Plain := by
  have hdown : IsName "down" :=
    ⟨.identifier (by decide) (forall_isWordPart_iff.mp (by decide)) fun k => by cases k <;> decide, by decide⟩
  have hagain : IsName "again" :=
    ⟨.identifier (by decide) (forall_isWordPart_iff.mp (by decide)) fun k => by cases k <;> decide, by decide⟩
  have hn : IsName "n" :=
    ⟨.identifier (by decide) (forall_isWordPart_iff.mp (by decide)) fun k => by cases k <;> decide, by decide⟩
  have htest : (Expr.binary .greater (.identifier "n") (.integer 0)).Plain := .binary (.identifier hn) .integer
  have hless : (Expr.binary .subtract (.identifier "n") (.integer 1)).Plain := .binary (.identifier hn) .integer
  refine List.forall_mem_singleton.mpr (.function hdown (.base (by decide)) ?_ ?_)
  case refine_1 => exact List.forall_mem_singleton.mpr ⟨hn, .base (by decide)⟩
  case refine_2 =>
    refine List.forall_mem_cons.mpr ⟨.declaration (.label hagain), List.forall_mem_singleton.mpr (.branch htest ?_)⟩
    exact List.forall_mem_cons.mpr ⟨.assign (.identifier hn) rfl hless, List.forall_mem_singleton.mpr (.goto hagain)⟩

theorem countdown_parse_of_spaced :
    let style : Style := ⟨fun _ => false, fun _ => false, fun _ => false⟩
    (∃ s : Source, Spaced (countdown.layout style).words s.chars) ∧
      ∀ s : Source, Spaced (countdown.layout style).words s.chars → ∃ q, s.parse = .ok q ∧ q.bare = countdown.bare :=
  parse_of_spaced countdown_plain _ (by decide)

end Program

end BasicFrontEnd
