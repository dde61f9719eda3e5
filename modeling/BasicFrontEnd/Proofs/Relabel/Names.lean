import BasicFrontEnd.Proofs.Relabel.Programs
import BasicFrontEnd.Proofs.Relabel.Shapes
import Mathlib.Logic.Equiv.Basic

/-!
Which names a program uses does not matter, as long as different names stay different. Main statement:
`read_and_check_equivariant`.
-/

namespace BasicFrontEnd

-- The relabelling that replaces the names and keeps the places.
def Relabelling.ofRename (rename : String → String) (hrename : Function.Injective rename) : Relabelling where
  name      := rename
  place     := id
  lineText  := id
  injective := hrename

-- Two outcomes that agree: answers that `f` takes to each other, or faults of one kind at one place.
inductive Corresponds (f : α → β) : Except Diagnostic α → Except Diagnostic β → Prop
  | ok    : Corresponds f (.ok a) (.ok (f a))
  | error : d'.cause.name = d.cause.name → d'.position = d.position → Corresponds f (.error d) (.error d')

theorem Corresponds.eq_ok {f : α → β} (h : Corresponds f x y) (hx : x = .ok a) : y = .ok (f a) := by
  subst hx
  cases h
  rfl

theorem Diagnostic.Relabels.name_eq (h : Diagnostic.Relabels r d d') : d'.cause.name = d.cause.name := by
  cases h <;> rfl

theorem Diagnostic.Relabels.position_eq (h : Diagnostic.Relabels r d d') : d'.position = r.place d.position := by
  cases h <;> rfl

theorem Agrees.corresponds {rename : String → String} {hrename : Function.Injective rename} {f : α → β}
    (h : Agrees (.ofRename rename hrename) f x y) : Corresponds f x y := by
  cases h
  case ok => exact .ok
  case error hd => exact .error hd.name_eq hd.position_eq

-- Renaming may move names to other slots of the tables they are kept in, and bring different ones together in a slot.
-- So this says too that the slots do not matter.
theorem read_and_check_equivariant (rename : String → String) (hrename : Function.Injective rename) :
    let r : Relabelling := .ofRename rename hrename
    (∀ stream : Stream, Corresponds (·.relabel r) stream.read.1 (stream.relabel r).read.1) ∧
      ∀ p : Program, Corresponds id p.check.1 (p.relabel r).check.1 := by
  constructor
  case left => exact fun stream => (stream.read_relabel _).corresponds
  case right => exact fun p => (p.check_relabel _).corresponds

-- The tokens of `func f() -> void a: b: goto b end`.
def twoLabels : Stream :=
  let line := "func f() -> void a: b: goto b end"
  .ofTokens ⟨.head, "", .start, line⟩
    [⟨.keyword .funcWord, "func", ⟨1, 1⟩, line⟩, ⟨.identifier, "f", ⟨1, 6⟩, line⟩,
     ⟨.symbol .openParen, "(", ⟨1, 7⟩, line⟩, ⟨.symbol .closeParen, ")", ⟨1, 8⟩, line⟩,
     ⟨.symbol .arrow, "->", ⟨1, 10⟩, line⟩, ⟨.keyword .voidWord, "void", ⟨1, 13⟩, line⟩,
     ⟨.identifier, "a", ⟨1, 18⟩, line⟩, ⟨.symbol .colon, ":", ⟨1, 19⟩, line⟩,
     ⟨.identifier, "b", ⟨1, 21⟩, line⟩, ⟨.symbol .colon, ":", ⟨1, 22⟩, line⟩,
     ⟨.keyword .gotoWord, "goto", ⟨1, 24⟩, line⟩, ⟨.identifier, "b", ⟨1, 29⟩, line⟩,
     ⟨.keyword .endWord, "end", ⟨1, 31⟩, line⟩, ⟨.eof, "EOF", ⟨1, 34⟩, line⟩]

-- The labels of the function fall into one slot once the second has its other name.
theorem read_and_check_equivariant_twoLabels :
    let rename : String → String := Equiv.swap "b" "d7"
    let r : Relabelling := .ofRename rename (Equiv.injective _)
    ChainedMap.slotOf "a" ≠ ChainedMap.slotOf "b" ∧ ChainedMap.slotOf (rename "a") = ChainedMap.slotOf (rename "b") ∧
      ∃ p, twoLabels.read.1 = .ok p ∧ p.check.1 = .ok () ∧
        (twoLabels.relabel r).read.1 = .ok (p.relabel r) ∧ (p.relabel r).check.1 = .ok () := by
  intro rename r
  have ha : rename "a" = "a" := Equiv.swap_apply_of_ne_of_ne (by decide) (by decide)
  have hb : rename "b" = "d7" := Equiv.swap_apply_left _ _
  obtain ⟨hread, hcheck⟩ := read_and_check_equivariant rename (Equiv.injective _)
  refine ⟨by decide +kernel, ?slots, _, rfl, ?check, (hread twoLabels).eq_ok rfl, (hcheck _).eq_ok ?check⟩
  case slots =>
    rw [ha, hb]
    decide +kernel
  case check => decide +kernel

end BasicFrontEnd
