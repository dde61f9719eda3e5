import BasicFrontEnd.Program
import BasicFrontEnd.Proofs.Dump.Outlines
import BasicFrontEnd.Proofs.Token.Lexical

/-!
Legible trees: all their names are words, and they hold no number with a fraction. Else they may be any that the types
allow. The labels of their outlines stand each on one line. Main statements: `Expr.Legible.readable`,
`Stmt.Legible.readable` and `Program.Legible.readable`.
-/

namespace BasicFrontEnd

-- The text is a letter followed by letters and digits. It may be reserved.
structure IsWord (text : String) : Prop where
  begins   : ∃ c ∈ text.toList.head?, Lexical.IsLetter c
  consists : ∀ c ∈ text.toList, Lexical.IsLetter c ∨ Lexical.IsDigit c

section Words

variable {text rest : String} {c : Char}

-- In this form it is decided along the text, and not by trying all characters.
theorem isWord_iff : IsWord text ↔ text.toList.head?.any (Lexical.IsLetter ·) = true ∧
    text.toList.all (fun c => Lexical.IsLetter c ∨ Lexical.IsDigit c) = true := by
  simp only [Option.any_eq_true, List.all_eq_true, decide_eq_true_eq]
  exact ⟨fun h => ⟨h.begins, h.consists⟩, fun h => ⟨h.1, h.2⟩⟩

instance : Decidable (IsWord text) :=
  decidable_of_iff _ isWord_iff.symm

theorem IsWord.not_mem (h : IsWord text) (hc : ¬(Lexical.IsLetter c ∨ Lexical.IsDigit c)) : c ∉ text.toList :=
  fun hmem => hc (h.consists c hmem)

theorem IsWord.isLabel_append (h : IsWord text) (hrest : '\n' ∉ rest.toList) : Outline.IsLabel (text ++ rest) := by
  obtain ⟨c, hc, hletter⟩ := h.begins
  refine ⟨?oneLine, ?unspaced⟩
  case oneLine =>
    rw [String.toList_append, List.mem_append, not_or]
    exact ⟨h.not_mem (by decide), hrest⟩
  case unspaced =>
    rw [String.toList_append, List.head?_append_of_ne_nil _ (List.ne_nil_of_mem (List.mem_of_mem_head? hc)), hc]
    rintro ⟨⟩
    exact absurd hletter (by decide)

theorem IsWord.isLabel (h : IsWord text) : Outline.IsLabel text := by
  have hlabel : Outline.IsLabel (text ++ "") := h.isLabel_append (by decide)
  simpa using hlabel

end Words

namespace Outline

variable {key value : String} {children : List Outline}

-- The words that the outlines are made with are given, so they are seen to be words.
theorem Readable.kind (h : ∀ o ∈ children, o.Readable) (hkey : IsWord key := by decide) :
    (Outline.node key children).Readable :=
  .node hkey.isLabel h

theorem Readable.field (hvalue : '\n' ∉ value.toList) (hkey : IsWord key := by decide) :
    (Outline.field key value).Readable := by
  rw [Outline.field, String.append_assoc]
  exact .node (hkey.isLabel_append (by simpa using hvalue)) (by simp)

theorem Readable.group (h : ∀ o ∈ children, o.Readable) (hkey : IsWord key := by decide) :
    (Outline.group key children).Readable :=
  .node (hkey.isLabel_append (by decide)) h

theorem Readable.wrap (hvalue : '\n' ∉ value.toList) (hkey : IsWord key := by decide) :
    (Expr.wrap key value).Readable := by
  rw [Expr.wrap, String.append_assoc, String.append_assoc]
  exact .node (hkey.isLabel_append (by simpa using hvalue)) (by simp)

end Outline

section Legible

-- The predicates ask for words wherever a tree holds a name, and leave out numbers with a fraction.

def TypeSpec.Legible (t : TypeSpec) : Prop :=
  ∀ name ∈ t.recordName, IsWord name

structure TypedName.Legible (t : TypedName) : Prop where
  name : IsWord t.name
  type : t.type.Legible

inductive Expr.Legible : Expr → Prop
  | call       : IsWord callee → (∀ e ∈ arguments, Legible e) → Legible (.call callee arguments)
  | binary     : Legible left → Legible right → Legible (.binary operator left right)
  | assign     : Legible target → Legible value → Legible (.assign target value)
  | negate     : Legible operand → Legible (.negate operand)
  | not        : Legible operand → Legible (.not operand)
  | empty      : Legible .empty
  | member     : IsWord record → IsWord field → Legible (.member record field)
  | array      : (∀ e ∈ elements, Legible e) → Legible (.array elements)
  | index      : Legible base → (∀ e ∈ indices, Legible e) → Legible (.index base indices)
  | identifier : IsWord name → Legible (.identifier name)
  | integer    : Legible (.integer value)
  | string     : Legible (.string value)
  | boolean    : Legible (.boolean value)
  | nil        : Legible .nil

inductive Stmt.Legible : Stmt → Prop
  | declare    : IsWord name → type.Legible → (∀ e ∈ initial, e.Legible) → Legible (.declare name type initial p)
  | record     : IsWord name → (∀ m ∈ members, m.Legible) → Legible (.record name members p)
  | function   : IsWord name → result.Legible → (∀ f ∈ formals, f.Legible) → (∀ s ∈ body, Legible s) →
                 Legible (.function name result formals body q p)
  | label      : IsWord name → Legible (.label name p)
  | goto       : IsWord target → Legible (.goto target p)
  | returning  : value.Legible → Legible (.returning value p)
  | branch     : test.Legible → Legible body → (∀ s ∈ otherwise, Legible s) → Legible (.branch test body otherwise p)
  | loop       : test.Legible → Legible body → Legible (.loop test body p)
  | block      : (∀ s ∈ body, Legible s) → Legible (.block body p)
  | expression : e.Legible → Legible (.expression e p)

def Program.Legible (p : Program) : Prop :=
  ∀ s ∈ p.body, s.Legible

end Legible

section Readable

open Outline (Readable)
open List (forall_mem_cons forall_mem_singleton forall_mem_map forall_mem_nil)

@[simp]
theorem Expr.outlines_eq_map (es : List Expr) : Expr.outlines es = es.map Expr.outline := by
  induction es
  case nil => rw [Expr.outlines, List.map_nil]
  case cons ih => rw [Expr.outlines, ih, List.map_cons]

@[simp]
theorem Stmt.outlines_eq_map (ss : List Stmt) : Stmt.outlines ss = ss.map Stmt.outline := by
  induction ss
  case nil => rw [Stmt.outlines, List.map_nil]
  case cons ih => rw [Stmt.outlines, ih, List.map_cons]

theorem IsWord.lineFeed_not_mem {text : String} (h : IsWord text) : '\n' ∉ text.toList :=
  h.not_mem (by decide)

theorem not_mem_natRepr {c : Char} (hc : c.isDigit = false) (n : Nat) : c ∉ n.repr.toList := fun h => by
  rw [Nat.toList_repr] at h
  exact absurd (Nat.isDigit_of_mem_toDigits (by decide) (by decide) h) (by simp [hc])

theorem lineFeed_not_mem_intRepr (n : Int) : '\n' ∉ n.repr.toList := by
  rw [Int.repr_eq_if]
  split
  case isTrue => exact not_mem_natRepr (by decide) _
  case isFalse => simpa using not_mem_natRepr (by decide) _

theorem TypeSpec.Legible.readable {t : TypeSpec} (h : t.Legible) : ∀ o ∈ TypedName.typeFields t, o.Readable := by
  have hbase : '\n' ∉ t.base.name.toList := by cases t.base <;> decide
  simp only [TypedName.typeFields, List.forall_mem_append, forall_mem_singleton]
  refine ⟨⟨.field hbase, ?recordName⟩, ?dimensions⟩
  case recordName =>
    cases hrecord : t.recordName
    case none => simp
    case some name => simpa using .field (h name hrecord).lineFeed_not_mem
  case dimensions =>
    split
    case isTrue => exact forall_mem_singleton.mpr (.field (not_mem_natRepr (by decide) _))
    case isFalse => exact forall_mem_nil _

theorem TypedName.Legible.readable {t : TypedName} (h : t.Legible) (kind : String) (hkind : IsWord kind := by decide) :
    (t.outline kind).Readable :=
  .kind (forall_mem_cons.mpr ⟨.field h.name.lineFeed_not_mem, h.type.readable⟩) hkind

theorem Expr.Legible.readable {e : Expr} (h : e.Legible) : e.outline.Readable := by
  induction h <;> simp only [outline, outlines_eq_map]
  case call hcallee _ ih =>
    exact .kind (forall_mem_cons.mpr ⟨.field hcallee.lineFeed_not_mem,
      forall_mem_singleton.mpr (.group (forall_mem_map.mpr ih))⟩)
  case binary operator _ _ ihleft ihright =>
    have hoperator : '\n' ∉ operator.write.toList := by cases operator <;> decide
    exact .kind (forall_mem_cons.mpr ⟨.field hoperator, forall_mem_cons.mpr
      ⟨.group (forall_mem_singleton.mpr ihleft), forall_mem_singleton.mpr (.group (forall_mem_singleton.mpr ihright))⟩⟩)
  case assign ihtarget ihvalue =>
    exact .kind (forall_mem_cons.mpr ⟨.group (forall_mem_singleton.mpr ihtarget),
      forall_mem_singleton.mpr (.group (forall_mem_singleton.mpr ihvalue))⟩)
  case negate ih | not ih => exact .kind (forall_mem_singleton.mpr ih)
  case empty | nil => exact .kind (forall_mem_nil _)
  case member hrecord hfield =>
    refine .wrap ?_
    simpa [hrecord.lineFeed_not_mem] using hfield.lineFeed_not_mem
  case array ih => exact .kind (forall_mem_map.mpr ih)
  case index ihbase ihindices =>
    exact .kind (forall_mem_cons.mpr ⟨.group (forall_mem_singleton.mpr ihbase),
      forall_mem_singleton.mpr (.group (forall_mem_map.mpr ihindices))⟩)
  case identifier hname => exact .wrap hname.lineFeed_not_mem
  case integer => exact .wrap (lineFeed_not_mem_intRepr _)
  case string => exact .wrap (Text.not_mem_quoted (by decide) _)
  case boolean value => exact .wrap (by cases value <;> decide)

theorem Stmt.outline_label (name : String) (p : Position) : (Stmt.label name p).outline = Expr.wrap "LabelDecl" name :=
  rfl

theorem Stmt.outline_goto (target : String) (p : Position) :
    (Stmt.goto target p).outline = Expr.wrap "GotoStmt" target :=
  rfl

theorem Stmt.outline_branch (test : Expr) (body : Stmt) (otherwise : Option Stmt) (p : Position) :
    (Stmt.branch test body otherwise p).outline = .node "IfStmt" (.group "test" [test.outline] ::
      .group "body" [body.outline] :: (otherwise.map fun s => .group "else" [s.outline]).toList) := by
  cases otherwise <;> rw [outline] <;> rfl

theorem Stmt.Legible.readable {s : Stmt} (h : s.Legible) : s.outline.Readable := by
  induction h
  case declare initial _ _ hname htype hinitial =>
    rw [outline]
    refine .kind (List.forall_mem_append.mpr ⟨forall_mem_cons.mpr ⟨.field hname.lineFeed_not_mem, htype.readable⟩, ?_⟩)
    cases initial
    case none => exact forall_mem_nil _
    case some e => exact forall_mem_singleton.mpr (.group (forall_mem_singleton.mpr (hinitial e rfl).readable))
  case record hname hmembers =>
    rw [outline]
    exact .kind (forall_mem_cons.mpr ⟨.field hname.lineFeed_not_mem,
      forall_mem_singleton.mpr (.group (forall_mem_map.mpr fun m hm => (hmembers m hm).readable _))⟩)
  case function hname hresult hformals _ ih =>
    rw [outline, outlines_eq_map]
    refine .kind (List.forall_mem_append.mpr
      ⟨forall_mem_cons.mpr ⟨.field hname.lineFeed_not_mem, hresult.readable⟩,
        forall_mem_cons.mpr ⟨?formalGroup, ?bodyGroup⟩⟩)
    case formalGroup => exact .group (forall_mem_map.mpr fun f hf => (hformals f hf).readable _)
    case bodyGroup => exact forall_mem_singleton.mpr (.group (forall_mem_singleton.mpr (.kind (forall_mem_map.mpr ih))))
  case label hname => exact outline_label _ _ ▸ .wrap hname.lineFeed_not_mem
  case goto htarget => exact outline_goto _ _ ▸ .wrap htarget.lineFeed_not_mem
  case returning hvalue =>
    rw [outline]
    exact .kind (forall_mem_singleton.mpr hvalue.readable)
  case branch otherwise _ _ htest _ _ ihbody ihotherwise =>
    rw [outline_branch]
    refine .kind (forall_mem_cons.mpr ⟨.group (forall_mem_singleton.mpr htest.readable),
      forall_mem_cons.mpr ⟨.group (forall_mem_singleton.mpr ihbody), ?_⟩⟩)
    cases otherwise
    case none => exact forall_mem_nil _
    case some => exact forall_mem_singleton.mpr (.group (forall_mem_singleton.mpr (ihotherwise _ rfl)))
  case loop htest _ ih =>
    rw [outline]
    exact .kind (forall_mem_cons.mpr ⟨.group (forall_mem_singleton.mpr htest.readable),
      forall_mem_singleton.mpr (.group (forall_mem_singleton.mpr ih))⟩)
  case block ih =>
    rw [outline, outlines_eq_map]
    exact .kind (forall_mem_map.mpr ih)
  case expression h =>
    rw [outline]
    exact h.readable

theorem Program.Legible.readable {p : Program} (h : p.Legible) : p.outline.Readable := by
  rw [outline, Stmt.outlines_eq_map]
  exact .kind (forall_mem_map.mpr fun s hs => (h s hs).readable)

end Readable

end BasicFrontEnd
