import BasicFrontEnd.Proofs.Writing.Plain
import BasicFrontEnd.Shape.Fault
import BasicFrontEnd.Token.Stream
import Mathlib.Logic.Function.Basic

/-!
Other names and other places: what becomes of tokens, trees and faults where each name is replaced by another, no two
by the same, and all stands in other places.
-/

namespace BasicFrontEnd

structure Relabelling where
  name      : String → String
  place     : Position → Position
  lineText  : String → String
  injective : Function.Injective name

-- The relabelling that keeps the names and forgets the places.
def Relabelling.bare : Relabelling where
  name       := id
  place _    := .nowhere
  lineText _ := ""
  injective  := Function.injective_id

@[simp]
theorem Relabelling.name_bare (name : String) : bare.name name = name :=
  rfl

@[simp]
theorem Relabelling.place_bare (p : Position) : bare.place p = .nowhere :=
  rfl

variable (r : Relabelling)

section Tokens

-- Names are the values of identifiers; other words stay.
def Token.relabel (t : Token) : Token where
  kind     := t.kind
  value    := if t.kind = .identifier then r.name t.value else t.value
  position := r.place t.position
  lineText := r.lineText t.lineText

@[simp]
theorem Token.kind_relabel (t : Token) : (t.relabel r).kind = t.kind :=
  rfl

@[simp]
theorem Token.position_relabel (t : Token) : (t.relabel r).position = r.place t.position :=
  rfl

theorem Token.value_relabel_of_name {t : Token} (h : t.kind = .identifier) : (t.relabel r).value = r.name t.value :=
  if_pos h

theorem Token.value_relabel_of_ne {t : Token} (h : t.kind ≠ .identifier) : (t.relabel r).value = t.value :=
  if_neg h

def Stream.relabel (s : Stream) : Stream where
  behind  := s.behind.map (·.relabel r)
  current := s.current.relabel r
  ahead   := s.ahead.map (·.relabel r)

namespace Stream

@[simp]
theorem toList_relabel (s : Stream) : (s.relabel r).toList = s.toList.map (·.relabel r) := by
  simp [toList, relabel]

@[simp]
theorem rest_relabel (s : Stream) : (s.relabel r).rest = s.rest.map (·.relabel r) :=
  rfl

@[simp]
theorem peek_relabel (s : Stream) : (s.relabel r).peek = s.peek.relabel r := by
  obtain ⟨behind, current, _ | ⟨t, ts⟩⟩ := s <;> rfl

@[simp]
theorem consume_relabel (s : Stream) : (s.relabel r).consume = s.consume.relabel r := by
  obtain ⟨behind, current, _ | ⟨t, ts⟩⟩ := s <;> rfl

@[simp]
theorem backup_relabel (s : Stream) : (s.relabel r).backup = s.backup.relabel r := by
  obtain ⟨_ | ⟨t, ts⟩, current, ahead⟩ := s <;> rfl

end Stream

end Tokens

section Trees

def TypeSpec.relabel (t : TypeSpec) : TypeSpec :=
  { t with recordName := t.recordName.map r.name }

@[simp]
theorem TypeSpec.isVoid_relabel (t : TypeSpec) : (t.relabel r).isVoid = t.isVoid :=
  rfl

def TypedName.relabel (t : TypedName) : TypedName :=
  ⟨r.name t.name, t.type.relabel r, r.place t.position⟩

namespace Expr

mutual

def relabel : Expr → Expr
  | call callee arguments       => call (r.name callee) (relabels arguments)
  | binary operator left right  => binary operator left.relabel right.relabel
  | assign target value         => assign target.relabel value.relabel
  | negate operand              => negate operand.relabel
  | not operand                 => not operand.relabel
  | empty                       => empty
  | member record field         => member (r.name record) (r.name field)
  | array elements              => array (relabels elements)
  | index base indices          => index base.relabel (relabels indices)
  | identifier name             => identifier (r.name name)
  | integer value               => integer value
  | float value                 => float value
  | string value                => string value
  | boolean value               => boolean value
  | nil                         => nil

def relabels : List Expr → List Expr
  | []      => []
  | e :: es => e.relabel :: relabels es

end

@[simp]
theorem relabels_eq_map (es : List Expr) : relabels r es = es.map (relabel r) := by
  induction es
  case nil => rw [relabels, List.map_nil]
  case cons ih => rw [relabels, ih, List.map_cons]

@[simp]
theorem isCall_relabel (e : Expr) : (e.relabel r).isCall = e.isCall := by
  cases e <;> rw [relabel] <;> rfl

@[simp]
theorem isTarget_relabel (e : Expr) : (e.relabel r).isTarget = e.isTarget := by
  cases e <;> rw [relabel] <;> rfl

@[simp]
theorem kindName_relabel (e : Expr) : (e.relabel r).kindName = e.kindName := by
  cases e <;> rw [relabel] <;> rfl

end Expr

namespace Stmt

mutual

def relabel : Stmt → Stmt
  | .declare name type initial p =>
    .declare (r.name name) (type.relabel r) (initial.map (·.relabel r)) (r.place p)
  | .record name members p => .record (r.name name) (members.map (·.relabel r)) (r.place p)
  | .function name result formals body q p =>
    .function (r.name name) (result.relabel r) (formals.map (·.relabel r)) (relabels body) (r.place q) (r.place p)
  | .label name p => .label (r.name name) (r.place p)
  | .goto target p => .goto (r.name target) (r.place p)
  | .returning value p => .returning (value.relabel r) (r.place p)
  | .branch test body none p => .branch (test.relabel r) body.relabel none (r.place p)
  | .branch test body (some otherwise) p =>
    .branch (test.relabel r) body.relabel (some otherwise.relabel) (r.place p)
  | .loop test body p => .loop (test.relabel r) body.relabel (r.place p)
  | .block body p => .block (relabels body) (r.place p)
  | .expression value p => .expression (value.relabel r) (r.place p)

def relabels : List Stmt → List Stmt
  | []      => []
  | s :: ss => s.relabel :: relabels ss

end

@[simp]
theorem relabels_eq_map (ss : List Stmt) : relabels r ss = ss.map (relabel r) := by
  induction ss
  case nil => rw [relabels, List.map_nil]
  case cons ih => rw [relabels, ih, List.map_cons]

end Stmt

def Program.relabel (p : Program) : Program :=
  ⟨p.body.map (·.relabel r)⟩

end Trees

section Faults

def Shape.Fault.relabel : Shape.Fault → Shape.Fault
  | duplicateMember member record   => duplicateMember (r.name member) (r.name record)
  | duplicateFormal formal function => duplicateFormal (r.name formal) (r.name function)
  | duplicateLabel label            => duplicateLabel (r.name label)
  | unknownTarget label             => unknownTarget (r.name label)
  | notAssignable kind              => notAssignable kind
  | undeclared variableName field   => undeclared (r.name variableName) (r.name field)

-- A diagnostic and the one of the same fault in what is relabelled.
inductive Diagnostic.Relabels : Diagnostic → Diagnostic → Prop
  | unexpected (t : Token) (expected : String) :
    Relabels (t.fault (.badToken expected t.value)) ((t.relabel r).fault (.badToken expected (t.relabel r).value))
  | number (t : Token) (text : String) :
    Relabels (t.fault (.badNumber text)) ((t.relabel r).fault (.badNumber text))
  | tree (fault : Shape.Fault) (p : Position) :
    Relabels (fault.toDiagnostic p) ((fault.relabel r).toDiagnostic (r.place p))

-- The outcomes of the same work on both: the answers, or the faults.
inductive Agrees (f : α → β) : Except Diagnostic α → Except Diagnostic β → Prop
  | ok    : Agrees f (.ok a) (.ok (f a))
  | error : d.Relabels r d' → Agrees f (.error d) (.error d')

-- The states that the work leaves are related as well.
inductive Relabelled (f : α → β) (Related : σ → σ → Prop) : Except Diagnostic α × σ → Except Diagnostic β × σ → Prop
  | ok    : Related s s' → Relabelled f Related (.ok a, s) (.ok (f a), s')
  | error : d.Relabels r d' → Related s s' → Relabelled f Related (.error d, s) (.error d', s')

theorem Relabelled.agrees {f : α → β} {Related : σ → σ → Prop} (h : Relabelled r f Related x y) :
    Agrees r f x.1 y.1 := by
  cases h
  case ok => exact .ok
  case error hd _ => exact .error hd

end Faults

section Bare

@[simp]
theorem TypeSpec.relabel_bare (t : TypeSpec) : t.relabel .bare = t := by
  obtain ⟨base, _ | name, dimensions⟩ := t <;> rfl

@[simp]
theorem TypedName.relabel_bare (t : TypedName) : t.relabel .bare = t.bare := by
  simp [relabel, bare]

mutual

@[simp]
theorem Expr.relabel_bare : ∀ e : Expr, e.relabel .bare = e
  | .call _ arguments => by simp only [relabel, Expr.map_relabel_bare arguments, Relabelling.name_bare]
  | .binary _ left right => by simp only [relabel, left.relabel_bare, right.relabel_bare]
  | .assign target value => by simp only [relabel, target.relabel_bare, value.relabel_bare]
  | .negate operand | .not operand => by simp only [relabel, operand.relabel_bare]
  | .array elements => by simp only [relabel, Expr.map_relabel_bare elements]
  | .index base indices => by simp only [relabel, base.relabel_bare, Expr.map_relabel_bare indices]
  | .member _ _ | .identifier _ => by simp only [relabel, Relabelling.name_bare]
  | .empty | .integer _ | .float _ | .string _ | .boolean _ | .nil => by rw [relabel]

theorem Expr.map_relabel_bare : ∀ es : List Expr, Expr.relabels .bare es = es
  | []      => by rw [Expr.relabels]
  | e :: es => by rw [Expr.relabels, e.relabel_bare, Expr.map_relabel_bare es]

end

mutual

@[simp]
theorem Stmt.relabel_bare : ∀ s : Stmt, s.relabel .bare = s.bare
  | .declare _ _ initial _ => by cases initial <;> simp [relabel, bare]
  | .record _ _ _ | .label _ _ | .goto _ _ | .returning _ _ | .expression _ _ => by simp [relabel, bare]
  | .function _ _ _ body _ _ => by
    simp only [relabel, bare, Stmt.map_relabel_bare body]
    simp
  | .branch _ body none _ => by simp [relabel, bare, body.relabel_bare]
  | .branch _ body (some otherwise) _ => by simp [relabel, bare, body.relabel_bare, otherwise.relabel_bare]
  | .loop _ body _ => by simp [relabel, bare, body.relabel_bare]
  | .block body _ => by simp only [relabel, bare, Stmt.map_relabel_bare body, Relabelling.place_bare]

theorem Stmt.map_relabel_bare : ∀ ss : List Stmt, Stmt.relabels .bare ss = Stmt.bares ss
  | []      => by rw [Stmt.relabels, Stmt.bares]
  | s :: ss => by rw [Stmt.relabels, Stmt.bares, s.relabel_bare, Stmt.map_relabel_bare ss]

end

theorem Program.relabel_bare (p : Program) : p.relabel .bare = p.bare := by
  simp [relabel, bare]

theorem Shape.Fault.relabel_bare (fault : Shape.Fault) : fault.relabel .bare = fault := by
  cases fault <;> rfl

theorem Token.relabel_bare (t : Token) : t.relabel .bare = ⟨t.kind, t.value, .nowhere, ""⟩ := by
  simp [relabel, Relabelling.bare]

-- Where only places change, so do they in a diagnostic.
theorem Diagnostic.Relabels.cause_eq {d d' : Diagnostic} (h : Diagnostic.Relabels .bare d d') : d'.cause = d.cause := by
  cases h
  case unexpected => rw [Token.relabel_bare]; rfl
  case number => rfl
  case tree fault p => rw [fault.relabel_bare]; rfl

end Bare

end BasicFrontEnd
