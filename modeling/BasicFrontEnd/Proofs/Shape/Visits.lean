import BasicFrontEnd.Shape.Check

/-!
A program as a row of visits: what the shape rules speak of, in the order of the source. Each visit knows its scope, a
list with the numbers of the visits that enter the functions around it, the innermost first.
-/

namespace BasicFrontEnd.Shape

inductive Act
  -- An assignment, before its target and its value.
  | assign (target : Expr)
  | access (record field : String)
  -- A variable behind its initial value, or a formal.
  | declare (name : String)
  | record (name : String) (members : List TypedName)
  -- The entry to a function.
  | function (name : String) (formals : List TypedName)
  | label (name : String)
  | goto (target : String)

structure Visit where
  scope    : List Nat
  position : Position
  act      : Act

mutual

def acts : Expr → List Act
  | .assign target value => .assign target :: (acts target ++ acts value)
  | .member record field => [.access record field]
  | .call _ arguments => actsOfAll arguments
  | .binary _ left right => acts left ++ acts right
  | .negate operand | .not operand => acts operand
  | .array elements => actsOfAll elements
  | .index base indices => acts base ++ actsOfAll indices
  | .empty | .identifier _ | .integer _ | .float _ | .string _ | .boolean _ | .nil => []

def actsOfAll : List Expr → List Act
  | []      => []
  | e :: es => acts e ++ actsOfAll es

end

-- The visits to an expression of the statement at `p`.
def exprVisits (scope : List Nat) (p : Position) (e : Expr) : List Visit :=
  (acts e).map (.mk scope p)

mutual

-- The visits to a statement in a scope, from number `n` on.
def visits (scope : List Nat) (n : Nat) : Stmt → List Visit
  | .declare name _ initial p =>
    (initial.map (exprVisits scope p)).getD [] ++ [⟨scope, p, .declare name⟩]
  | .record name members p => [⟨scope, p, .record name members⟩]
  | .function name _ formals body _ p =>
    let entry : Visit := ⟨scope, p, .function name formals⟩
    let declared := formals.map fun f => ⟨n :: scope, f.position, .declare f.name⟩
    entry :: (declared ++ visitsOfAll (n :: scope) (n + 1 + declared.length) body)
  | .label name p => [⟨scope, p, .label name⟩]
  | .goto target p => [⟨scope, p, .goto target⟩]
  | .returning value p => exprVisits scope p value
  | .branch test body otherwise p =>
    let tested := exprVisits scope p test
    let done := visits scope (n + tested.length) body
    tested ++ (done ++
      match otherwise with
      | none   => []
      | some s => visits scope (n + tested.length + done.length) s)
  | .loop test body p =>
    let tested := exprVisits scope p test
    tested ++ visits scope (n + tested.length) body
  | .block body _ => visitsOfAll scope n body
  | .expression e p => exprVisits scope p e

def visitsOfAll (scope : List Nat) (n : Nat) : List Stmt → List Visit
  | []      => []
  | s :: ss =>
    let done := visits scope n s
    done ++ visitsOfAll scope (n + done.length) ss

end

-- All visits to a program.
def programVisits (p : Program) : List Visit :=
  visitsOfAll [] 0 p.body

-- The visits lie in the scope or in those of functions that are entered among them. The first has number `n`.
structure Placed (scope : List Nat) (n : Nat) (vs : List Visit) : Prop where
  inside  : ∀ v ∈ vs, scope <:+ v.scope
  numbers : ∀ v ∈ vs, ∀ k ∈ v.scope, k ∈ scope ∨ n ≤ k ∧ k < n + vs.length
  entered : ∀ v ∈ vs, v.scope ≠ scope →
    ∃ i outer p name formals, v.scope = (n + i) :: outer ∧ vs[i]? = some ⟨outer, p, .function name formals⟩

namespace Placed

variable {scope : List Nat} {n : Nat} {vs us : List Visit}

theorem of_scope (h : ∀ v ∈ vs, v.scope = scope) : Placed scope n vs where
  inside v hv         := h v hv ▸ List.suffix_refl _
  numbers v hv _ hk   := .inl (h v hv ▸ hk)
  entered v hv hscope := absurd (h v hv) hscope

theorem exprVisits (p : Position) (e : Expr) : Placed scope n (exprVisits scope p e) :=
  of_scope <| by simp [Shape.exprVisits]

theorem append (hvs : Placed scope n vs) (hus : Placed scope (n + vs.length) us) : Placed scope n (vs ++ us) where
  inside := List.forall_mem_append.mpr ⟨hvs.inside, hus.inside⟩
  numbers := by
    rw [List.length_append]
    refine List.forall_mem_append.mpr ⟨fun v hv k hk => ?_, fun v hv k hk => ?_⟩
    · exact (hvs.numbers v hv k hk).imp_right fun h => by omega
    · exact (hus.numbers v hv k hk).imp_right fun h => by omega
  entered := by
    refine List.forall_mem_append.mpr ⟨fun v hv hscope => ?_, fun v hv hscope => ?_⟩
    case refine_1 =>
      obtain ⟨i, outer, p, name, formals, hv, hi⟩ := hvs.entered v hv hscope
      have hlt := (List.getElem?_eq_some_iff.mp hi).1
      exact ⟨i, outer, p, name, formals, hv, by rw [List.getElem?_append_left hlt, hi]⟩
    case refine_2 =>
      obtain ⟨i, outer, p, name, formals, hv, hi⟩ := hus.entered v hv hscope
      refine ⟨vs.length + i, outer, p, name, formals, by rw [hv, Nat.add_assoc], ?_⟩
      rw [List.getElem?_append_right (Nat.le_add_right ..), Nat.add_sub_cancel_left, hi]

theorem function (h : Placed (n :: scope) (n + 1) vs) (p : Position) (name : String) (formals : List TypedName) :
    Placed scope n (⟨scope, p, .function name formals⟩ :: vs) where
  inside := List.forall_mem_cons.mpr ⟨List.suffix_refl _, fun v hv => (List.suffix_cons n scope).trans (h.inside v hv)⟩
  numbers := by
    rw [List.length_cons]
    refine List.forall_mem_cons.mpr ⟨fun k hk => .inl hk, fun v hv k hk => ?_⟩
    obtain hk | hk := h.numbers v hv k hk
    case inl => exact (List.mem_cons.mp hk).symm.imp_right fun hk => by omega
    case inr => exact .inr (by omega)
  entered := by
    refine List.forall_mem_cons.mpr ⟨fun hscope => absurd rfl hscope, fun v hv _ => ?_⟩
    by_cases hscope : v.scope = n :: scope
    case pos => exact ⟨0, scope, p, name, formals, by simpa using hscope, rfl⟩
    case neg =>
      obtain ⟨i, outer, p', name', formals', hv, hi⟩ := h.entered v hv hscope
      exact ⟨i + 1, outer, p', name', formals', by rw [hv, Nat.add_assoc, Nat.add_comm 1], by simpa using hi⟩

end Placed

mutual

theorem placed_visits (scope : List Nat) (n : Nat) (s : Stmt) : Placed scope n (visits scope n s) := by
  cases s
  case declare initial p =>
    rw [visits]
    cases initial
    case none => exact .of_scope (by simp)
    case some e => exact (Placed.exprVisits p e).append (.of_scope (by simp))
  case function body _ _ =>
    rw [visits]
    exact .function ((Placed.of_scope (by simp)).append (placed_visitsOfAll _ _ body)) ..
  case returning e p | expression e p =>
    rw [visits]
    exact .exprVisits p e
  case branch test body otherwise p =>
    cases otherwise <;> rw [visits]
    case none =>
      exact (Placed.exprVisits p test).append ((placed_visits _ _ body).append (.of_scope (by simp)))
    case some s =>
      exact (Placed.exprVisits p test).append ((placed_visits _ _ body).append (placed_visits _ _ s))
  case loop test body p =>
    rw [visits]
    exact (Placed.exprVisits p test).append (placed_visits _ _ body)
  case block body _ =>
    rw [visits]
    exact placed_visitsOfAll _ _ body
  all_goals
    rw [visits]
    exact .of_scope (by simp)

theorem placed_visitsOfAll (scope : List Nat) (n : Nat) (ss : List Stmt) : Placed scope n (visitsOfAll scope n ss) := by
  cases ss <;> rw [visitsOfAll]
  case nil => exact .of_scope (by simp)
  case cons s ss => exact (placed_visits _ _ s).append (placed_visitsOfAll _ _ ss)

end

mutual

theorem mem_acts (e : Expr) :
    ∀ a ∈ acts e, (∃ target, a = .assign target) ∨ ∃ record field, a = .access record field := by
  cases e <;> rw [acts]
  case assign target value =>
    exact List.forall_mem_cons.mpr ⟨.inl ⟨_, rfl⟩, List.forall_mem_append.mpr ⟨mem_acts target, mem_acts value⟩⟩
  case member record field => exact List.forall_mem_singleton.mpr (.inr ⟨_, _, rfl⟩)
  case call arguments => exact mem_actsOfAll arguments
  case binary left right => exact List.forall_mem_append.mpr ⟨mem_acts left, mem_acts right⟩
  case negate operand | not operand => exact mem_acts operand
  case array elements => exact mem_actsOfAll elements
  case index base indices => exact List.forall_mem_append.mpr ⟨mem_acts base, mem_actsOfAll indices⟩
  all_goals simp

theorem mem_actsOfAll (es : List Expr) :
    ∀ a ∈ actsOfAll es, (∃ target, a = .assign target) ∨ ∃ record field, a = .access record field := by
  cases es <;> rw [actsOfAll]
  case nil => simp
  case cons e es => exact List.forall_mem_append.mpr ⟨mem_acts e, mem_actsOfAll es⟩

end

theorem act_of_mem_exprVisits (h : v ∈ exprVisits scope p e) :
    (∃ target, v.act = .assign target) ∨ ∃ record field, v.act = .access record field := by
  obtain ⟨a, ha, rfl⟩ := List.mem_map.mp h
  exact mem_acts e a ha

-- The label that a visit meets in the scope.
def Visit.label? (scope : List Nat) (v : Visit) : Option (String × Position) :=
  match v.act with
  | .label name => if v.scope = scope then some (name, v.position) else none
  | _           => none

-- All labels of the scope, in the order of the source.
def labelsIn (vs : List Visit) (scope : List Nat) : List (String × Position) :=
  vs.filterMap (Visit.label? scope)

theorem ne_of_cons_suffix {scope scope' : List Nat} (h : k :: scope <:+ scope') : scope' ≠ scope := by
  rintro rfl
  exact Nat.not_succ_le_self _ h.length_le

section Labels

variable {vs us : List Visit} {scope : List Nat}

@[simp]
theorem labelsIn_append : labelsIn (vs ++ us) scope = labelsIn vs scope ++ labelsIn us scope :=
  List.filterMap_append

theorem labelsIn_cons_of_label?_eq_none (h : v.label? scope = none) : labelsIn (v :: vs) scope = labelsIn vs scope :=
  List.filterMap_cons_none h

theorem labelsIn_eq_nil (h : ∀ v ∈ vs, v.scope ≠ scope) : labelsIn vs scope = [] := by
  refine List.filterMap_eq_nil_iff.mpr fun v hv => ?_
  unfold Visit.label?
  split <;> simp [h v hv]

@[simp]
theorem labelsIn_exprVisits (scope scope' : List Nat) (p : Position) (e : Expr) :
    labelsIn (exprVisits scope p e) scope' = [] := by
  refine List.filterMap_eq_nil_iff.mpr fun v hv => ?_
  obtain ⟨_, hact⟩ | ⟨_, _, hact⟩ := act_of_mem_exprVisits hv <;> simp [Visit.label?, hact]

mutual

-- The labels of a function's body are those that are visited in the scope of the function.
theorem labelsIn_visits (scope : List Nat) (n : Nat) (s : Stmt) : labelsIn (visits scope n s) scope = labels s := by
  cases s
  case declare initial p =>
    cases initial <;> simp only [visits, labels]
    case none => rfl
    case some e => exact labelsIn_append.trans (by rw [Option.map_some, Option.getD_some, labelsIn_exprVisits]; rfl)
  case function name result formals body q p =>
    simp only [visits, labels]
    rw [labelsIn_cons_of_label?_eq_none rfl, labelsIn_append, labelsIn_eq_nil, labelsIn_eq_nil]
    · rfl
    · exact fun v hv => ne_of_cons_suffix ((placed_visitsOfAll ..).inside v hv)
    · simp
  case returning e p | expression e p => simp only [visits, labels, labelsIn_exprVisits]
  case branch test body otherwise p =>
    cases otherwise <;> simp only [visits, labels, labelsIn_append, labelsIn_exprVisits, labelsIn_visits]
    all_goals rfl
  case loop test body p => simp only [visits, labels, labelsIn_append, labelsIn_exprVisits, labelsIn_visits]; rfl
  case block body _ => rw [visits, labels, labelsIn_visitsOfAll]
  all_goals
    simp only [visits, labels]
    simp [labelsIn, Visit.label?]

theorem labelsIn_visitsOfAll (scope : List Nat) (n : Nat) (ss : List Stmt) :
    labelsIn (visitsOfAll scope n ss) scope = labelsOfAll ss := by
  cases ss <;> rw [visitsOfAll, labelsOfAll]
  case nil => rfl
  case cons s ss => rw [labelsIn_append, labelsIn_visits, labelsIn_visitsOfAll]

end

end Labels

end BasicFrontEnd.Shape
