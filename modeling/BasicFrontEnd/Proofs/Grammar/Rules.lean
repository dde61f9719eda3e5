import BasicFrontEnd.Proofs.Grammar.Derives
import BasicFrontEnd.Proofs.Grammar.Yields

/-!
What each of the rules of expressions yields, in terms of the rules that it is made of.
-/

namespace BasicFrontEnd.Grammar

open Rule State

variable {s t : State} {e : Expr} {inner : Inner}

-- One more item, behind a comma.
def commaRound (item : Rule α) (items : List α) : Rule (Round (List α) (List α)) := do
  if ← accept (.symbol .comma) then return .again ((← item) :: items)
  else return .done items.reverse

theorem separated_eq {item : Rule α} : separated item = item >>= fun first => repeatFrom (commaRound item) [first] :=
  rfl

theorem commaRound_again {item : Rule α} {items items' : List α} :
    (commaRound item items).Yields s (.again items') t ↔
      s.peek.kind = .symbol .comma ∧ ∃ a, item.Yields s.next a t ∧ items' = a :: items := by
  simp only [commaRound, yields_bind, yields_accept]
  by_cases h : s.peek.kind = .symbol .comma <;> simp [h]

theorem commaRound_done {item : Rule α} {items result : List α} :
    (commaRound item items).Yields s (.done result) t ↔
      s.peek.kind ≠ .symbol .comma ∧ result = items.reverse ∧ t = s := by
  simp only [commaRound, yields_bind, yields_accept]
  by_cases h : s.peek.kind = .symbol .comma <;> simp [h]

-- One more operand, behind an operator.
def binaryRound (operators : List Operator) (operand : Rule Expr) (left : Expr) : Rule (Round Expr Expr) := do
  match (Operator.ofKind? (← peekKind)).filter (operators.contains ·) with
  | none => return .done left
  | some operator =>
    let _ ← consume
    return .again (.binary operator left (← operand))

theorem binaryLevel_eq {operators : List Operator} {operand : Rule Expr} :
    binaryLevel operators operand = operand >>= repeatFrom (binaryRound operators operand) :=
  rfl

theorem binaryRound_again {operators : List Operator} {operand : Rule Expr} {left e : Expr} :
    (binaryRound operators operand left).Yields s (.again e) t ↔
      ∃ o right, o ∈ operators ∧ s.peek.kind = o.kind ∧ operand.Yields s.next right t ∧
        e = .binary o left right := by
  simp only [← List.contains_iff_mem, ← and_assoc, ← Operator.filter_ofKind?_eq_some_iff]
  simp only [binaryRound, yields_bind, yields_peekKind, and_assoc, exists_and_left, exists_eq_left]
  split
  all_goals
    rename_i heq
    simp only [heq]
    simp [and_assoc]

theorem binaryRound_done {operators : List Operator} {operand : Rule Expr} {left e : Expr} :
    (binaryRound operators operand left).Yields s (.done e) t ↔
      (∀ o ∈ operators, s.peek.kind ≠ o.kind) ∧ e = left ∧ t = s := by
  simp only [← List.contains_iff_mem, ← Operator.filter_ofKind?_eq_none_iff]
  simp only [binaryRound, yields_bind, yields_peekKind, and_assoc, exists_and_left, exists_eq_left]
  split
  all_goals
    rename_i heq
    simp only [heq]
    simp

-- Where a comparison might follow, there is none: comparisons do not chain.
theorem comparison_yields {operand : Rule Expr} :
    (comparison operand).Yields s e t ↔
      t.peek.kind.isComparison = false ∧
        (operand.Yields s e t ∨
          ∃ left u o right, operand.Yields s left u ∧ o.isComparison = true ∧ u.peek.kind = o.kind ∧
            operand.Yields u.next right t ∧ e = .binary o left right) := by
  constructor
  case mp =>
    intro h
    simp only [comparison, yields_bind, yields_peekKind] at h
    obtain ⟨left, u, hleft, _, _, ⟨rfl, rfl⟩, h⟩ := h
    split at h
    case h_1 hnone =>
      obtain ⟨rfl, rfl⟩ := yields_pure.mp h
      exact ⟨Operator.filter_isComparison_eq_none_iff.mp hnone, .inl hleft⟩
    case h_2 o hsome =>
      obtain ⟨ho, hu⟩ := Operator.filter_ofKind?_eq_some_iff.mp hsome
      simp only [yields_bind, yields_consume, yields_peekKind] at h
      obtain ⟨_, _, ⟨rfl, rfl⟩, right, v, hright, _, _, ⟨rfl, rfl⟩, h⟩ := h
      split at h
      case isTrue => simp at h
      case isFalse hchain =>
        obtain ⟨rfl, rfl⟩ := yields_pure.mp h
        exact ⟨Bool.eq_false_iff.mpr hchain, .inr ⟨left, _, o, right, hleft, ho, hu, hright, rfl⟩⟩
  case mpr =>
    simp only [comparison, yields_bind, yields_peekKind]
    rintro ⟨hend, hsingle | ⟨left, u, o, right, hleft, ho, hu, hright, rfl⟩⟩
    case inl =>
      refine ⟨e, t, hsingle, _, _, ⟨rfl, rfl⟩, ?_⟩
      simp [Operator.filter_isComparison_eq_none_iff.mpr hend]
    case inr =>
      refine ⟨left, u, hleft, _, _, ⟨rfl, rfl⟩, ?_⟩
      simp only [Operator.filter_ofKind?_eq_some_iff.mpr ⟨ho, hu⟩, yields_bind, yields_consume, yields_peekKind]
      exact ⟨_, _, ⟨rfl, rfl⟩, right, t, hright, _, _, ⟨rfl, rfl⟩, by simp [hend]⟩

theorem arguments_yields {item : Rule Expr} {es : List Expr} :
    (arguments item).Yields s es t ↔
      (s.peek.kind = .symbol .closeParen ∧ es = [] ∧ t = s.next) ∨
      (s.peek.kind ≠ .symbol .closeParen ∧ ∃ u, (separated item).Yields s es u ∧
        u.peek.kind = .symbol .closeParen ∧ t = u.next) := by
  simp only [arguments, yields_bind, yields_accept]
  by_cases h : s.peek.kind = .symbol .closeParen
  case pos => simp [h]
  case neg =>
    simp only [h, false_and, ne_eq, not_false_eq_true, true_and, false_or, Bool.false_eq_true, if_false,
      bind_pure_comp, yields_bind, yields_map, yields_expect, and_assoc, exists_and_left, exists_eq_left]
    constructor
    case mp =>
      rintro ⟨_, u, hu, hclose, ht, he⟩
      exact ⟨u, he ▸ hu, hclose, ht⟩
    case mpr =>
      rintro ⟨u, hu, hclose, ht⟩
      exact ⟨es, u, hu, hclose, ht, rfl⟩

-- One more suffix.
def suffixRound (inner : Inner) (e : Expr) : Rule (Round Expr Expr) := do
  match ← peekKind with
  | .symbol .dot =>
    match e with
    | .identifier name =>
      let _ ← consume
      return .again (.member name (← expect .identifier).value)
    | _ => unexpected "identifier before '.'"
  | .symbol .openBracket =>
    let _ ← consume
    let index ← nested inner.expr
    let _ ← expect (.symbol .closeBracket)
    return .again (addIndex e index)
  | .symbol .openParen =>
    match e with
    | .identifier callee =>
      let _ ← consume
      return .again (.call callee (← nested (arguments inner.expr)))
    | _ => unexpected "identifier before '('"
  | _ => return .done e

theorem suffixes_eq : suffixes inner e = repeatFrom (suffixRound inner) e :=
  rfl

theorem suffixRound_done {e' : Expr} :
    (suffixRound inner e).Yields s (.done e') t ↔ s.peek.kind.beginsSuffix = false ∧ e' = e ∧ t = s := by
  simp only [suffixRound, yields_bind, yields_peekKind, and_assoc, exists_and_left, exists_eq_left]
  unfold Kind.beginsSuffix
  split <;> simp_all
  all_goals split <;> simp

theorem suffixRound_again {e' : Expr} :
    (suffixRound inner e).Yields s (.again e') t ↔
      (s.peek.kind = .symbol .dot ∧ ∃ name, e = .identifier name ∧ s.next.peek.kind = .identifier ∧
        t = s.next.next ∧ e' = .member name s.next.peek.value) ∨
      (s.peek.kind = .symbol .openBracket ∧ ∃ i u, (nested inner.expr).Yields s.next i u ∧
        u.peek.kind = .symbol .closeBracket ∧ t = u.next ∧ e' = addIndex e i) ∨
      (s.peek.kind = .symbol .openParen ∧ ∃ name es, e = .identifier name ∧
        (nested (arguments inner.expr)).Yields s.next es t ∧ e' = .call name es) := by
  simp only [suffixRound, yields_bind, yields_peekKind, and_assoc, exists_and_left, exists_eq_left]
  split
  case h_1 h => cases e <;> simp [h, and_assoc]
  case h_2 h => simp [h, and_assoc]
  case h_3 h => cases e <;> simp [h, and_assoc]
  case h_4 => simp_all

theorem primary_yields :
    (primary inner).Yields s e t ↔
      (Atom s.peek e ∧ t = s.next) ∨
      (s.peek.kind = .symbol .openParen ∧ ∃ u, (nested inner.expr).Yields s.next e u ∧
        u.peek.kind = .symbol .closeParen ∧ t = u.next) ∨
      (s.peek.kind = .symbol .openCurly ∧ ∃ es u, (nested (separated inner.expr)).Yields s.next es u ∧
        u.peek.kind = .symbol .closeCurly ∧ t = u.next ∧ e = .array es) := by
  simp only [primary, yields_bind, yields_peekKind, and_assoc, exists_and_left, exists_eq_left, atom_iff]
  split
  case h_10 => cases hk : s.peek.kind <;> simp_all [Kind.isNumber]
  case h_2 h | h_3 h | h_9 h => simp [h, Kind.isNumber, and_assoc]
  case h_8 h =>
    simp only [h, bind_pure_comp, yields_bind, yields_consume, yields_map, yields_expect, Kind.isNumber,
      Kind.symbol.injEq, reduceCtorEq, Bool.false_eq_true, false_and, true_and, or_self, or_false, false_or,
      and_assoc, exists_and_left, exists_eq_left]
    constructor
    case mp =>
      rintro ⟨_, u, hu, hclose, ht, he⟩
      exact ⟨u, he ▸ hu, hclose, ht⟩
    case mpr =>
      rintro ⟨u, hu, hclose, ht⟩
      exact ⟨e, u, hu, hclose, ht, rfl⟩
  all_goals
    rename_i h
    simp [h, Kind.isNumber, and_comm]

theorem peek_of_primary_yields (h : (primary inner).Yields s e t) :
    s.peek.kind ≠ .symbol .minus ∧ s.peek.kind ≠ .symbol .bang := by
  obtain ⟨hatom, _⟩ | ⟨hopen, _⟩ | ⟨hopen, _⟩ := primary_yields.mp h
  case inl => constructor <;> intro hk <;> cases hatom <;> simp_all [Kind.isNumber]
  all_goals simp [hopen]

-- The suffixes are read behind what was read before them, whatever they come to.
theorem outcome_operand_of_primary {base : Expr} (h : (primary inner).Yields s base t) :
    (operand inner).outcome s = (suffixes inner base).outcome t := by
  obtain ⟨hminus, hbang⟩ := peek_of_primary_yields h
  unfold operand
  rw [outcome_peekKind_bind]
  split
  case h_1 hk => exact absurd hk hminus
  case h_2 hk => exact absurd hk hbang
  case h_3 => rw [outcome_bind, h]

theorem outcome_operand_of_negative {literal : Expr} (hminus : s.peek.kind = .symbol .minus)
    (hnumber : s.next.peek.kind.isNumber = true) (h : number s.next.peek true = .ok literal) :
    (operand inner).outcome s = (suffixes inner literal).outcome s.next.next := by
  unfold operand
  rw [outcome_peekKind_bind, hminus]
  dsimp only
  rw [outcome_consume_bind, outcome_peekKind_bind, if_pos hnumber, outcome_consume_bind, h]
  rfl

theorem operand_yields :
    (operand inner).Yields s e t ↔
      (s.peek.kind = .symbol .minus ∧ s.next.peek.kind.isNumber = true ∧ ∃ literal,
        number s.next.peek true = .ok literal ∧ (suffixes inner literal).Yields s.next.next e t) ∨
      (s.peek.kind = .symbol .minus ∧ s.next.peek.kind.isNumber = false ∧ ∃ e',
        (nested inner.unary).Yields s.next e' t ∧ e = .negate e') ∨
      (s.peek.kind = .symbol .bang ∧ ∃ e', (nested inner.unary).Yields s.next e' t ∧ e = .not e') ∨
      (s.peek.kind ≠ .symbol .minus ∧ s.peek.kind ≠ .symbol .bang ∧ ∃ base u,
        (primary inner).Yields s base u ∧ (suffixes inner base).Yields u e t) := by
  simp only [operand, yields_bind, yields_peekKind, and_assoc, exists_and_left, exists_eq_left]
  split
  case h_1 h => cases hnumber : s.next.peek.kind.isNumber <;> simp [h, hnumber, and_assoc]
  case h_2 h => simp [h, and_assoc]
  case h_3 => simp_all

end BasicFrontEnd.Grammar
