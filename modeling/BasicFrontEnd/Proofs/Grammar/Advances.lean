import BasicFrontEnd.Proofs.Grammar.ProgramEchoes
import BasicFrontEnd.Proofs.Grammar.Scripts

/-!
Rules that only move forward: whether they answer or fail, they have moved past some tokens, each of them once, and
changed nothing else. The rules for types, expressions and all that is made of these alone are of this kind, from every
state, whatever its levels of nesting.
-/

namespace BasicFrontEnd.Grammar

open Rule State

-- Run from the first state, the rule stops somewhere ahead of the second.
def Rule.Leads (rule : Rule α) (s u : State) : Prop :=
  ∃ ts, u.Reads ts (rule.outcome s).2

class Rule.Advances (rule : Rule α) : Prop where
  leads : ∀ s, rule.Leads s s

section Combinators

variable {s u : State} {x : Rule α} {f : α → Rule β}

theorem Rule.Leads.bind (hx : x.Leads s u) (hf : ∀ a, (f a).Advances) : (x >>= f).Leads s u := by
  obtain ⟨ts, hts⟩ := hx
  unfold Leads
  rw [outcome_bind]
  generalize x.outcome s = r at hts
  obtain ⟨_ | a, t⟩ := r
  case error => exact ⟨ts, hts⟩
  case ok =>
    obtain ⟨us, hus⟩ := (hf a).leads t
    exact ⟨ts ++ us, hts.append hus⟩

theorem Rule.Leads.peek_bind {f : Token → Rule β} (h : (f s.peek).Leads s u) : (peek >>= f).Leads s u :=
  h

theorem Rule.Leads.peekKind_bind {f : Kind → Rule β} (h : (f s.peek.kind).Leads s u) : (peekKind >>= f).Leads s u :=
  h

theorem Rule.Leads.consume_bind {f : Token → Rule β} (h : (f s.peek).Leads s.next u) : (consume >>= f).Leads s u := by
  unfold Leads
  rw [outcome_bind, outcome_consume]
  exact h

theorem Rule.Leads.past (h : x.Leads s s.next) (hpeek : s.peek.kind ≠ .eof) : x.Leads s s := by
  obtain ⟨ts, hts⟩ := h
  exact ⟨_, .cons hpeek hts⟩

-- Moving past a token is an advance only where the token does not end the stream.
theorem Rule.Leads.step {f : Token → Rule β} (hf : (f s.peek).Advances) (hpeek : s.peek.kind ≠ .eof) :
    (consume >>= f).Leads s s :=
  .past (.consume_bind <| hf.leads s.next) hpeek

namespace Rule.Advances

instance {a : α} : (pure a : Rule α).Advances :=
  ⟨fun _ => ⟨[], .nil⟩⟩

instance : (get : Rule State).Advances :=
  ⟨fun _ => ⟨[], .nil⟩⟩

instance : peek.Advances :=
  ⟨fun _ => ⟨[], .nil⟩⟩

instance : peekKind.Advances :=
  ⟨fun _ => ⟨[], .nil⟩⟩

instance {expected : String} : (unexpected expected : Rule α).Advances :=
  ⟨fun _ => ⟨[], .nil⟩⟩

instance {y : Except Diagnostic α} : (liftM y : Rule α).Advances :=
  ⟨fun _ => ⟨[], .nil⟩⟩

instance [hx : x.Advances] [hf : ∀ a, (f a).Advances] : (x >>= f).Advances :=
  ⟨fun s => (hx.leads s).bind hf⟩

instance {c : Prop} [Decidable c] {x y : Rule α} [hx : x.Advances] [hy : y.Advances] :
    (if c then x else y).Advances := by
  split
  case isTrue => exact hx
  case isFalse => exact hy

theorem expect {kind : Kind} (hkind : kind ≠ .eof) : (expect kind).Advances where
  leads s := by
    refine .peekKind_bind ?_
    split
    case isTrue h => exact ⟨[s.peek], outcome_consume s ▸ .single (h ▸ hkind)⟩
    case isFalse => exact ⟨[], .nil⟩

theorem accept {kind : Kind} (hkind : kind ≠ .eof) : (accept kind).Advances where
  leads s := by
    refine .peekKind_bind ?_
    split
    case isTrue h => exact .step inferInstance (h ▸ hkind)
    case isFalse => exact ⟨[], .nil⟩

instance {symbol : Symbol} : (Rule.expect (.symbol symbol)).Advances :=
  expect (by simp)

instance {word : Keyword} : (Rule.expect (.keyword word)).Advances :=
  expect (by simp)

instance : (Rule.expect .identifier).Advances :=
  expect (by simp)

instance {symbol : Symbol} : (Rule.accept (.symbol symbol)).Advances :=
  accept (by simp)

instance {word : Keyword} : (Rule.accept (.keyword word)).Advances :=
  accept (by simp)

instance {rule : Rule α} [hrule : rule.Advances] : rule.nested.Advances where
  leads s := by
    unfold Leads
    rw [outcome_nested]
    split
    case isTrue =>
      obtain ⟨ts, hts⟩ := hrule.leads s.deeper
      exact ⟨ts, hts.shallower⟩
    case isFalse => exact ⟨[], .nil⟩

theorem composes : Composes Advances where
  pure _ := inferInstance
  bind _ _ := inferInstance
  stops _ := inferInstance

instance {round : β → Rule (Round β γ)} [hround : ∀ b, (round b).Advances] {b : β} : (repeatFrom round b).Advances :=
  composes.repeatFrom inferInstance hround b

instance {item : Rule α} [item.Advances] {items : List α} : (commaRound item items).Advances := by
  unfold commaRound
  infer_instance

instance {item : Rule α} [item.Advances] : (separated item).Advances := by
  rw [separated_eq]
  infer_instance

end Rule.Advances

end Combinators

section Types

instance {n : Nat} : (dimensionRound n).Advances := by
  unfold dimensionRound
  infer_instance

instance : dimensions.Advances :=
  inferInstanceAs (repeatFrom dimensionRound 0).Advances

instance : typeSpec.Advances where
  leads s := by
    refine .peekKind_bind ?_
    split
    case isTrue hword => exact .step inferInstance (ne_eof_of_isTypeKeyword hword)
    case isFalse =>
      split
      case isTrue hname => exact .step inferInstance (by simp [hname])
      case isFalse => exact Advances.leads s

end Types

section Exprs

variable {inner : Inner} {s u : State}

instance {operators : List Operator} {operand : Rule Expr} [operand.Advances] {left : Expr} :
    (binaryRound operators operand left).Advances where
  leads s := by
    refine .peekKind_bind ?_
    split
    case h_1 => exact Advances.leads s
    case h_2 hoperator => exact .step inferInstance (Operator.ne_eof_of_filter_ofKind? hoperator)

instance {operators : List Operator} {operand : Rule Expr} [operand.Advances] :
    (binaryLevel operators operand).Advances := by
  rw [binaryLevel_eq]
  infer_instance

-- The rest of a comparison, behind its first operand.
def comparedTo (operand : Rule Expr) (left : Expr) : Rule Expr := do
  match (Operator.ofKind? (← peekKind)).filter (·.isComparison) with
  | none => return left
  | some operator =>
    let _ ← consume
    let right ← operand
    if (← peekKind).isComparison then unexpected "end of comparison"
    else return .binary operator left right

theorem comparison_eq (operand : Rule Expr) : comparison operand = operand >>= comparedTo operand :=
  rfl

instance {operand : Rule Expr} [operand.Advances] {left : Expr} : (comparedTo operand left).Advances where
  leads s := by
    refine .peekKind_bind ?_
    split
    case h_1 => exact Advances.leads s
    case h_2 hoperator => exact .step inferInstance (Operator.ne_eof_of_filter_ofKind? hoperator)

instance {operand : Rule Expr} [operand.Advances] : (comparison operand).Advances := by
  rw [comparison_eq]
  infer_instance

instance {expr : Rule Expr} [expr.Advances] : (arguments expr).Advances := by
  unfold arguments
  infer_instance

instance [inner.expr.Advances] {e : Expr} : (suffixRound inner e).Advances where
  leads s := by
    refine .peekKind_bind ?_
    split
    case h_1 hdot =>
      split
      case h_1 => exact .step inferInstance (by simp [hdot])
      case h_2 => exact Advances.leads s
    case h_2 hbracket => exact .step inferInstance (by simp [hbracket])
    case h_3 hparen =>
      split
      case h_1 => exact .step inferInstance (by simp [hparen])
      case h_2 => exact Advances.leads s
    case h_4 => exact Advances.leads s

instance [inner.expr.Advances] {base : Expr} : (suffixes inner base).Advances := by
  rw [suffixes_eq]
  infer_instance

instance [inner.expr.Advances] : (primary inner).Advances where
  leads s := by
    refine .peekKind_bind ?_
    split
    case h_10 => exact Advances.leads s
    all_goals
      rename_i hpeek
      exact .step inferInstance (by simp [hpeek])

-- What stands behind a minus: a number, which the minus is part of, or another operand.
def behindMinus (inner : Inner) : Rule Expr := do
  if (← peekKind).isNumber then
    let literal ← number (← consume) true
    suffixes inner literal
  else return .negate (← nested inner.unary)

instance [inner.expr.Advances] [inner.unary.Advances] : (behindMinus inner).Advances where
  leads s := by
    refine .peekKind_bind ?_
    split
    case isTrue hnumber => exact .step inferInstance fun heof => by simp [heof, Kind.isNumber] at hnumber
    case isFalse => exact Advances.leads s

instance [inner.expr.Advances] [inner.unary.Advances] : (operand inner).Advances where
  leads s := by
    refine .peekKind_bind ?_
    split
    case h_1 hminus => exact .step (inferInstanceAs (behindMinus inner).Advances) (by simp [hminus])
    case h_2 hbang => exact .step inferInstance (by simp [hbang])
    case h_3 => exact Advances.leads s

instance [inner.expr.Advances] [inner.unary.Advances] : (disjunction inner).Advances := by
  unfold disjunction
  infer_instance

-- The rules for any number of levels of nesting.
theorem inner_advances (left : List Token) :
    (Grammar.inner left).expr.Advances ∧ (Grammar.inner left).unary.Advances := by
  induction left
  case nil => exact ⟨inferInstanceAs (Rule.unexpected _).Advances, inferInstanceAs (Rule.unexpected _).Advances⟩
  case cons left ih =>
    obtain ⟨hexpr, hunary⟩ := ih
    let inner := Grammar.inner left
    exact ⟨inferInstanceAs (disjunction inner).Advances, inferInstanceAs (operand inner).Advances⟩

instance {left : List Token} : (Grammar.inner left).expr.Advances :=
  (inner_advances left).1

instance {left : List Token} : (Grammar.inner left).unary.Advances :=
  (inner_advances left).2

instance : expr.Advances := by
  unfold expr
  infer_instance

-- The tokens that remain bound the levels of nesting.
theorem outcome_expr (s : State) : expr.outcome s = (Grammar.inner s.stream.rest).expr.outcome s :=
  outcome_get_bind (fun s => (Grammar.inner s.stream.rest).expr) s

theorem outcome_expr_inner (v : Token) (left : List Token) (s : State) :
    (Grammar.inner (v :: left)).expr.outcome s = (disjunction (Grammar.inner left)).outcome s := by
  rw [Grammar.inner]

-- What begins with a name is read past it, whatever follows.
theorem operand_leads [inner.expr.Advances] [inner.unary.Advances] (hname : s.peek.kind = .identifier) :
    (operand inner).Leads s s.next := by
  have hprimary : (primary inner).Leads s s.next := by
    refine .peekKind_bind ?_
    rw [hname]
    exact .consume_bind (Advances.leads s.next)
  refine .peekKind_bind ?_
  rw [hname]
  exact hprimary.bind fun _ => inferInstance

theorem Rule.Leads.binaryLevel {operators : List Operator} {operand : Rule Expr} [operand.Advances]
    (h : operand.Leads s u) : (binaryLevel operators operand).Leads s u := by
  rw [binaryLevel_eq]
  exact h.bind fun _ => inferInstance

theorem Rule.Leads.comparison {operand : Rule Expr} [operand.Advances] (h : operand.Leads s u) :
    (comparison operand).Leads s u := by
  rw [comparison_eq]
  exact h.bind fun _ => inferInstance

theorem expr_leads (hname : s.peek.kind = .identifier) : expr.Leads s s.next := by
  unfold Leads
  rw [outcome_expr, Stream.rest, outcome_expr_inner]
  exact (operand_leads hname).binaryLevel.binaryLevel.comparison.binaryLevel.binaryLevel

end Exprs

section Stmts

instance {name : Token} : (declaration name).Advances := by
  unfold declaration
  infer_instance

instance : gotoStmt.Advances := by
  unfold gotoStmt
  infer_instance

instance : returnStmt.Advances := by
  unfold returnStmt
  infer_instance

instance : expressionStmt.Advances := by
  unfold expressionStmt
  infer_instance

theorem expressionStmt_leads {s : State} (hname : s.peek.kind = .identifier) : expressionStmt.Leads s s.next :=
  .peek_bind <| (expr_leads hname).bind fun _ => inferInstance

end Stmts

section Programs

instance : formal.Advances := by
  unfold formal
  infer_instance

instance : formals.Advances := by
  unfold formals
  infer_instance

instance : signature.Advances := by
  unfold signature
  infer_instance

theorem peek_of_signature_yields {s : State} (h : signature.Yields s g t) : s.peek.kind = .keyword .funcWord := by
  simp only [signature, yields_bind, yields_expect] at h
  obtain ⟨_, _, ⟨hfunc, -⟩, -⟩ := h
  exact hfunc

instance : member.Advances := by
  unfold member
  infer_instance

instance {members : List TypedName} : (memberRound members).Advances := by
  unfold memberRound
  infer_instance

instance : recordDecl.Advances := by
  rw [recordDecl_eq]
  infer_instance

end Programs

end BasicFrontEnd.Grammar
