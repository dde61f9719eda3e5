import BasicFrontEnd.Proofs.Grammar.Trails

/-!
How deep the rules recurse: no deeper than tokens remain. If the rules for expressions and bodies are unrolled that
often, then what stands in for the next level is never asked, so it may be anything. Main statements: `expr_unrolled`,
`body_unrolled`.
-/

namespace BasicFrontEnd.Grammar

open Rule State

-- The rules do the same wherever no more than so many tokens remain.
def Rule.SameWithin (x y : Rule α) (bound : Nat) : Prop :=
  ∀ s : State, s.Framed → s.ahead.length ≤ bound → x.outcome s = y.outcome s

section Combinators

variable {s : State} {bound less : Nat} {x y : Rule α} {f g : α → Rule β}

namespace Rule.SameWithin

theorem refl : x.SameWithin x bound :=
  fun _ _ _ => rfl

theorem mono (h : x.SameWithin y bound) (hless : less ≤ bound) : x.SameWithin y less :=
  fun s hs hle => h s hs (Nat.le_trans hle hless)

-- Before the end of the source some token remains.
theorem zero : x.SameWithin y 0 := by
  intro s hs hle
  simp [hs.ahead_eq_cons] at hle

theorem bind [hx : x.Trails] (h : x.SameWithin y bound) (hf : ∀ a, (f a).SameWithin (g a) bound) :
    (x >>= f).SameWithin (y >>= g) bound := by
  intro s hs hle
  have hframed := hx.framed hs
  have hlength := hx.length_le hs
  rw [outcome_bind, outcome_bind, ← h s hs hle]
  generalize x.outcome s = r at hframed hlength
  obtain ⟨_ | a, t⟩ := r
  case error => rfl
  case ok => exact hf a t hframed (Nat.le_trans hlength hle)

theorem peekKind_bind {f g : Kind → Rule β}
    (h : ∀ s : State, s.Framed → s.ahead.length ≤ bound →
      (f s.peek.kind).outcome s = (g s.peek.kind).outcome s) :
    (peekKind >>= f).SameWithin (peekKind >>= g) bound :=
  h

theorem expect_bind {kind : Kind} {f g : Token → Rule β} (hkind : kind ≠ .eof)
    (h : ∀ v, (f v).SameWithin (g v) bound) : (expect kind >>= f).SameWithin (expect kind >>= g) (bound + 1) := by
  intro s hs hle
  by_cases hpeek : s.peek.kind = kind
  case pos =>
    have hexpect : (expect kind).outcome s = (.ok s.peek, s.next) := yields_expect.mpr ⟨hpeek, rfl, rfl⟩
    have hlt := hs.length_next_lt
    simp only [outcome_bind, hexpect]
    exact h s.peek s.next (hs.next (hpeek ▸ hkind)) (by omega)
  case neg =>
    have hexpect : (expect kind).outcome s = (.error (s.unexpected kind.describe), s) := by
      have hif (z w : Rule Token) : (if s.peek.kind = kind then z else w) = w := if_neg hpeek
      exact congrFun (hif _ _) s
    simp only [outcome_bind, hexpect]

theorem nested (h : x.SameWithin y bound) : x.nested.SameWithin y.nested bound := by
  intro s hs hle
  rw [outcome_nested, outcome_nested, h s.deeper hs.deeper hle]

theorem repeatFrom {round round' : β → Rule (Round β γ)} [∀ b, (round b).Trails]
    (h : ∀ b, (round b).SameWithin (round' b) bound) (b : β) :
    (repeatFrom round b).SameWithin (repeatFrom round' b) bound := by
  have hwithin (left : List Token) (b : β) :
      (repeatWithin round left b).SameWithin (repeatWithin round' left b) bound := by
    induction left generalizing b
    case nil => exact refl
    case cons left ih =>
      refine (h b).bind fun r => ?_
      cases r
      case again b' => exact ih b'
      case done => exact refl
  intro s hs hle
  rw [outcome_repeatFrom, outcome_repeatFrom]
  exact hwithin s.stream.rest b s hs hle

end Rule.SameWithin

-- Behind the next token, one token less remains.
theorem Rule.outcome_consume_congr {f g : Token → Rule β} (hs : s.Framed) (hle : s.ahead.length ≤ bound + 1)
    (hpeek : s.peek.kind ≠ .eof) (h : (f s.peek).SameWithin (g s.peek) bound) :
    (consume >>= f).outcome s = (consume >>= g).outcome s := by
  rw [outcome_bind, outcome_bind, outcome_consume]
  exact h s.next (hs.next hpeek) <| Nat.le_of_lt_succ <| Nat.lt_of_lt_of_le hs.length_next_lt hle

end Combinators

section Exprs

variable {i j : Inner} {bound : Nat}

-- The rules for the next level of expressions do the same wherever no more than so many tokens remain.
structure Inner.SameWithin (i j : Inner) (bound : Nat) : Prop where
  expr  : i.expr.SameWithin j.expr bound
  unary : i.unary.SameWithin j.unary bound

namespace Inner.SameWithin

theorem separated {item item' : Rule α} [item.Advances] (h : item.SameWithin item' bound) :
    (separated item).SameWithin (Rule.separated item') bound := by
  refine h.bind fun first => .repeatFrom (fun items => ?_) _
  refine .bind .refl fun more => ?_
  split
  case isTrue => exact h.bind fun _ => .refl
  case isFalse => exact .refl

theorem arguments {item item' : Rule Expr} [item.Advances] (h : item.SameWithin item' bound) :
    (arguments item).SameWithin (Grammar.arguments item') bound := by
  refine .bind .refl fun closed => ?_
  split
  case isTrue => exact .refl
  case isFalse => exact (separated h).bind fun _ => .refl

variable [i.expr.Advances]

theorem suffixRound (h : i.SameWithin j bound) (e : Expr) :
    (suffixRound i e).SameWithin (Grammar.suffixRound j e) (bound + 1) := by
  refine .peekKind_bind fun s hs hle => ?_
  split
  case h_1 => rfl
  case h_2 hbracket => exact outcome_consume_congr hs hle (by simp [hbracket]) <| h.expr.nested.bind fun _ => .refl
  case h_3 hparen =>
    split
    case h_1 =>
      exact outcome_consume_congr hs hle (by simp [hparen]) <| (arguments h.expr).nested.bind fun _ => .refl
    case h_2 => rfl
  case h_4 => rfl

theorem suffixes (h : i.SameWithin j bound) (base : Expr) :
    (suffixes i base).SameWithin (Grammar.suffixes j base) (bound + 1) := by
  rw [suffixes_eq, suffixes_eq]
  exact .repeatFrom (suffixRound h) base

theorem primary (h : i.SameWithin j bound) : (primary i).SameWithin (Grammar.primary j) (bound + 1) := by
  refine .peekKind_bind fun s hs hle => ?_
  split
  case h_8 hparen => exact outcome_consume_congr hs hle (by simp [hparen]) <| h.expr.nested.bind fun _ => .refl
  case h_9 hcurly =>
    exact outcome_consume_congr hs hle (by simp [hcurly]) <| (separated h.expr).nested.bind fun _ => .refl
  all_goals rfl

theorem operand [i.unary.Advances] (h : i.SameWithin j bound) :
    (operand i).SameWithin (Grammar.operand j) (bound + 1) := by
  refine .peekKind_bind fun s hs hle => ?_
  split
  case h_1 hminus =>
    refine outcome_consume_congr hs hle (by simp [hminus]) <| .peekKind_bind fun t ht hle' => ?_
    split
    case isTrue hnumber =>
      have hpeek : t.peek.kind ≠ .eof := fun heof => by simp [heof, Kind.isNumber] at hnumber
      refine outcome_consume_congr ht (Nat.le_succ_of_le hle') hpeek <| .bind .refl fun literal => ?_
      exact (suffixes h literal).mono (Nat.le_succ bound)
    case isFalse => exact (h.unary.nested.bind fun _ => .refl) t ht hle'
  case h_2 hbang => exact outcome_consume_congr hs hle (by simp [hbang]) <| h.unary.nested.bind fun _ => .refl
  case h_3 => exact ((primary h).bind fun e => suffixes h e) s hs hle

end Inner.SameWithin

theorem Rule.SameWithin.binaryLevel {operators : List Operator} {operand operand' : Rule Expr} [operand.Advances]
    (h : operand.SameWithin operand' bound) :
    (binaryLevel operators operand).SameWithin (binaryLevel operators operand') bound := by
  have hround (left : Expr) :
      (binaryRound operators operand left).SameWithin (binaryRound operators operand' left) bound := by
    refine .peekKind_bind fun s hs hle => ?_
    split
    case h_1 => rfl
    case h_2 hoperator =>
      have hgoes := Operator.ne_eof_of_filter_ofKind? hoperator
      exact outcome_consume_congr hs (Nat.le_succ_of_le hle) hgoes <| h.bind fun _ => .refl
  exact h.bind fun left => .repeatFrom hround left

theorem Rule.SameWithin.comparison {operand operand' : Rule Expr} [operand.Advances]
    (h : operand.SameWithin operand' bound) :
    (comparison operand).SameWithin (comparison operand') bound := by
  refine h.bind fun left => .peekKind_bind fun s hs hle => ?_
  split
  case h_1 => rfl
  case h_2 hoperator =>
    have hgoes := Operator.ne_eof_of_filter_ofKind? hoperator
    exact outcome_consume_congr hs (Nat.le_succ_of_le hle) hgoes <| h.bind fun _ => .refl

theorem Inner.SameWithin.disjunction [i.expr.Advances] [i.unary.Advances] (h : i.SameWithin j bound) :
    (disjunction i).SameWithin (disjunction j) (bound + 1) :=
  h.operand.binaryLevel.binaryLevel.comparison.binaryLevel.binaryLevel

-- The rules for expressions, unrolled to so many levels, with others in place of the level behind them.
def unrolledInner (deepest : Inner) : Nat → Inner
  | 0          => deepest
  | levels + 1 => ⟨disjunction (unrolledInner deepest levels), operand (unrolledInner deepest levels)⟩

theorem inner_sameWithin (deepest : Inner) {left : List Token} (hleft : bound ≤ left.length)
    (hlevels : bound ≤ levels) :
    (inner left).SameWithin (unrolledInner deepest levels) bound := by
  induction bound generalizing left levels
  case zero => exact ⟨.zero, .zero⟩
  case succ bound ih =>
    obtain ⟨v, left, rfl⟩ := List.exists_cons_of_length_pos (Nat.zero_lt_of_lt hleft)
    obtain ⟨levels, rfl⟩ := Nat.exists_eq_add_one.mpr (Nat.zero_lt_of_lt hlevels)
    have hinner := ih (Nat.le_of_succ_le_succ hleft) (Nat.le_of_succ_le_succ hlevels)
    exact ⟨hinner.disjunction, hinner.operand⟩

-- Expressions are nested no deeper than tokens remain.
theorem expr_unrolled (deepest : Inner) {s : State} (hs : s.Framed) (hlevels : s.ahead.length ≤ levels) :
    (unrolledInner deepest levels).expr.outcome s = expr.outcome s := by
  have hleft : s.ahead.length ≤ s.stream.rest.length := Nat.le_succ _
  rw [outcome_expr]
  exact ((inner_sameWithin deepest hleft hlevels).expr s hs (Nat.le_refl _)).symm

end Exprs

section Stmts

variable {b b' : BodyRule} {bound : Nat}

-- The rules for bodies do the same wherever no more than so many tokens remain.
def BodyRule.SameWithin (b b' : BodyRule) (bound : Nat) : Prop :=
  ∀ close others, (b close others).SameWithin (b' close others) bound

theorem BodyRule.SameWithin.unended [b.Trails] (h : b.SameWithin b' bound) :
    (unended b).SameWithin (unended b') (bound + 1) := by
  refine .peekKind_bind fun s hs hle => ?_
  split
  case h_3 =>
    refine Rule.SameWithin.expect_bind (by simp) (fun start => ?_) s hs hle
    refine SameWithin.refl.bind fun test => SameWithin.refl.bind fun _ => (h _ _).nested.bind fun yes => ?_
    refine .bind ?_ fun _ => .refl
    refine SameWithin.refl.bind fun hasElse => ?_
    split
    case isTrue => exact (h _ _).nested.bind fun _ => .refl
    case isFalse => exact .refl
  case h_4 =>
    refine Rule.SameWithin.expect_bind (by simp) (fun start => ?_) s hs hle
    exact SameWithin.refl.bind fun test => (h _ _).nested.bind fun _ => .refl
  all_goals rfl

theorem BodyRule.SameWithin.stmtWith [b.Trails] (h : b.SameWithin b' bound) :
    (stmtWith b).SameWithin (stmtWith b') (bound + 1) :=
  h.unended.bind fun _ => .refl

theorem Rule.SameWithin.bodyWith {stmt stmt' : Rule Stmt} [stmt.Trails] (h : stmt.SameWithin stmt' bound) :
    (bodyWith stmt).SameWithin (bodyWith stmt') bound := by
  intro close others
  have hround (stmts : List Stmt) :
      (bodyRound stmt close others stmts).SameWithin (bodyRound stmt' close others stmts) bound := by
    refine .peekKind_bind fun s hs hle => ?_
    split
    case isTrue => rfl
    case isFalse =>
      split
      case isTrue => rfl
      case isFalse => exact (h.bind fun _ => .refl) s hs hle
  rw [bodyWith_eq, bodyWith_eq]
  exact SameWithin.refl.bind fun _ => (SameWithin.repeatFrom hround []).bind fun _ => .refl

-- The rules for bodies, unrolled to so many levels, with others in place of the level behind them.
def unrolledBody (deepest : BodyRule) : Nat → BodyRule
  | 0          => deepest
  | levels + 1 => bodyWith (stmtWith (unrolledBody deepest levels))

theorem bodyWithin_sameWithin (deepest : BodyRule) {left : List Token} (hleft : bound ≤ left.length)
    (hlevels : bound ≤ levels) : (bodyWithin left).SameWithin (unrolledBody deepest levels) bound := by
  induction bound generalizing left levels
  case zero => exact fun _ _ => .zero
  case succ bound ih =>
    obtain ⟨v, left, rfl⟩ := List.exists_cons_of_length_pos (Nat.zero_lt_of_lt hleft)
    obtain ⟨levels, rfl⟩ := Nat.exists_eq_add_one.mpr (Nat.zero_lt_of_lt hlevels)
    have hbody := ih (Nat.le_of_succ_le_succ hleft) (Nat.le_of_succ_le_succ hlevels)
    exact hbody.stmtWith.bodyWith

theorem outcome_body_within (s : State) (close : Kind) (others : List Kind) :
    (body close others).outcome s = (bodyWithin s.stream.rest close others).outcome s :=
  outcome_get_bind (fun s => bodyWithin s.stream.rest close others) s

-- Bodies are nested no deeper than tokens remain.
theorem body_unrolled (deepest : BodyRule) {s : State} (hs : s.Framed) (hlevels : s.ahead.length ≤ levels)
    (close : Kind) (others : List Kind) :
    (unrolledBody deepest levels close others).outcome s = (body close others).outcome s := by
  have hleft : s.ahead.length ≤ s.stream.rest.length := Nat.le_succ _
  rw [outcome_body_within]
  exact (bodyWithin_sameWithin deepest hleft hlevels close others s hs (Nat.le_refl _)).symm

theorem bodyWithin_sameWithin_body {left : List Token} (hleft : bound ≤ left.length) :
    (bodyWithin left).SameWithin body bound := by
  intro close others s hs hle
  have hbound := bodyWithin_sameWithin body hleft (Nat.le_refl bound) close others s hs hle
  exact hbound.trans <| body_unrolled body hs hle close others

-- So a body is read statement by statement, by the rule for statements itself.
theorem outcome_body {s : State} (hs : s.Framed) (close : Kind) (others : List Kind) :
    (body close others).outcome s = (bodyWith stmt close others).outcome s := by
  have hstmt : (stmtWith (bodyWithin s.ahead)).SameWithin stmt (s.ahead.length + 1) :=
    (bodyWithin_sameWithin_body (Nat.le_refl _)).stmtWith
  rw [outcome_body_within]
  exact hstmt.bodyWith close others s hs (Nat.le_succ _)

end Stmts
end BasicFrontEnd.Grammar
