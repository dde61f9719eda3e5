import BasicFrontEnd.Proofs.Dump.Legible
import BasicFrontEnd.Proofs.Grammar.Scripts
import BasicFrontEnd.Proofs.Token.Scan

/-!
The faults that reading a program may answer: a token of the stream stands where one of a few phrases was expected, each
of them on one line, or a number is out of range. Main statement: `told_of_read`.
-/

namespace BasicFrontEnd

-- No line ends in the text.
def OneLine (text : String) : Prop :=
  '\n' ∉ text.toList ∧ '\r' ∉ text.toList

instance (text : String) : Decidable (OneLine text) :=
  inferInstanceAs (Decidable (_ ∧ _))

@[simp]
theorem oneLine_append {text text' : String} : OneLine (text ++ text') ↔ OneLine text ∧ OneLine text' := by
  simp only [OneLine, String.toList_append, List.mem_append]
  tauto

theorem oneLine_toString (n : Nat) : OneLine (toString n) :=
  ⟨not_mem_natRepr (by decide) n, not_mem_natRepr (by decide) n⟩

theorem Kind.oneLine_describe (k : Kind) : OneLine k.describe := by
  cases k
  case symbol s => cases s <;> decide
  case keyword k => cases k <;> decide
  all_goals decide

namespace Grammar

open Rule State

-- A fault at one of the tokens.
inductive Told (ts : List Token) : Diagnostic → Prop
  | token {v : Token} : v ∈ ts → OneLine expected → Told ts (v.fault (.badToken expected v.value))
  | number {v : Token} : v ∈ ts → Told ts (v.fault (.badNumber text))

-- The rule keeps the tokens of the stream. It tells its faults of those behind the first one, if there are any.
class Rule.Tells (rule : Rule α) : Prop where
  tokens : ∀ {s a t}, rule.Yields s a t → t.stream.toList = s.stream.toList
  fault  : ∀ {s d t}, rule.outcome s = (.error d, t) → s.stream.toList.tail ≠ [] → Told s.stream.toList.tail d

theorem State.peek_mem {s : State} (h : s.stream.toList.tail ≠ []) : s.peek ∈ s.stream.toList.tail := by
  obtain ⟨⟨behind, current, ahead⟩, _⟩ := s
  obtain rfl | ⟨behind, first, rfl⟩ := behind.eq_nil_or_concat'
  case inl =>
    obtain ⟨t, ts, rfl⟩ := List.exists_cons_of_ne_nil (l := ahead) h
    exact List.mem_cons_self
  case inr => cases ahead <;> simp [State.peek, Stream.peek, Stream.toList]

section Combinators

namespace Rule.Tells

instance {a : α} : (pure a : Rule α).Tells where
  tokens h := (yields_pure.mp h).2 ▸ rfl
  fault h := nomatch h

instance : (get : Rule State).Tells where
  tokens h := (yields_get.mp h).2 ▸ rfl
  fault h := nomatch h

instance : peek.Tells where
  tokens h := (yields_peek.mp h).2 ▸ rfl
  fault h := nomatch h

instance : peekKind.Tells where
  tokens h := (yields_peekKind.mp h).2 ▸ rfl
  fault h := nomatch h

instance : consume.Tells where
  tokens h := (yields_consume.mp h).2 ▸ Stream.toList_consume _
  fault h := nomatch h

instance : backup.Tells where
  tokens h := yields_backup.mp h ▸ Stream.toList_backup _
  fault h := nomatch h

theorem unexpected {expected : String} (h : OneLine expected) : (unexpected expected : Rule α).Tells where
  tokens h := nomatch h
  fault := by
    rintro s d t ⟨⟩ hmore
    exact .token (peek_mem hmore) h

theorem bind {x : Rule α} {f : α → Rule β} (hx : x.Tells) (hf : ∀ a, (f a).Tells) : (x >>= f).Tells where
  tokens h := by
    obtain ⟨a, u, hu, h⟩ := yields_bind.mp h
    exact ((hf a).tokens h).trans (hx.tokens hu)
  fault {s d t} h hmore := by
    rw [outcome_bind] at h
    cases houtcome : x.outcome s with | mk result u =>
    rw [houtcome] at h
    cases result
    case error =>
      cases h
      exact hx.fault houtcome hmore
    case ok a =>
      have htokens := hx.tokens houtcome
      exact htokens ▸ (hf a).fault h (htokens ▸ hmore)

instance {x : Rule α} {f : α → Rule β} [hx : x.Tells] [hf : ∀ a, (f a).Tells] : (x >>= f).Tells :=
  bind hx hf

-- A number that is out of range is the token that has just been consumed.
instance number {negative : Bool} : (consume >>= fun v => liftM (number v negative) : Rule Expr).Tells where
  tokens h := by
    obtain ⟨v, u, hconsume, h⟩ := yields_bind.mp h
    rw [(yields_lift.mp h).2, (yields_consume.mp hconsume).2]
    exact Stream.toList_consume _
  fault {s d t} h hmore := by
    rw [outcome_bind, outcome_consume] at h
    obtain ⟨h, -⟩ : Grammar.number s.peek negative = .error d ∧ s.next = t := Prod.mk.inj h
    simp only [Grammar.number] at h
    split at h <;> cases h
    exact .number (peek_mem hmore)

instance {f : Expr → Rule α} [∀ e, (f e).Tells] {negative : Bool} :
    (consume >>= fun v => liftM (Grammar.number v negative) >>= f).Tells := by
  rw [← bind_assoc]
  infer_instance

instance {c : Prop} [Decidable c] {x y : Rule α} [hx : x.Tells] [hy : y.Tells] : (if c then x else y).Tells := by
  split
  case isTrue => exact hx
  case isFalse => exact hy

instance {kind : Kind} : (accept kind).Tells := by
  unfold accept
  infer_instance

instance {kind : Kind} : (expect kind).Tells := by
  have : (Rule.unexpected kind.describe : Rule Token).Tells := unexpected kind.oneLine_describe
  unfold expect
  infer_instance

theorem nested {rule : Rule α} (h : rule.Tells) : rule.nested.Tells where
  tokens hyields := by
    obtain ⟨-, u, hu, rfl⟩ := yields_nested.mp hyields
    have htokens := h.tokens hu
    exact htokens
  fault {s d t} herror hmore := by
    rw [outcome_nested] at herror
    split at herror
    case isTrue =>
      have htold := h.fault (Prod.ext (Prod.mk.inj herror).1 rfl) hmore
      exact htold
    case isFalse =>
      cases herror
      have hlimit := oneLine_toString (s.limit.getD 0)
      exact .token (peek_mem hmore) <| oneLine_append.mpr ⟨oneLine_append.mpr ⟨by decide, hlimit⟩, by decide⟩

theorem withResultType {rule : Rule α} (h : rule.Tells) (type : TypeSpec) : (withResultType type rule).Tells where
  tokens hyields := by
    obtain ⟨u, hu, rfl⟩ := yields_withResultType.mp hyields
    have htokens := h.tokens hu
    exact htokens
  fault {s d t} herror hmore := by
    rw [outcome_withResultType] at herror
    have htold := h.fault (Prod.ext (Prod.mk.inj herror).1 rfl) hmore
    exact htold

theorem composes : Composes Tells where
  pure _ := inferInstance
  bind := bind
  stops kind := unexpected kind.oneLine_describe

instance {round : β → Rule (Round β γ)} [hround : ∀ b, (round b).Tells] {b : β} : (repeatFrom round b).Tells :=
  composes.repeatFrom inferInstance hround b

instance {item : Rule α} [item.Tells] : (separated item).Tells := by
  unfold separated
  infer_instance

end Rule.Tells

end Combinators

section Exprs

variable {inner : Inner} {expr : Rule Expr}

instance : dimensions.Tells := by
  unfold dimensions
  infer_instance

instance : typeSpec.Tells := by
  have : (unexpected "type" : Rule TypeSpec).Tells := .unexpected (by decide)
  unfold typeSpec
  infer_instance

instance {operators : List Operator} {operand : Rule Expr} [operand.Tells] : (binaryLevel operators operand).Tells := by
  have hround (left : Expr) : (binaryRound operators operand left).Tells :=
    .bind inferInstance fun kind => by split <;> infer_instance
  rw [binaryLevel_eq]
  infer_instance

instance {operand : Rule Expr} [hoperand : operand.Tells] : (comparison operand).Tells := by
  have : (unexpected "end of comparison" : Rule Expr).Tells := .unexpected (by decide)
  exact .bind hoperand fun left => .bind inferInstance fun kind => by split <;> infer_instance

instance [expr.Tells] : (arguments expr).Tells := by
  unfold arguments
  infer_instance

instance [hexpr : inner.expr.Tells] (base : Expr) : (suffixes inner base).Tells := by
  have hdot : (unexpected "identifier before '.'" : Rule (Round Expr Expr)).Tells := .unexpected (by decide)
  have hparen : (unexpected "identifier before '('" : Rule (Round Expr Expr)).Tells := .unexpected (by decide)
  have hindex := hexpr.nested
  have harguments : (Rule.nested (arguments inner.expr)).Tells := .nested inferInstance
  have hround (e : Expr) : (suffixRound inner e).Tells :=
    .bind inferInstance fun kind => by
      split
      case h_1 | h_3 => split <;> infer_instance
      all_goals infer_instance
  rw [suffixes_eq]
  infer_instance

instance [hexpr : inner.expr.Tells] : (primary inner).Tells := by
  have : (unexpected "expression" : Rule Expr).Tells := .unexpected (by decide)
  have hparens := hexpr.nested
  have helements : (Rule.nested (separated inner.expr)).Tells := .nested inferInstance
  exact .bind inferInstance fun kind => by split <;> infer_instance

instance [inner.expr.Tells] [hunary : inner.unary.Tells] : (operand inner).Tells := by
  have hoperand := hunary.nested
  exact .bind inferInstance fun kind => by split <;> infer_instance

instance [inner.expr.Tells] [inner.unary.Tells] : (disjunction inner).Tells := by
  unfold disjunction
  infer_instance

-- The rules for any number of levels of nesting.
theorem inner_tells (left : List Token) : (Grammar.inner left).expr.Tells ∧ (Grammar.inner left).unary.Tells := by
  induction left
  case nil => exact ⟨.unexpected (by decide), .unexpected (by decide)⟩
  case cons left ih =>
    obtain ⟨hexpr, hunary⟩ := ih
    let inner := Grammar.inner left
    exact ⟨inferInstanceAs (disjunction inner).Tells, inferInstanceAs (operand inner).Tells⟩

instance : Grammar.expr.Tells :=
  .bind inferInstance fun s => (inner_tells s.stream.rest).1

end Exprs

section Stmts

-- The rule for bodies tells its faults of the tokens.
class BodyRule.Tells (body : BodyRule) : Prop where
  tells : ∀ close others, (body close others).Tells

variable {body : BodyRule}

instance {name : Token} : (declaration name).Tells := by
  unfold declaration
  infer_instance

instance : gotoStmt.Tells := by
  unfold gotoStmt
  infer_instance

instance [hbody : body.Tells] : (ifStmt body).Tells := by
  have hblock (close : Kind) (others : List Kind) : (Rule.nested (body close others)).Tells :=
    .nested (hbody.tells close others)
  unfold ifStmt
  infer_instance

instance [hbody : body.Tells] : (whileStmt body).Tells := by
  have hblock (close : Kind) (others : List Kind) : (Rule.nested (body close others)).Tells :=
    .nested (hbody.tells close others)
  unfold whileStmt
  infer_instance

instance : returnStmt.Tells := by
  unfold returnStmt
  infer_instance

instance : expressionStmt.Tells := by
  have : (unexpected (Kind.symbol .assign).describe : Rule Stmt).Tells := .unexpected (Kind.oneLine_describe _)
  unfold expressionStmt
  infer_instance

instance {rule : Rule α} [rule.Tells] : (ended rule).Tells := by
  unfold ended
  infer_instance

instance [body.Tells] : (unended body).Tells :=
  .bind inferInstance fun kind => by split <;> infer_instance

theorem stmtWith_tells (h : ∀ close others, (body close others).Tells) : (stmtWith body).Tells :=
  have : body.Tells := ⟨h⟩
  inferInstanceAs (ended (unended body)).Tells

instance : BodyRule.Tells Grammar.body :=
  ⟨Tells.composes.body inferInstance stmtWith_tells⟩

end Stmts

section Programs

instance : formal.Tells := by
  unfold formal
  infer_instance

instance : formals.Tells := by
  unfold formals
  infer_instance

instance : functionDecl.Tells := by
  have hbody (type : TypeSpec) : (withResultType type (body (.keyword .endWord) [])).Tells :=
    .withResultType (BodyRule.Tells.tells _ _) type
  unfold functionDecl
  infer_instance

instance : member.Tells := by
  unfold member
  infer_instance

instance : recordDecl.Tells := by
  unfold recordDecl
  infer_instance

instance : unendedTop.Tells := by
  have hcolon : (unexpected (Kind.symbol .colon).describe : Rule Stmt).Tells := .unexpected (Kind.oneLine_describe _)
  have hother : (unexpected "declaration" : Rule Stmt).Tells := .unexpected (by decide)
  exact .bind inferInstance fun kind => by split <;> infer_instance

instance : program.Tells := by
  have htop : topLevelStmt.Tells := inferInstanceAs (ended unendedTop).Tells
  unfold program
  infer_instance

end Programs

end Grammar

-- Whatever fault reading a source answers is told of one of its tokens.
theorem Stream.told_of_read {s : Source} {stream : Stream} {d : Diagnostic} (htokens : s.tokens = .ok stream)
    (h : stream.read.1 = .error d) : Grammar.Told stream.ahead d := by
  obtain ⟨row, -, -, -, rfl⟩ := Lexical.exists_row_of_tokens htokens
  exact Grammar.Rule.Tells.fault (s := .ofStream _) (Prod.ext h rfl : Grammar.program.outcome _ = (.error d, _))
    (List.append_ne_nil_of_right_ne_nil _ (List.cons_ne_nil _ _))

end BasicFrontEnd
