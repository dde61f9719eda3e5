import BasicFrontEnd.Proofs.Grammar.Contexts
import BasicFrontEnd.Proofs.Grammar.Takes

/-!
Where reading fails: `rule.Fails s d` says that the rule, run in `s`, fails with the diagnostic. An operand that fails
lets every expression fail in which it is the first thing that cannot be read. Main statement: `Within.breaks`.
-/

namespace BasicFrontEnd.Grammar

open Rule State

variable {s t u : State} {d : Diagnostic} {level : BindingLevel} {n : Nat} {ts us left : List Token} {v w : Token}

namespace Rule

def Fails (rule : Rule α) (s : State) (d : Diagnostic) : Prop :=
  (rule.outcome s).1 = .error d

section Combinators

theorem fails_lift {x : Except Diagnostic α} (h : x = .error d) : (liftM x : Rule α).Fails s d := by
  subst h
  rfl

theorem Fails.bind {x : Rule α} {f : α → Rule β} (h : x.Fails s d) : (x >>= f).Fails s d := by
  unfold Fails at h ⊢
  rw [outcome_bind]
  generalize x.outcome s = r at h
  obtain ⟨_ | _, t⟩ := r
  case error =>
    cases h
    rfl
  case ok => cases h

theorem Yields.bind_fails {x : Rule α} {f : α → Rule β} (hx : x.Yields s a t) (hf : (f a).Fails t d) :
    (x >>= f).Fails s d := by
  unfold Fails
  rw [outcome_bind, hx]
  exact hf

theorem Fails.peekKind_bind {f : Kind → Rule β} (h : (f s.peek.kind).Fails s d) : (peekKind >>= f).Fails s d :=
  h

theorem Fails.consume_bind {f : Token → Rule β} (h : (f s.peek).Fails s.next d) : (consume >>= f).Fails s d :=
  (yields_consume.mpr ⟨rfl, rfl⟩).bind_fails h

theorem Fails.nested {rule : Rule α} (h : rule.Fails s.deeper d) (hroom : s.hasRoom = true) :
    (nested rule).Fails s d := by
  rw [Fails, outcome_nested, if_pos hroom]
  exact h

-- Rounds that go on lead to the one that fails.
theorem Rounds.fails_repeatWithin {round : β → Rule (Round β γ)} {left : List Token} (h : Rounds round b s b' t)
    (hround : (round b').Fails t d) (hleft : s.ahead.length < left.length) : (repeatWithin round left b).Fails s d := by
  induction h generalizing left
  case nil =>
    obtain ⟨_, left, rfl⟩ := List.exists_cons_of_length_pos (Nat.zero_lt_of_lt hleft)
    exact hround.bind
  case cons hfirst hlt _ ih =>
    obtain ⟨_, left, rfl⟩ := List.exists_cons_of_length_pos (Nat.zero_lt_of_lt hleft)
    refine hfirst.bind_fails (ih hround ?_)
    rw [List.length_cons] at hleft
    omega

theorem Rounds.fails {round : β → Rule (Round β γ)} (h : Rounds round b s b' t) (hround : (round b').Fails t d) :
    (repeatFrom round b).Fails s d := by
  rw [Fails, outcome_repeatFrom]
  exact h.fails_repeatWithin hround (Nat.lt_succ_self _)

end Combinators

section Rounds

theorem Fails.commaRound {item : Rule α} (h : item.Fails s.next d) (hcomma : s.peek.kind = .symbol .comma)
    (items : List α) : (commaRound item items).Fails s d :=
  (yields_accept.mpr <| .inl ⟨hcomma, rfl, rfl⟩).bind_fails h.bind

theorem Fails.binaryRound {operand : Rule Expr} {o : Operator} (h : operand.Fails s.next d)
    (hkind : s.peek.kind = o.kind) (ho : o ∈ operators) (first : Expr) :
    (binaryRound operators operand first).Fails s d := by
  refine .peekKind_bind ?_
  rw [Operator.filter_ofKind?_eq_some_iff.mpr ⟨List.contains_iff_mem.mpr ho, hkind⟩]
  exact .consume_bind h.bind

theorem Fails.comparison {operand : Rule Expr} {o : Operator} (h : operand.Fails t.next d)
    (hfirst : operand.Yields s first t) (hkind : t.peek.kind = o.kind) (ho : o.isComparison = true) :
    (comparison operand).Fails s d := by
  refine hfirst.bind_fails (.peekKind_bind ?_)
  rw [Operator.filter_ofKind?_eq_some_iff.mpr ⟨ho, hkind⟩]
  exact .consume_bind h.bind

variable {inner : Inner}

theorem Fails.suffixRound_index (h : (Rule.nested inner.expr).Fails s.next d)
    (hopen : s.peek.kind = .symbol .openBracket) (base : Expr) : (suffixRound inner base).Fails s d := by
  refine .peekKind_bind ?_
  rw [hopen]
  exact .consume_bind h.bind

theorem Fails.suffixRound_call (h : (Rule.nested (arguments inner.expr)).Fails s.next d)
    (hopen : s.peek.kind = .symbol .openParen) (callee : String) :
    (suffixRound inner (.identifier callee)).Fails s d := by
  refine .peekKind_bind ?_
  rw [hopen]
  exact .consume_bind h.bind

theorem Fails.arguments {item : Rule Expr} (h : (separated item).Fails s d)
    (hpeek : s.peek.kind ≠ .symbol .closeParen) : (arguments item).Fails s d :=
  (yields_accept.mpr <| .inr ⟨hpeek, rfl, rfl⟩).bind_fails h.bind

theorem Fails.operand_negate (h : (Rule.nested inner.unary).Fails s.next d) (hminus : s.peek.kind = .symbol .minus)
    (hnumber : s.next.peek.kind.isNumber = false) : (operand inner).Fails s d := by
  refine .peekKind_bind ?_
  rw [hminus]
  refine .consume_bind (.peekKind_bind ?_)
  rw [hnumber]
  exact h.bind

theorem Fails.operand_not (h : (Rule.nested inner.unary).Fails s.next d) (hbang : s.peek.kind = .symbol .bang) :
    (operand inner).Fails s d := by
  refine .peekKind_bind ?_
  rw [hbang]
  exact .consume_bind h.bind

theorem Fails.operand (h : (primary inner).Fails s d) (hminus : s.peek.kind ≠ .symbol .minus)
    (hbang : s.peek.kind ≠ .symbol .bang) : (operand inner).Fails s d := by
  refine .peekKind_bind ?_
  split
  case h_1 hk => exact absurd hk hminus
  case h_2 hk => exact absurd hk hbang
  case h_3 => exact h.bind

theorem Fails.primary_number (hkind : s.peek.kind.isNumber = true)
    (h : number s.peek false = .error d) : (primary inner).Fails s d := by
  refine .peekKind_bind ?_
  obtain hk | hk := Kind.isNumber_iff.mp hkind
  all_goals
    rw [hk]
    exact .consume_bind (fails_lift h)

theorem Fails.operand_negative (hminus : s.peek.kind = .symbol .minus)
    (hkind : s.next.peek.kind.isNumber = true) (h : number s.next.peek true = .error d) :
    (Grammar.operand inner).Fails s d := by
  refine .peekKind_bind ?_
  rw [hminus]
  refine .consume_bind (.peekKind_bind ?_)
  rw [if_pos hkind]
  exact .consume_bind (fails_lift h).bind

theorem Fails.operand_parens (h : (Rule.nested inner.expr).Fails s.next d)
    (hopen : s.peek.kind = .symbol .openParen) : (Grammar.operand inner).Fails s d := by
  have hprimary : (primary inner).Fails s d := by
    refine .peekKind_bind ?_
    rw [hopen]
    exact .consume_bind h.bind
  exact hprimary.operand (by simp [hopen]) (by simp [hopen])

theorem Fails.operand_array (h : (Rule.nested (separated inner.expr)).Fails s.next d)
    (hopen : s.peek.kind = .symbol .openCurly) : (Grammar.operand inner).Fails s d := by
  have hprimary : (primary inner).Fails s d := by
    refine .peekKind_bind ?_
    rw [hopen]
    exact .consume_bind h.bind
  exact hprimary.operand (by simp [hopen]) (by simp [hopen])

end Rounds

end Rule

theorem State.Framed.next_of_ahead (hs : s.Framed) (hahead : s.ahead = v :: us) (hv : v.kind ≠ .eof)
    (hopens : s.Opens n) :
    s.peek = v ∧ s.next.Framed ∧ s.next.Opens n ∧ s.next.ahead = us ∧ s.next.ahead.length < s.ahead.length := by
  obtain ⟨rfl, hnext⟩ := hs.peek_eq hahead
  exact ⟨rfl, hs.next hv, (Reads.single hv).opens hopens, hnext, hs.length_next_lt⟩

-- Behind the tokens and one more.
theorem State.Framed.exists_next (hs : s.Framed) (hahead : s.ahead = ts ++ v :: us) (hv : v.kind ≠ .eof)
    (hopens : s.Opens n) :
    ∃ u, s.Reads ts u ∧ u.peek = v ∧ u.next.Framed ∧ u.next.Opens n ∧ u.next.ahead = us ∧
      u.next.ahead.length < s.ahead.length := by
  obtain ⟨u, hread, hu⟩ := hs.exists_reads hahead
  obtain ⟨hpeek, hnext, hopens, hus, hlt⟩ := (hread.framed hs).next_of_ahead hu hv (hread.opens hopens)
  exact ⟨u, hread, hpeek, hnext, hopens, hus, Nat.lt_of_lt_of_le hlt (hread.length_le hs)⟩

-- Wherever the tokens are ahead, an expression of the level fails with the diagnostic.
def Breaks (level : BindingLevel) (n : Nat) (ts : List Token) (d : Diagnostic) : Prop :=
  ∀ left s, s.Framed → s.Opens n → s.ahead.length ≤ left.length → s.ahead = ts →
    (level.rule (inner left)).Fails s d

namespace Breaks

theorem expr (h : Breaks .disjunction n ts d) (hs : s.Framed) (hopens : s.Opens n)
    (hlt : s.ahead.length < left.length) (hahead : s.ahead = ts) : (inner left).expr.Fails s d := by
  obtain ⟨_, left, rfl⟩ := List.exists_cons_of_length_pos (Nat.zero_lt_of_lt hlt)
  exact h left s hs hopens (Nat.le_of_lt_succ hlt) hahead

theorem expr_fails (h : Breaks .disjunction n ts d) (hs : s.Framed) (hopens : s.Opens n)
    (hahead : s.ahead = ts) : Grammar.expr.Fails s d := by
  unfold Grammar.expr Fails
  rw [outcome_get_bind]
  exact h.expr hs hopens (Nat.lt_succ_self _) hahead

theorem nested_expr (h : Breaks .disjunction n ts d) (hs : s.Framed) (hopens : s.Opens (n + 1))
    (hlt : s.ahead.length < left.length) (hahead : s.ahead = ts) : (nested (inner left).expr).Fails s d :=
  (h.expr hs.deeper hopens.deeper hlt hahead).nested hopens.hasRoom

theorem nested_unary (h : Breaks .operand n ts d) (hs : s.Framed) (hopens : s.Opens (n + 1))
    (hlt : s.ahead.length < left.length) (hahead : s.ahead = ts) : (nested (inner left).unary).Fails s d := by
  obtain ⟨_, left, rfl⟩ := List.exists_cons_of_length_pos (Nat.zero_lt_of_lt hlt)
  exact Fails.nested (h left s.deeper hs.deeper hopens.deeper (Nat.le_of_lt_succ hlt) hahead) hopens.hasRoom

theorem tighter (h : Breaks level.tighter n ts d) (hrank : level.rank < BindingLevel.suffixed.rank) :
    Breaks level n ts d := by
  intro left s hs hopens hle hahead
  have hfirst := h left s hs hopens hle hahead
  cases level
  case operand => exact hfirst
  case suffixed | primary => exact absurd hrank (by decide)
  all_goals exact hfirst.bind

theorem right {o : Operator} (h : Breaks o.level.tighter n us d) (hkind : v.kind = o.kind)
    (ho : o.isComparison = false) (hfirst : Derives o.level n ts first) : Breaks o.level n (ts ++ v :: us) d := by
  intro left s hs hopens hle hahead
  obtain ⟨u, hread, rfl, hu, huopens, hus, hlt⟩ := hs.exists_next hahead (hkind ▸ o.kind_ne_eof) hopens
  have hjoins := BindingLevel.joins_of_not_isComparison ho
  have hallows : o.level.Allows u.peek.kind :=
    (BindingLevel.allows_of_joins hjoins).mpr <| hkind ▸ BindingLevel.stops_kind o.rank_level_lt
  obtain ⟨first, w, hfirst, hrounds⟩ :=
    (hfirst.completes left s u hs hopens hle hread hallows).exists_rounds hjoins
  have hsecond := h left u.next hu huopens (by omega) hus
  rw [BindingLevel.rule_of_joins hjoins, binaryLevel_eq]
  exact hfirst.bind_fails <| hrounds.fails <| hsecond.binaryRound hkind (BindingLevel.mem_operators.mpr rfl) _

theorem rightCompared {o : Operator} (h : Breaks .sum n us d) (hkind : v.kind = o.kind) (ho : o.isComparison = true)
    (hfirst : Derives .sum n ts first) : Breaks .comparison n (ts ++ v :: us) d := by
  intro left s hs hopens hle hahead
  obtain ⟨u, hread, rfl, hu, huopens, hus, hlt⟩ := hs.exists_next hahead (hkind ▸ o.kind_ne_eof) hopens
  have hrank : o.level.rank < BindingLevel.sum.rank := by
    rw [Operator.isComparison_iff_level.mp ho]
    decide
  have hstops : BindingLevel.sum.Stops u.peek.kind := hkind ▸ BindingLevel.stops_kind hrank
  have hfirst := hfirst.completes left s u hs hopens hle hread hstops.allows |>.yields hstops
  exact (h left u.next hu huopens (by omega) hus).comparison hfirst hkind ho

theorem negate (h : Breaks .operand n us d) (hminus : v.kind = .symbol .minus)
    (hnumber : ∀ t ∈ us.head?, t.kind.isNumber = false) : Breaks .operand (n + 1) (v :: us) d := by
  intro left s hs hopens hle hahead
  obtain ⟨rfl, hnext, hopens, hus, hlt⟩ := hs.next_of_ahead hahead (by simp [hminus]) hopens
  have hpeek : s.next.peek ∈ us.head? := by
    rw [← hus, hnext.ahead_eq_cons]
    rfl
  exact (h.nested_unary hnext hopens (by omega) hus).operand_negate hminus (hnumber _ hpeek)

theorem not (h : Breaks .operand n us d) (hbang : v.kind = .symbol .bang) : Breaks .operand (n + 1) (v :: us) d := by
  intro left s hs hopens hle hahead
  obtain ⟨rfl, hnext, hopens, hus, hlt⟩ := hs.next_of_ahead hahead (by simp [hbang]) hopens
  exact (h.nested_unary hnext hopens (by omega) hus).operand_not hbang

theorem parens (h : Breaks .disjunction n us d) (hopen : v.kind = .symbol .openParen) :
    Breaks .suffixed (n + 1) (v :: us) d := by
  intro left s hs hopens hle hahead
  obtain ⟨rfl, hnext, hopens, hus, hlt⟩ := hs.next_of_ahead hahead (by simp [hopen]) hopens
  exact (h.nested_expr hnext hopens (by omega) hus).operand_parens hopen

-- Suffixes lead to one that fails.
theorem suffixes (hbase : Derives .suffixed (n + 1) ts base) (hv : v.kind ≠ .eof)
    (hround : ∀ left s, s.next.Framed → s.next.Opens (n + 1) → s.next.ahead = us → s.next.ahead.length < left.length →
      s.peek = v → (suffixRound (inner left) base).Fails s d) :
    Breaks .suffixed (n + 1) (ts ++ v :: us) d := by
  intro left s hs hopens hle hahead
  obtain ⟨u, hread, hpeek, hu, huopens, hus, hlt⟩ := hs.exists_next hahead hv hopens
  obtain ⟨first, w, houtcome, hrounds⟩ := (hbase.completes left s u hs hopens hle hread trivial).of_suffixed
  have hfails : (operand (inner left)).Fails s d := by
    rw [Fails, houtcome]
    exact hrounds.fails (hround left u hu huopens hus (by omega) hpeek)
  exact hfails

theorem index (h : Breaks .disjunction n us d) (hopen : v.kind = .symbol .openBracket)
    (hbase : Derives .suffixed (n + 1) ts base) : Breaks .suffixed (n + 1) (ts ++ v :: us) d := by
  refine .suffixes hbase (by simp [hopen]) fun left s hs hopens hahead hlt hpeek => ?_
  exact (h.nested_expr hs hopens hlt hahead).suffixRound_index (hpeek ▸ hopen) base

-- Items in front of the one that fails are read before it.
theorem separated (h : Breaks .disjunction n us d) (hfront : Leading n front es) (hs : s.Framed) (hopens : s.Opens n)
    (hlt : s.ahead.length < left.length) (hahead : s.ahead = front ++ us) :
    (separated (inner left).expr).Fails s d := by
  obtain _ | ⟨⟨parts, rfl, hparts, hsep⟩, hne, hcomma⟩ := hfront
  case none => exact (h.expr hs hopens hlt hahead).bind
  case some =>
    rw [← List.append_cons] at hahead
    obtain ⟨u, hread, rfl, hu, huopens, hus, hlt'⟩ := hs.exists_next hahead (by simp [hcomma]) hopens
    obtain ⟨part, parts, rfl⟩ := List.exists_cons_of_ne_nil fun hnil => hne (congrArg (List.map Prod.snd) hnil)
    obtain ⟨w, -, hfirst, hrounds⟩ := rounds_of_separated (fun part hpart => (hparts part hpart).completes.expr left)
      hsep (stops_symbol (by simp)) hs hopens hlt hread (hcomma ▸ stops_symbol (by simp)) []
    rw [separated_eq]
    exact hfirst.bind_fails <| hrounds.fails <| (h.expr hu huopens (by omega) hus).commaRound hcomma _

theorem argument (h : Breaks .disjunction n us d) (hfront : Leading n front es) (hopen : v.kind = .symbol .openParen)
    (hcallee : Derives .suffixed (n + 1) ts (.identifier callee)) (hhead : front ++ us = w :: more)
    (hw : w.kind ≠ .symbol .closeParen) : Breaks .suffixed (n + 1) (ts ++ v :: (front ++ us)) d := by
  refine .suffixes hcallee (by simp [hopen]) fun left s hs hopens hahead hlt hv => ?_
  have hitems := h.separated hfront hs.deeper hopens.deeper hlt hahead
  obtain ⟨rfl, -⟩ := hs.peek_eq (hahead.trans hhead)
  exact ((hitems.arguments hw).nested hopens.hasRoom).suffixRound_call (hv ▸ hopen) callee

theorem element (h : Breaks .disjunction n us d) (hfront : Leading n front es) (hopen : v.kind = .symbol .openCurly) :
    Breaks .suffixed (n + 1) (v :: (front ++ us)) d := by
  intro left s hs hopens hle hahead
  obtain ⟨rfl, hnext, hopens, hus, hlt⟩ := hs.next_of_ahead hahead (by simp [hopen]) hopens
  have hlt' : s.next.deeper.ahead.length < left.length := Nat.lt_of_lt_of_le hlt hle
  have hitems := h.separated hfront hnext.deeper hopens.deeper hlt' hus
  exact (hitems.nested hopens.hasRoom).operand_array hopen

end Breaks

variable {hole vs : List Token} {c : Expr.Context}

-- An operand that fails lets the expression around it fail, whatever would come behind it.
theorem Within.breaks (h : Within hole level n us vs c)
    (hbegins : ∃ t more, hole = t :: more ∧ t.kind.beginsExpr = true)
    (hhole : ∀ n, Breaks .suffixed n (hole ++ rest) d) : Breaks level n (us ++ (hole ++ rest)) d := by
  induction h
  case hole => exact hhole _
  case tighter hrank _ ih => exact ih.tighter hrank
  case left ih | base ih => exact ih
  case leftCompared ih =>
    have hsum : Breaks BindingLevel.comparison.tighter _ _ _ := ih
    exact hsum.tighter (by decide)
  case right hkind ho hfirst _ ih => simpa using ih.right hkind ho hfirst
  case rightCompared hkind ho hfirst _ ih => simpa using ih.rightCompared hkind ho hfirst
  case negate us _ _ _ _ hminus hnumber _ ih =>
    refine ih.negate hminus ?_
    obtain ⟨t, more, rfl, -⟩ := hbegins
    rwa [← List.append_assoc, List.head?_append_of_ne_nil _ (by simp)]
  case not hbang _ ih => exact ih.not hbang
  case index hbase hopen _ _ ih => simpa using ih.index hopen hbase
  case argument front _ us _ _ _ _ _ _ hcallee hopen hfront h _ _ ih =>
    obtain ⟨t, more, hhead, ht⟩ := hfront.exists_head (h.exists_head hbegins)
    have hclose : t.kind ≠ .symbol .closeParen := by
      intro hkind
      rw [hkind] at ht
      contradiction
    have hhead' : front ++ (us ++ (hole ++ rest)) = t :: (more ++ rest) := by
      rw [← List.append_assoc us, ← List.append_assoc, hhead, List.cons_append]
    simpa using ih.argument hfront hopen hcallee hhead' hclose
  case parens hopen _ _ ih => exact ih.parens hopen
  case element hopen hfront _ _ _ ih => simpa using ih.element hfront hopen

end BasicFrontEnd.Grammar
