import BasicFrontEnd.Proofs.Grammar.Rules

/-!
What the rules of expressions answer is written by the tokens that they consume.
-/

namespace BasicFrontEnd.Grammar

open Rule State

variable {s t : State} {e : Expr} {n : Nat}

theorem Rule.Yields.nested {rule : Rule α} {a : α} (h : (nested rule).Yields s a t) (hs : s.Leaves n) :
    ∃ m u, n = m + 1 ∧ s.deeper.Leaves m ∧ rule.Yields s.deeper a u ∧ t = u.shallower := by
  obtain ⟨hroom, u, hrule, rfl⟩ := yields_nested.mp h
  obtain ⟨m, hm, hdeeper⟩ := hs.deeper hroom
  exact ⟨m, u, hm, hdeeper, hrule, rfl⟩

-- The rule reads exactly what writes its answer at the level.
def Reader (level : BindingLevel) (rule : Rule Expr) : Prop :=
  ∀ n s e t, s.Leaves n → rule.Yields s e t →
    ∃ ts, s.Reads ts t ∧ Derives level n ts e ∧ level.Stops t.peek.kind

-- The tokens write expressions with commas between them.
def Lists (n : Nat) (ts : List Token) (es : List Expr) : Prop :=
  ∃ parts : List (List Token × Expr), es = parts.map Prod.snd ∧
    (∀ part ∈ parts, Derives .disjunction n part.1 part.2) ∧ Separated (parts.map Prod.fst) ts

theorem Separated.append (h : Separated pieces ts) (hne : pieces ≠ []) (hcomma : comma.kind = .symbol .comma)
    (h' : Separated pieces' us) (hne' : pieces' ≠ []) : Separated (pieces ++ pieces') (ts ++ comma :: us) := by
  induction h
  case none => contradiction
  case one =>
    obtain ⟨piece, pieces', rfl⟩ := List.exists_cons_of_ne_nil hne'
    exact .more hcomma h'
  case more hfirst _ ih => simpa using Separated.more hfirst <| ih <| List.cons_ne_nil _ _

theorem Lists.one (h : Derives .disjunction n ts e) : Lists n ts [e] :=
  ⟨[(ts, e)], rfl, by simpa using h, .one⟩

theorem Lists.append (h : Lists n ts es) (hne : es ≠ []) (hcomma : comma.kind = .symbol .comma)
    (h' : Lists n us fs) (hne' : fs ≠ []) : Lists n (ts ++ comma :: us) (es ++ fs) := by
  obtain ⟨parts, rfl, hparts, hsep⟩ := h
  obtain ⟨parts', rfl, hparts', hsep'⟩ := h'
  refine ⟨parts ++ parts', by simp, List.forall_mem_append.mpr ⟨hparts, hparts'⟩, ?_⟩
  simpa using hsep.append (by simpa using hne) hcomma hsep' (by simpa using hne')

theorem Lists.snoc (h : Lists n ts es) (hne : es ≠ []) (hcomma : comma.kind = .symbol .comma)
    (he : Derives .disjunction n us e) : Lists n (ts ++ comma :: us) (es ++ [e]) :=
  h.append hne hcomma (.one he) (List.cons_ne_nil _ _)

-- As `Lists`, of one expression or more, the last of them first.
def ListsBack (n : Nat) (ts : List Token) (es : List Expr) : Prop :=
  Lists n ts es.reverse ∧ es ≠ []

-- What a loop has gathered is written by the tokens read since `s`.
def Gathered (s : State) (Writes : List Token → α → Prop) (a : α) (u : State) : Prop :=
  ∃ ts, s.Reads ts u ∧ Writes ts a

-- One more expression behind a comma is gathered with those before.
theorem Reader.commaRound_again {item : Rule Expr} {es es' : List Expr} (hitem : Reader .disjunction item)
    (hs : s.Leaves n) (hes : Gathered s (ListsBack n) es u) (hround : (commaRound item es).Yields u (.again es') v) :
    Gathered s (ListsBack n) es' v := by
  obtain ⟨ts, hts, hlist, hne⟩ := hes
  obtain ⟨hcomma, e, he, rfl⟩ := Grammar.commaRound_again.mp hround
  have hu : u.peek.kind ≠ .eof := by simp [hcomma]
  obtain ⟨us, hus, hderives, _⟩ := hitem _ _ _ _ ((hts.snoc hu).leaves hs) he
  refine ⟨_, hts.append <| hus.cons hu, ?_, List.cons_ne_nil _ _⟩
  simpa using hlist.snoc (by simpa) hcomma hderives

theorem Reader.first {item : Rule Expr} (hitem : Reader .disjunction item) (hs : s.Leaves n)
    (he : item.Yields s e u) : Gathered s (ListsBack n) [e] u := by
  obtain ⟨ts, hts, hderives, _⟩ := hitem _ _ _ _ hs he
  exact ⟨ts, hts, ⟨[(ts, e)], rfl, by simpa, .one⟩, List.cons_ne_nil _ _⟩

-- The rule reads one expression or more, with commas between them.
theorem Reader.separated {item : Rule Expr} {es : List Expr} (hitem : Reader .disjunction item) (hs : s.Leaves n)
    (h : (separated item).Yields s es t) : ∃ ts, s.Reads ts t ∧ Lists n ts es ∧ es ≠ [] := by
  simp only [separated_eq, yields_bind] at h
  obtain ⟨first, u, hfirst, hrest⟩ := h
  obtain ⟨items, u, ⟨ts, hts, hlist, hne⟩, hdone⟩ :=
    hrest.repeatFrom (hitem.commaRound_again hs) (hitem.first hs hfirst)
  obtain ⟨_, rfl, rfl⟩ := commaRound_done.mp hdone
  exact ⟨ts, hts, hlist, by simpa⟩

theorem Reader.arguments {item : Rule Expr} {es : List Expr} (hitem : Reader .disjunction item) (hs : s.Leaves n)
    (h : (arguments item).Yields s es t) :
    ∃ ts closing, s.Reads (ts ++ [closing]) t ∧ Lists n ts es ∧ closing.kind = .symbol .closeParen := by
  obtain ⟨hclose, rfl, rfl⟩ | ⟨_, u, hes, hclose, rfl⟩ := arguments_yields.mp h
  case inl => exact ⟨[], s.peek, .single (by simp [hclose]), ⟨[], rfl, by simp, .none⟩, hclose⟩
  case inr =>
    obtain ⟨ts, hts, hlist, _⟩ := hitem.separated hs hes
    exact ⟨ts, u.peek, hts.snoc (by simp [hclose]), hlist, hclose⟩

-- One more suffix makes a suffixed expression of a suffixed expression.
theorem Reader.suffixRound_again {inner : Inner} {e' : Expr} (hinner : Reader .disjunction inner.expr)
    (hs : s.Leaves n) (he : Gathered s (Derives .suffixed n) e u)
    (hround : (suffixRound inner e).Yields u (.again e') v) : Gathered s (Derives .suffixed n) e' v := by
  obtain ⟨ts, hts, hderives⟩ := he
  obtain ⟨hdot, name, rfl, hfield, rfl, rfl⟩ | ⟨hopen, i, w, hi, hclose, rfl, rfl⟩ |
    ⟨hopen, name, es, rfl, hes, rfl⟩ := Grammar.suffixRound_again.mp hround
  case inl =>
    refine ⟨ts ++ [u.peek, u.next.peek], ?_, .member hderives hdot hfield⟩
    exact hts.append <| .cons (by simp [hdot]) <| .single (by simp [hfield])
  case inr.inl =>
    have hu : u.peek.kind ≠ .eof := by simp [hopen]
    obtain ⟨m, w, rfl, hdeeper, hwithin, rfl⟩ := hi.nested <| (hts.snoc hu).leaves hs
    obtain ⟨us, hus, hindex, _⟩ := hinner _ _ _ _ hdeeper hwithin
    refine ⟨_, ?_, .index hderives hopen hindex hclose⟩
    exact hts.append <| .cons hu <| hus.shallower.snoc (by simp [hclose])
  case inr.inr =>
    have hu : u.peek.kind ≠ .eof := by simp [hopen]
    obtain ⟨m, w, rfl, hdeeper, hwithin, rfl⟩ := hes.nested <| (hts.snoc hu).leaves hs
    obtain ⟨us, closing, hus, ⟨parts, rfl, hparts, hsep⟩, hclose⟩ := hinner.arguments hdeeper hwithin
    exact ⟨_, hts.append <| .cons hu hus.shallower, .call parts hderives hopen hparts hsep hclose⟩

theorem Reader.suffixes {inner : Inner} {base : Expr} (hinner : Reader .disjunction inner.expr) (hs : s.Leaves n)
    (hbase : s.Reads ts u) (hderives : Derives .suffixed n ts base) (h : (suffixes inner base).Yields u e t) :
    ∃ ts, s.Reads ts t ∧ Derives .operand n ts e ∧ BindingLevel.operand.Stops t.peek.kind := by
  rw [suffixes_eq] at h
  obtain ⟨e, u, ⟨ts, hts, hderives⟩, hdone⟩ := h.repeatFrom (hinner.suffixRound_again hs) ⟨ts, hbase, hderives⟩
  obtain ⟨hsuffix, rfl, rfl⟩ := suffixRound_done.mp hdone
  exact ⟨ts, hts, .tighter hderives, hsuffix, fun o _ => by cases o <;> decide⟩

theorem Reader.primary {inner : Inner} (hinner : Reader .disjunction inner.expr) (hs : s.Leaves n)
    (h : (primary inner).Yields s e t) : ∃ ts, s.Reads ts t ∧ Derives .primary n ts e := by
  obtain ⟨hatom, rfl⟩ | ⟨hopen, u, he, hclose, rfl⟩ | ⟨hopen, es, u, hes, hclose, rfl, rfl⟩ := primary_yields.mp h
  case inl => exact ⟨[s.peek], .single hatom.kind_ne_eof, .atom hatom⟩
  case inr.inl =>
    have hs' : s.peek.kind ≠ .eof := by simp [hopen]
    obtain ⟨m, u, rfl, hdeeper, hwithin, rfl⟩ := he.nested <| (Reads.single hs').leaves hs
    obtain ⟨us, hus, hderives, _⟩ := hinner _ _ _ _ hdeeper hwithin
    exact ⟨_, .cons hs' <| hus.shallower.snoc (by simp [hclose]), .parens hopen hderives hclose⟩
  case inr.inr =>
    have hs' : s.peek.kind ≠ .eof := by simp [hopen]
    obtain ⟨m, u, rfl, hdeeper, hwithin, rfl⟩ := hes.nested <| (Reads.single hs').leaves hs
    obtain ⟨us, hus, ⟨parts, rfl, hparts, hsep⟩, hne⟩ := hinner.separated hdeeper hwithin
    exact ⟨_, .cons hs' <| hus.shallower.snoc (by simp [hclose]),
      .array parts hopen (by simpa using hne) hparts hsep hclose⟩

theorem Reader.operand {inner : Inner} (hexpr : Reader .disjunction inner.expr)
    (hunary : Reader .operand inner.unary) : Reader .operand (operand inner) := by
  intro n s e t hs h
  obtain ⟨hminus, hnumber, literal, hliteral, h⟩ | ⟨hminus, hnumber, e, he, rfl⟩ | ⟨hbang, e, he, rfl⟩ |
    ⟨hminus, hbang, base, u, hbase, h⟩ := operand_yields.mp h
  case inl =>
    have hnext : s.next.peek.kind ≠ .eof := by
      intro heof
      simp [heof, Kind.isNumber] at hnumber
    have hread : s.Reads [s.peek, s.next.peek] s.next.next := .cons (by simp [hminus]) <| .single hnext
    exact hexpr.suffixes hs hread (.negative hminus hnumber hliteral) h
  case inr.inl =>
    have hs' : s.peek.kind ≠ .eof := by simp [hminus]
    obtain ⟨m, u, rfl, hdeeper, hwithin, rfl⟩ := he.nested <| (Reads.single hs').leaves hs
    obtain ⟨us, hus, hderives, hstops⟩ := hunary _ _ _ _ hdeeper hwithin
    refine ⟨_, .cons hs' hus.shallower, .negate hminus ?_ hderives, hstops⟩
    exact fun _ hv => hus.head hv ▸ hnumber
  case inr.inr.inl =>
    have hs' : s.peek.kind ≠ .eof := by simp [hbang]
    obtain ⟨m, u, rfl, hdeeper, hwithin, rfl⟩ := he.nested <| (Reads.single hs').leaves hs
    obtain ⟨us, hus, hderives, hstops⟩ := hunary _ _ _ _ hdeeper hwithin
    exact ⟨_, .cons hs' hus.shallower, .not hbang hderives, hstops⟩
  case inr.inr.inr =>
    obtain ⟨ts, hts, hderives⟩ := hexpr.primary hs hbase
    exact hexpr.suffixes hs hts (.tighter hderives) h

-- One more operand of a level makes an expression of the level.
theorem Reader.binaryRound_again (level : BindingLevel) {operand : Rule Expr} {left e : Expr}
    (hoperand : Reader level.tighter operand) (hlevel : level ≠ .comparison) (hs : s.Leaves n)
    (hleft : Gathered s (Derives level n) left u)
    (hround : (binaryRound level.operators operand left).Yields u (.again e) v) :
    Gathered s (Derives level n) e v ∧ level.tighter.Stops v.peek.kind := by
  obtain ⟨ts, hts, hleft⟩ := hleft
  obtain ⟨o, right, ho, hkind, hright, rfl⟩ := Grammar.binaryRound_again.mp hround
  obtain rfl := BindingLevel.mem_operators.mp ho
  have hu : u.peek.kind ≠ .eof := hkind ▸ o.kind_ne_eof
  obtain ⟨us, hus, hright, hstops⟩ := hoperand _ _ _ _ ((hts.snoc hu).leaves hs) hright
  refine ⟨⟨_, hts.append <| .cons hu hus, .binary hkind ?_ hleft hright⟩, hstops⟩
  exact Bool.eq_false_iff.mpr fun h => hlevel <| Operator.isComparison_iff_level.mp h

theorem Reader.binaryLevel (level : BindingLevel) {operand : Rule Expr} (hoperand : Reader level.tighter operand)
    (hlevel : level ≠ .comparison) : Reader level (binaryLevel level.operators operand) := by
  intro n s e t hs h
  simp only [binaryLevel_eq, yields_bind] at h
  obtain ⟨first, u, hfirst, hrest⟩ := h
  obtain ⟨ts, hts, hderives, hstops⟩ := hoperand _ _ _ _ hs hfirst
  obtain ⟨e, u, ⟨⟨ts, hts, hderives⟩, hstops⟩, hdone⟩ := hrest.repeatFrom
    (fun hleft => hoperand.binaryRound_again level hlevel hs hleft.1) ⟨⟨ts, hts, .tighter hderives⟩, hstops⟩
  obtain ⟨hnone, rfl, rfl⟩ := binaryRound_done.mp hdone
  exact ⟨ts, hts, hderives, hstops.loosen _ hnone⟩

theorem Reader.comparison {operand : Rule Expr} (hoperand : Reader .sum operand) :
    Reader .comparison (comparison operand) := by
  intro n s e t hs h
  obtain ⟨hend, hsingle | ⟨left, u, o, right, hleft, ho, hkind, hright, rfl⟩⟩ := comparison_yields.mp h
  case inl =>
    obtain ⟨ts, hts, hderives, hstops⟩ := hoperand _ _ _ _ hs hsingle
    exact ⟨ts, hts, .tighter hderives, hstops.loosen .comparison <| BindingLevel.ne_kind_of_not_isComparison hend⟩
  case inr =>
    obtain ⟨ts, hts, hleft, _⟩ := hoperand _ _ _ _ hs hleft
    have hu : u.peek.kind ≠ .eof := hkind ▸ o.kind_ne_eof
    obtain ⟨us, hus, hright, hstops⟩ := hoperand _ _ _ _ ((hts.snoc hu).leaves hs) hright
    refine ⟨_, hts.append <| .cons hu hus, .comparison hkind ho hleft hright, ?_⟩
    exact hstops.loosen .comparison <| BindingLevel.ne_kind_of_not_isComparison hend

theorem reader_disjunction {inner : Inner} (hexpr : Reader .disjunction inner.expr)
    (hunary : Reader .operand inner.unary) : Reader .disjunction (disjunction inner) := by
  have hproduct := Reader.binaryLevel .product (hexpr.operand hunary) (by decide)
  have hsum := Reader.binaryLevel .sum hproduct (by decide)
  have hconjunction := Reader.binaryLevel .conjunction (Reader.comparison hsum) (by decide)
  exact Reader.binaryLevel .disjunction hconjunction (by decide)

theorem reader_inner (left : List Token) :
    Reader .disjunction (inner left).expr ∧ Reader .operand (inner left).unary := by
  induction left
  case nil =>
    constructor
    all_goals
      intro n s e t _ h
      exact absurd h yields_unexpected
  case cons ih => exact ⟨reader_disjunction ih.1 ih.2, ih.1.operand ih.2⟩

theorem reader_expr : Reader .disjunction expr := by
  intro n s e t hs h
  simp only [expr, yields_bind, yields_get] at h
  obtain ⟨_, _, ⟨rfl, rfl⟩, h⟩ := h
  exact (reader_inner _).1 _ _ _ _ hs h

end BasicFrontEnd.Grammar
