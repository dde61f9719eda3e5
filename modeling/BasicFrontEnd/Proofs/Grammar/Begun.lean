import BasicFrontEnd.Proofs.Grammar.Refuses

/-!
Where a rule for expressions refuses to go on, what it has read is the beginning of an expression: some more tokens
complete it.
-/

namespace BasicFrontEnd.Grammar

open Rule State

-- A token of the kind, made up where one is missing. All names that are made up are the same.
def filler (name : String) (kind : Kind) : Token where
  kind     := kind
  value    := if kind = .identifier then name else kind.describe
  position := .start

abbrev fill (name : String) (kinds : List Kind) : List Token :=
  kinds.map (filler name)

@[simp]
theorem kind_filler (name : String) (kind : Kind) : (filler name kind).kind = kind :=
  rfl

-- The tokens begin an expression of the level: together with made-up ones they write it. Where there are none yet, a
-- name does.
def Begun (name : String) (level : BindingLevel) (n : Nat) (ts : List Token) : Prop :=
  ∃ kinds e, Derives level n (ts ++ fill name kinds) e ∧ (ts = [] → kinds = [.identifier])

-- The tokens begin a list of expressions with commas between them.
def BegunList (name : String) (n : Nat) (ts : List Token) : Prop :=
  ∃ kinds es, Lists n (ts ++ fill name kinds) es ∧ es ≠ []

variable {name : String} {level : BindingLevel} {n : Nat} {ts us : List Token} {t : Token} {e : Expr}

namespace Begun

theorem nil : Begun name level n [] :=
  ⟨[.identifier], .identifier name, .of_primary <| .atom <| .identifier rfl, fun _ => rfl⟩

theorem of_derives (h : Derives level n ts e) : Begun name level n ts :=
  ⟨[], e, by simpa, fun hnil => absurd hnil h.ne_nil⟩

theorem tighter (h : Begun name level.tighter n ts) : Begun name level n ts := by
  obtain ⟨kinds, e, he, hnil⟩ := h
  exact ⟨kinds, e, .tighter he, hnil⟩

-- Behind an operator, the beginning of the right operand is part of the beginning of the whole.
theorem binary {o : Operator} (hkind : t.kind = o.kind) (ho : o.isComparison = false)
    (hleft : Derives o.level n ts left) (h : Begun name o.level.tighter n us) :
    Begun name o.level n (ts ++ t :: us) := by
  obtain ⟨kinds, right, hright, -⟩ := h
  exact ⟨kinds, _, by simpa using Derives.binary hkind ho hleft hright, by simp⟩

theorem comparison {o : Operator} (hkind : t.kind = o.kind) (ho : o.isComparison = true)
    (hleft : Derives .sum n ts left) (h : Begun name .sum n us) : Begun name .comparison n (ts ++ t :: us) := by
  obtain ⟨kinds, right, hright, -⟩ := h
  exact ⟨kinds, _, by simpa using Derives.comparison hkind ho hleft hright, by simp⟩

theorem negate (hminus : t.kind = .symbol .minus) (hnumber : ∀ v ∈ ts.head?, v.kind.isNumber = false)
    (h : Begun name .operand n ts) : Begun name .operand (n + 1) (t :: ts) := by
  obtain ⟨kinds, e, he, hnil⟩ := h
  refine ⟨kinds, _, Derives.negate hminus ?_ he, by simp⟩
  cases ts
  case nil => simp [hnil rfl, Kind.isNumber]
  case cons => exact hnumber

theorem not (hbang : t.kind = .symbol .bang) (h : Begun name .operand n ts) :
    Begun name .operand (n + 1) (t :: ts) := by
  obtain ⟨kinds, e, he, -⟩ := h
  exact ⟨kinds, _, Derives.not hbang he, by simp⟩

theorem index (hbase : Derives .suffixed (n + 1) ts base) (hopen : t.kind = .symbol .openBracket)
    (h : Begun name .disjunction n us) : Begun name .suffixed (n + 1) (ts ++ t :: us) := by
  obtain ⟨kinds, i, hi, -⟩ := h
  have h := Derives.index hbase hopen hi (kind_filler name (.symbol .closeBracket))
  exact ⟨kinds ++ [Kind.symbol .closeBracket], _, by simpa using h, by simp⟩

theorem call (hcallee : Derives .suffixed (n + 1) ts (.identifier callee)) (hopen : t.kind = .symbol .openParen)
    (h : us = [] ∨ BegunList name n us) : Begun name .suffixed (n + 1) (ts ++ t :: us) := by
  obtain rfl | ⟨kinds, es, ⟨parts, rfl, hparts, hsep⟩, -⟩ := h
  case inl =>
    have h := Derives.call [] hcallee hopen (by simp) .none (kind_filler name (.symbol .closeParen))
    exact ⟨[.symbol .closeParen], _, by simpa using h, by simp⟩
  case inr =>
    have h := Derives.call parts hcallee hopen hparts hsep (kind_filler name (.symbol .closeParen))
    exact ⟨kinds ++ [Kind.symbol .closeParen], _, by simpa using h, by simp⟩

theorem parens (hopen : t.kind = .symbol .openParen) (h : Begun name .disjunction n ts) :
    Begun name .primary (n + 1) (t :: ts) := by
  obtain ⟨kinds, e, he, -⟩ := h
  have h := Derives.parens hopen he (kind_filler name (.symbol .closeParen))
  exact ⟨kinds ++ [Kind.symbol .closeParen], e, by simpa using h, by simp⟩

theorem array (hopen : t.kind = .symbol .openCurly) (h : BegunList name n ts) :
    Begun name .primary (n + 1) (t :: ts) := by
  obtain ⟨kinds, _, ⟨parts, rfl, hparts, hsep⟩, hne⟩ := h
  have hne : parts ≠ [] := by simpa using hne
  have h := Derives.array parts hopen hne hparts hsep (kind_filler name (.symbol .closeCurly))
  exact ⟨kinds ++ [Kind.symbol .closeCurly], _, by simpa using h, by simp⟩

end Begun

theorem BegunList.one (h : Begun name .disjunction n ts) : BegunList name n ts := by
  obtain ⟨kinds, e, he, -⟩ := h
  exact ⟨kinds, [e], .one he, by simp⟩

theorem BegunList.of_lists (h : Lists n ts es) (hne : es ≠ []) : BegunList name n ts :=
  ⟨[], es, by simpa, hne⟩

theorem BegunList.snoc (h : Lists n ts es) (hne : es ≠ []) (hcomma : t.kind = .symbol .comma)
    (he : Begun name .disjunction n us) : BegunList name n (ts ++ t :: us) := by
  obtain ⟨kinds, e, he, -⟩ := he
  exact ⟨kinds, _, by simpa using h.snoc hne hcomma he, by simp⟩

namespace Script

variable {s t : State}

theorem Refuses.leaves {x : Script α} (h : x.nested.Refuses s t) (hs : s.Leaves n) :
    ∃ m u, n = m + 1 ∧ s.deeper.Leaves m ∧ x.Refuses s.deeper u ∧ t = u.shallower := by
  obtain ⟨hroom, u, hx, rfl⟩ := h.nested
  obtain ⟨m, hm, hdeeper⟩ := hs.deeper hroom
  exact ⟨m, u, hm, hdeeper, hx, rfl⟩

-- The script reads expressions of the level; where it refuses, it has read the beginning of one.
structure Begins (name : String) (level : BindingLevel) (x : Script Expr) : Prop where
  reads   : Reader level x.rule
  refuses : ∀ {n s t}, s.Leaves n → x.Refuses s t → ∃ ts, s.Reads ts t ∧ Begun name level n ts

theorem Begins.separated {item : Script Expr} (hitem : item.Begins name .disjunction)
    (hs : s.Leaves n) (h : (separated item).Refuses s t) :
    ∃ ts, s.Reads ts t ∧ BegunList name n ts := by
  simp only [Script.separated, refuses_bind] at h
  obtain hfirst | ⟨first, u, hfirst, hrest⟩ := h
  case inl =>
    obtain ⟨ts, hts, hbegun⟩ := hitem.refuses hs hfirst
    exact ⟨ts, hts, .one hbegun⟩
  case inr =>
    have keeps : ∀ {es v es' w}, Gathered s (ListsBack n) es v → (commaRound item es).rule.Yields v (.again es') w →
        Gathered s (ListsBack n) es' w :=
      fun hes hround => hitem.reads.commaRound_again hs hes (rule_commaRound item _ ▸ hround)
    obtain ⟨es, v, ⟨ts, hts, hlist, hne⟩, hround | rfl⟩ := hrest.repeatFrom keeps (hitem.reads.first hs hfirst)
    case inr => exact ⟨ts, hts, .of_lists hlist (by simpa)⟩
    case inl =>
      obtain ⟨hcomma, hround⟩ | ⟨-, hround⟩ := refuses_if_accept.mp hround
      case inr => exact absurd hround refuses_pure
      case inl =>
        have hv : v.peek.kind ≠ .eof := by simp [hcomma]
        have hround : item.Refuses v.next t := by simpa using hround
        obtain ⟨us, hus, hbegun⟩ := hitem.refuses ((hts.snoc hv).leaves hs) hround
        exact ⟨_, hts.append <| .cons hv hus, .snoc hlist (by simpa) hcomma hbegun⟩

theorem Begins.arguments {item : Script Expr} (hitem : item.Begins name .disjunction)
    (hs : s.Leaves n) (h : (arguments item).Refuses s t) :
    ∃ ts, s.Reads ts t ∧ BegunList name n ts := by
  obtain ⟨-, h⟩ | ⟨-, h⟩ := refuses_if_accept.mp h
  case inl => exact absurd h refuses_pure
  case inr =>
    obtain h | ⟨es, u, hes, h⟩ := refuses_bind.mp h
    case inl => exact hitem.separated hs h
    case inr =>
      obtain ⟨ts, hts, hlist, hne⟩ := hitem.reads.separated hs (rule_separated item ▸ hes)
      obtain ⟨-, rfl, -⟩ | ⟨-, h⟩ := refuses_expect_bind.mp h
      case inl => exact ⟨ts, hts, .of_lists hlist hne⟩
      case inr => exact absurd h refuses_pure

-- Between brackets, what is read one level further in has been begun, or the closing bracket is missing behind it.
theorem Refuses.enclosed {x : Script β} {f : β → α} {close : Kind} {Begun : Nat → List Token → Prop} (hs : s.Leaves n)
    (hrefuses : ∀ {m s t}, s.Leaves m → x.Refuses s t → ∃ ts, s.Reads ts t ∧ Begun m ts)
    (hreads : ∀ {m s b t}, s.Leaves m → x.rule.Yields s b t → ∃ ts, s.Reads ts t ∧ Begun m ts)
    (h : (do
      let b ← x.nested
      let _ ← ofRule (expect close)
      return f b : Script α).Refuses s t) :
    ∃ m ts, n = m + 1 ∧ s.Reads ts t ∧ Begun m ts := by
  obtain h | ⟨b, u, hb, h⟩ := refuses_bind.mp h
  case inl =>
    obtain ⟨m, u, rfl, hdeeper, hwithin, rfl⟩ := h.leaves hs
    obtain ⟨ts, hts, hbegun⟩ := hrefuses hdeeper hwithin
    exact ⟨m, ts, rfl, hts.shallower, hbegun⟩
  case inr =>
    obtain ⟨m, u, rfl, hdeeper, hwithin, rfl⟩ := Yields.nested (rule_nested x ▸ hb) hs
    obtain ⟨ts, hts, hread⟩ := hreads hdeeper hwithin
    obtain ⟨-, rfl, -⟩ | ⟨-, h⟩ := refuses_expect_bind.mp h
    case inl => exact ⟨m, ts, rfl, hts.shallower, hread⟩
    case inr => exact absurd h refuses_pure

theorem Begins.enclosed {item : Script Expr} {f : Expr → α} {close : Kind} (hitem : item.Begins name .disjunction)
    (hs : s.Leaves n)
    (h : (do
      let e ← item.nested
      let _ ← ofRule (expect close)
      return f e : Script α).Refuses s t) :
    ∃ m ts, n = m + 1 ∧ s.Reads ts t ∧ Begun name .disjunction m ts := by
  refine h.enclosed hs hitem.refuses fun hs hyields => ?_
  obtain ⟨ts, hts, he, -⟩ := hitem.reads _ _ _ _ hs hyields
  exact ⟨ts, hts, .of_derives he⟩

-- What a round refuses that adds a suffix to a suffixed expression.
theorem Begins.suffixRound {inner : Script.Inner} (hexpr : inner.expr.Begins name .disjunction)
    (hs : s.Leaves n) (hts : s.Reads ts u)
    (hbase : Derives .suffixed n ts e) (h : (suffixRound inner e).Refuses u t) :
    ∃ ts, s.Reads ts t ∧ Begun name .suffixed n ts := by
  simp only [Script.suffixRound, refuses_peekKind_bind] at h
  have hleaves : ∀ {k}, u.peek.kind = .symbol k → u.next.Leaves n :=
    fun hu => (hts.snoc (by simp [hu])).leaves hs
  split at h
  case h_1 hdot =>
    have hu : u.peek.kind ≠ .eof := by simp [hdot]
    split at h
    case h_2 =>
      obtain rfl := Rule.refuses_unexpected.mp (refuses_ofRule.mp h).1
      exact ⟨ts, hts, .of_derives hbase⟩
    case h_1 record =>
      simp only [refuses_consume_bind] at h
      obtain ⟨-, rfl, -⟩ | ⟨-, h⟩ := refuses_expect_bind.mp h
      case inr => exact absurd h refuses_pure
      case inl =>
        have h := Derives.member hbase hdot (kind_filler name .identifier)
        exact ⟨_, hts.snoc hu, [.identifier], _, by simpa using h, by simp⟩
  case h_2 hopen =>
    have hu : u.peek.kind ≠ .eof := by simp [hopen]
    rw [refuses_consume_bind] at h
    obtain ⟨m, us, rfl, hus, hbegun⟩ := hexpr.enclosed (hleaves hopen) h
    exact ⟨_, hts.append <| .cons hu hus, .index hbase hopen hbegun⟩
  case h_3 hopen =>
    have hu : u.peek.kind ≠ .eof := by simp [hopen]
    split at h
    case h_2 =>
      obtain rfl := Rule.refuses_unexpected.mp (refuses_ofRule.mp h).1
      exact ⟨ts, hts, .of_derives hbase⟩
    case h_1 callee =>
      rw [refuses_consume_bind, refuses_bind_pure] at h
      obtain ⟨m, v, rfl, hdeeper, hwithin, rfl⟩ := h.leaves (hleaves hopen)
      obtain ⟨us, hus, hbegun⟩ := hexpr.arguments hdeeper hwithin
      exact ⟨_, hts.append <| .cons hu hus.shallower, .call hbase hopen (.inr hbegun)⟩
  case h_4 => exact absurd h refuses_pure

theorem Begins.suffixes {inner : Script.Inner} (hexpr : inner.expr.Begins name .disjunction)
    (hs : s.Leaves n) (hts : s.Reads ts u)
    (hbase : Derives .suffixed n ts e) (h : (suffixes inner e).Refuses u t) :
    ∃ ts, s.Reads ts t ∧ Begun name .operand n ts := by
  have keeps : ∀ {e v e' w}, Gathered s (Derives .suffixed n) e v →
      (Script.suffixRound inner e).rule.Yields v (.again e') w →
      Gathered s (Derives .suffixed n) e' w :=
    fun he hround => Reader.suffixRound_again hexpr.reads hs he (rule_suffixRound inner _ ▸ hround)
  obtain ⟨e, v, ⟨ts, hts, hbase⟩, hround | rfl⟩ := Refuses.repeatFrom keeps ⟨ts, hts, hbase⟩ h
  case inl =>
    obtain ⟨ts, hts, hbegun⟩ := hexpr.suffixRound hs hts hbase hround
    exact ⟨ts, hts, .tighter hbegun⟩
  case inr => exact ⟨ts, hts, .of_derives <| .tighter hbase⟩

theorem Begins.primary {inner : Script.Inner} (hexpr : inner.expr.Begins name .disjunction)
    (hs : s.Leaves n) (h : (primary inner).Refuses s t) :
    ∃ ts, s.Reads ts t ∧ Begun name .primary n ts := by
  simp only [Script.primary, refuses_peekKind_bind] at h
  have hleaves : ∀ {k}, s.peek.kind = .symbol k → s.next.Leaves n :=
    fun hs' => (Reads.single (by simp [hs'])).leaves hs
  split at h
  case h_8 hopen =>
    have hs' : s.peek.kind ≠ .eof := by simp [hopen]
    rw [refuses_consume_bind] at h
    obtain ⟨m, ts, rfl, hts, hbegun⟩ := hexpr.enclosed (f := id) (hleaves hopen) h
    exact ⟨_, .cons hs' hts, .parens hopen hbegun⟩
  case h_9 hopen =>
    have hs' : s.peek.kind ≠ .eof := by simp [hopen]
    rw [refuses_consume_bind] at h
    obtain ⟨m, ts, rfl, hts, hbegun⟩ := h.enclosed (hleaves hopen) hexpr.separated fun hs hyields => by
      obtain ⟨ts, hts, hlist, hne⟩ := hexpr.reads.separated hs (rule_separated inner.expr ▸ hyields)
      exact ⟨ts, hts, BegunList.of_lists hlist hne⟩
    exact ⟨_, .cons hs' hts, .array hopen hbegun⟩
  case h_10 =>
    obtain rfl := Rule.refuses_unexpected.mp (refuses_ofRule.mp h).1
    exact ⟨[], .nil, .nil⟩
  all_goals simp at h

theorem Begins.operand {inner : Script.Inner} (hexpr : inner.expr.Begins name .disjunction)
    (hunary : inner.unary.Begins name .operand) : (operand inner).Begins name .operand := by
  refine ⟨rule_operand inner ▸ hexpr.reads.operand hunary.reads, fun {n s t} hs h => ?_⟩
  simp only [Script.operand, refuses_peekKind_bind] at h
  have hleaves : ∀ {k}, s.peek.kind = .symbol k → s.next.Leaves n :=
    fun hs' => (Reads.single (by simp [hs'])).leaves hs
  split at h
  case h_1 hminus =>
    have hs' : s.peek.kind ≠ .eof := by simp [hminus]
    simp only [refuses_consume_bind, refuses_peekKind_bind] at h
    split at h
    case isTrue hnumber =>
      have hnext : s.next.peek.kind ≠ .eof := fun heof => by simp [heof, Kind.isNumber] at hnumber
      rw [refuses_consume_bind, refuses_bind] at h
      obtain h | ⟨literal, u, hliteral, h⟩ := h
      case inl => exact absurd (refuses_ofRule.mp h).1 refuses_number
      case inr =>
        rw [rule_ofRule] at hliteral
        obtain ⟨hvalue, rfl⟩ := yields_lift.mp hliteral
        have hread : s.Reads [s.peek, s.next.peek] s.next.next := .cons hs' <| .single hnext
        exact hexpr.suffixes hs hread (.negative hminus hnumber hvalue) h
    case isFalse hnumber =>
      obtain ⟨m, v, rfl, hdeeper, hwithin, rfl⟩ := (refuses_bind_pure.mp h).leaves (hleaves hminus)
      obtain ⟨us, hus, hbegun⟩ := hunary.refuses hdeeper hwithin
      refine ⟨_, .cons hs' hus.shallower, .negate hminus (fun v hv => ?_) hbegun⟩
      exact hus.head hv ▸ Bool.eq_false_iff.mpr hnumber
  case h_2 hbang =>
    have hs' : s.peek.kind ≠ .eof := by simp [hbang]
    rw [refuses_consume_bind, refuses_bind_pure] at h
    obtain ⟨m, v, rfl, hdeeper, hwithin, rfl⟩ := h.leaves (hleaves hbang)
    obtain ⟨us, hus, hbegun⟩ := hunary.refuses hdeeper hwithin
    exact ⟨_, .cons hs' hus.shallower, .not hbang hbegun⟩
  case h_3 =>
    obtain h | ⟨e, u, he, h⟩ := refuses_bind.mp h
    case inl =>
      obtain ⟨ts, hts, hbegun⟩ := hexpr.primary hs h
      exact ⟨ts, hts, .tighter <| .tighter hbegun⟩
    case inr =>
      obtain ⟨ts, hts, he⟩ := Reader.primary hexpr.reads hs (rule_primary inner ▸ he)
      exact hexpr.suffixes hs hts (.tighter he) h

theorem Begins.binaryLevel (level : BindingLevel) {operand : Script Expr}
    (hoperand : operand.Begins name level.tighter) (hlevel : level ≠ .comparison) :
    (binaryLevel level.operators operand).Begins name level := by
  refine ⟨rule_binaryLevel _ operand ▸ hoperand.reads.binaryLevel level hlevel, fun {n s t} hs h => ?_⟩
  obtain h | ⟨first, u, hfirst, h⟩ := refuses_bind.mp h
  case inl =>
    obtain ⟨ts, hts, hbegun⟩ := hoperand.refuses hs h
    exact ⟨ts, hts, .tighter hbegun⟩
  case inr =>
    obtain ⟨ts, hts, hderives, -⟩ := hoperand.reads _ _ _ _ hs hfirst
    have keeps : ∀ {left u e v}, Gathered s (Derives level n) left u →
        (binaryRound level.operators operand left).rule.Yields u (.again e) v → Gathered s (Derives level n) e v :=
      fun hleft hround => (hoperand.reads.binaryRound_again level hlevel hs hleft (rule_binaryRound _ _ _ ▸ hround)).1
    obtain ⟨left, v, ⟨ts, hts, hleft⟩, hround | rfl⟩ := h.repeatFrom keeps ⟨ts, hts, .tighter hderives⟩
    case inr => exact ⟨ts, hts, .of_derives hleft⟩
    case inl =>
      simp only [binaryRound, refuses_peekKind_bind] at hround
      split at hround
      case h_1 => exact absurd hround refuses_pure
      case h_2 o ho =>
        obtain ⟨ho, hkind⟩ := Operator.filter_ofKind?_eq_some_iff.mp ho
        obtain rfl := BindingLevel.mem_operators.mp (List.contains_iff_mem.mp ho)
        have hv : v.peek.kind ≠ .eof := hkind ▸ o.kind_ne_eof
        rw [refuses_consume_bind, refuses_bind_pure] at hround
        obtain ⟨us, hus, hbegun⟩ := hoperand.refuses ((hts.snoc hv).leaves hs) hround
        have ho : o.isComparison = false :=
          Bool.eq_false_iff.mpr fun h => hlevel <| Operator.isComparison_iff_level.mp h
        exact ⟨_, hts.append <| .cons hv hus, .binary hkind ho hleft hbegun⟩

theorem Begins.comparison {operand : Script Expr} (hoperand : operand.Begins name .sum) :
    (comparison operand).Begins name .comparison := by
  refine ⟨rule_comparison operand ▸ hoperand.reads.comparison, fun {n s t} hs h => ?_⟩
  obtain h | ⟨left, u, hleft, h⟩ := refuses_bind.mp h
  case inl =>
    obtain ⟨ts, hts, hbegun⟩ := hoperand.refuses hs h
    exact ⟨ts, hts, .tighter hbegun⟩
  case inr =>
    obtain ⟨ts, hts, hleft, -⟩ := hoperand.reads _ _ _ _ hs hleft
    rw [refuses_peekKind_bind] at h
    split at h
    case h_1 => exact absurd h refuses_pure
    case h_2 o ho =>
      obtain ⟨ho, hkind⟩ := Operator.filter_ofKind?_eq_some_iff.mp ho
      have hu : u.peek.kind ≠ .eof := hkind ▸ o.kind_ne_eof
      rw [refuses_consume_bind, refuses_bind] at h
      obtain h | ⟨right, v, hright, h⟩ := h
      case inl =>
        obtain ⟨us, hus, hbegun⟩ := hoperand.refuses ((hts.snoc hu).leaves hs) h
        exact ⟨_, hts.append <| .cons hu hus, .comparison hkind ho hleft hbegun⟩
      case inr =>
        obtain ⟨us, hus, hderives, -⟩ := hoperand.reads _ _ _ _ ((hts.snoc hu).leaves hs) hright
        rw [refuses_peekKind_bind] at h
        split at h
        case isFalse => exact absurd h refuses_pure
        case isTrue =>
          obtain rfl := Rule.refuses_unexpected.mp (refuses_ofRule.mp h).1
          exact ⟨_, hts.append <| .cons hu hus, .of_derives <| .comparison hkind ho hleft hderives⟩

theorem begins_disjunction {inner : Script.Inner} (hexpr : inner.expr.Begins name .disjunction)
    (hunary : inner.unary.Begins name .operand) : (disjunction inner).Begins name .disjunction := by
  have hproduct := (hexpr.operand hunary).binaryLevel .product (by decide)
  have hsum := hproduct.binaryLevel .sum (by decide)
  have hconjunction := hsum.comparison.binaryLevel .conjunction (by decide)
  exact hconjunction.binaryLevel .disjunction (by decide)

theorem begins_unexpected {expected : String} (level : BindingLevel) :
    (ofRule (unexpected expected) : Script Expr).Begins name level where
  reads _ _ _ _ _ h := absurd (rule_ofRule (unexpected expected : Rule Expr) ▸ h) yields_unexpected
  refuses _ h := by
    obtain rfl := Rule.refuses_unexpected.mp (refuses_ofRule.mp h).1
    exact ⟨[], .nil, .nil⟩

theorem begins_inner (left : List Token) :
    (inner left).expr.Begins name .disjunction ∧ (inner left).unary.Begins name .operand := by
  induction left
  case nil => exact ⟨begins_unexpected .disjunction, begins_unexpected .operand⟩
  case cons ih => exact ⟨begins_disjunction ih.1 ih.2, ih.1.operand ih.2⟩

theorem begins_expr : expr.Begins name .disjunction := by
  refine ⟨rule_expr ▸ reader_expr, fun {n s t} hs h => ?_⟩
  exact (begins_inner s.stream.rest).1.refuses hs (refuses_rest_bind.mp h)

end Script
end BasicFrontEnd.Grammar
