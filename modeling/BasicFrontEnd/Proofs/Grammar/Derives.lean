import BasicFrontEnd.Grammar.Expr

/-!
The grammar of expressions: `Derives level n ts e` says that the tokens `ts` write the expression `e` at a level of
binding, with no more than `n` levels of nesting within.
-/

namespace BasicFrontEnd

-- The kinds of token that begin a suffix.
def Kind.beginsSuffix : Kind → Bool
  | .symbol .dot | .symbol .openBracket | .symbol .openParen => true
  | _ => false

-- The kinds of token that begin an expression.
def Kind.beginsExpr : Kind → Bool
  | .identifier | .integer | .float | .string => true
  | .keyword .trueWord | .keyword .falseWord | .keyword .nilWord => true
  | .symbol .openParen | .symbol .openCurly | .symbol .minus | .symbol .bang => true
  | _ => false

-- The kinds of token that expressions are written with.
def Kind.inExpr (k : Kind) : Bool :=
  k.beginsExpr || k.beginsSuffix || (Operator.ofKind? k).isSome ||
    k ∈ [.symbol .closeParen, .symbol .closeBracket, .symbol .closeCurly, .symbol .comma]

theorem Kind.isNumber_iff {k : Kind} : k.isNumber = true ↔ k = .integer ∨ k = .float := by
  cases k <;> simp [isNumber]

theorem Kind.beginsExpr_of_isNumber {k : Kind} (h : k.isNumber = true) : k.beginsExpr = true := by
  obtain rfl | rfl := isNumber_iff.mp h <;> rfl

namespace Grammar

-- How tightly an expression binds, from the loosest to the tightest.
inductive BindingLevel
  | disjunction
  | conjunction
  | comparison
  | sum
  | product
  | operand
  | suffixed
  | primary
  deriving DecidableEq

namespace BindingLevel

def rank : BindingLevel → Nat
  | disjunction => 0
  | conjunction => 1
  | comparison  => 2
  | sum         => 3
  | product     => 4
  | operand     => 5
  | suffixed    => 6
  | primary     => 7

def tighter : BindingLevel → BindingLevel
  | disjunction        => conjunction
  | conjunction        => comparison
  | comparison         => sum
  | sum                => product
  | product            => operand
  | operand            => suffixed
  | suffixed | primary => primary

end BindingLevel
end Grammar

namespace Operator

open Grammar

-- The level whose expressions the operator makes.
def level : Operator → BindingLevel
  | or                         => .disjunction
  | and                        => .conjunction
  | add | subtract             => .sum
  | multiply | divide | modulo => .product
  | _                          => .comparison

theorem ofKind?_eq_some_iff {o : Operator} {k : Kind} : ofKind? k = some o ↔ k = o.kind := by
  constructor
  case mp =>
    intro h
    unfold ofKind? at h
    have := List.find?_some h
    exact (beq_iff_eq.mp this).symm
  case mpr =>
    rintro rfl
    exact ofKind?_kind o

theorem filter_ofKind?_eq_none_iff {p : Operator → Bool} {k : Kind} :
    (ofKind? k).filter p = none ↔ ∀ o, p o = true → k ≠ o.kind := by
  simp only [Option.filter_eq_none_iff, ofKind?_eq_some_iff]
  exact ⟨fun h o hp hk => h o hk hp, fun h o hk hp => h o hp hk⟩

theorem filter_ofKind?_eq_some_iff {p : Operator → Bool} {k : Kind} {o : Operator} :
    (ofKind? k).filter p = some o ↔ p o = true ∧ k = o.kind := by
  simp only [Option.filter_eq_some_iff, ofKind?_eq_some_iff, and_comm]

theorem inExpr_kind (o : Operator) : o.kind.inExpr = true := by
  cases o <;> rfl

theorem kind_ne_eof (o : Operator) : o.kind ≠ .eof := by
  cases o <;> simp [kind]

-- What is the kind of some operator does not end the stream.
theorem ne_eof_of_filter_ofKind? {p : Operator → Bool} {k : Kind} {o : Operator} (h : (ofKind? k).filter p = some o) :
    k ≠ .eof :=
  (filter_ofKind?_eq_some_iff.mp h).2 ▸ o.kind_ne_eof

theorem rank_level_lt (o : Operator) : o.level.rank < o.level.tighter.rank := by
  cases o <;> decide

theorem isComparison_iff_level {o : Operator} : o.isComparison = true ↔ o.level = .comparison := by
  cases o <;> simp [isComparison, level]

theorem exists_of_isComparison {k : Kind} (h : k.isComparison = true) :
    ∃ o : Operator, k = o.kind ∧ o.isComparison = true := by
  obtain ⟨o, hkind⟩ : ∃ o : Operator, k = o.kind := by
    unfold Kind.isComparison at h
    split at h
    case h_1 => exact ⟨equals, rfl⟩
    case h_2 => exact ⟨notEquals, rfl⟩
    case h_3 => exact ⟨less, rfl⟩
    case h_4 => exact ⟨lessEquals, rfl⟩
    case h_5 => exact ⟨greater, rfl⟩
    case h_6 => exact ⟨greaterEquals, rfl⟩
    case h_7 => contradiction
  exact ⟨o, hkind, isComparison_kind o ▸ hkind ▸ h⟩

theorem filter_isComparison_eq_none_iff {k : Kind} :
    (ofKind? k).filter (·.isComparison) = none ↔ k.isComparison = false := by
  rw [filter_ofKind?_eq_none_iff, Bool.eq_false_iff]
  constructor
  case mp =>
    intro h hk
    obtain ⟨o, hkind, ho⟩ := exists_of_isComparison hk
    exact h o ho hkind
  case mpr =>
    rintro h o ho rfl
    exact h <| (isComparison_kind o).trans ho

end Operator

namespace Grammar

-- An expression of the level ends before a token of the kind: the token neither begins a suffix nor is an operator
-- that binds as tightly as the level or tighter.
structure BindingLevel.Stops (level : BindingLevel) (k : Kind) : Prop where
  suffix   : k.beginsSuffix = false
  operator : ∀ o : Operator, k = o.kind → o.level.rank < level.rank

-- The pieces, with commas between them.
inductive Separated : List (List Token) → List Token → Prop
  | none : Separated [] []
  | one  : Separated [ts] ts
  | more : comma.kind = .symbol .comma → Separated (us :: pieces) vs →
           Separated (ts :: us :: pieces) (ts ++ comma :: vs)

theorem Separated.exists_append (h : Separated (us :: pieces) ts) : ∃ vs, ts = us ++ vs := by
  obtain _ | _ | _ := h
  case one => exact ⟨[], by simp⟩
  case more => exact ⟨_, rfl⟩

-- The literals and the words that are expressions on their own.
inductive Atom : Token → Expr → Prop
  | identifier : t.kind = .identifier → Atom t (.identifier t.value)
  | string     : t.kind = .string → Atom t (.string t.value)
  | trueWord   : t.kind = .keyword .trueWord → Atom t (.boolean true)
  | falseWord  : t.kind = .keyword .falseWord → Atom t (.boolean false)
  | nilWord    : t.kind = .keyword .nilWord → Atom t .nil
  | number     : t.kind.isNumber = true → Grammar.number t false = .ok e → Atom t e

theorem atom_iff :
    Atom t e ↔
      (t.kind = .identifier ∧ e = .identifier t.value) ∨ (t.kind = .string ∧ e = .string t.value) ∨
      (t.kind = .keyword .trueWord ∧ e = .boolean true) ∨ (t.kind = .keyword .falseWord ∧ e = .boolean false) ∨
      (t.kind = .keyword .nilWord ∧ e = .nil) ∨ (t.kind.isNumber = true ∧ Grammar.number t false = .ok e) := by
  constructor
  case mp => rintro (_ | _ | _ | _ | _ | _) <;> simp_all
  case mpr => rintro (⟨h, rfl⟩ | ⟨h, rfl⟩ | ⟨h, rfl⟩ | ⟨h, rfl⟩ | ⟨h, rfl⟩ | ⟨h, he⟩) <;> constructor <;> assumption

theorem Atom.kind_ne_eof (h : Atom t e) : t.kind ≠ .eof := by
  intro heof
  cases h <;> simp_all [Kind.isNumber]

theorem Atom.beginsExpr (h : Atom t e) : t.kind.beginsExpr = true := by
  cases h
  case number h _ => cases hk : t.kind <;> simp_all [Kind.isNumber, Kind.beginsExpr]
  all_goals
    rename_i h
    rw [h]
    rfl

inductive Derives : BindingLevel → Nat → List Token → Expr → Prop
  | tighter : Derives level.tighter n ts e → Derives level n ts e
  -- All operators but comparisons group to the left.
  | binary : t.kind = operator.kind → operator.isComparison = false →
             Derives operator.level n ts left → Derives operator.level.tighter n us right →
             Derives operator.level n (ts ++ t :: us) (.binary operator left right)
  | comparison : t.kind = operator.kind → operator.isComparison = true →
                 Derives .sum n ts left → Derives .sum n us right →
                 Derives .comparison n (ts ++ t :: us) (.binary operator left right)
  -- A minus right before a number belongs to the number.
  | negate : minus.kind = .symbol .minus → (∀ t ∈ ts.head?, t.kind.isNumber = false) → Derives .operand n ts e →
             Derives .operand (n + 1) (minus :: ts) (.negate e)
  | negative : minus.kind = .symbol .minus → t.kind.isNumber = true → number t true = .ok e →
               Derives .suffixed n [minus, t] e
  | not : bang.kind = .symbol .bang → Derives .operand n ts e → Derives .operand (n + 1) (bang :: ts) (.not e)
  -- Only a name has members and can be called.
  | member : Derives .suffixed n ts (.identifier record) → dot.kind = .symbol .dot → field.kind = .identifier →
             Derives .suffixed n (ts ++ [dot, field]) (.member record field.value)
  | index : Derives .suffixed (n + 1) ts base → opening.kind = .symbol .openBracket →
            Derives .disjunction n us i → closing.kind = .symbol .closeBracket →
            Derives .suffixed (n + 1) (ts ++ opening :: (us ++ [closing])) (addIndex base i)
  | call (parts : List (List Token × Expr)) : Derives .suffixed (n + 1) ts (.identifier callee) →
           opening.kind = .symbol .openParen →
           (∀ part ∈ parts, Derives .disjunction n part.1 part.2) → Separated (parts.map Prod.fst) us →
           closing.kind = .symbol .closeParen →
           Derives .suffixed (n + 1) (ts ++ opening :: (us ++ [closing])) (.call callee (parts.map Prod.snd))
  | atom : Atom t e → Derives .primary n [t] e
  -- Parentheses leave no trace in the tree.
  | parens : opening.kind = .symbol .openParen → Derives .disjunction n ts e → closing.kind = .symbol .closeParen →
             Derives .primary (n + 1) (opening :: (ts ++ [closing])) e
  | array (parts : List (List Token × Expr)) : opening.kind = .symbol .openCurly → parts ≠ [] →
            (∀ part ∈ parts, Derives .disjunction n part.1 part.2) → Separated (parts.map Prod.fst) ts →
            closing.kind = .symbol .closeCurly →
            Derives .primary (n + 1) (opening :: (ts ++ [closing])) (.array (parts.map Prod.snd))

theorem Derives.of_primary (h : Derives .primary n ts e) : Derives level n ts e := by
  cases level
  case primary => exact h
  case suffixed => exact .tighter h
  case operand => exact .tighter <| .tighter h
  case product => exact .tighter <| .tighter <| .tighter h
  case sum => exact .tighter <| .tighter <| .tighter <| .tighter h
  case comparison => exact .tighter <| .tighter <| .tighter <| .tighter <| .tighter h
  case conjunction => exact .tighter <| .tighter <| .tighter <| .tighter <| .tighter <| .tighter h
  case disjunction => exact .tighter <| .tighter <| .tighter <| .tighter <| .tighter <| .tighter <| .tighter h

theorem Derives.exists_head (h : Derives level n ts e) : ∃ t rest, ts = t :: rest ∧ t.kind.beginsExpr = true := by
  induction h
  case tighter ih => exact ih
  case binary ih _ | comparison ih _ | member ih | index ih _ | call ih _ =>
    obtain ⟨t, rest, rfl, ht⟩ := ih
    exact ⟨t, _, rfl, ht⟩
  case negate h _ _ _ | not h _ _ | negative h _ _ | parens h _ _ _ | array h _ _ _ _ _ =>
    exact ⟨_, _, rfl, by rw [h]; rfl⟩
  case atom h => exact ⟨_, _, rfl, h.beginsExpr⟩

theorem Derives.ne_nil (h : Derives level n ts e) : ts ≠ [] := by
  obtain ⟨t, rest, rfl, _⟩ := h.exists_head
  exact List.cons_ne_nil t rest

theorem Separated.forall_mem {p : Token → Prop} (h : Separated pieces ts) (hpieces : ∀ us ∈ pieces, ∀ t ∈ us, p t)
    (hcomma : ∀ t, t.kind = .symbol .comma → p t) : ∀ t ∈ ts, p t := by
  induction h
  case none => simp
  case one => simpa using hpieces
  case more hkind _ ih =>
    simp only [List.mem_cons, List.mem_append, forall_eq_or_imp] at hpieces ⊢
    rintro t (ht | rfl | ht)
    case inl => exact hpieces.1 t ht
    case inr.inl => exact hcomma t hkind
    case inr.inr => exact ih (by simpa using hpieces.2) t ht

theorem Atom.inExpr (h : Atom t e) : t.kind.inExpr = true := by
  simp [Kind.inExpr, h.beginsExpr]

theorem Derives.inExpr (h : Derives level n ts e) : ∀ t ∈ ts, t.kind.inExpr = true := by
  induction h
  case tighter ih => exact ih
  all_goals simp only [List.forall_mem_append, List.forall_mem_cons]
  case binary hkind _ _ _ ihl ihr | comparison hkind _ _ _ ihl ihr => exact ⟨ihl, hkind ▸ Operator.inExpr_kind _, ihr⟩
  case negate hminus _ _ ih => exact ⟨by rw [hminus]; rfl, ih⟩
  case not hbang _ ih => exact ⟨by rw [hbang]; rfl, ih⟩
  case negative hminus hnumber _ =>
    exact ⟨by rw [hminus]; rfl, by simp [Kind.inExpr, Kind.beginsExpr_of_isNumber hnumber], by simp⟩
  case member hdot hfield ih => exact ⟨ih, by rw [hdot]; rfl, by rw [hfield]; rfl, by simp⟩
  case index hopen _ hclose ih ihi => exact ⟨ih, by rw [hopen]; rfl, ihi, by rw [hclose]; rfl, by simp⟩
  case call hopen _ hsep hclose ih ihparts =>
    refine ⟨ih, by rw [hopen]; rfl, hsep.forall_mem ?_ fun t ht => by rw [ht]; rfl, by rw [hclose]; rfl, by simp⟩
    simpa using fun us e => ihparts (us, e)
  case atom h => exact ⟨h.inExpr, by simp⟩
  case parens hopen _ hclose ih => exact ⟨by rw [hopen]; rfl, ih, by rw [hclose]; rfl, by simp⟩
  case array hopen _ _ hsep hclose ih =>
    refine ⟨by rw [hopen]; rfl, hsep.forall_mem ?_ fun t ht => by rw [ht]; rfl, by rw [hclose]; rfl, by simp⟩
    simpa using fun us e => ih (us, e)

theorem exists_literal_of_number (h : number t negative = .ok e) : (∃ i, e = .integer i) ∨ ∃ x, e = .float x := by
  simp only [number] at h
  split at h
  case h_2 => contradiction
  case h_1 literal hliteral =>
    obtain rfl := Except.ok.inj h
    split at hliteral
    case isTrue =>
      obtain ⟨x, -, rfl⟩ := Option.map_eq_some_iff.mp hliteral
      exact .inr ⟨x, rfl⟩
    case isFalse =>
      obtain ⟨i, -, rfl⟩ := Option.map_eq_some_iff.mp hliteral
      exact .inl ⟨i, rfl⟩

theorem isCall_of_number (h : number t negative = .ok e) : e.isCall = false := by
  obtain ⟨i, rfl⟩ | ⟨x, rfl⟩ := exists_literal_of_number h <;> rfl

-- A number that is out of range is no token that is not expected.
theorem cause_of_number (h : number t negative = .error d) : d.cause ≠ .badToken expected got := by
  simp only [number] at h
  split at h
  case h_1 => contradiction
  case h_2 =>
    obtain rfl := Except.error.inj h
    simp [Token.fault]

theorem isCall_addIndex (base i : Expr) : (addIndex base i).isCall = false := by
  cases base <;> rfl

theorem Derives.one_lt_length_of_isCall (h : Derives level n ts e) (he : e.isCall = true) : 1 < ts.length := by
  induction h
  case tighter ih => exact ih he
  case negative hnumber => exact absurd he <| Bool.eq_false_iff.mp <| isCall_of_number hnumber
  case index => exact absurd he <| Bool.eq_false_iff.mp <| isCall_addIndex _ _
  case call => simp; omega
  case parens => simp
  case atom h =>
    obtain _ | _ | _ | _ | _ | ⟨_, hnumber⟩ := h
    case number => exact absurd he <| Bool.eq_false_iff.mp <| isCall_of_number hnumber
    all_goals contradiction
  all_goals contradiction

namespace BindingLevel

variable {level : BindingLevel} {k : Kind}

def operators (level : BindingLevel) : List Operator :=
  Operator.all.filter (·.level = level)

theorem mem_operators {o : Operator} : o ∈ level.operators ↔ o.level = level := by
  have : o ∈ Operator.all := by cases o <;> decide
  simp [operators, this]

theorem rank_le_rank_tighter : level.rank ≤ level.tighter.rank := by
  cases level <;> decide

theorem Stops.tighter (h : level.Stops k) : level.tighter.Stops k where
  suffix        := h.suffix
  operator o ho := Nat.lt_of_lt_of_le (h.operator o ho) rank_le_rank_tighter

theorem Stops.loosen (level : BindingLevel) (h : level.tighter.Stops k) (hnone : ∀ o ∈ level.operators, k ≠ o.kind) :
    level.Stops k where
  suffix := h.suffix
  operator o ho := by
    have hne : o.level ≠ level := fun hlevel => hnone o (mem_operators.mpr hlevel) ho
    have hlt := h.operator o ho
    generalize o.level = l at hne hlt
    cases level <;> cases l <;> simp_all [rank, BindingLevel.tighter]

theorem Stops.ne_kind {o : Operator} (h : level.Stops k) (ho : o ∈ level.operators) : k ≠ o.kind := by
  intro hkind
  have := h.operator o hkind
  rw [mem_operators.mp ho] at this
  exact Nat.lt_irrefl _ this

theorem ne_kind_of_not_isComparison (h : k.isComparison = false) : ∀ o ∈ comparison.operators, k ≠ o.kind := by
  rintro o ho rfl
  have := Operator.isComparison_iff_level.mpr <| mem_operators.mp ho
  rw [Operator.isComparison_kind, this] at h
  contradiction

theorem Stops.not_isComparison (h : comparison.Stops k) : k.isComparison = false := by
  rw [Bool.eq_false_iff]
  intro hk
  obtain ⟨o, hkind, ho⟩ := Operator.exists_of_isComparison hk
  exact h.ne_kind (mem_operators.mpr <| Operator.isComparison_iff_level.mp ho) hkind

-- Before an operator of a looser level, an expression ends.
theorem stops_kind {o : Operator} (h : o.level.rank < level.rank) : level.Stops o.kind where
  suffix := by cases o <;> rfl
  operator o' ho := by
    obtain rfl : o = o' := by
      have := Operator.ofKind?_kind o
      rw [ho, Operator.ofKind?_kind] at this
      exact Option.some.inj this.symm
    exact h

end BindingLevel
end Grammar
end BasicFrontEnd
