import BasicFrontEnd.Proofs.Grammar.Sound

/-!
Whatever is written at a level is read at it, as long as the token behind it does not belong to it.
-/

namespace BasicFrontEnd.Grammar

open Rule State

namespace BindingLevel

variable {level : BindingLevel}

-- The levels of operators that group to the left.
def joins : BindingLevel → Bool
  | disjunction | conjunction | sum | product => true
  | _ => false

-- The rule that reads expressions of the level.
def rule (inner : Inner) (level : BindingLevel) : Rule Expr :=
  let product := binaryLevel product.operators (Grammar.operand inner)
  let sum := binaryLevel sum.operators product
  let comparison := Grammar.comparison sum
  let conjunction := binaryLevel conjunction.operators comparison
  match level with
  | .disjunction         => binaryLevel disjunction.operators conjunction
  | .conjunction         => conjunction
  | .comparison          => comparison
  | .sum                 => sum
  | .product             => product
  | .operand | .suffixed => Grammar.operand inner
  | .primary             => Grammar.primary inner

theorem joins_of_not_isComparison {o : Operator} (h : o.isComparison = false) : o.level.joins = true := by
  cases o <;> first | contradiction | rfl

theorem rule_of_joins {inner : Inner} (h : level.joins = true) :
    level.rule inner = binaryLevel level.operators (level.tighter.rule inner) := by
  cases level <;> first | contradiction | rfl

-- An expression of the level that goes no further may stand before a token of the kind. What goes on behind it, if
-- the level goes on at all, is of the same level.
def Allows (level : BindingLevel) (k : Kind) : Prop :=
  match level with
  | operand | comparison => level.Stops k
  | suffixed | primary   => True
  | _                    => level.tighter.Stops k

theorem Stops.allows {k : Kind} (h : level.Stops k) : level.Allows k := by
  cases level <;> first | exact h | exact h.tighter | trivial

theorem allows_of_joins {k : Kind} (hjoins : level.joins = true) : level.Allows k ↔ level.tighter.Stops k := by
  cases level <;> first | contradiction | rfl

end BindingLevel

-- The rule of the level has come from one state to the other and gathered the expression, but may go on.
inductive Reach (inner : Inner) : BindingLevel → State → Expr → State → Prop
  | binary (hjoins : level.joins = true) (hfirst : (level.tighter.rule inner).Yields s first u)
      (hrounds : Rounds (binaryRound level.operators (level.tighter.rule inner)) first u e t) : Reach inner level s e t
  | comparison (h : (BindingLevel.comparison.rule inner).Yields s e t) : Reach inner .comparison s e t
  | operand (h : (operand inner).Yields s e t) : Reach inner .operand s e t
  | suffixed (hbase : (Grammar.operand inner).outcome s = (suffixes inner base).outcome u)
      (hrounds : Rounds (suffixRound inner) base u e t) : Reach inner .suffixed s e t
  | primary (h : (primary inner).Yields s e t) : Reach inner .primary s e t

namespace Reach

variable {inner : Inner} {level : BindingLevel} {s t : State} {e : Expr}

theorem yields (h : Reach inner level s e t) (hstops : level.Stops t.peek.kind) : (level.rule inner).Yields s e t := by
  cases h
  case binary hjoins hfirst hrounds =>
    rw [BindingLevel.rule_of_joins hjoins, binaryLevel_eq, yields_bind]
    exact ⟨_, _, hfirst, hrounds.yields <| binaryRound_done.mpr ⟨fun _ => hstops.ne_kind, rfl, rfl⟩⟩
  case suffixed hbase hrounds =>
    exact hbase.trans <| hrounds.yields <| suffixRound_done.mpr ⟨hstops.suffix, rfl, rfl⟩
  case comparison h => exact h
  case operand h => exact h
  case primary h => exact h

theorem exists_rounds (h : Reach inner level s e t) (hjoins : level.joins = true) :
    ∃ first u, (level.tighter.rule inner).Yields s first u ∧
      Rounds (binaryRound level.operators (level.tighter.rule inner)) first u e t := by
  cases h
  case binary hfirst hrounds => exact ⟨_, _, hfirst, hrounds⟩
  all_goals contradiction

theorem of_suffixed (h : Reach inner .suffixed s e t) :
    ∃ base u, (Grammar.operand inner).outcome s = (suffixes inner base).outcome u ∧
      Rounds (suffixRound inner) base u e t := by
  cases h
  case suffixed hbase hrounds => exact ⟨_, _, hbase, hrounds⟩
  case binary => contradiction

theorem of_primary (h : Reach inner .primary s e t) : (Grammar.primary inner).Yields s e t := by
  cases h
  case primary h => exact h
  case binary => contradiction

end Reach

-- From fewer than `bound` tokens before the end, the rule reads the tokens and answers the value, if the kind of token
-- behind them stops it.
def Recognizes (rule : Rule α) (Stops : Kind → Prop) (n bound : Nat) (ts : List Token) (a : α) : Prop :=
  ∀ s t, s.Framed → s.Opens n → s.ahead.length < bound → s.Reads ts t → Stops t.peek.kind → rule.Yields s a t

-- The tokens take the rule of the level to the expression.
def Completes (level : BindingLevel) (n : Nat) (ts : List Token) (e : Expr) : Prop :=
  ∀ left s t, s.Framed → s.Opens n → s.ahead.length ≤ left.length → s.Reads ts t → level.Allows t.peek.kind →
    Reach (inner left) level s e t

variable {s t u : State} {e : Expr} {n bound : Nat} {level : BindingLevel} {ts us left : List Token}

theorem Completes.expr (left : List Token) (h : Completes .disjunction n ts e) :
    Recognizes (inner left).expr BindingLevel.disjunction.Stops n left.length ts e := by
  intro s t hs hopens hlt hread hstops
  obtain ⟨_, left, rfl⟩ := List.exists_cons_of_length_pos (Nat.zero_lt_of_lt hlt)
  exact (h left s t hs hopens (Nat.le_of_lt_succ hlt) hread hstops.allows).yields hstops

theorem Completes.unary (left : List Token) (h : Completes .operand n ts e) :
    Recognizes (inner left).unary BindingLevel.operand.Stops n left.length ts e := by
  intro s t hs hopens hlt hread hstops
  obtain ⟨_, left, rfl⟩ := List.exists_cons_of_length_pos (Nat.zero_lt_of_lt hlt)
  exact (h left s t hs hopens (Nat.le_of_lt_succ hlt) hread hstops.allows).yields hstops

theorem Recognizes.nested {rule : Rule Expr} (h : Recognizes rule Stops n bound ts e) (hs : s.Framed)
    (hopens : s.Opens (n + 1)) (hlt : s.ahead.length < bound) (hread : s.Reads ts t)
    (hstops : Stops t.peek.kind) : (nested rule).Yields s e t :=
  yields_nested.mpr ⟨hopens.hasRoom, t.deeper, h _ _ hs.deeper hopens.deeper hlt hread.deeper hstops, rfl⟩

theorem stops_symbol {symbol : Symbol} (h : symbol ∈ [.comma, .closeParen, .closeBracket, .closeCurly]) :
    level.Stops (.symbol symbol) where
  suffix := by
    simp only [List.mem_cons, List.not_mem_nil, or_false] at h
    obtain rfl | rfl | rfl | rfl := h <;> rfl
  operator o ho := by
    simp only [List.mem_cons, List.not_mem_nil, or_false] at h
    obtain rfl | rfl | rfl | rfl := h <;> cases o <;> contradiction

-- The items but the first are read by rounds.
theorem rounds_of_separated {item : Rule α} {Stops : Kind → Prop} {part : List Token × α}
    {parts : List (List Token × α)} (hparts : ∀ part' ∈ part :: parts, Recognizes item Stops n bound part'.1 part'.2)
    (hsep : Separated ((part :: parts).map Prod.fst) ts) (hcommas : Stops (.symbol .comma)) (hs : s.Framed)
    (hopens : s.Opens n) (hlt : s.ahead.length < bound) (hread : s.Reads ts t) (hstops : Stops t.peek.kind)
    (items : List α) :
    ∃ u, s.Reads part.1 u ∧ item.Yields s part.2 u ∧
      Rounds (commaRound item) (part.2 :: items) u (((part :: parts).map Prod.snd).reverse ++ items) t := by
  induction parts generalizing part ts s items
  case nil =>
    obtain _ | _ := hsep
    exact ⟨t, hread, hparts part (by simp) s t hs hopens hlt hread hstops, .nil⟩
  case cons next parts ih =>
    obtain _ | _ | ⟨hcomma, hsep⟩ := hsep
    obtain ⟨u, hu, rfl, hread, hframed, hopens', hlength, hsu⟩ := hread.split hs hopens
    have hfirst := hparts part (by simp) s u hs hopens hlt hu (hcomma ▸ hcommas)
    obtain ⟨v, hv, hnext, hrounds⟩ := ih (fun part' h => hparts part' <| List.mem_cons_of_mem _ h) hsep hframed hopens'
      (by omega) hread (part.2 :: items)
    have huv := hv.length_le hframed
    refine ⟨u, hu, hfirst, .cons (commaRound_again.mpr ⟨hcomma, _, hnext, rfl⟩) (by omega) ?_⟩
    simpa using hrounds

theorem separated_yields {item : Rule α} {Stops : Kind → Prop} {parts : List (List Token × α)} (hne : parts ≠ [])
    (hparts : ∀ part ∈ parts, Recognizes item Stops n bound part.1 part.2)
    (hsep : Separated (parts.map Prod.fst) ts) (hcommas : Stops (.symbol .comma)) (hs : s.Framed) (hopens : s.Opens n)
    (hlt : s.ahead.length < bound) (hread : s.Reads ts t) (hstops : Stops t.peek.kind)
    (hcomma : t.peek.kind ≠ .symbol .comma) : (separated item).Yields s (parts.map Prod.snd) t := by
  obtain ⟨part, parts, rfl⟩ := List.exists_cons_of_ne_nil hne
  obtain ⟨u, _, hfirst, hrounds⟩ := rounds_of_separated hparts hsep hcommas hs hopens hlt hread hstops []
  rw [separated_eq, yields_bind]
  exact ⟨_, u, hfirst, hrounds.yields <| commaRound_done.mpr ⟨hcomma, by simp, rfl⟩⟩

theorem arguments_yields_of_separated {item : Rule Expr} {parts : List (List Token × Expr)} {closing : Token}
    (hparts : ∀ part ∈ parts, Recognizes item BindingLevel.disjunction.Stops n bound part.1 part.2)
    (hderives : ∀ part ∈ parts, Derives .disjunction n part.1 part.2)
    (hsep : Separated (parts.map Prod.fst) ts) (hs : s.Framed) (hopens : s.Opens n) (hlt : s.ahead.length < bound)
    (hread : s.Reads (ts ++ [closing]) t) (hclose : closing.kind = .symbol .closeParen) :
    (arguments item).Yields s (parts.map Prod.snd) t := by
  obtain ⟨u, hitems, rfl, -, rfl⟩ := Reads.snoc_iff.mp hread
  cases parts
  case nil =>
    obtain _ | _ := hsep
    obtain rfl := Reads.nil_iff.mp hitems
    exact arguments_yields.mpr <| .inl ⟨hclose, rfl, rfl⟩
  case cons part parts =>
    have hpeek : s.peek.kind ≠ .symbol .closeParen := by
      obtain ⟨v, rest, hfirst, hbegins⟩ := (hderives part (by simp)).exists_head
      obtain ⟨vs, rfl⟩ := hsep.exists_append
      rw [hfirst] at hitems
      obtain ⟨rfl, _⟩ := Reads.cons_iff.mp hitems
      intro h
      simp [h, Kind.beginsExpr] at hbegins
    refine arguments_yields.mpr <| .inr ⟨hpeek, u, ?_, hclose, rfl⟩
    exact separated_yields (List.cons_ne_nil _ _) hparts hsep (stops_symbol (by simp)) hs hopens hlt hitems
      (hclose ▸ stops_symbol (by simp)) (by simp [hclose])

namespace Completes

theorem tighter (h : Completes level.tighter n ts e) : Completes level n ts e := by
  intro left s t hs hopens hle hread hallows
  have hreach := h left s t hs hopens hle hread
  cases level
  case disjunction | conjunction | sum | product =>
    exact .binary rfl (hreach hallows.allows |>.yields hallows) .nil
  case comparison =>
    have := hreach hallows.tighter.allows |>.yields hallows.tighter
    exact .comparison <| comparison_yields.mpr ⟨hallows.not_isComparison, .inl this⟩
  case operand => exact .operand <| hreach hallows.tighter.allows |>.yields hallows.tighter
  case suffixed =>
    exact .suffixed (outcome_operand_of_primary (hreach trivial).of_primary) .nil
  case primary => exact hreach hallows

theorem binary {o : Operator} {operator : Token} {l r : Expr} (hkind : operator.kind = o.kind)
    (hcomparison : o.isComparison = false) (hl : Completes o.level n ts l) (hr : Completes o.level.tighter n us r) :
    Completes o.level n (ts ++ operator :: us) (.binary o l r) := by
  intro left s t hs hopens hle hread hallows
  obtain ⟨u, hts, rfl, hus, hframed, hopens', hlength, hsu⟩ := hread.split hs hopens
  have hjoins := BindingLevel.joins_of_not_isComparison hcomparison
  have hstops := (BindingLevel.allows_of_joins hjoins).mp hallows
  have hallows : o.level.Allows u.peek.kind :=
    (BindingLevel.allows_of_joins hjoins).mpr <| hkind ▸ BindingLevel.stops_kind o.rank_level_lt
  obtain ⟨first, v, hfirst, hrounds⟩ := (hl left s u hs hopens hle hts hallows).exists_rounds hjoins
  have hlt := hus.length_le hframed
  have hright := hr left u.next t hframed hopens' (by omega) hus hstops.allows |>.yields hstops
  refine .binary hjoins hfirst <| hrounds.snoc (binaryRound_again.mpr ?_) (by omega)
  exact ⟨o, r, BindingLevel.mem_operators.mpr rfl, hkind, hright, rfl⟩

theorem comparison {o : Operator} {operator : Token} {l r : Expr} (hkind : operator.kind = o.kind)
    (hcomparison : o.isComparison = true) (hl : Completes .sum n ts l) (hr : Completes .sum n us r) :
    Completes .comparison n (ts ++ operator :: us) (.binary o l r) := by
  intro left s t hs hopens hle hread hallows
  obtain ⟨u, hts, rfl, hus, hframed, hopens', hlength, hsu⟩ := hread.split hs hopens
  have hrank : o.level.rank < BindingLevel.sum.rank := by
    rw [Operator.isComparison_iff_level.mp hcomparison]
    decide
  have hleft : BindingLevel.sum.Stops u.peek.kind := hkind ▸ BindingLevel.stops_kind hrank
  have hl := hl left s u hs hopens hle hts hleft.allows |>.yields hleft
  have hr := hr left u.next t hframed hopens' (by omega) hus hallows.tighter.allows |>.yields hallows.tighter
  exact .comparison <| comparison_yields.mpr
    ⟨hallows.not_isComparison, .inr ⟨l, u, o, r, hl, hcomparison, hkind, hr, rfl⟩⟩

theorem negate {minus : Token} (hminus : minus.kind = .symbol .minus)
    (hnumber : ∀ t ∈ ts.head?, t.kind.isNumber = false) (hne : ts ≠ []) (he : Completes .operand n ts e) :
    Completes .operand (n + 1) (minus :: ts) (.negate e) := by
  intro left s t hs hopens hle hread hallows
  obtain ⟨rfl, hpeek, hread⟩ := Reads.cons_iff.mp hread
  have hlength := hs.length_next_lt
  have hhead : s.next.peek.kind.isNumber = false := hnumber _ <| hread.peek_mem_head hne
  have := (he.unary left).nested (hs.next hpeek) ((Reads.single hpeek).opens hopens) (by omega) hread hallows
  exact .operand <| operand_yields.mpr <| .inr <| .inl ⟨hminus, hhead, e, this, rfl⟩

theorem not {bang : Token} (hbang : bang.kind = .symbol .bang) (he : Completes .operand n ts e) :
    Completes .operand (n + 1) (bang :: ts) (.not e) := by
  intro left s t hs hopens hle hread hallows
  obtain ⟨rfl, hpeek, hread⟩ := Reads.cons_iff.mp hread
  have hlength := hs.length_next_lt
  have := (he.unary left).nested (hs.next hpeek) ((Reads.single hpeek).opens hopens) (by omega) hread hallows
  exact .operand <| operand_yields.mpr <| .inr <| .inr <| .inl ⟨hbang, e, this, rfl⟩

theorem negative {minus digits : Token} (hminus : minus.kind = .symbol .minus) (hnumber : digits.kind.isNumber = true)
    (he : number digits true = .ok e) : Completes .suffixed n [minus, digits] e := by
  intro left s t hs hopens hle hread hallows
  obtain ⟨rfl, hpeek, hread⟩ := Reads.cons_iff.mp hread
  obtain ⟨rfl, hnext, hnil⟩ := Reads.cons_iff.mp hread
  obtain rfl := Reads.nil_iff.mp hnil
  exact .suffixed (outcome_operand_of_negative hminus hnumber he) .nil

theorem member {record : String} {dot field : Token} (he : Completes .suffixed n ts (.identifier record))
    (hdot : dot.kind = .symbol .dot) (hfield : field.kind = .identifier) :
    Completes .suffixed n (ts ++ [dot, field]) (.member record field.value) := by
  intro left s t hs hopens hle hread hallows
  obtain ⟨u, hts, rfl, hread, hframed, -, hlength, -⟩ := hread.split hs hopens
  obtain ⟨rfl, -, hnil⟩ := Reads.cons_iff.mp hread
  obtain rfl := Reads.nil_iff.mp hnil
  obtain ⟨base, v, hbase, hrounds⟩ := (he left s u hs hopens hle hts trivial).of_suffixed
  have hlength' := hframed.length_next_lt
  refine .suffixed hbase <| hrounds.snoc (suffixRound_again.mpr <| .inl ?_) (by omega)
  exact ⟨hdot, record, rfl, hfield, rfl, rfl⟩

theorem index {opening closing : Token} {base i : Expr} (he : Completes .suffixed (n + 1) ts base)
    (hopen : opening.kind = .symbol .openBracket) (hi : Completes .disjunction n us i)
    (hclose : closing.kind = .symbol .closeBracket) :
    Completes .suffixed (n + 1) (ts ++ opening :: (us ++ [closing])) (addIndex base i) := by
  intro left s t hs hopens hle hread hallows
  obtain ⟨u, hts, rfl, hread, hframed, hopens', hlength, hsu⟩ := hread.split hs hopens
  obtain ⟨v, hus, rfl, -, rfl⟩ := Reads.snoc_iff.mp hread
  obtain ⟨base, w, hbase, hrounds⟩ := (he left s u hs hopens hle hts trivial).of_suffixed
  have huv := hus.length_le hframed
  have hlength' := (hus.framed hframed).length_next_lt
  have hi := (hi.expr left).nested hframed hopens' (by omega) hus (hclose ▸ stops_symbol (by simp))
  refine .suffixed hbase <| hrounds.snoc (suffixRound_again.mpr <| .inr <| .inl ?_) (by omega)
  exact ⟨hopen, i, v, hi, hclose, rfl, rfl⟩

theorem call {callee : String} {opening closing : Token} {parts : List (List Token × Expr)}
    (he : Completes .suffixed (n + 1) ts (.identifier callee)) (hopen : opening.kind = .symbol .openParen)
    (hderives : ∀ part ∈ parts, Derives .disjunction n part.1 part.2)
    (hparts : ∀ part ∈ parts, Completes .disjunction n part.1 part.2)
    (hsep : Separated (parts.map Prod.fst) us) (hclose : closing.kind = .symbol .closeParen) :
    Completes .suffixed (n + 1) (ts ++ opening :: (us ++ [closing])) (.call callee (parts.map Prod.snd)) := by
  intro left s t hs hopens hle hread hallows
  obtain ⟨u, hts, rfl, hus, hframed, hopens', hlength, hsu⟩ := hread.split hs hopens
  obtain ⟨base, w, hbase, hrounds⟩ := (he left s u hs hopens hle hts trivial).of_suffixed
  have huv := hus.length_le hframed
  have harguments := arguments_yields_of_separated (fun part h => (hparts part h).expr left) hderives hsep
    hframed.deeper hopens'.deeper (show _ < left.length by simp; omega) hus.deeper hclose
  refine .suffixed hbase <| hrounds.snoc (suffixRound_again.mpr <| .inr <| .inr ?_) (by omega)
  exact ⟨hopen, callee, _, rfl, yields_nested.mpr ⟨hopens'.hasRoom, _, harguments, rfl⟩, rfl⟩

theorem atom {v : Token} (h : Atom v e) : Completes .primary n [v] e := by
  intro left s t hs hopens hle hread hallows
  obtain ⟨rfl, hv, hnil⟩ := Reads.cons_iff.mp hread
  obtain rfl := Reads.nil_iff.mp hnil
  exact .primary <| primary_yields.mpr <| .inl ⟨h, rfl⟩

theorem parens {opening closing : Token} (hopen : opening.kind = .symbol .openParen)
    (he : Completes .disjunction n ts e) (hclose : closing.kind = .symbol .closeParen) :
    Completes .primary (n + 1) (opening :: (ts ++ [closing])) e := by
  intro left s t hs hopens hle hread hallows
  obtain ⟨rfl, hs', hread⟩ := Reads.cons_iff.mp hread
  obtain ⟨u, hts, rfl, -, rfl⟩ := Reads.snoc_iff.mp hread
  have hlength := hs.length_next_lt
  have he := (he.expr left).nested (hs.next hs') ((Reads.single hs').opens hopens) (by omega) hts
    (hclose ▸ stops_symbol (by simp))
  exact .primary <| primary_yields.mpr <| .inr <| .inl ⟨hopen, u, he, hclose, rfl⟩

theorem array {opening closing : Token} {parts : List (List Token × Expr)}
    (hopen : opening.kind = .symbol .openCurly) (hne : parts ≠ [])
    (hparts : ∀ part ∈ parts, Completes .disjunction n part.1 part.2)
    (hsep : Separated (parts.map Prod.fst) ts) (hclose : closing.kind = .symbol .closeCurly) :
    Completes .primary (n + 1) (opening :: (ts ++ [closing])) (.array (parts.map Prod.snd)) := by
  intro left s t hs hopens hle hread hallows
  obtain ⟨rfl, hs', hread⟩ := Reads.cons_iff.mp hread
  obtain ⟨u, hts, rfl, -, rfl⟩ := Reads.snoc_iff.mp hread
  have hlength := hs.length_next_lt
  have hopens' := (Reads.single hs').opens hopens
  have hlt : s.next.deeper.ahead.length < left.length := by
    rw [ahead_deeper]
    omega
  have hstops : BindingLevel.disjunction.Stops u.deeper.peek.kind := by
    rw [peek_deeper, hclose]
    exact stops_symbol (by simp)
  have helements := separated_yields hne (fun part h => (hparts part h).expr left) hsep (stops_symbol (by simp))
    (hs.next hs').deeper hopens'.deeper hlt hts.deeper hstops (by simp [hclose])
  refine .primary <| primary_yields.mpr <| .inr <| .inr ?_
  exact ⟨hopen, _, u, yields_nested.mpr ⟨hopens'.hasRoom, _, helements, rfl⟩, hclose, rfl, rfl⟩

end Completes

theorem Derives.completes (h : Derives level n ts e) : Completes level n ts e := by
  induction h
  case tighter ih => exact ih.tighter
  case binary hkind hcomparison _ _ ihl ihr => exact .binary hkind hcomparison ihl ihr
  case comparison hkind hcomparison _ _ ihl ihr => exact .comparison hkind hcomparison ihl ihr
  case negate hminus hnumber he ih => exact .negate hminus hnumber he.ne_nil ih
  case negative hminus hnumber he => exact .negative hminus hnumber he
  case not hbang _ ih => exact .not hbang ih
  case member _ hdot hfield ih => exact ih.member hdot hfield
  case index _ hopen _ hclose ih ihi => exact ih.index hopen ihi hclose
  case call _ hopen hderives hsep hclose ih ihparts => exact ih.call hopen hderives ihparts hsep hclose
  case atom h => exact .atom h
  case parens hopen _ hclose ih => exact .parens hopen ih hclose
  case array hopen hne _ hsep hclose ih => exact .array hopen hne ih hsep hclose

-- Where an expression is written, and nothing behind it goes on with it, it is read.
theorem Derives.yields (h : Derives .disjunction n ts e) (hs : s.Framed) (hopens : s.Opens n) (hread : s.Reads ts t)
    (hstops : BindingLevel.disjunction.Stops t.peek.kind) : expr.Yields s e t := by
  simp only [Grammar.expr, yields_bind, yields_get]
  exact ⟨_, _, ⟨rfl, rfl⟩, h.completes.expr _ s t hs hopens (Nat.lt_succ_self _) hread hstops⟩

-- Expressions are read exactly where the grammar has them: the rule answers `e` and stops in `t` iff the tokens up to
-- there write `e` with no more levels of nesting than are left, and the next token does not go on with it.
theorem expr_yields_iff_derives {limit : Nat} (hs : s.Framed) (hlimit : s.limit = some limit)
    (hdepth : s.depth ≤ limit) :
    expr.Yields s e t ↔
      ∃ ts, s.Reads ts t ∧ Derives .disjunction (limit - s.depth) ts e ∧
        BindingLevel.disjunction.Stops t.peek.kind := by
  have hleaves : s.Leaves (limit - s.depth) := by rw [Leaves, hlimit, Nat.add_sub_cancel' hdepth]
  constructor
  case mp => exact reader_expr _ _ _ _ hleaves
  case mpr =>
    rintro ⟨ts, hread, hderives, hstops⟩
    exact hderives.yields hs hleaves.opens hread hstops

-- Before the first token of `-5+x`.
def negativeNumberPlusName : State :=
  .ofStream <| .ofTokens ⟨.head, "", .start, "-5+x"⟩
    [⟨.symbol .minus, "-", ⟨1, 1⟩, "-5+x"⟩, ⟨.integer, "5", ⟨1, 2⟩, "-5+x"⟩, ⟨.symbol .plus, "+", ⟨1, 3⟩, "-5+x"⟩,
     ⟨.identifier, "x", ⟨1, 4⟩, "-5+x"⟩, ⟨.eof, "", ⟨1, 5⟩, "-5+x"⟩]

theorem expr_yields_negative_number_plus_name :
    ∃ t, t.peek.kind = .eof ∧
      expr.Yields negativeNumberPlusName (.binary .add (.integer (-5)) (.identifier "x")) t := by
  have hs : negativeNumberPlusName.Framed := ⟨⟨[_, _, _, _, _], _, rfl, rfl, by decide⟩, by decide⟩
  have hread : negativeNumberPlusName.Reads [_, _, _, _] _ :=
    .cons (by decide) <| .cons (by decide) <| .cons (by decide) <| .cons (by decide) .nil
  have hleft : Derives .sum maxNesting [⟨.symbol .minus, "-", ⟨1, 1⟩, "-5+x"⟩, ⟨.integer, "5", ⟨1, 2⟩, "-5+x"⟩] _ :=
    .tighter <| .tighter <| .tighter <| .negative rfl rfl rfl
  have hright : Derives .product maxNesting [⟨.identifier, "x", ⟨1, 4⟩, "-5+x"⟩] _ :=
    .tighter <| .tighter <| .tighter <| .atom <| .identifier rfl
  have hsum : Derives Operator.add.level maxNesting _ _ :=
    .binary (t := ⟨.symbol .plus, "+", ⟨1, 3⟩, "-5+x"⟩) rfl rfl hleft hright
  refine ⟨_, rfl, (expr_yields_iff_derives hs rfl (by decide)).mpr ⟨_, hread, ?_, by decide, ?_⟩⟩
  · exact .tighter <| .tighter <| .tighter hsum
  · rintro (_ | _) h <;> contradiction

end BasicFrontEnd.Grammar
