import BasicFrontEnd.Proofs.Grammar.Regular
import BasicFrontEnd.Proofs.Writing.RoundTrip

/-!
How high the trees are that are read. The limit on nesting bounds their height only where a chain of operators that
groups to the left counts as one node: such a chain takes no level of nesting. Main statements:
`foldedHeight_le_of_parse` and `height_unbounded`.
-/

namespace BasicFrontEnd

namespace Expr

-- Whether the operator goes on with a chain of operators that it forms one level with. Comparisons make no chains.
def isChain (o : Operator) : Expr → Bool
  | binary o' _ _ => o'.level = o.level && !o.isComparison
  | _             => false

mutual

-- How many nodes there are on the longest branch. An operator makes one node with a left operand that it `merges` with.
def heightBy (merges : Operator → Expr → Bool) : Expr → Nat
  | call _ arguments           => heightsBy merges arguments + 1
  | binary operator left right =>
    max (left.heightBy merges + if merges operator left then 0 else 1) (right.heightBy merges + 1)
  | assign target value        => max (target.heightBy merges) (value.heightBy merges) + 1
  | negate operand             => operand.heightBy merges + 1
  | not operand                => operand.heightBy merges + 1
  | array elements             => heightsBy merges elements + 1
  | index base indices         => max (base.heightBy merges) (heightsBy merges indices) + 1
  | _                          => 1

-- The greatest of the heights.
def heightsBy (merges : Operator → Expr → Bool) : List Expr → Nat
  | []      => 0
  | e :: es => max (e.heightBy merges) (heightsBy merges es)

end

variable {merges : Operator → Expr → Bool}

theorem heightsBy_le_iff {es : List Expr} {n : Nat} : heightsBy merges es ≤ n ↔ ∀ e ∈ es, e.heightBy merges ≤ n := by
  induction es
  case nil => simp [heightsBy]
  case cons ih => simp [heightsBy, ih]

theorem heightsBy_append (es es' : List Expr) :
    heightsBy merges (es ++ es') = max (heightsBy merges es) (heightsBy merges es') := by
  induction es
  case nil => simp [heightsBy]
  case cons ih => simp [heightsBy, ih, Nat.max_assoc]

end Expr

namespace Stmt

mutual

def heightBy (merges : Operator → Expr → Bool) : Stmt → Nat
  | declare _ _ (some e) _         => e.heightBy merges + 1
  -- The body of a function is a node of its own.
  | function _ _ _ body _ _        => heightsBy merges body + 2
  | returning e _                  => e.heightBy merges + 1
  | branch test body none _        => max (test.heightBy merges) (body.heightBy merges) + 1
  | branch test body (some other) _ =>
    max (test.heightBy merges) (max (body.heightBy merges) (other.heightBy merges)) + 1
  | loop test body _               => max (test.heightBy merges) (body.heightBy merges) + 1
  | block body _                   => heightsBy merges body + 1
  | expression e _                 => e.heightBy merges + 1
  | _                              => 1

def heightsBy (merges : Operator → Expr → Bool) : List Stmt → Nat
  | []      => 0
  | s :: ss => max (s.heightBy merges) (heightsBy merges ss)

end

theorem heightsBy_le_iff {merges : Operator → Expr → Bool} {ss : List Stmt} {n : Nat} :
    heightsBy merges ss ≤ n ↔ ∀ s ∈ ss, s.heightBy merges ≤ n := by
  induction ss
  case nil => simp [heightsBy]
  case cons ih => simp [heightsBy, ih]

end Stmt

namespace Program

-- How many nodes of statements and expressions there are on the longest branch.
def height (p : Program) : Nat :=
  Stmt.heightsBy (fun _ _ => false) p.body

-- The height with every chain of operators as one node.
def foldedHeight (p : Program) : Nat :=
  Stmt.heightsBy Expr.isChain p.body

end Program

namespace Grammar

-- How high the expressions of the level may be with `n` levels of nesting left. Each level of nesting adds a node of
-- each level of binding and one for what takes the level.
def BindingLevel.height (level : BindingLevel) (n : Nat) : Nat :=
  7 * n + max 1 (6 - level.rank)

-- The expression is no higher than the level allows, and lower where a node may come on top of it.
structure Low (level : BindingLevel) (n : Nat) (e : Expr) : Prop where
  height : e.heightBy Expr.isChain ≤ level.height n
  chain  : level.joins = true → ∀ o : Operator, o.level = level → e.isChain o = false →
           e.heightBy Expr.isChain + 1 ≤ level.height n
  base   : level = .suffixed ∨ level = .primary → e.isIndex = false → e.heightBy Expr.isChain ≤ max 1 (7 * n)

variable {merges : Operator → Expr → Bool} {level : BindingLevel} {n : Nat} {e : Expr}

theorem heightBy_of_number (h : number t negative = .ok e) : e.heightBy merges = 1 := by
  simp only [number] at h
  split at h
  case h_2 => contradiction
  case h_1 literal hliteral =>
    obtain rfl := Except.ok.inj h
    split at hliteral
    all_goals
      obtain ⟨_, _, rfl⟩ := Option.map_eq_some_iff.mp hliteral
      rfl

theorem Atom.heightBy (h : Atom t e) : e.heightBy merges = 1 := by
  cases h
  case number h => exact heightBy_of_number h
  all_goals rfl

theorem heightBy_addIndex (merges : Operator → Expr → Bool) (base i : Expr) :
    (addIndex base i).heightBy merges ≤
      max (base.heightBy merges + if base.isIndex then 0 else 1) (i.heightBy merges + 1) := by
  cases base
  case index base indices =>
    simp only [addIndex, Expr.heightBy, Expr.heightsBy_append, Expr.heightsBy, Expr.isIndex, if_true]
    omega
  all_goals
    simp only [addIndex, Expr.heightBy, Expr.heightsBy, Expr.isIndex, Bool.false_eq_true, if_false]
    omega

theorem BindingLevel.height_tighter_le : level.tighter.height n ≤ level.height n := by
  have := level.rank_le_rank_tighter
  unfold BindingLevel.height
  omega

theorem BindingLevel.height_of_joins (h : level.joins = true) : level.height n = level.tighter.height n + 1 := by
  cases level <;> first | contradiction | rfl

theorem Low.tighter (h : Low level.tighter n e) : Low level n e where
  height := Nat.le_trans h.height BindingLevel.height_tighter_le
  chain hjoins _ _ _ := BindingLevel.height_of_joins hjoins ▸ Nat.succ_le_succ h.height
  base hlevel := h.base <| by obtain rfl | rfl := hlevel <;> exact .inr rfl

theorem Low.of_le (h : e.heightBy Expr.isChain ≤ max 1 (7 * n)) (hlevel : level = .suffixed ∨ level = .primary) :
    Low level n e where
  height := by obtain rfl | rfl := hlevel <;> simp only [BindingLevel.height, BindingLevel.rank] <;> omega
  chain  := by obtain rfl | rfl := hlevel <;> simp [BindingLevel.joins]
  base   := fun _ _ => h

theorem Low.binary {o : Operator} {left right : Expr} (hcomparison : o.isComparison = false) (hl : Low o.level n left)
    (hr : Low o.level.tighter n right) : Low o.level n (.binary o left right) := by
  have hjoins := BindingLevel.joins_of_not_isComparison hcomparison
  have hlevel : o.level.height n = o.level.tighter.height n + 1 := BindingLevel.height_of_joins hjoins
  have hright := hr.height
  have hleft : left.heightBy Expr.isChain + (if left.isChain o then 0 else 1) ≤ o.level.height n := by
    split
    case isTrue => exact hl.height
    case isFalse hchain => exact hl.chain hjoins o rfl (Bool.eq_false_iff.mpr hchain)
  refine ⟨?_, fun _ o' ho' hchain => ?_, fun hlevel => ?_⟩
  case refine_1 =>
    simp only [Expr.heightBy]
    omega
  case refine_2 =>
    have : o'.isComparison = true := by simpa [Expr.isChain, ho'] using hchain
    rw [Operator.isComparison_iff_level, ho'] at this
    rw [this] at hjoins
    contradiction
  case refine_3 =>
    obtain hlevel | hlevel := hlevel
    all_goals
      rw [hlevel] at hjoins
      contradiction

theorem isIndex_addIndex (base i : Expr) : (addIndex base i).isIndex = true := by
  cases base <;> rfl

theorem Low.addIndex {base i : Expr} (hbase : Low .suffixed (n + 1) base) (hi : Low .disjunction n i) :
    Low .suffixed (n + 1) (addIndex base i) := by
  refine ⟨?_, by simp [BindingLevel.joins], fun _ hindex => ?_⟩
  case refine_1 =>
    have hi : i.heightBy Expr.isChain ≤ 7 * n + 6 := hi.height
    have hsum := heightBy_addIndex Expr.isChain base i
    show _ ≤ 7 * (n + 1) + 1
    cases hindex : base.isIndex
    case true =>
      have : base.heightBy Expr.isChain ≤ 7 * (n + 1) + 1 := hbase.height
      simp only [hindex, if_true] at hsum
      omega
    case false =>
      have : base.heightBy Expr.isChain ≤ max 1 (7 * (n + 1)) := hbase.base (.inl rfl) hindex
      simp only [hindex, Bool.false_eq_true, if_false] at hsum
      omega
  case refine_2 =>
    rw [isIndex_addIndex] at hindex
    contradiction

-- One node on top of expressions a level further in.
theorem Low.heightsBy {parts : List (List Token × Expr)} (h : ∀ part ∈ parts, Low .disjunction n part.2) :
    Expr.heightsBy Expr.isChain (parts.map Prod.snd) + 1 ≤ max 1 (7 * (n + 1)) := by
  have : Expr.heightsBy Expr.isChain (parts.map Prod.snd) ≤ 7 * n + 6 :=
    Expr.heightsBy_le_iff.mpr <| List.forall_mem_map.mpr fun part hpart => (h part hpart).height
  omega

theorem Low.unary {e' : Expr} (h : Low .operand n e) (he : e'.heightBy Expr.isChain = e.heightBy Expr.isChain + 1) :
    Low .operand (n + 1) e' where
  height := by
    have : e.heightBy Expr.isChain ≤ 7 * n + 1 := h.height
    show _ ≤ 7 * (n + 1) + 1
    omega
  chain h := by contradiction
  base h  := by simp at h

theorem Low.comparison {o : Operator} {left right : Expr} (hl : Low .sum n left) (hr : Low .sum n right) :
    Low .comparison n (.binary o left right) where
  height := by
    have hl : left.heightBy Expr.isChain ≤ 7 * n + 3 := hl.height
    have hr : right.heightBy Expr.isChain ≤ 7 * n + 3 := hr.height
    show _ ≤ 7 * n + 4
    simp only [Expr.heightBy]
    split <;> omega
  chain h := by contradiction
  base h  := by simp at h

theorem Derives.low (h : Derives level n ts e) : Low level n e := by
  induction h
  case tighter ih => exact ih.tighter
  case binary hcomparison _ _ ihl ihr => exact .binary hcomparison ihl ihr
  case comparison ihl ihr => exact .comparison ihl ihr
  case negate ih | not ih => exact ih.unary rfl
  case negative h =>
    exact .of_le (Nat.le_trans (Nat.le_of_eq <| heightBy_of_number h) <| Nat.le_max_left 1 _) (.inl rfl)
  case member => exact .of_le (Nat.le_max_left 1 _) (.inl rfl)
  case index ih ihi => exact ih.addIndex ihi
  case call ih => exact .of_le (Low.heightsBy ih) (.inl rfl)
  case atom h => exact .of_le (Nat.le_trans (Nat.le_of_eq h.heightBy) <| Nat.le_max_left 1 _) (.inr rfl)
  case parens ih =>
    exact .of_le (Nat.le_trans ih.height <| Nat.le_trans (Nat.le_succ _) <| Nat.le_max_right 1 _) (.inr rfl)
  case array ih => exact .of_le (Low.heightsBy ih) (.inr rfl)

theorem Derives.heightBy_le (h : Derives .disjunction n ts e) : e.heightBy Expr.isChain ≤ 7 * n + 6 :=
  h.low.height

theorem DeclarationForm.heightBy_le (h : DeclarationForm g n ts next s) : s.heightBy Expr.isChain ≤ 7 * n + 7 := by
  cases h
  case initialized he _ => exact Nat.succ_le_succ he.heightBy_le
  all_goals
    simp only [Stmt.heightBy]
    omega

theorem StmtForm.heightBy_le (h : StmtForm g n Bodies ts next s)
    (hbodies : ∀ {ts close stmts}, Bodies ts close stmts → Stmt.heightsBy Expr.isChain stmts ≤ 7 * n + 1) :
    s.heightBy Expr.isChain ≤ 7 * n + 8 := by
  cases h
  case declaration h => exact Nat.le_succ_of_le h.heightBy_le
  case returning he _ =>
    have := he.heightBy_le
    simp only [Stmt.heightBy]
    omega
  case branch htest _ hyes _ =>
    have := htest.heightBy_le
    have := hbodies hyes
    simp only [Stmt.heightBy]
    omega
  case branchElse htest _ hyes _ hno _ =>
    have := htest.heightBy_le
    have := hbodies hyes
    have := hbodies hno
    simp only [Stmt.heightBy]
    omega
  case loop htest _ hbody _ =>
    have := htest.heightBy_le
    have := hbodies hbody
    simp only [Stmt.heightBy]
    omega
  case call he _ _ _ =>
    have := he.heightBy_le
    simp only [Stmt.heightBy]
    omega
  case assign htarget _ he _ =>
    have := htarget.heightBy_le
    have := he.heightBy_le
    simp only [Stmt.heightBy, Expr.heightBy]
    omega
  all_goals
    simp only [Stmt.heightBy, Expr.heightBy]
    omega

theorem BodyForm.heightsBy_le (h : BodyForm g n ts close stmts) : Stmt.heightsBy Expr.isChain stmts ≤ 7 * n + 1 := by
  induction n generalizing ts close stmts
  case zero => contradiction
  case succ ih =>
    exact Stmt.heightsBy_le_iff.mpr <| Listing.forall_mem h fun hs => hs.heightBy_le ih

theorem TopForm.heightBy_le {isRecord : String → Bool} (h : TopForm isRecord n ts next s) :
    s.heightBy Expr.isChain ≤ 7 * n + 10 := by
  cases h
  case declaration h => exact Nat.le_trans h.heightBy_le (by omega)
  case function hbody _ =>
    exact Nat.add_le_add_right
      (Stmt.heightsBy_le_iff.mpr <| hbody.forall_mem fun hs => hs.heightBy_le BodyForm.heightsBy_le) 2
  case record =>
    simp only [Stmt.heightBy]
    omega

end Grammar

namespace Lexical

theorem Lexeme.kind_ne_eof (h : Lexeme kind text value) : kind ≠ .eof := by
  cases h <;> simp

theorem kind_ne_eof_of_row {s : Source} (h : Row row rest) (offset : Nat) :
    ∀ t ∈ tokensOf s offset row, t.kind ≠ .eof := by
  induction h generalizing offset
  case nil => simp [tokensOf]
  case cons row _ p hcut _ ih =>
    intro t ht
    obtain ht | ht := List.mem_append.mp ht
    case inr => exact ih _ t ht
    case inl =>
      cases hsegment : p.segment
      case lexeme kind value =>
        obtain rfl : t = _ := by simpa [Piece.token?, hsegment] using ht
        have := hcut.spells
        rw [hsegment] at this
        obtain _ | _ | _ | hlexeme := this
        exact hlexeme.kind_ne_eof
      all_goals simp [Piece.token?, hsegment] at ht

-- The tokens of a source end with its end, and begin before it.
theorem framed_of_tokens {s : Source} {stream : Stream} (h : s.tokens = .ok stream) :
    stream.Framed ∧ stream.current.kind ≠ .eof := by
  obtain ⟨row, hrow, -, -, rfl⟩ := exists_row_of_tokens h
  refine ⟨⟨Token.headOf s.lines :: tokensOf s 0 row, _, rfl, rfl, ?_⟩, ?_⟩
  · exact List.forall_mem_cons.mpr ⟨by simp [Token.headOf], kind_ne_eof_of_row hrow 0⟩
  · simp [Stream.ofTokens, Token.headOf]

end Lexical

namespace Program

open Grammar

-- The sum of a name with itself, `n` times over.
def sumOf : Nat → Expr
  | 0     => .identifier "x"
  | n + 1 => .binary .add (sumOf n) (.identifier "x")

-- A variable with such a sum for its value.
def ofSum (n : Nat) : Program :=
  ⟨[.declare "x" ⟨.integer, none, 0⟩ (some (sumOf n)) .nowhere]⟩

theorem isName_x : IsName "x" :=
  ⟨.identifier (by decide) (by simp) fun k => by cases k <;> decide, by decide⟩

theorem plain_sumOf (n : Nat) : (sumOf n).Plain := by
  induction n
  case zero => exact .identifier isName_x
  case succ ih => exact .binary ih (.identifier isName_x)

theorem plain_ofSum (n : Nat) : (ofSum n).Plain :=
  List.forall_mem_singleton.mpr <| .declaration <|
    .declare isName_x (.base (by decide)) (by simp) (by simpa using plain_sumOf n)

theorem lt_height_sumOf (n : Nat) : n < (sumOf n).heightBy fun _ _ => false := by
  induction n
  case zero => decide
  case succ ih =>
    simp only [sumOf, Expr.heightBy, Bool.false_eq_true, if_false]
    omega

-- Parentheses and semicolons only where they are needed.
def sparseStyle : Style :=
  ⟨fun _ => false, fun _ => false, fun _ => false⟩

theorem rank_level_sumOf (n : Nat) : ¬(sumOf n).level.rank < BindingLevel.sum.rank := by
  cases n
  case zero => decide
  case succ => exact Nat.lt_irrefl 3

theorem within_sumOf (level : BindingLevel) (h : level.rank ≤ BindingLevel.sum.rank) (n : Nat) (x : Layout) :
    Layout.within false level (sumOf n).level x = x := by
  have := rank_level_sumOf n
  rw [Layout.within, if_neg]
  simp
  omega

-- The sum takes no level of nesting, however long it is.
theorem nesting_sumOf (n : Nat) : ((sumOf n).layout sparseStyle).nesting = 0 := by
  induction n
  case zero => rfl
  case succ n ih =>
    have hleft := within_sumOf .sum (Nat.le_refl _) n ((sumOf n).layout sparseStyle)
    show max (max (Layout.within false .sum (sumOf n).level _).nesting 0) 0 = 0
    rw [hleft, ih]
    rfl

theorem nesting_ofSum (n : Nat) : ((ofSum n).layout sparseStyle).nesting = 0 := by
  have hwhole := within_sumOf .disjunction (by decide) n ((sumOf n).layout sparseStyle)
  show max (max _ (max _ (Layout.within false .disjunction (sumOf n).level _).nesting)) 0 = 0
  rw [hwhole, nesting_sumOf]
  rfl

theorem lt_height_of_bare_eq {p : Program} (h : p.bare = ofSum n) : n < p.height := by
  obtain ⟨body⟩ := p
  obtain ⟨s, rfl, hs⟩ : ∃ s, body = [s] ∧ s.bare = .declare "x" ⟨.integer, none, 0⟩ (some (sumOf n)) .nowhere := by
    simpa [Program.bare, ofSum, List.map_eq_singleton_iff] using h
  unfold Stmt.bare at hs
  split at hs
  case h_1 =>
    cases hs
    have := lt_height_sumOf n
    simp only [Program.height, Stmt.heightsBy, Stmt.heightBy]
    omega
  all_goals contradiction

theorem exists_parse_of_sum (n : Nat) : ∃ (s : Source) (p : Program), s.parse = .ok p ∧ n < p.height := by
  have hplain := plain_ofSum n
  have hspelled : ((ofSum n).layout sparseStyle).Spelled := hplain.spelled
  obtain ⟨s, hs⟩ := exists_source hspelled
  obtain ⟨stream, ts, eof, htokens, hframed, hbefore, heof, hahead, hts⟩ := hs.tokens fun w hw => (hspelled w hw).fits
  have hnesting : ((ofSum n).layout sparseStyle).nesting ≤ maxNesting := nesting_ofSum n ▸ Nat.zero_le _
  obtain ⟨q, hread, hbare⟩ := hplain.read hframed hbefore heof hahead ⟨hts, hnesting⟩
  refine ⟨s, q, ?_, lt_height_of_bare_eq hbare⟩
  rw [Source.parse, htokens]
  exact hread

-- The height of a tree itself is not bounded: sums of any length are read.
theorem height_unbounded : ¬∃ bound, ∀ (s : Source) (p : Program), s.parse = .ok p → p.height ≤ bound := by
  rintro ⟨bound, hbound⟩
  obtain ⟨s, p, hparse, hlt⟩ := exists_parse_of_sum bound
  exact Nat.not_lt.mpr (hbound s p hparse) hlt

-- Whatever source a program is read from, its height is bounded once chains of operators are folded.
theorem foldedHeight_le_of_parse {s : Source} {p : Program} (h : s.parse = .ok p) :
    p.foldedHeight ≤ 7 * maxNesting + 10 := by
  cases htokens : s.tokens
  case error d =>
    rw [Source.parse, htokens] at h
    cases h
  case ok stream =>
    obtain ⟨hframed, hbefore⟩ := Lexical.framed_of_tokens htokens
    have hread : stream.read.1 = .ok p := by
      rw [Source.parse, htokens] at h
      exact h
    obtain ⟨ts, eof, -, -, hlisting⟩ := listing_of_read hframed hbefore hread
    exact Stmt.heightsBy_le_iff.mpr <| hlisting.forall_mem TopForm.heightBy_le

theorem foldedHeight_le_of_parse_sum :
    ∃ (s : Source) (p : Program), s.parse = .ok p ∧ 1000 < p.height ∧ p.foldedHeight ≤ 7 * maxNesting + 10 := by
  obtain ⟨s, p, hparse, hlt⟩ := exists_parse_of_sum 1000
  exact ⟨s, p, hparse, hlt, foldedHeight_le_of_parse hparse⟩

end Program
end BasicFrontEnd
