import BasicFrontEnd.Proofs.Grammar.Progress
import Mathlib.Data.List.Forall2

/-!
Where statements are due while a body is read, and the statements that are expressions among them: these are what the
trail of the run is marked with, in the order in which the tree of the body has them. Main statement: `body_marks`.
-/

namespace BasicFrontEnd

namespace Stmt

mutual

-- The statements that are expressions, each with its place, in the order of the source.
def expressions : Stmt → List (Expr × Position)
  | .function _ _ _ body _ _     => expressionsOfAll body
  | .branch _ body otherwise _ =>
    body.expressions ++
      match otherwise with
      | none   => []
      | some s => s.expressions
  | .loop _ body _               => body.expressions
  | .block body _                => expressionsOfAll body
  | .expression e p              => [(e, p)]
  | _                            => []

def expressionsOfAll : List Stmt → List (Expr × Position)
  | []      => []
  | s :: ss => s.expressions ++ expressionsOfAll ss

end

theorem expressionsOfAll_eq_flatMap (ss : List Stmt) : expressionsOfAll ss = ss.flatMap expressions := by
  induction ss
  case nil => rfl
  case cons ih => rw [expressionsOfAll, ih, List.flatMap_cons]

end Stmt

namespace Grammar

open Rule State

section Headers

variable {s t : State} {body : BodyRule}

instance : ifHeader.Advances := by
  unfold ifHeader
  infer_instance

instance : whileHeader.Advances := by
  unfold whileHeader
  infer_instance

instance : ifHeader.Moves := by
  unfold ifHeader
  infer_instance

instance : whileHeader.Moves := by
  unfold whileHeader
  infer_instance

theorem peek_of_ifHeader_yields (h : ifHeader.Yields s header t) : s.peek.kind = .keyword .ifWord := by
  simp only [ifHeader, yields_bind, yields_expect] at h
  obtain ⟨_, _, ⟨hif, -⟩, -⟩ := h
  exact hif

theorem peek_of_whileHeader_yields (h : whileHeader.Yields s header t) : s.peek.kind = .keyword .whileWord := by
  simp only [whileHeader, yields_bind, yields_expect] at h
  obtain ⟨_, _, ⟨hwhile, -⟩, -⟩ := h
  exact hwhile

end Headers

mutual

-- While one statement is read from the first state, a statement is due in the second.
inductive DueWithin : State → State → Prop
  | here : DueWithin s s
  | yes  : ifHeader.Yields s header t → t.hasRoom = true → Due t.deeper u → DueWithin s u
  | no   : ifHeader.Yields s header t →
           (nested (body (.keyword .endWord) [.keyword .elseWord])).Yields t block v →
           v.peek.kind = .keyword .elseWord → v.next.hasRoom = true → Due v.next.deeper u → DueWithin s u
  | loop : whileHeader.Yields s header t → t.hasRoom = true → Due t.deeper u → DueWithin s u

-- While statements are read from the first state, one behind the other, a statement is due in the second.
inductive Due : State → State → Prop
  | first : DueWithin s u → Due s u
  | next  : stmt.Yields s a t → Due t u → Due s u

end

-- A statement that is due here begins as an expression does, and not as a declaration.
structure State.BeginsExpression (u : State) : Prop where
  begins : u.peek.kind.beginsExpr = true
  other  : u.peek.kind = .identifier → u.next.peek.kind ≠ .symbol .colon

-- The statement that is read from here is the expression, at the place.
def State.ReadsExpression (u : State) (x : Expr × Position) : Prop :=
  ∃ t, stmt.Yields u (.expression x.1 x.2) t

section Begins

variable {s t u : State}

theorem beginsExpr_of_operand_yields {inner : Inner} (h : (operand inner).Yields s e t) :
    s.peek.kind.beginsExpr = true := by
  obtain ⟨hminus, -⟩ | ⟨hminus, -⟩ | ⟨hbang, -⟩ | ⟨-, -, _, _, hprimary, -⟩ := operand_yields.mp h
  case inr.inr.inr =>
    obtain ⟨hatom, -⟩ | ⟨hopen, -⟩ | ⟨hopen, -⟩ := primary_yields.mp hprimary
    case inl => exact hatom.beginsExpr
    all_goals simp [hopen, Kind.beginsExpr]
  all_goals simp [*, Kind.beginsExpr]

theorem beginsExpr_of_expr_yields (h : expr.Yields s e t) : s.peek.kind.beginsExpr = true := by
  unfold Yields at h
  rw [outcome_expr, Stream.rest, outcome_expr_inner] at h
  have h : (disjunction (inner s.ahead)).Yields s e t := h
  simp only [disjunction, binaryLevel_eq, comparison_eq, yields_bind] at h
  obtain ⟨_, _, ⟨_, _, ⟨_, _, ⟨_, _, ⟨_, _, hoperand, -⟩, -⟩, -⟩, -⟩, -⟩ := h
  exact beginsExpr_of_operand_yields hoperand

theorem beginsExpr_of_expressionStmt_yields (h : expressionStmt.Yields s a t) : s.peek.kind.beginsExpr = true := by
  simp only [expressionStmt, yields_bind, yields_peek] at h
  obtain ⟨_, _, ⟨-, rfl⟩, _, _, hexpr, -⟩ := h
  exact beginsExpr_of_expr_yields hexpr

theorem expressions_of_expressionStmt_yields (h : expressionStmt.Yields s a t) : ∃ e p, a = .expression e p := by
  obtain ⟨v, u, -, h⟩ := yields_bind.mp h
  obtain ⟨e, u, -, h⟩ := yields_bind.mp h
  rcases yields_if_accept.mp h with ⟨-, h⟩ | ⟨-, h⟩
  case inl =>
    simp only [yields_bind, yields_pure] at h
    obtain ⟨_, _, -, rfl, -⟩ := h
    exact ⟨_, _, rfl⟩
  case inr =>
    split at h
    case isTrue =>
      obtain ⟨rfl, -⟩ := yields_pure.mp h
      exact ⟨_, _, rfl⟩
    case isFalse => exact absurd h yields_unexpected

theorem expressions_of_declaration_yields {name : Token} (h : (declaration name).Yields s a t) :
    a.expressions = [] := by
  simp only [declaration, yields_bind, yields_expect, yields_peek, yields_get] at h
  obtain ⟨_, _, -, _, _, -, _, _, -, h⟩ := h
  split at h
  case isTrue =>
    obtain ⟨_, _, -, h⟩ := yields_bind.mp h
    rcases yields_if_accept.mp h with ⟨-, h⟩ | ⟨-, h⟩
    case inl =>
      simp only [yields_bind, yields_pure] at h
      obtain ⟨_, _, -, rfl, -⟩ := h
      rfl
    case inr =>
      obtain ⟨rfl, -⟩ := yields_pure.mp h
      rfl
  case isFalse =>
    obtain ⟨rfl, -⟩ := yields_pure.mp h
    rfl

theorem expressions_of_gotoStmt_yields (h : gotoStmt.Yields s a t) : a.expressions = [] := by
  simp only [gotoStmt, yields_bind, yields_pure] at h
  obtain ⟨_, _, -, _, _, -, rfl, -⟩ := h
  rfl

theorem expressions_of_returnStmt_yields (h : returnStmt.Yields s a t) : a.expressions = [] := by
  simp only [returnStmt, yields_bind, yields_get] at h
  obtain ⟨_, _, -, _, _, -, h⟩ := h
  split at h
  case isTrue =>
    obtain ⟨rfl, -⟩ := yields_pure.mp h
    rfl
  case isFalse =>
    simp only [yields_bind, yields_pure] at h
    obtain ⟨_, _, -, rfl, -⟩ := h
    rfl

theorem exists_stmt_yields (h : (unended body).Yields s a t) : ∃ u, stmt.Yields s a u := by
  by_cases hsemicolon : t.peek.kind = .symbol .semicolon
  case pos => exact ⟨t.next, yields_ended.mpr ⟨t, h, .inl ⟨hsemicolon, rfl⟩⟩⟩
  case neg => exact ⟨t, yields_ended.mpr ⟨t, h, .inr ⟨hsemicolon, rfl⟩⟩⟩

theorem beginsStmt_of_stmt_yields (h : stmt.Yields s a t) : s.peek.kind.beginsStmt = true := by
  simp only [stmt, stmtWith_eq] at h
  obtain ⟨_, h, -⟩ := yields_ended.mp h
  simp only [unended, yields_bind, yields_peekKind, and_assoc, exists_and_left, exists_eq_left] at h
  split at h
  case h_6 => simp [Kind.beginsStmt, beginsExpr_of_expressionStmt_yields h]
  all_goals
    rename_i hpeek
    simp [hpeek, Kind.beginsStmt, Kind.beginsExpr]

theorem eq_of_dueWithin (hif : s.peek.kind ≠ .keyword .ifWord) (hwhile : s.peek.kind ≠ .keyword .whileWord)
    (h : DueWithin s u) : u = s := by
  obtain _ | ⟨hheader, -⟩ | ⟨hheader, -⟩ | ⟨hheader, -⟩ := h
  case here => rfl
  case yes | no => exact absurd (peek_of_ifHeader_yields hheader) hif
  case loop => exact absurd (peek_of_whileHeader_yields hheader) hwhile

-- Where no statement begins, none is due but here.
theorem eq_of_due_of_beginsStmt (hbegins : s.peek.kind.beginsStmt = false) (h : Due s u) : u = s := by
  cases h
  case first h =>
    refine eq_of_dueWithin ?_ ?_ h
    all_goals
      intro hpeek
      rw [hpeek] at hbegins
      contradiction
  case next h _ => simp [beginsStmt_of_stmt_yields h] at hbegins

end Begins

-- Run from the state, the rule leaves a trail that is marked with the states which are due and in which an expression
-- begins; and if the rule answers, then with one for each of the expressions that are found in the answer, in the
-- same order.
def Rule.Marks (rule : Rule α) (s : State) (Due : State → Prop) (Found : α → List (Expr × Position) → Prop) : Prop :=
  ∃ us, s.track.Trail us (rule.outcome s).2.track ∧ (∀ u, u ∈ us ↔ Due u ∧ u.BeginsExpression) ∧
    ∀ a t, rule.Yields s a t → ∃ xs, Found a xs ∧ List.Forall₂ ReadsExpression us xs

section Marks

variable {s t : State} {x y : Rule α} {f : α → Rule β} {DueX DueY : State → Prop}
  {FoundX FoundY : α → List (Expr × Position) → Prop} {FoundF : β → List (Expr × Position) → Prop}

namespace Rule.Marks

theorem of_outcome (h : x.Marks s DueX FoundX) (houtcome : y.outcome s = x.outcome s) : y.Marks s DueX FoundX := by
  unfold Marks Yields at *
  rwa [houtcome]

theorem due (h : x.Marks s DueX FoundX) (hdue : ∀ u, u.BeginsExpression → (DueX u ↔ DueY u)) :
    x.Marks s DueY FoundX := by
  obtain ⟨us, htrail, hmarked, hread⟩ := h
  exact ⟨us, htrail, fun u => (hmarked u).trans <| and_congr_left (hdue u), hread⟩

theorem found (h : x.Marks s DueX FoundX) (hfound : ∀ {a t xs}, x.Yields s a t → FoundX a xs → FoundY a xs) :
    x.Marks s DueX FoundY := by
  obtain ⟨us, htrail, hmarked, hread⟩ := h
  refine ⟨us, htrail, hmarked, fun a t h => ?_⟩
  obtain ⟨xs, hxs, hus⟩ := hread a t h
  exact ⟨xs, hfound h hxs, hus⟩

theorem bind {DueF : α → State → State → Prop} {FoundA : α → β → List (Expr × Position) → Prop}
    (hx : x.Marks s DueX FoundX) (hf : ∀ a t, x.Yields s a t → (f a).Marks t (DueF a t) (FoundA a))
    (hfound : ∀ {a b xs ys}, FoundX a xs → FoundA a b ys → FoundF b (xs ++ ys)) :
    (x >>= f).Marks s (fun u => DueX u ∨ ∃ a t, x.Yields s a t ∧ DueF a t u) FoundF := by
  obtain ⟨us, htrail, hmarked, hread⟩ := hx
  have houtcome := outcome_bind x f s
  rcases hr : x.outcome s with ⟨_ | a, t⟩
  case error =>
    rw [hr] at htrail houtcome
    have hnone (u : State) : ¬∃ a t, x.Yields s a t ∧ DueF a t u := by
      rintro ⟨a, t, hyields, -⟩
      exact nomatch hr.symm.trans hyields
    refine ⟨us, houtcome ▸ htrail, fun u => ?_, fun _ _ h => nomatch houtcome.symm.trans h⟩
    simp only [hmarked, or_iff_left (hnone u)]
  case ok =>
    rw [hr] at htrail houtcome
    obtain ⟨vs, htrail', hmarked', hread'⟩ := hf a t hr
    obtain ⟨xs, hxs, hus⟩ := hread a t hr
    refine ⟨us ++ vs, houtcome ▸ htrail.append htrail', fun u => ?_, fun b v h => ?_⟩
    case refine_1 =>
      have hrest : (∃ a t, x.Yields s a t ∧ DueF a t u) ↔ DueF a t u := by
        constructor
        case mp =>
          rintro ⟨a', t', hyields, hdue⟩
          obtain ⟨⟨⟩, rfl⟩ := Prod.mk.inj (hr.symm.trans hyields)
          exact hdue
        case mpr => exact fun hdue => ⟨a, t, hr, hdue⟩
      simp only [List.mem_append, hmarked, hmarked', hrest]
      tauto
    case refine_2 =>
      obtain ⟨ys, hys, hvs⟩ := hread' b v (houtcome.symm.trans h)
      exact ⟨xs ++ ys, hfound hxs hys, List.rel_append hus hvs⟩

theorem of_reads (h : s.Reads ts (x.outcome s).2) (hfound : ∀ {a t}, x.Yields s a t → FoundX a []) :
    x.Marks s (fun _ => False) FoundX :=
  ⟨[], .of_reads h, by simp, fun _ _ h => ⟨[], hfound h, .nil⟩⟩

theorem unmarked [hx : x.Advances] : x.Marks s (fun _ => False) fun _ xs => xs = [] := by
  obtain ⟨ts, hts⟩ := hx.leads s
  exact .of_reads hts fun _ => rfl

-- Behind the rule nothing more is due.
theorem bind_unmarked [hf : ∀ a, (f a).Advances] (hx : x.Marks s DueX FoundX)
    (hfound : ∀ {a t b u xs}, FoundX a xs → (f a).Yields t b u → FoundF b xs) : (x >>= f).Marks s DueX FoundF := by
  have hrest (a : α) (t : State) (_ : x.Yields s a t) :
      (f a).Marks t (fun _ => False) fun b xs => xs = [] ∧ ∃ t u, (f a).Yields t b u :=
    unmarked.found fun h hxs => ⟨hxs, _, _, h⟩
  refine (bind hx hrest ?_).due fun u _ => by simp
  rintro a b xs ys hxs ⟨rfl, t, u, h⟩
  rw [List.append_nil]
  exact hfound hxs h

-- Before the rest nothing is due.
theorem unmarked_bind [x.Advances] {DueF : α → State → State → Prop}
    (hf : ∀ a t, x.Yields s a t → (f a).Marks t (DueF a t) FoundF) :
    (x >>= f).Marks s (fun u => ∃ a t, x.Yields s a t ∧ DueF a t u) FoundF := by
  refine (bind unmarked hf ?_).due fun u _ => by simp
  rintro a b xs ys rfl hys
  exact hys

theorem withResultType (type : TypeSpec) (h : x.Marks (s.inFunction type) DueX FoundX) :
    (withResultType type x).Marks s DueX FoundX := by
  obtain ⟨us, htrail, hmarked, hread⟩ := h
  refine ⟨us, htrail, hmarked, fun a t h => ?_⟩
  obtain ⟨u, hu, rfl⟩ := yields_withResultType.mp h
  exact hread a u hu

theorem nested (h : x.Marks s.deeper DueX FoundX) : x.nested.Marks s (fun u => s.hasRoom = true ∧ DueX u) FoundX := by
  unfold Marks Yields at *
  rw [outcome_nested]
  by_cases hroom : s.hasRoom = true
  case pos =>
    obtain ⟨us, htrail, hmarked, hread⟩ := h
    rw [if_pos hroom]
    refine ⟨us, htrail, fun u => by simp [hmarked u, hroom], fun a t hyields => ?_⟩
    exact hread a _ (Prod.ext (Prod.mk.inj hyields).1 rfl)
  case neg =>
    rw [if_neg hroom]
    exact ⟨[], .nil, by simp [hroom], fun _ _ h => nomatch h⟩

-- What a round has found, if it goes on with something or stops with something.
def foundIn (held : β → List (Expr × Position)) (result : γ → List (Expr × Position)) (b : β) :
    Round β γ → List (Expr × Position) → Prop
  | .again b', xs => held b' = held b ++ xs
  | .done c, xs   => result c = held b ++ xs

-- What follows a round: more of them if it goes on, and else nothing.
theorem afterRound {held : β → List (Expr × Position)} {result : γ → List (Expr × Position)} (b : β) {r : Round β γ}
    {more : β → Rule γ} :
    (∀ b', r = .again b' → (more b').Marks s DueX fun c xs => result c = held b' ++ xs) →
      (match r with
        | .again b' => more b'
        | .done c   => return c : Rule γ).Marks s
        (fun u => ∃ b', r = .again b' ∧ DueX u)
        (fun c ys => ∀ xs, foundIn held result b r xs → result c = held b ++ (xs ++ ys)) := by
  intro hmore
  cases r
  case again b' =>
    refine ((hmore b' rfl).found fun {c _ ys} _ hc xs hxs => ?_).due fun u _ => by simp
    have hxs : held b' = held b ++ xs := hxs
    rw [hc, hxs, List.append_assoc]
  case done c =>
    refine (unmarked.found ?_).due fun u _ => by simp
    rintro a t ys hpure rfl xs hxs
    obtain ⟨rfl, -⟩ := yields_pure.mp hpure
    rw [List.append_nil]
    exact hxs

-- Rounds that hold expressions, each of them some more than the one before.
theorem repeatFrom {round : β → Rule (Round β γ)} {DueRound DueLoop : State → State → Prop}
    {held : β → List (Expr × Position)} {result : γ → List (Expr × Position)} {bound : Nat} {b : β}
    [∀ b, (round b).Trails]
    (hmoves : ∀ {b s b' t}, s.Framed → (round b).Yields s (.again b') t → t.ahead.length < s.ahead.length)
    (hround : ∀ {b s}, s.Framed → s.ahead.length ≤ bound →
      (round b).Marks s (DueRound s) (foundIn held result b))
    (hdue : ∀ {b s u}, u.BeginsExpression →
      (DueRound s u ∨ (∃ b' t, (round b).Yields s (.again b') t ∧ DueLoop t u) ↔ DueLoop s u))
    (hs : s.Framed) (hle : s.ahead.length ≤ bound) :
    (repeatFrom round b).Marks s (DueLoop s) fun c xs => result c = held b ++ xs := by
  have hwithin {left : List Token} {b : β} {s : State} (hs : s.Framed) (hle : s.ahead.length ≤ bound)
      (hleft : s.ahead.length ≤ left.length) :
      (repeatWithin round left b).Marks s (DueLoop s) fun c xs => result c = held b ++ xs := by
    induction left generalizing b s
    case nil => simp [hs.ahead_eq_cons] at hleft
    case cons v left ih =>
      have hmore {r : Round β γ} {t : State} (hr : (round b).Yields s r t) (b' : β) (hagain : r = .again b') :
          (repeatWithin round left b').Marks t (DueLoop t) fun c xs => result c = held b' ++ xs := by
        have hlt := hmoves hs (hagain ▸ hr)
        exact ih (Trails.framed_of_yields hs hr) (by omega) (by simp at hleft; omega)
      refine ((hround hs hle).bind (fun _ _ hr => afterRound b (hmore hr)) fun hxs hys => hys _ hxs).due fun u hu => ?_
      rw [← @hdue b s u hu]
      constructor
      case mp =>
        rintro (h | ⟨_, t, hr, b', rfl, h⟩)
        case inl => exact .inl h
        case inr => exact .inr ⟨b', t, hr, h⟩
      case mpr =>
        rintro (h | ⟨b', t, hr, h⟩)
        case inl => exact .inl h
        case inr => exact .inr ⟨_, t, hr, b', rfl, h⟩
  exact (hwithin hs hle (Nat.le_succ _)).of_outcome (outcome_repeatFrom round b s)

end Rule.Marks

end Marks

section Stmts

-- The rule for bodies marks its trail where no more than so many tokens remain.
def MarksBodies (bound : Nat) : Prop :=
  ∀ {s others}, s.Framed → s.ahead.length ≤ bound → (∀ k ∈ others, k.beginsStmt = false) →
    (body (.keyword .endWord) others).Marks s (Due s) fun b xs => xs = Stmt.expressionsOfAll b.stmts

variable {s t u : State} {bound : Nat}

theorem MarksBodies.nested {others : List Kind} (h : MarksBodies bound) (hs : s.Framed) (hle : s.ahead.length ≤ bound)
    (hothers : ∀ k ∈ others, k.beginsStmt = false) :
    (nested (body (.keyword .endWord) others)).Marks s (fun u => s.hasRoom = true ∧ Due s.deeper u)
      fun b xs => xs = Stmt.expressionsOfAll b.stmts :=
  (h hs.deeper hle hothers).nested

theorem otherwise_marks (h : MarksBodies bound) (hs : s.Framed) (hle : s.ahead.length ≤ bound) :
    (otherwise body).Marks s
      (fun u => s.peek.kind = .keyword .elseWord ∧ s.next.hasRoom = true ∧ Due s.next.deeper u)
      fun no xs => xs = no.elim [] Stmt.expressions := by
  have hrest (hasElse : Bool) (t : State) (ht : (accept (.keyword .elseWord)).Yields s hasElse t) :
      (if hasElse then do
          let no ← nested (body (.keyword .endWord) [])
          return some (.block no.stmts no.position)
        else return none : Rule (Option Stmt)).Marks t
      (fun u => hasElse = true ∧ t.hasRoom = true ∧ Due t.deeper u) fun no xs => xs = no.elim [] Stmt.expressions := by
    obtain ⟨helse, rfl, rfl⟩ | ⟨-, rfl, rfl⟩ := yields_accept.mp ht
    case inl =>
      have hle' : s.next.ahead.length ≤ bound := Nat.le_trans (Nat.le_of_lt hs.length_next_lt) hle
      refine ((h.nested (hs.next (by simp [helse])) hle' (by simp)).bind_unmarked ?_).due fun u _ => by simp
      rintro no t _ u xs rfl hpure
      obtain ⟨rfl, -⟩ := yields_pure.mp hpure
      rfl
    case inr =>
      rw [if_neg Bool.false_ne_true]
      refine (Marks.unmarked.found ?_).due fun u _ => by simp
      rintro _ t xs hpure rfl
      obtain ⟨rfl, -⟩ := yields_pure.mp hpure
      rfl
  refine (Marks.unmarked_bind hrest).due fun u _ => ?_
  simp only [yields_accept]
  constructor
  case mp =>
    rintro ⟨_, _, ⟨helse, -, rfl⟩ | ⟨-, rfl, rfl⟩, h⟩
    case inl => exact ⟨helse, h.2⟩
    case inr => simp at h
  case mpr =>
    rintro ⟨helse, h⟩
    exact ⟨true, s.next, .inl ⟨helse, rfl, rfl⟩, rfl, h⟩

-- What follows the header of an `if`.
theorem branches_marks (h : MarksBodies bound) (hs : s.Framed) (hle : s.ahead.length ≤ bound)
    (header : Expr × Position) :
    (do let yes ← nested (body (.keyword .endWord) [.keyword .elseWord])
        let no ← otherwise body
        let _ ← expect (.keyword .endWord)
        return .branch header.1 (.block yes.stmts yes.position) no header.2 : Rule Stmt).Marks s
      (fun u => (s.hasRoom = true ∧ Due s.deeper u) ∨ ∃ yes t,
        (nested (body (.keyword .endWord) [.keyword .elseWord])).Yields s yes t ∧
          t.peek.kind = .keyword .elseWord ∧ t.next.hasRoom = true ∧ Due t.next.deeper u)
      fun a xs => xs = a.expressions := by
  have hothers : ∀ k ∈ [Kind.keyword .elseWord], k.beginsStmt = false := by simp [Kind.beginsStmt, Kind.beginsExpr]
  have hrest (yes : Body) (t : State)
      (ht : (Rule.nested (body (.keyword .endWord) [.keyword .elseWord])).Yields s yes t) :
      (do let no ← otherwise body
          let _ ← expect (.keyword .endWord)
          return .branch header.1 (.block yes.stmts yes.position) no header.2 : Rule Stmt).Marks t
        (fun u => t.peek.kind = .keyword .elseWord ∧ t.next.hasRoom = true ∧ Due t.next.deeper u)
        fun a xs => a.expressions = Stmt.expressionsOfAll yes.stmts ++ xs := by
    have hle' : t.ahead.length ≤ bound := Nat.le_trans (Trails.length_le_of_yields hs ht) hle
    refine (otherwise_marks h (Trails.framed_of_yields hs ht) hle').bind_unmarked ?_
    rintro no v a w xs rfl hend
    simp only [yields_bind, yields_pure] at hend
    obtain ⟨_, _, -, rfl, -⟩ := hend
    cases no <;> rfl
  refine (h.nested hs hle hothers).bind hrest ?_
  rintro yes a xs ys rfl hexpressions
  exact hexpressions.symm

theorem ifStmt_marks (h : MarksBodies bound) (hs : s.Framed) (hle : s.ahead.length ≤ bound + 1)
    (hif : s.peek.kind = .keyword .ifWord) :
    (ifStmt body).Marks s (DueWithin s) fun a xs => xs = a.expressions := by
  rw [ifStmt_eq]
  refine (Marks.unmarked_bind fun header t ht => branches_marks h (Trails.framed_of_yields hs ht) ?_ header).due
    fun u hu => ?_
  case refine_1 =>
    have hlt := Moves.moves hs _ t ht
    omega
  case refine_2 =>
    constructor
    case mp =>
      rintro ⟨header, t, ht, ⟨hroom, hdue⟩ | ⟨yes, v, hyes, helse, hroom, hdue⟩⟩
      case inl => exact .yes ht hroom hdue
      case inr => exact .no ht hyes helse hroom hdue
    case mpr =>
      rintro (_ | ⟨ht, hroom, hdue⟩ | ⟨ht, hyes, helse, hroom, hdue⟩ | ⟨ht, -⟩)
      case here =>
        have hbegins := hu.begins
        rw [hif] at hbegins
        contradiction
      case yes => exact ⟨_, _, ht, .inl ⟨hroom, hdue⟩⟩
      case no => exact ⟨_, _, ht, .inr ⟨_, _, hyes, helse, hroom, hdue⟩⟩
      case loop =>
        have hwhile := peek_of_whileHeader_yields ht
        rw [hif] at hwhile
        contradiction

theorem whileStmt_marks (h : MarksBodies bound) (hs : s.Framed) (hle : s.ahead.length ≤ bound + 1)
    (hwhile : s.peek.kind = .keyword .whileWord) :
    (whileStmt body).Marks s (DueWithin s) fun a xs => xs = a.expressions := by
  have hrest (header : Expr × Position) (t : State) (ht : whileHeader.Yields s header t) :
      (do let block ← nested (body (.keyword .endWord) [])
          let _ ← expect (.keyword .endWord)
          return .loop header.1 (.block block.stmts block.position) header.2 : Rule Stmt).Marks t
        (fun u => t.hasRoom = true ∧ Due t.deeper u) fun a xs => xs = a.expressions := by
    have hlt := Moves.moves hs _ t ht
    refine (h.nested (Trails.framed_of_yields hs ht) (by omega) (by simp)).bind_unmarked ?_
    rintro block u a v xs rfl hend
    simp only [yields_bind, yields_pure] at hend
    obtain ⟨_, _, -, rfl, -⟩ := hend
    rfl
  rw [whileStmt_eq]
  refine (Marks.unmarked_bind hrest).due fun u hu => ?_
  constructor
  case mp =>
    rintro ⟨header, t, ht, hroom, hdue⟩
    exact .loop ht hroom hdue
  case mpr =>
    rintro (_ | ⟨ht, -⟩ | ⟨ht, -⟩ | ⟨ht, hroom, hdue⟩)
    case here =>
      have hbegins := hu.begins
      rw [hwhile] at hbegins
      contradiction
    case loop => exact ⟨_, _, ht, hroom, hdue⟩
    all_goals
      have hif := peek_of_ifHeader_yields ht
      rw [hwhile] at hif
      contradiction

-- A statement with no statement within is marked by itself if it is an expression.
theorem marks_of_reads {rule : Rule Stmt} (hreads : s.Reads ts (rule.outcome s).2) (hnone : ¬s.BeginsExpression)
    (hexpressions : ∀ {a t}, rule.Yields s a t → a.expressions = [])
    (hif : s.peek.kind ≠ .keyword .ifWord) (hwhile : s.peek.kind ≠ .keyword .whileWord) :
    rule.Marks s (DueWithin s) fun a xs => xs = a.expressions := by
  refine (Marks.of_reads hreads fun h => (hexpressions h).symm).due fun u hu => iff_of_false id fun hdue => ?_
  exact hnone <| eq_of_dueWithin hif hwhile hdue ▸ hu

theorem marks_of_expression {rule : Rule Stmt} (htrail : s.track.Trail [s] (rule.outcome s).2.track)
    (hbegins : s.BeginsExpression) (hexpression : ∀ {a t}, rule.Yields s a t → ∃ e p, a = .expression e p)
    (hstmt : rule.outcome s = (unended body).outcome s) (hif : s.peek.kind ≠ .keyword .ifWord)
    (hwhile : s.peek.kind ≠ .keyword .whileWord) : rule.Marks s (DueWithin s) fun a xs => xs = a.expressions := by
  refine ⟨[s], htrail, fun u => ?_, fun a t h => ?_⟩
  case refine_1 =>
    rw [List.mem_singleton]
    constructor
    case mp =>
      rintro rfl
      exact ⟨.here, hbegins⟩
    case mpr =>
      rintro ⟨hdue, -⟩
      exact eq_of_dueWithin hif hwhile hdue
  case refine_2 =>
    obtain ⟨e, p, rfl⟩ := hexpression h
    have hreads : s.ReadsExpression (e, p) := exists_stmt_yields (hstmt.symm.trans h)
    exact ⟨_, rfl, .cons hreads .nil⟩

theorem outcome_unended (body : BodyRule) (s : State) :
    (unended body).outcome s =
      (match s.peek.kind with
        | .identifier          => namedStmt
        | .keyword .gotoWord   => gotoStmt
        | .keyword .ifWord     => ifStmt body
        | .keyword .whileWord  => whileStmt body
        | .keyword .returnWord => returnStmt
        | _                    => expressionStmt).outcome s :=
  rfl

theorem namedStmt_marks (hs : s.Framed) (hname : s.peek.kind = .identifier)
    (hstmt : (unended body).outcome s = namedStmt.outcome s) :
    namedStmt.Marks s (DueWithin s) fun a xs => xs = a.expressions := by
  have hif : s.peek.kind ≠ .keyword .ifWord := by simp [hname]
  have hwhile : s.peek.kind ≠ .keyword .whileWord := by simp [hname]
  by_cases hcolon : s.next.peek.kind = .symbol .colon
  case pos =>
    have houtcome : namedStmt.outcome s = (declaration s.peek).outcome s.next := by
      have hcolon (x y : Rule Stmt) : (if s.next.peek.kind = .symbol .colon then x else y) = x := if_pos hcolon
      simp only [namedStmt, outcome_bind, outcome_consume]
      exact congrFun (hcolon _ _) s.next
    obtain ⟨ts, hts⟩ := (inferInstance : (declaration s.peek).Advances).leads s.next
    have hreads : s.Reads (s.peek :: ts) (namedStmt.outcome s).2 := houtcome ▸ .cons (by simp [hname]) hts
    refine marks_of_reads hreads (fun hbegins => hbegins.other hname hcolon) (fun h => ?_) hif hwhile
    exact expressions_of_declaration_yields (houtcome.symm.trans h)
  case neg =>
    have hbegins : s.BeginsExpression := ⟨by simp [hname, Kind.beginsExpr], fun _ => hcolon⟩
    have houtcome := outcome_namedStmt hcolon
    obtain ⟨ts, hts⟩ := expressionStmt_leads (hs.peek_back.symm ▸ hname)
    refine marks_of_expression (.twice rfl hname (houtcome ▸ .of_reads hts)) hbegins (fun h => ?_) hstmt.symm hif hwhile
    exact expressions_of_expressionStmt_yields (houtcome.symm.trans h)

theorem unended_marks (h : MarksBodies bound) (hs : s.Framed) (hle : s.ahead.length ≤ bound + 1) :
    (unended body).Marks s (DueWithin s) fun a xs => xs = a.expressions := by
  have houtcome := outcome_unended body s
  split at houtcome
  case h_1 hname => exact (namedStmt_marks hs hname houtcome).of_outcome houtcome
  case h_2 hgoto =>
    obtain ⟨ts, hts⟩ := (inferInstance : gotoStmt.Advances).leads s
    have hnone : ¬s.BeginsExpression := fun hbegins => by simpa [hgoto, Kind.beginsExpr] using hbegins.begins
    exact (marks_of_reads hts hnone expressions_of_gotoStmt_yields (by simp [hgoto]) (by simp [hgoto])).of_outcome
      houtcome
  case h_3 hif => exact (ifStmt_marks h hs hle hif).of_outcome houtcome
  case h_4 hwhile => exact (whileStmt_marks h hs hle hwhile).of_outcome houtcome
  case h_5 hreturn =>
    obtain ⟨ts, hts⟩ := (inferInstance : returnStmt.Advances).leads s
    have hnone : ¬s.BeginsExpression := fun hbegins => by simpa [hreturn, Kind.beginsExpr] using hbegins.begins
    exact (marks_of_reads hts hnone expressions_of_returnStmt_yields (by simp [hreturn]) (by simp [hreturn])).of_outcome
      houtcome
  case h_6 hname _ hif hwhile _ =>
    obtain ⟨ts, hts⟩ := (inferInstance : expressionStmt.Advances).leads s
    refine Marks.of_outcome ?_ houtcome
    by_cases hbegins : s.peek.kind.beginsExpr = true
    case pos =>
      exact marks_of_expression (.other rfl hname (.of_reads hts)) ⟨hbegins, fun h => absurd h hname⟩
        expressions_of_expressionStmt_yields houtcome.symm hif hwhile
    case neg =>
      refine marks_of_reads hts (fun h => hbegins h.begins) (fun h => ?_) hif hwhile
      exact absurd (beginsExpr_of_expressionStmt_yields h) hbegins

theorem stmt_marks (h : MarksBodies bound) (hs : s.Framed) (hle : s.ahead.length ≤ bound + 1) :
    stmt.Marks s (DueWithin s) fun a xs => xs = a.expressions := by
  rw [stmt, stmtWith_eq]
  refine (unended_marks h hs hle).bind_unmarked ?_
  rintro a t b u xs rfl hend
  simp only [yields_bind, yields_pure] at hend
  obtain ⟨_, _, -, rfl, -⟩ := hend
  rfl

-- Where no statement begins, no expression is due.
theorem not_due_of_beginsStmt (hbegins : s.peek.kind.beginsStmt = false) (hu : u.BeginsExpression) : ¬Due s u := by
  intro hdue
  obtain rfl := eq_of_due_of_beginsStmt hbegins hdue
  simp [Kind.beginsStmt, hu.begins] at hbegins

theorem due_iff : Due s u ↔ DueWithin s u ∨ ∃ a t, stmt.Yields s a t ∧ Due t u := by
  constructor
  case mp =>
    rintro (h | ⟨hstmt, h⟩)
    case first => exact .inl h
    case next => exact .inr ⟨_, _, hstmt, h⟩
  case mpr =>
    rintro (h | ⟨a, t, hstmt, h⟩)
    case inl => exact .first h
    case inr => exact .next hstmt h

theorem bodyRound_marks {others : List Kind} {stmts : List Stmt} (h : MarksBodies bound) (hs : s.Framed)
    (hle : s.ahead.length ≤ bound + 1) (hothers : ∀ k ∈ others, k.beginsStmt = false) :
    (bodyRound stmt (.keyword .endWord) others stmts).Marks s (DueWithin s)
      (Marks.foundIn (fun stmts => Stmt.expressionsOfAll stmts.reverse) Stmt.expressionsOfAll stmts) := by
  have hround : (bodyRound stmt (.keyword .endWord) others stmts).outcome s =
      (if s.peek.kind = .keyword .endWord ∨ s.peek.kind ∈ others then pure (.done stmts.reverse)
        else if s.peek.kind = .eof then unexpected (Kind.keyword .endWord).describe
        else stmt >>= fun a => pure (.again (a :: stmts))).outcome s := rfl
  refine Marks.of_outcome ?_ hround
  have hhalts (hbegins : s.peek.kind.beginsStmt = false) (u : State) (hu : u.BeginsExpression) :
      False ↔ DueWithin s u :=
    iff_of_false id fun h => not_due_of_beginsStmt hbegins hu (.first h)
  split
  case isTrue hclose =>
    have hbegins : s.peek.kind.beginsStmt = false := by
      obtain hend | hother := hclose
      case inl => rw [hend]; rfl
      case inr => exact hothers _ hother
    refine (Marks.unmarked.found ?_).due (hhalts hbegins)
    rintro r t xs hpure rfl
    obtain ⟨rfl, -⟩ := yields_pure.mp hpure
    exact (List.append_nil _).symm
  case isFalse =>
    split
    case isTrue heof =>
      have hbegins : s.peek.kind.beginsStmt = false := by rw [heof]; rfl
      exact (Marks.unmarked.found fun h _ => absurd h yields_unexpected).due (hhalts hbegins)
    case isFalse =>
      refine (stmt_marks h hs hle).bind_unmarked ?_
      rintro a t r u xs rfl hpure
      obtain ⟨rfl, -⟩ := yields_pure.mp hpure
      simp [Marks.foundIn, Stmt.expressionsOfAll_eq_flatMap]

theorem marksBodies (bound : Nat) : MarksBodies bound := by
  induction bound
  case zero =>
    intro s others hs hle
    simp [hs.ahead_eq_cons] at hle
  case succ bound ih =>
    intro s others hs hle hothers
    have hrounds : (repeatFrom (bodyRound stmt (.keyword .endWord) others) []).Marks s (Due s)
        fun stmts xs => Stmt.expressionsOfAll stmts = [] ++ xs := by
      refine Marks.repeatFrom (fun hs h => ?_) (fun hs hle => bodyRound_marks ih hs hle hothers)
        (fun {stmts t u} hu => ?_) hs hle
      case refine_1 =>
        obtain ⟨-, -, -, a, ha, -⟩ := bodyRound_again.mp h
        exact Moves.moves hs a _ ha
      case refine_2 =>
        rw [due_iff]
        refine or_congr_right ⟨?_, ?_⟩
        case refine_1 =>
          rintro ⟨_, v, h, hdue⟩
          obtain ⟨-, -, -, a, ha, -⟩ := bodyRound_again.mp h
          exact ⟨a, v, ha, hdue⟩
        case refine_2 =>
          rintro ⟨a, v, ha, hdue⟩
          have hbegins := beginsStmt_of_stmt_yields ha
          have hother (k : Kind) (hk : k.beginsStmt = false) : t.peek.kind ≠ k := fun h => by simp [h, hk] at hbegins
          refine ⟨_, v, bodyRound_again.mpr ⟨hother _ rfl, fun h => ?_, hother _ rfl, a, ha, rfl⟩, hdue⟩
          exact hother _ (hothers _ h) rfl
    have hbody : (repeatFrom (bodyRound stmt (.keyword .endWord) others) [] >>=
        fun stmts => (pure ⟨stmts, s.peek.position⟩ : Rule Body)).Marks s (Due s)
          fun b xs => xs = Stmt.expressionsOfAll b.stmts := by
      refine hrounds.bind_unmarked ?_
      intro stmts t b u xs hexpressions hpure
      obtain ⟨rfl, -⟩ := yields_pure.mp hpure
      exact hexpressions.symm
    exact hbody.of_outcome (outcome_body hs _ _)

end Stmts

end Grammar
end BasicFrontEnd
