import BasicFrontEnd.Proofs.Grammar.Regular
import BasicFrontEnd.Proofs.Grammar.Unrolled

/-!
Reading makes progress and ends. Main statement: `progresses_and_ends`.
-/

namespace BasicFrontEnd

-- How many tokens lie behind the current one.
def Stream.cursor (s : Stream) : Nat :=
  s.behind.length

namespace Grammar

open Rule State

-- If the rule answers, it leaves fewer tokens ahead than there are in the state.
def Rule.MovesFrom (rule : Rule α) (s : State) : Prop :=
  ∀ a t, rule.Yields s a t → t.ahead.length < s.ahead.length

class Rule.Moves (rule : Rule α) : Prop where
  moves : ∀ {s}, s.Framed → rule.MovesFrom s

section Combinators

variable {s t : State} {x : Rule α} {f : α → Rule β}

theorem Rule.Trails.framed_of_yields [hx : x.Trails] (hs : s.Framed) (h : x.Yields s a t) : t.Framed := by
  have hframed := hx.framed hs
  rwa [show x.outcome s = (.ok a, t) from h] at hframed

theorem Rule.Trails.length_le_of_yields [hx : x.Trails] (hs : s.Framed) (h : x.Yields s a t) :
    t.ahead.length ≤ s.ahead.length := by
  have hle := hx.length_le hs
  rwa [show x.outcome s = (.ok a, t) from h] at hle

theorem Rule.movesFrom_unexpected {expected : String} : (unexpected expected : Rule α).MovesFrom s :=
  fun _ _ h => absurd h yields_unexpected

theorem Rule.MovesFrom.peekKind_bind {f : Kind → Rule β} (h : (f s.peek.kind).MovesFrom s) :
    (peekKind >>= f).MovesFrom s :=
  h

-- Behind a token that has been looked at, any rule will do.
theorem Rule.MovesFrom.step {f : Token → Rule β} (hf : (f s.peek).Trails) (hs : s.Framed)
    (hpeek : s.peek.kind ≠ .eof) : (consume >>= f).MovesFrom s := by
  intro b t h
  obtain ⟨v, u, hu, h⟩ := yields_bind.mp h
  obtain ⟨rfl, rfl⟩ := yields_consume.mp hu
  exact Nat.lt_of_le_of_lt (Trails.length_le_of_yields (hs.next hpeek) h) hs.length_next_lt

namespace Rule.Moves

theorem bind [x.Trails] (hx : x.Moves) (hf : ∀ a, (f a).Trails) : (x >>= f).Moves where
  moves hs b t h := by
    obtain ⟨a, u, hu, h⟩ := yields_bind.mp h
    exact Nat.lt_of_le_of_lt (Trails.length_le_of_yields (Trails.framed_of_yields hs hu) h) (hx.moves hs a u hu)

instance [hx : x.Moves] [x.Trails] [hf : ∀ a, (f a).Trails] : (x >>= f).Moves :=
  .bind hx hf

-- The rest may be what moves.
theorem bind_right [x.Trails] (hf : ∀ a, (f a).Moves) : (x >>= f).Moves where
  moves hs b t h := by
    obtain ⟨a, u, hu, h⟩ := yields_bind.mp h
    have hlt := (hf a).moves (Trails.framed_of_yields hs hu) b t h
    exact Nat.lt_of_lt_of_le hlt (Trails.length_le_of_yields hs hu)

instance {kind : Kind} : (expect kind).Moves where
  moves hs v t h := by
    obtain ⟨-, -, rfl⟩ := yields_expect.mp h
    exact hs.length_next_lt

end Rule.Moves

end Combinators

section Exprs

instance : typeSpec.Moves where
  moves {s} hs := by
    refine .peekKind_bind ?_
    split
    case isTrue hword => exact .step inferInstance hs (ne_eof_of_isTypeKeyword hword)
    case isFalse =>
      split
      case isTrue hname => exact .step inferInstance hs (by simp [hname])
      case isFalse => exact movesFrom_unexpected

variable {inner : Inner} [inner.expr.Advances]

instance : (primary inner).Moves where
  moves {s} hs := by
    refine .peekKind_bind ?_
    split
    case h_10 => exact movesFrom_unexpected
    all_goals
      rename_i hpeek
      exact .step inferInstance hs (by simp [hpeek])

instance [inner.unary.Advances] : (operand inner).Moves where
  moves {s} hs := by
    refine .peekKind_bind ?_
    split
    case h_1 hminus =>
      have hrest : (behindMinus inner).Trails := inferInstance
      exact .step hrest hs (by simp [hminus])
    case h_2 hbang => exact .step inferInstance hs (by simp [hbang])
    case h_3 => exact Moves.moves hs

instance {operators : List Operator} {operand : Rule Expr} [operand.Moves] [operand.Advances] :
    (binaryLevel operators operand).Moves := by
  rw [binaryLevel_eq]
  infer_instance

instance {operand : Rule Expr} [operand.Moves] [operand.Advances] : (comparison operand).Moves := by
  rw [comparison_eq]
  infer_instance

instance : expr.Moves where
  moves {s} hs := by
    have hmoves : (disjunction (Grammar.inner s.ahead)).Moves := by
      unfold disjunction
      infer_instance
    intro e t h
    refine hmoves.moves hs e t ?_
    unfold Yields at h
    rwa [outcome_expr, Stream.rest, outcome_expr_inner] at h

end Exprs

section Stmts

variable {body : BodyRule}

instance {name : Token} : (declaration name).Moves :=
  .bind inferInstance fun _ => inferInstance

instance : gotoStmt.Moves := by
  unfold gotoStmt
  infer_instance

instance [body.Trails] : (ifStmt body).Moves := by
  unfold ifStmt
  infer_instance

instance [body.Trails] : (whileStmt body).Moves := by
  unfold whileStmt
  infer_instance

instance : returnStmt.Moves := by
  unfold returnStmt
  infer_instance

instance : expressionStmt.Moves :=
  .bind_right fun _ => inferInstance

theorem namedStmt_movesFrom {s : State} (hs : s.Framed) (hname : s.peek.kind = .identifier) :
    namedStmt.MovesFrom s := by
  intro stmt t h
  by_cases hcolon : s.next.peek.kind = .symbol .colon
  case pos =>
    simp only [namedStmt, yields_bind, yields_consume, yields_peekKind, and_assoc, exists_and_left, exists_eq_left,
      if_pos hcolon] at h
    have hle := Trails.length_le_of_yields (hs.next (by simp [hname])) h
    exact Nat.lt_of_le_of_lt hle hs.length_next_lt
  case neg =>
    unfold Yields at h
    rw [outcome_namedStmt hcolon] at h
    have hlt := Moves.moves hs.passes_back.framed stmt t h
    exact hs.passes_back.ahead ▸ hlt

instance [body.Trails] : (unended body).Moves where
  moves {s} hs := by
    refine .peekKind_bind ?_
    split
    case h_1 hname => exact namedStmt_movesFrom hs hname
    all_goals exact Moves.moves hs

instance {rule : Rule α} [rule.Trails] [rule.Moves] : (ended rule).Moves := by
  unfold ended
  infer_instance

instance [body.Trails] : (stmtWith body).Moves := by
  rw [stmtWith_eq]
  infer_instance

instance : stmt.Moves := by
  unfold stmt
  infer_instance

end Stmts

section Programs

instance : formal.Moves :=
  .bind_right fun _ => inferInstance

instance : signature.Moves := by
  unfold signature
  infer_instance

instance : functionDecl.Moves := by
  rw [functionDecl_eq]
  infer_instance

instance : member.Moves := by
  unfold member
  infer_instance

instance : recordDecl.Moves := by
  unfold recordDecl
  infer_instance

instance : unendedTop.Moves where
  moves {s} hs := by
    refine .peekKind_bind ?_
    split
    case h_3 hname => exact .step inferInstance hs (by simp [hname])
    case h_4 => exact movesFrom_unexpected
    all_goals exact Moves.moves hs

instance : topLevelStmt.Moves := by
  rw [topLevelStmt_eq]
  infer_instance

end Programs

-- The rounds of a loop without a bound, counted up to the one that stops or fails.
inductive Rule.Runs (round : β → Rule (Round β γ)) : β → State → Nat → Except Diagnostic γ × State → Prop
  | done  : (round b).Yields s (.done c) t → Runs round b s 1 (.ok c, t)
  | fault : (round b).outcome s = (.error d, t) → Runs round b s 1 (.error d, t)
  | again : (round b).Yields s (.again b') t → Runs round b' t n r → Runs round b s (n + 1) r

-- The loop ends within as many rounds as tokens remain, and its bound is never in the way.
def Rule.EndsFrom (round : β → Rule (Round β γ)) (s : State) : Prop :=
  ∀ b, ∃ n ≤ s.ahead.length, Runs round b s n ((repeatFrom round b).outcome s)

section Loops

variable {round : β → Rule (Round β γ)} {s : State}

theorem Rule.exists_runs_repeatWithin [∀ b, (round b).Trails]
    (hmoves : ∀ {b s b' t}, s.Framed → (round b).Yields s (.again b') t → t.ahead.length < s.ahead.length)
    {left : List Token} {b : β} (hs : s.Framed) (hleft : s.ahead.length ≤ left.length) :
    ∃ n ≤ s.ahead.length, Runs round b s n ((repeatWithin round left b).outcome s) := by
  induction left generalizing b s
  case nil => simp [hs.ahead_eq_cons] at hleft
  case cons v left ih =>
    have hpositive : 1 ≤ s.ahead.length := by simp [hs.ahead_eq_cons]
    rcases hr : (round b).outcome s with ⟨_ | b' | c, t⟩
    case error d =>
      refine ⟨1, hpositive, ?_⟩
      rw [repeatWithin, outcome_bind, hr]
      exact .fault hr
    case ok.again =>
      have hlt := hmoves hs hr
      obtain ⟨n, hn, hruns⟩ := @ih t b' (Trails.framed_of_yields hs hr) (by simp at hleft; omega)
      refine ⟨n + 1, by omega, ?_⟩
      rw [repeatWithin, outcome_bind, hr]
      exact .again hr hruns
    case ok.done =>
      refine ⟨1, hpositive, ?_⟩
      rw [repeatWithin, outcome_bind, hr]
      exact .done hr

theorem Rule.endsFrom [∀ b, (round b).Trails]
    (hmoves : ∀ {b s b' t}, s.Framed → (round b).Yields s (.again b') t → t.ahead.length < s.ahead.length)
    (hs : s.Framed) : EndsFrom round s := fun b => by
  rw [outcome_repeatFrom]
  exact exists_runs_repeatWithin hmoves hs (Nat.le_succ _)

theorem State.Framed.length_lt_of_next {x : Rule α} [x.Trails] (hs : s.Framed) (hpeek : s.peek.kind ≠ .eof)
    (h : x.Yields s.next a t) : t.ahead.length < s.ahead.length :=
  Nat.lt_of_le_of_lt (Trails.length_le_of_yields (hs.next hpeek) h) hs.length_next_lt

theorem commaRound_endsFrom {item : Rule α} [item.Advances] (hs : s.Framed) :
    EndsFrom (commaRound item) s := by
  refine endsFrom (fun hs h => ?_) hs
  obtain ⟨hcomma, a, ha, -⟩ := commaRound_again.mp h
  exact hs.length_lt_of_next (by simp [hcomma]) ha

theorem binaryRound_endsFrom {operators : List Operator} {operand : Rule Expr} [operand.Advances] (hs : s.Framed) :
    EndsFrom (binaryRound operators operand) s := by
  refine endsFrom (fun hs h => ?_) hs
  obtain ⟨o, right, -, hpeek, hright, -⟩ := binaryRound_again.mp h
  exact hs.length_lt_of_next (hpeek ▸ o.kind_ne_eof) hright

theorem suffixRound_endsFrom {inner : Inner} [inner.expr.Advances] (hs : s.Framed) :
    EndsFrom (suffixRound inner) s := by
  refine endsFrom (fun {e s e' t} hs h => ?_) hs
  obtain ⟨hdot, name, -, hname, rfl, -⟩ | ⟨hbracket, i, u, hi, hclose, rfl, -⟩ | ⟨hparen, name, es, -, hes, -⟩ :=
    suffixRound_again.mp h
  case inl =>
    have hnext := hs.next (by simp [hdot])
    exact Nat.lt_trans hnext.length_next_lt hs.length_next_lt
  case inr.inl =>
    have hpeek : s.peek.kind ≠ .eof := by simp [hbracket]
    have hu := Trails.framed_of_yields (hs.next hpeek) hi
    exact Nat.lt_trans hu.length_next_lt <| hs.length_lt_of_next hpeek hi
  case inr.inr => exact hs.length_lt_of_next (by simp [hparen]) hes

theorem dimensionRound_endsFrom (hs : s.Framed) : EndsFrom dimensionRound s := by
  refine endsFrom (fun hs h => ?_) hs
  obtain ⟨hopen, hclose, -, rfl⟩ := dimensionRound_again.mp h
  exact Nat.lt_trans (hs.next (by simp [hopen])).length_next_lt hs.length_next_lt

theorem bodyRound_endsFrom {stmt : Rule Stmt} [stmt.Trails] [hstmt : stmt.Moves] (close : Kind) (others : List Kind)
    (hs : s.Framed) : EndsFrom (bodyRound stmt close others) s := by
  refine endsFrom (fun hs h => ?_) hs
  obtain ⟨-, -, -, a, ha, -⟩ := bodyRound_again.mp h
  exact hstmt.moves hs a _ ha

theorem memberRound_endsFrom (hs : s.Framed) : EndsFrom memberRound s := by
  refine endsFrom (fun hs h => ?_) hs
  obtain ⟨-, a, ha, -⟩ := memberRound_again.mp h
  rw [← member_eq] at ha
  exact Moves.moves hs a _ ha

theorem programRound_endsFrom (hs : s.Framed) : EndsFrom programRound s := by
  refine endsFrom (fun hs h => ?_) hs
  obtain ⟨-, a, ha, -⟩ := programRound_again.mp h
  rw [← topLevelStmt_eq] at ha
  exact Moves.moves hs a _ ha

end Loops

-- The rule, which runs from the state, keeps the tokens and goes neither back nor onto the end of the source; where it
-- answers it has gone forward.
structure Rule.Progresses (rule : Rule α) (s : State) : Prop where
  tokens  : (rule.outcome s).2.stream.toList = s.stream.toList
  forward : s.stream.cursor ≤ (rule.outcome s).2.stream.cursor
  before  : (rule.outcome s).2.stream.current.kind ≠ .eof
  onward  : ∀ a t, rule.Yields s a t → s.stream.cursor < t.stream.cursor

theorem Rule.progresses (rule : Rule α) [hrule : rule.Trails] [hmoves : rule.Moves] (hs : s.Framed) :
    rule.Progresses s := by
  have htokens : (rule.outcome s).2.stream.toList = s.stream.toList := by
    obtain ⟨us, hus⟩ := hrule.trails hs
    exact hus.toList_eq hs.track
  have hsize : (rule.outcome s).2.stream.size = s.stream.size := by
    rw [← Stream.length_toList, htokens, Stream.length_toList]
  refine ⟨htokens, ?_, (hrule.framed hs).before, fun a t h => ?_⟩
  case refine_1 =>
    have hle := hrule.length_le hs
    simp only [Stream.size, Stream.cursor, State.ahead] at hsize hle ⊢
    omega
  case refine_2 =>
    have hlt := hmoves.moves hs a t h
    rw [show rule.outcome s = (.ok a, t) from h] at hsize
    simp only [Stream.size, Stream.cursor, State.ahead] at hsize hlt ⊢
    omega

-- The loops run from the state end, whatever bounds the levels of nesting within.
structure State.EndsLoops (s : State) : Prop where
  program    : EndsFrom programRound s
  body       : ∀ close others, EndsFrom (bodyRound stmt close others) s
  bodyWithin : ∀ left close others, EndsFrom (bodyRound (stmtWith (bodyWithin left)) close others) s
  members    : EndsFrom memberRound s
  formals    : EndsFrom (commaRound formal) s
  arguments  : ∀ left, EndsFrom (commaRound (inner left).expr) s
  suffixes   : ∀ left, EndsFrom (suffixRound (inner left)) s
  operators  : ∀ operators operand, operand.Advances → EndsFrom (binaryRound operators operand) s
  dimensions : EndsFrom dimensionRound s

-- From the state the rules recurse no deeper than tokens remain: whatever rules stand behind so many levels, the
-- outcome is the same.
structure State.EndsLevels (s : State) : Prop where
  expr : ∀ deepest levels, s.ahead.length ≤ levels →
    (unrolledInner deepest levels).expr.outcome s = expr.outcome s
  body : ∀ deepest levels close others, s.ahead.length ≤ levels →
    (unrolledBody deepest levels close others).outcome s = (body close others).outcome s

theorem State.Framed.endsLoops {s : State} (hs : s.Framed) : s.EndsLoops where
  program          := programRound_endsFrom hs
  body             := fun close others => bodyRound_endsFrom close others hs
  bodyWithin       := fun _ close others => bodyRound_endsFrom close others hs
  members          := memberRound_endsFrom hs
  formals          := commaRound_endsFrom hs
  arguments        := fun _ => commaRound_endsFrom hs
  suffixes         := fun _ => suffixRound_endsFrom hs
  operators _ _ _  := binaryRound_endsFrom hs
  dimensions       := dimensionRound_endsFrom hs

theorem State.Framed.endsLevels {s : State} (hs : s.Framed) : s.EndsLevels where
  expr := fun deepest _ hlevels => expr_unrolled deepest hs hlevels
  body := fun deepest _ close others hlevels => body_unrolled deepest hs hlevels close others

-- A program is read in no more rounds than tokens remain, and one if the stream has come to its end.
theorem exists_runs_program {stream : Stream} (hframed : stream.Framed) :
    ∃ n ≤ stream.ahead.length + 1, ∃ r, Runs programRound [] (State.ofStream stream) n r ∧ stream.read.1 = r.1 := by
  by_cases heof : stream.current.kind = .eof
  case pos =>
    have hdone : (programRound []).Yields (State.ofStream stream) (.done ⟨[]⟩) (State.ofStream stream) :=
      programRound_done.mpr ⟨State.peek_of_current_eof hframed heof, rfl, rfl⟩
    exact ⟨1, Nat.le_add_left 1 _, _, .done hdone, read_of_current_eof hframed heof⟩
  case neg =>
    have hs : (State.ofStream stream).Framed := ⟨hframed, heof⟩
    obtain ⟨n, hn, hruns⟩ := programRound_endsFrom hs []
    exact ⟨n, Nat.le_succ_of_le hn, _, hruns, rfl⟩

-- From every state before the end of the source, whatever levels of nesting are open, the rules make progress, the
-- loops and the recursion end; so reading a framed stream ends, whether it answers a program or not.
theorem progresses_and_ends :
    (∀ s : State, s.Framed →
      (expr.Progresses s ∧ stmt.Progresses s ∧ topLevelStmt.Progresses s ∧ typeSpec.Progresses s ∧
        functionDecl.Progresses s ∧ recordDecl.Progresses s) ∧ s.EndsLoops ∧ s.EndsLevels) ∧
    ∀ stream : Stream, stream.Framed →
      ∃ n ≤ stream.ahead.length + 1, ∃ r,
        Runs programRound [] (State.ofStream stream) n r ∧ stream.read.1 = r.1 := by
  refine ⟨fun s hs => ⟨?_, hs.endsLoops, hs.endsLevels⟩, fun _ => exists_runs_program⟩
  exact ⟨progresses _ hs, progresses _ hs, progresses _ hs, progresses _ hs, progresses _ hs, progresses _ hs⟩

theorem progresses_and_ends_loopForever :
    loopForever.Framed ∧ (State.ofStream loopForever).Framed ∧ functionDecl.Progresses (.ofStream loopForever) ∧
      (State.ofStream loopForever).EndsLevels ∧
      ∃ n ≤ 13, ∃ r, Runs programRound [] (.ofStream loopForever) n r ∧ loopForever.read.1 = r.1 := by
  have hframed : loopForever.Framed := ⟨loopForever.toList.dropLast, _, rfl, rfl, by decide⟩
  have hs : (State.ofStream loopForever).Framed := ⟨hframed, by decide⟩
  obtain ⟨hrules, hstream⟩ := progresses_and_ends
  exact ⟨hframed, hs, (hrules _ hs).1.2.2.2.2.1, (hrules _ hs).2.2, hstream loopForever hframed⟩

end Grammar
end BasicFrontEnd
