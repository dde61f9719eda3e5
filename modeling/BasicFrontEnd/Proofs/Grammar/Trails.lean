import BasicFrontEnd.Proofs.Grammar.Advances

/-!
The trail of a run: the tokens that it moves past, and the states in which a statement that is an expression begins.
Where such a statement begins with a name, the run moves past that name twice, since it takes it back; past every other
token it moves once. Whatever a rule answers, from a state before the end of the source it leaves a trail.
-/

namespace BasicFrontEnd.Grammar

open Rule State

namespace State

-- All that a trail depends on: the cursor and what has been consumed.
def track (s : State) : State where
  stream   := s.stream
  records  := []
  consumed := s.consumed

theorem Framed.track {s : State} (h : s.Framed) : s.track.Framed :=
  ⟨h.stream, h.before⟩

-- Past tokens, from statement to statement: those that are expressions and begin with a name are marked where the
-- name is read twice, the others where they begin.
inductive Trail : State → List State → State → Prop
  | nil   : Trail s [] s
  | once  : s.peek.kind ≠ .eof → Trail s.next us t → Trail s us t
  | twice : u.stream = s.stream → s.peek.kind = .identifier → Trail s.back.next us t → Trail s (u :: us) t
  | other : u.stream = s.stream → s.peek.kind ≠ .identifier → Trail s us t → Trail s (u :: us) t

namespace Trail

variable {s t u : State} {us vs : List State}

theorem append (h : Trail s us t) (h' : Trail t vs u) : Trail s (us ++ vs) u := by
  induction h
  case nil => exact h'
  case once hpeek _ ih => exact once hpeek (ih h')
  case twice hu hpeek _ ih => exact twice hu hpeek (ih h')
  case other hu hpeek _ ih => exact other hu hpeek (ih h')

theorem of_reads (h : Reads s ts t) : Trail s.track [] t.track := by
  induction h
  case nil => exact nil
  case cons hpeek _ ih => exact once hpeek ih

end Trail

section Back

variable {s : State}

theorem Framed.stream_back (h : s.Framed) : s.back.stream = s.stream :=
  Stream.backup_consume _ <| by
    show s.ahead ≠ []
    simp [h.ahead_eq_cons]

theorem Framed.peek_back (h : s.Framed) : s.back.peek = s.peek :=
  congrArg Stream.peek h.stream_back

-- Where the token has been taken back, moving past it leads to the same place.
theorem Framed.stream_next_back (h : s.Framed) : s.back.next.stream = s.next.stream :=
  congrArg Stream.consume h.stream_back

theorem Framed.next_back (h : s.Framed) (hname : s.peek.kind = .identifier) : s.back.next.Framed := by
  have hnext := h.next (by simp [hname])
  exact ⟨h.stream_next_back ▸ hnext.stream, h.stream_next_back ▸ hnext.before⟩

end Back

namespace Trail

variable {s t : State} {us : List State}

theorem framed (h : Trail s us t) (hs : s.Framed) : t.Framed := by
  induction h
  case nil => exact hs
  case once hpeek _ ih => exact ih (hs.next hpeek)
  case twice hpeek _ ih => exact ih (hs.next_back hpeek)
  case other ih => exact ih hs

theorem toList_eq (h : Trail s us t) (hs : s.Framed) : t.stream.toList = s.stream.toList := by
  induction h
  case nil => rfl
  case once hpeek _ ih => exact (ih (hs.next hpeek)).trans (Stream.toList_consume _)
  case twice hpeek _ ih =>
    rw [ih (hs.next_back hpeek), hs.stream_next_back]
    exact Stream.toList_consume _
  case other ih => exact ih hs

theorem length_le (h : Trail s us t) (hs : s.Framed) : t.ahead.length ≤ s.ahead.length := by
  induction h
  case nil => exact Nat.le_refl _
  case once hpeek _ ih => exact Nat.le_trans (ih (hs.next hpeek)) (Nat.le_of_lt hs.length_next_lt)
  case twice hpeek _ ih =>
    have hle := ih (hs.next_back hpeek)
    unfold State.ahead at hle
    rw [hs.stream_next_back] at hle
    exact Nat.le_trans hle (Nat.le_of_lt hs.length_next_lt)
  case other ih => exact ih hs

end Trail

end State

-- Run from the state, the rule leaves a trail.
def Rule.TrailsFrom (rule : Rule α) (s : State) : Prop :=
  ∃ us, s.track.Trail us (rule.outcome s).2.track

-- Wherever there is a token to read, the rule leaves a trail.
class Rule.Trails (rule : Rule α) : Prop where
  trails : ∀ {s}, s.Framed → rule.TrailsFrom s

section Combinators

variable {s : State} {x : Rule α} {f : α → Rule β}

theorem Rule.TrailsFrom.framed (h : x.TrailsFrom s) (hs : s.Framed) : (x.outcome s).2.Framed := by
  obtain ⟨us, hus⟩ := h
  have := hus.framed hs.track
  exact ⟨this.stream, this.before⟩

theorem Rule.TrailsFrom.length_le (h : x.TrailsFrom s) (hs : s.Framed) :
    (x.outcome s).2.ahead.length ≤ s.ahead.length := by
  obtain ⟨us, hus⟩ := h
  exact hus.length_le hs.track

theorem Rule.TrailsFrom.bind (hx : x.TrailsFrom s) (hs : s.Framed) (hf : ∀ a, (f a).Trails) :
    (x >>= f).TrailsFrom s := by
  have hframed := hx.framed hs
  obtain ⟨us, hus⟩ := hx
  unfold TrailsFrom
  rw [outcome_bind]
  generalize x.outcome s = r at hus hframed
  obtain ⟨_ | a, t⟩ := r
  case error => exact ⟨us, hus⟩
  case ok =>
    obtain ⟨vs, hvs⟩ := (hf a).trails hframed
    exact ⟨us ++ vs, hus.append hvs⟩

theorem Rule.TrailsFrom.peekKind_bind {f : Kind → Rule β} (h : (f s.peek.kind).TrailsFrom s) :
    (peekKind >>= f).TrailsFrom s :=
  h

theorem Rule.TrailsFrom.consume_bind {f : Token → Rule β} (hpeek : s.peek.kind ≠ .eof)
    (h : (f s.peek).TrailsFrom s.next) : (consume >>= f).TrailsFrom s := by
  obtain ⟨us, hus⟩ := h
  refine ⟨us, .once hpeek ?_⟩
  rw [outcome_bind, outcome_consume]
  exact hus

theorem Rule.Trails.framed (h : x.Trails) (hs : s.Framed) : (x.outcome s).2.Framed :=
  (h.trails hs).framed hs

theorem Rule.Trails.length_le (h : x.Trails) (hs : s.Framed) : (x.outcome s).2.ahead.length ≤ s.ahead.length :=
  (h.trails hs).length_le hs

namespace Rule.Trails

instance (priority := low) [hx : x.Advances] : x.Trails where
  trails {s} _ := by
    obtain ⟨ts, hts⟩ := hx.leads s
    exact ⟨[], .of_reads hts⟩

instance [hx : x.Trails] [hf : ∀ a, (f a).Trails] : (x >>= f).Trails :=
  ⟨fun hs => (hx.trails hs).bind hs hf⟩

instance {c : Prop} [Decidable c] {x y : Rule α} [hx : x.Trails] [hy : y.Trails] : (if c then x else y).Trails := by
  split
  case isTrue => exact hx
  case isFalse => exact hy

instance {rule : Rule α} [hrule : rule.Trails] : rule.nested.Trails where
  trails {s} hs := by
    unfold TrailsFrom
    rw [outcome_nested]
    split
    case isTrue => exact hrule.trails hs.deeper
    case isFalse => exact ⟨[], .nil⟩

instance {rule : Rule α} [hrule : rule.Trails] {type : TypeSpec} : (withResultType type rule).Trails where
  trails {s} hs := by
    have hbody : (s.inFunction type).Framed := ⟨hs.stream, hs.before⟩
    exact hrule.trails hbody

theorem composes : Composes Trails where
  pure _ := inferInstance
  bind _ _ := inferInstance
  stops _ := inferInstance

instance {round : β → Rule (Round β γ)} [hround : ∀ b, (round b).Trails] {b : β} : (repeatFrom round b).Trails :=
  composes.repeatFrom inferInstance hround b

end Rule.Trails

end Combinators

section Stmts

-- The rule for bodies leaves a trail, whatever closes the body.
class BodyRule.Trails (body : BodyRule) : Prop where
  trails : ∀ close others, (body close others).Trails

variable {body : BodyRule} {s : State}

instance [hbody : body.Trails] {close : Kind} {others : List Kind} : (body close others).Trails :=
  hbody.trails close others

instance [body.Trails] : (ifStmt body).Trails := by
  unfold ifStmt
  infer_instance

instance [body.Trails] : (whileStmt body).Trails := by
  unfold whileStmt
  infer_instance

theorem namedStmt_trails (hs : s.Framed) (hname : s.peek.kind = .identifier) : namedStmt.TrailsFrom s := by
  by_cases hcolon : s.next.peek.kind = .symbol .colon
  case pos =>
    refine .consume_bind (by simp [hname]) (.peekKind_bind ?_)
    rw [if_pos hcolon]
    exact Trails.trails <| hs.next (by simp [hname])
  case neg =>
    obtain ⟨ts, hts⟩ := expressionStmt_leads (hs.peek_back.symm ▸ hname)
    exact ⟨[s], .twice rfl hname <| outcome_namedStmt hcolon ▸ .of_reads hts⟩

instance [body.Trails] : (unended body).Trails where
  trails {s} hs := by
    refine .peekKind_bind ?_
    split
    case h_1 hname => exact namedStmt_trails hs hname
    all_goals exact Trails.trails hs

instance {rule : Rule α} [rule.Trails] : (ended rule).Trails := by
  unfold ended
  infer_instance

instance [body.Trails] : (stmtWith body).Trails := by
  rw [stmtWith_eq]
  infer_instance

variable {stmt : Rule Stmt}

instance [hstmt : stmt.Trails] {close : Kind} {others : List Kind} {stmts : List Stmt} :
    (bodyRound stmt close others stmts).Trails :=
  Trails.composes.bodyRound inferInstance hstmt close others stmts

theorem stmtWith_trails (h : ∀ close others, (body close others).Trails) : (stmtWith body).Trails :=
  have : body.Trails := ⟨h⟩
  inferInstance

instance {left : List Token} : BodyRule.Trails (bodyWithin left) :=
  ⟨Trails.composes.bodyWithin inferInstance stmtWith_trails left⟩

instance : BodyRule.Trails Grammar.body :=
  ⟨Trails.composes.body inferInstance stmtWith_trails⟩

instance : Grammar.stmt.Trails := by
  unfold Grammar.stmt
  infer_instance

end Stmts

section Programs

instance {signature : Signature} : (signedFunction signature).Trails := by
  unfold signedFunction
  infer_instance

instance : functionDecl.Trails := by
  rw [functionDecl_eq]
  infer_instance

instance : unendedTop.Trails where
  trails {s} hs := by
    refine .peekKind_bind ?_
    split
    case h_3 hname =>
      refine .consume_bind (by simp [hname]) <| Trails.trails <| hs.next (by simp [hname])
    all_goals exact Trails.trails hs

instance : topLevelStmt.Trails :=
  inferInstanceAs (ended unendedTop).Trails

instance {stmts : List Stmt} : (programRound stmts).Trails := by
  unfold programRound
  infer_instance

end Programs

end BasicFrontEnd.Grammar
