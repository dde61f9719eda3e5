import BasicFrontEnd.Proofs.Grammar.Echoes

/-!
What the rules for types, statements and whole programs do depends on no token behind the one that is next where they
stop. Main statement: `program_echoes`.
-/

namespace BasicFrontEnd.Grammar

open Rule State

section Types

variable {s : State} {bound : Nat}

theorem Rule.echoes_accept {kind : Kind} (hs : s.Framed) (hkind : kind ≠ .eof) :
    (accept kind).Echoes (accept kind) s bound := by
  refine .peekKind_bind hs ?_
  split
  case isTrue h => exact .consume_bind hs (h ▸ hkind) <| echoes_pure <| hs.next (h ▸ hkind)
  case isFalse => exact echoes_pure hs

theorem dimensions_echoes (hs : s.Framed) : dimensions.Echoes dimensions s bound := by
  refine .repeatFrom hs (fun {n u ts} hts => ?_) fun {n u m v ts} hts hyields => ?_
  case refine_1 =>
    refine .if_accept hts.framed (by simp) (fun hopen => ?_) fun _ => echoes_pure hts.framed
    have hnext := hts.framed.next (by simp [hopen])
    exact .expect_bind hnext (by simp) fun hclose => echoes_pure <| hnext.next (by simp [hclose])
  case refine_2 =>
    obtain ⟨hopen, hclose, -, rfl⟩ := dimensionRound_again.mp hyields
    have hpeek : u.peek.kind ≠ .eof := by simp [hopen]
    exact ⟨u.peek, _, .cons hts.framed hpeek <| .next (hts.framed.next hpeek) (by simp [hclose])⟩

theorem typeSpec_echoes (hs : s.Framed) : typeSpec.Echoes typeSpec s bound := by
  refine .peekKind_bind hs ?_
  split
  case isTrue hword =>
    have hpeek := ne_eof_of_isTypeKeyword hword
    exact .consume_bind hs hpeek (dimensions_echoes <| hs.next hpeek).map
  case isFalse =>
    split
    case isTrue hname =>
      have hpeek : s.peek.kind ≠ .eof := by simp [hname]
      exact .consume_bind hs hpeek (dimensions_echoes <| hs.next hpeek).map
    case isFalse => exact echoes_unexpected hs

end Types

section Statements

-- The state after the next token has been consumed and taken back.
def State.back (s : State) : State :=
  { s.next with stream := s.next.stream.backup }

variable {s : State} {n fuel bound : Nat}

theorem declaration_echoes {name : Token} (hs : s.Framed) (hleaves : s.Leaves n) :
    (declaration name).Echoes (declaration name) s bound := by
  refine .expect_bind hs (by simp) fun hcolon => ?_
  have hnext := hs.next (by simp [hcolon])
  refine .peek_bind hnext <| .get_bind hnext fun {s'} htwin => ?_
  rw [htwin.isRecord]
  split
  case isFalse => exact echoes_pure hnext
  case isTrue =>
    refine (typeSpec_echoes hnext).bind fun {type t ts} _ hts => ?_
    refine .if_accept hts.framed (by simp) (fun hassign => ?_) fun _ => echoes_pure hts.framed
    have ht : t.Leaves n := hts.leaves hleaves
    exact (expr_echoes (hts.framed.next (by simp [hassign])) ht).map

theorem gotoStmt_echoes (hs : s.Framed) : gotoStmt.Echoes gotoStmt s bound := by
  refine .expect_bind hs (by simp) fun hword => ?_
  have hnext := hs.next (by simp [hword])
  exact .expect_bind hnext (by simp) fun hname => echoes_pure <| hnext.next (by simp [hname])

theorem returnStmt_echoes (hs : s.Framed) (hleaves : s.Leaves n) : returnStmt.Echoes returnStmt s bound := by
  refine .expect_bind hs (by simp) fun hword => ?_
  have hnext := hs.next (by simp [hword])
  refine .get_bind hnext fun {s'} htwin => ?_
  rw [htwin.resultType]
  split
  case isTrue => exact echoes_pure hnext
  case isFalse =>
    have ht : s.next.Leaves n := hleaves
    exact (expr_echoes hnext ht).map

theorem expressionStmt_echoes (hs : s.Framed) (hleaves : s.Leaves n) :
    expressionStmt.Echoes expressionStmt s bound := by
  refine .peek_bind hs <| (expr_echoes hs hleaves).bind fun {e t ts} _ hts => ?_
  refine .if_accept hts.framed (by simp) (fun hassign => ?_) fun _ => ?_
  case refine_1 =>
    have ht : t.Leaves n := hts.leaves hleaves
    exact (expr_echoes (hts.framed.next (by simp [hassign])) ht).map
  case refine_2 =>
    split
    case isTrue => exact echoes_pure hts.framed
    case isFalse => exact echoes_unexpected hts.framed

-- A statement that begins with a name is read past the name: it would be if it were an assignment, and the rule cannot
-- tell yet that it is not.
theorem exists_head_of_expressionStmt (hs : s.Framed) (hleaves : s.Leaves n) (hname : s.peek.kind = .identifier)
    (h : s.Passes ts (expressionStmt.outcome s).2) : ∃ us, ts = s.peek :: us := by
  obtain _ | ⟨v, us⟩ := ts
  case cons => exact ⟨us, by rw [h.head hs]⟩
  case nil =>
    let assign : Token := { s.peek with kind := .symbol .assign }
    let eof : Token := { s.peek with kind := .eof }
    let s' : State := { s with stream := ⟨[], s.stream.current, [s.peek, assign, s.peek, eof]⟩ }
    have hothers : ∀ v ∈ [s.stream.current, s.peek, assign, s.peek], v.kind ≠ .eof := by
      simp [hs.before, hname, assign]
    have hs' : s'.Framed := ⟨⟨_, eof, rfl, rfl, hothers⟩, hs.before⟩
    have hhead : (expressionStmt.outcome s).2.peek = s.peek := h.headD hs
    have htwin : s.Twin s' [(expressionStmt.outcome s).2.peek] := by
      rw [hhead]
      exact ⟨hs', rfl, rfl, rfl, rfl, ⟨_, rfl⟩⟩
    have hechoes : expressionStmt.Echoes expressionStmt s 5 := expressionStmt_echoes hs hleaves
    obtain ⟨t, ht, hpasses⟩ := hechoes.echo h htwin (Nat.lt_succ_self 4)
    have hderives : Derives .disjunction n [s.peek] (.identifier s.peek.value) :=
      .of_primary <| .atom <| .identifier hname
    have hstops : BindingLevel.disjunction.Stops eof.kind := BindingLevel.stops_of_closes rfl
    have hleaves' : s'.Leaves n := hleaves
    obtain ⟨u, hu, hrest, -⟩ := expressionStmt_takes_assign hs' hleaves'.opens hderives rfl hderives hstops rfl
    obtain ⟨-, rfl⟩ := Prod.mk.inj (ht.symm.trans hu)
    have hlength := congrArg List.length (hpasses.ahead.trans hrest)
    simp [s', State.ahead] at hlength

-- How a statement that begins with a name is read.
def namedStmt : Rule Stmt := do
  let name ← consume
  if (← peekKind) = .symbol .colon then declaration name
  else
    backup
    expressionStmt

theorem outcome_namedStmt (hcolon : s.next.peek.kind ≠ .symbol .colon) :
    namedStmt.outcome s = expressionStmt.outcome s.back := by
  have hif : ∀ x y : Rule Stmt, (if s.next.peek.kind = .symbol .colon then x else y) = y := fun _ _ => if_neg hcolon
  simp only [namedStmt, outcome_bind]
  exact congrFun (hif _ _) s.next

-- Whether a colon follows the name is known wherever the rule moves past the name.
theorem namedStmt_echoes (hs : s.Framed) (hleaves : s.Leaves n) (hname : s.peek.kind = .identifier) :
    namedStmt.Echoes namedStmt s bound := by
  have hpeek : s.peek.kind ≠ .eof := by simp [hname]
  have hnext := hs.next hpeek
  by_cases hcolon : s.next.peek.kind = .symbol .colon
  case pos =>
    refine .consume_bind hs hpeek <| .peekKind_bind hnext ?_
    rw [if_pos hcolon]
    have ht : s.next.Leaves n := hleaves
    exact declaration_echoes hnext ht
  case neg =>
    have hback : s.Passes [] s.back := hs.passes_back
    have hname' : s.back.peek = s.peek := hback.headD hs
    have hechoes : expressionStmt.Echoes expressionStmt s.back bound :=
      expressionStmt_echoes hback.framed (hback.leaves hleaves)
    rcases hr : expressionStmt.outcome s.back with ⟨r, t⟩
    obtain ⟨ts, hts⟩ := hechoes.passes
    obtain ⟨us, rfl⟩ := exists_head_of_expressionStmt hback.framed (hback.leaves hleaves) (hname' ▸ hname) hts
    have hlocated := @hechoes.located
    have hecho := @hechoes.echo (s.back.peek :: us)
    rw [hname', hr] at hts
    rw [hr] at hlocated hecho
    rw [hname'] at hecho
    have hpasses : s.Passes (s.peek :: us) t := hback.append hts
    refine .of_outcome ((outcome_namedStmt hcolon).trans hr) hpasses hlocated fun {s'} htwin hlt => ?_
    have hpeek' : s'.peek = s.peek := htwin.peek_eq
    have hcolon' : s'.next.peek.kind ≠ .symbol .colon := by
      have hnexts := hpeek' ▸ Passes.next htwin.framed (hpeek' ▸ hpeek)
      have htail : s.Twin s' ([s.peek] ++ (us ++ [t.peek])) := htwin
      rwa [(htail.passes (.next hs hpeek) hnexts).peek_eq_of_passes (hpasses.tail hs) hnext]
    have hback' : s'.Passes [] s'.back := htwin.framed.passes_back
    have hall : s.Twin s' ([] ++ (s.peek :: us ++ [t.peek])) := htwin
    have hlt' : s'.back.ahead.length < bound := by
      rwa [hback'.ahead] at hlt
    obtain ⟨t', ht', hpasses'⟩ := hecho hts (hall.passes hback hback') hlt'
    exact ⟨t', (outcome_namedStmt hcolon').trans ht', hback'.append hpasses'⟩

theorem Rule.EchoesWithin.ended {rule rule' : Rule α} (h : rule.EchoesWithin rule' fuel bound) :
    (ended rule).EchoesWithin (ended rule') fuel bound :=
  h.bind fun _ _ hs => (echoes_accept hs.framed (by simp)).map

theorem expr_echoesWithin : expr.EchoesWithin expr fuel bound := fun s hs => by
  obtain ⟨n, hleaves⟩ := hs.leaves
  exact expr_echoes hs.framed hleaves

variable {body body' : BodyRule}

theorem ifStmt_echoes (hbody : ∀ close others, (body close others).EchoesWithin (body' close others) fuel bound)
    (hs : s.Before (fuel + 1)) : (ifStmt body).Echoes (ifStmt body') s (bound + 1) := by
  refine .expect_bind hs.framed (by simp) fun hword => EchoesWithin.next ?_ hs (by simp [hword])
  refine expr_echoesWithin.bind fun test => .expect_bind (by simp) fun _ => (hbody _ _).nested.bind fun yes => ?_
  refine .bind (.if_accept (by simp) (hbody _ _).nested.map (.pure none)) fun otherwise => ?_
  exact .expect_bind (by simp) fun _ => .pure _

theorem whileStmt_echoes (hbody : ∀ close others, (body close others).EchoesWithin (body' close others) fuel bound)
    (hs : s.Before (fuel + 1)) : (whileStmt body).Echoes (whileStmt body') s (bound + 1) := by
  refine .expect_bind hs.framed (by simp) fun hword => EchoesWithin.next ?_ hs (by simp [hword])
  refine expr_echoesWithin.bind fun test => (hbody _ _).nested.bind fun block => ?_
  exact .expect_bind (by simp) fun _ => .pure _

theorem unended_echoes (hbody : ∀ close others, (body close others).EchoesWithin (body' close others) fuel bound) :
    (unended body).EchoesWithin (unended body') (fuel + 1) (bound + 1) := by
  intro s hs
  obtain ⟨n, hleaves⟩ := hs.leaves
  refine .peekKind_bind hs.framed ?_
  split
  case h_1 hname => exact namedStmt_echoes hs.framed hleaves hname
  case h_2 => exact gotoStmt_echoes hs.framed
  case h_3 => exact ifStmt_echoes hbody hs
  case h_4 => exact whileStmt_echoes hbody hs
  case h_5 => exact returnStmt_echoes hs.framed hleaves
  case h_6 => exact expressionStmt_echoes hs.framed hleaves

-- An item, with the semicolon that may end it, is read past its first token.
theorem passes_of_ended {Form : List Token → Token → α → Prop} {rule : Rule α} {a : α} {t : State}
    (hform : Closable Form) (h : (Grammar.ended rule).Yields s a t)
    (hitem : ∀ {u}, rule.Yields s a u → ∃ ts, s.Passes ts u ∧ Form ts u.peek a) :
    ∃ v ts, s.Passes (v :: ts) t := by
  obtain ⟨u, hu, hend⟩ := yields_ended.mp h
  obtain ⟨ts, hts, hwritten⟩ := hitem hu
  obtain ⟨v, ts, rfl⟩ := List.exists_cons_of_ne_nil (hform.ne_nil hwritten)
  obtain ⟨hsemicolon, rfl⟩ | ⟨-, rfl⟩ := hend
  case inl => exact ⟨v, _, hts.snoc (by simp [hsemicolon])⟩
  case inr => exact ⟨v, ts, hts⟩

-- A loop that gathers items.
theorem Rule.Echoes.items {Form : List Token → Token → α → Prop} {rule : Rule α}
    {round round' : List α → Rule (Round (List α) γ)} (hs : s.Framed) (hform : Closable Form)
    (hgathers : ∀ {as u as' v}, (round as).Yields u (.again as') v → ∃ a, as' = a :: as ∧ (ended rule).Yields u a v)
    (hitem : ∀ {ts u a v}, s.Passes ts u → rule.Yields u a v → ∃ ts, u.Passes ts v ∧ Form ts v.peek a)
    (hround : ∀ {as u ts}, s.Passes ts u → (round as).Echoes (round' as) u bound) :
    (Rule.repeatFrom round []).Echoes (Rule.repeatFrom round' []) s bound :=
  .repeatFrom hs hround fun hts hyields => by
    obtain ⟨a, -, ha⟩ := hgathers hyields
    exact passes_of_ended hform ha (hitem hts)

theorem bodyWith_echoes (hreads : ∀ g, FindsBodies body g)
    (hbody : ∀ close others, (body close others).EchoesWithin (body' close others) fuel bound) (close : Kind)
    (others : List Kind) : (bodyWith (stmtWith body) close others).EchoesWithin (bodyWith (stmtWith body') close others)
      (fuel + 1) (bound + 1) := by
  intro s hs
  obtain ⟨n, hleaves⟩ := hs.leaves
  have hfits : s.Fits ⟨s.isRecord, s.resultType.any (·.isVoid)⟩ := ⟨fun _ _ _ => rfl, rfl⟩
  rw [bodyWith_eq, bodyWith_eq]
  refine .peek_bind hs.framed <| .map <| .items hs.framed closable_stmt bodyRound_gathers
    (fun hts h => unended_reads (hreads _) h hts.framed (hfits.passes hts) (hts.leaves hleaves)) fun {as u ts} hts => ?_
  refine .peekKind_bind hts.framed ?_
  split
  case isTrue => exact echoes_pure hts.framed
  case isFalse =>
    split
    case isTrue => exact echoes_unexpected hts.framed
    case isFalse => exact ((unended_echoes hbody).ended u (hs.passes hts)).map

-- The levels that there are no tokens for do not matter.
theorem bodyWithin_echoes (left left' : List Token) (close : Kind) (others : List Kind) :
    (bodyWithin left close others).EchoesWithin (bodyWithin left' close others) left.length left'.length := by
  induction left generalizing left' close others
  case nil => exact fun _ hs => absurd hs.length (Nat.not_lt_zero _)
  case cons v left ih =>
    have hcons : ∀ v' left', (bodyWithin (v :: left) close others).EchoesWithin (bodyWithin (v' :: left') close others)
        (left.length + 1) (left'.length + 1) := fun _ left' =>
      bodyWith_echoes (findsBodies_bodyWithin · left) (ih left') close others
    cases left'
    case nil => exact (hcons default []).zero _
    case cons v' left' => exact hcons v' left'

theorem body_echoes (close : Kind) (others : List Kind) (hs : s.Framed) (hleaves : s.Leaves n) :
    (Grammar.body close others).Echoes (Grammar.body close others) s bound :=
  .get_bind hs fun {s'} _ => (bodyWithin_echoes s.stream.rest s'.stream.rest close others s
    ⟨hs, ⟨n, hleaves⟩, Nat.lt_succ_self _⟩).mono (Nat.min_le_right _ _)

end Statements

section Programs

variable {s : State} {n fuel bound : Nat}

theorem formal_echoes (hs : s.Framed) : formal.Echoes formal s bound := by
  refine .peek_bind hs <| (typeSpec_echoes hs).bind fun _ hts => .expect_bind hts.framed (by simp) fun hname => ?_
  exact (dimensions_echoes <| hts.framed.next (by simp [hname])).map

theorem formals_echoes (hs : s.Framed) (hleaves : s.Leaves n) : formals.Echoes formals s bound := by
  have hformal : formal.EchoesWithin formal (s.ahead.length + 1) bound := fun _ hs => formal_echoes hs.framed
  refine .peekKind_bind hs ?_
  split
  case isTrue => exact echoes_pure hs
  case isFalse => exact hformal.separated s ⟨hs, ⟨n, hleaves⟩, Nat.lt_succ_self _⟩

theorem functionDecl_echoes (hs : s.Framed) (hleaves : s.Leaves n) (hresultType : s.resultType = none) :
    functionDecl.Echoes functionDecl s bound := by
  refine .expect_bind hs (by simp) fun hword => ?_
  have hs₁ := Passes.next hs (by simp [hword])
  refine .expect_bind hs₁.framed (by simp) fun hname => ?_
  have hs₂ := hs₁.snoc (by simp [hname])
  refine .expect_bind hs₂.framed (by simp) fun hopen => ?_
  have hs₃ := hs₂.snoc (by simp [hopen])
  refine (formals_echoes hs₃.framed (hs₃.leaves hleaves)).bind fun {as t ts} _ hts => ?_
  have ht := hs₃.append hts
  refine .expect_bind ht.framed (by simp) fun hclose => ?_
  have ht₁ := ht.snoc (by simp [hclose])
  refine .expect_bind ht₁.framed (by simp) fun harrow => ?_
  have ht₂ := ht₁.snoc (by simp [harrow])
  refine (typeSpec_echoes ht₂.framed).bind fun {result u us} _ hus => ?_
  have hu := ht₂.append hus
  have hinside : (u.inFunction result).Framed := ⟨hu.framed.stream, hu.framed.before⟩
  have hinsideLeaves : (u.inFunction result).Leaves n := hu.leaves hleaves
  refine .bind (.withResultType (hu.along.resultType.trans hresultType) <| body_echoes _ _ hinside hinsideLeaves)
    fun _ hvs => .expect_bind hvs.framed (by simp) fun hend => ?_
  exact echoes_pure <| hvs.framed.next (by simp [hend])

theorem unendedMember_echoes (hs : s.Framed) : unendedMember.Echoes unendedMember s bound := by
  refine .expect_bind hs (by simp) fun hname => ?_
  have hnext := hs.next (by simp [hname])
  exact .expect_bind hnext (by simp) fun hcolon => (typeSpec_echoes <| hnext.next (by simp [hcolon])).map

theorem recordDecl_echoes (hs : s.Framed) : recordDecl.Echoes recordDecl s bound := by
  rw [recordDecl_eq]
  refine .expect_bind hs (by simp) fun hword => ?_
  have hnext := hs.next (by simp [hword])
  refine .expect_bind hnext (by simp) fun hname => ?_
  have hmembers : (repeatFrom memberRound []).Echoes (repeatFrom memberRound []) s.next.next (bound - 1 - 1) := by
    refine .items (hnext.next (by simp [hname])) closable_member memberRound_gathers
      (fun hts h => unendedMember_reads h hts.framed) fun {as u ts} hts => ?_
    refine .peekKind_bind hts.framed ?_
    rw [member_eq]
    split
    case isTrue => exact echoes_pure hts.framed
    case isFalse =>
      refine ((unendedMember_echoes hts.framed).bind fun _ hus => ?_).map
      exact (echoes_accept hus.framed (by simp)).map
  refine hmembers.bind fun _ hts => .expect_bind hts.framed (by simp) fun hend => ?_
  exact echoes_pure <| hts.framed.next (by simp [hend])

theorem unendedTop_echoes (hs : s.Framed) (hleaves : s.Leaves n) (hresultType : s.resultType = none) :
    unendedTop.Echoes unendedTop s bound := by
  refine .peekKind_bind hs ?_
  split
  case h_1 => exact functionDecl_echoes hs hleaves hresultType
  case h_2 => exact recordDecl_echoes hs
  case h_3 hname =>
    have hpeek : s.peek.kind ≠ .eof := by simp [hname]
    have hnext := hs.next hpeek
    have hnextLeaves : s.next.Leaves n := hleaves
    refine .consume_bind hs hpeek <| .peekKind_bind hnext ?_
    split
    case isTrue => exact declaration_echoes hnext hnextLeaves
    case isFalse => exact echoes_unexpected hnext
  case h_4 => exact echoes_unexpected hs

theorem program_echoes (hs : s.Framed) (hleaves : s.Leaves n) (hresultType : s.resultType = none) :
    program.Echoes program s bound := by
  have htop : s.AtTop s.isRecord := ⟨⟨fun _ _ _ => rfl, by rw [hresultType]; rfl⟩, hresultType⟩
  refine .items hs closable_top programRound_gathers
    (fun hts h => unendedTop_reads h hts.framed (htop.passes hts) (hts.leaves hleaves)) fun {as u ts} hts => ?_
  refine .peekKind_bind hts.framed ?_
  rw [topLevelStmt_eq]
  split
  case isTrue => exact echoes_pure hts.framed
  case isFalse =>
    have hresultType' := hts.along.resultType.trans hresultType
    refine .map <| .bind (unendedTop_echoes hts.framed (hts.leaves hleaves) hresultType') fun _ hus => ?_
    exact (echoes_accept hus.framed (by simp)).map

end Programs

end BasicFrontEnd.Grammar
