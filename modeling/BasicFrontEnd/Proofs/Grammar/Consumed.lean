import BasicFrontEnd.Proofs.Grammar.Due

/-!
What reading a program consumes: every token up to where it stops, in order and each of them once, but for the names
that statements begin with which are expressions; these it consumes twice. Main statement: `consumes_once`.
-/

namespace BasicFrontEnd

-- The statements in the functions of a program that are expressions.
def Program.expressions (p : Program) : List (Expr × Position) :=
  Stmt.expressionsOfAll p.body

namespace Grammar

open Rule State

-- While a program is read from the first state, a statement of a function is due in the second.
inductive DueInProgram : State → State → Prop
  | body : signature.Yields s g t → Due (t.inFunction g.result) u → DueInProgram s u
  | next : topLevelStmt.Yields s a t → DueInProgram t u → DueInProgram s u

section Programs

variable {s t u : State}

theorem functionDecl_marks (hs : s.Framed) :
    functionDecl.Marks s (fun u => ∃ g t, signature.Yields s g t ∧ Due (t.inFunction g.result) u)
      fun a xs => xs = a.expressions := by
  have hrest (g : Signature) (t : State) (ht : signature.Yields s g t) :
      (signedFunction g).Marks t (Due (t.inFunction g.result)) fun a xs => xs = a.expressions := by
    have hframed := Trails.framed_of_yields hs ht
    have hbody : (t.inFunction g.result).Framed := ⟨hframed.stream, hframed.before⟩
    have hmarks : (body (.keyword .endWord) []).Marks (t.inFunction g.result) (Due (t.inFunction g.result))
        fun b xs => xs = Stmt.expressionsOfAll b.stmts := marksBodies t.ahead.length hbody (Nat.le_refl _) (by simp)
    refine (hmarks.withResultType g.result).bind_unmarked ?_
    rintro b v a w xs rfl hend
    simp only [yields_bind, yields_pure] at hend
    obtain ⟨_, _, -, rfl, -⟩ := hend
    rfl
  rw [functionDecl_eq]
  exact .unmarked_bind hrest

theorem expressions_of_recordDecl_yields (h : recordDecl.Yields s a t) : a.expressions = [] := by
  simp only [recordDecl_eq, yields_bind, yields_pure] at h
  obtain ⟨_, _, -, _, _, -, _, _, -, _, _, -, rfl, -⟩ := h
  rfl

-- How a statement outside of functions is read that begins with a name.
def namedTop : Rule Stmt := do
  let name ← consume
  if (← peekKind) = .symbol .colon then declaration name
  else unexpected (Kind.symbol .colon).describe

theorem expressions_of_namedTop_yields (h : namedTop.Yields s a t) : a.expressions = [] := by
  simp only [namedTop, yields_bind, yields_consume, yields_peekKind] at h
  obtain ⟨_, _, -, _, _, -, h⟩ := h
  split at h
  case isTrue => exact expressions_of_declaration_yields h
  case isFalse => exact absurd h yields_unexpected

theorem outcome_unendedTop (s : State) :
    unendedTop.outcome s =
      (match s.peek.kind with
        | .keyword .funcWord   => functionDecl
        | .keyword .structWord => recordDecl
        | .identifier          => namedTop
        | _                    => unexpected "declaration").outcome s :=
  rfl

theorem unendedTop_marks (hs : s.Framed) :
    unendedTop.Marks s (fun u => ∃ g t, signature.Yields s g t ∧ Due (t.inFunction g.result) u)
      fun a xs => xs = a.expressions := by
  have hnone (hpeek : s.peek.kind ≠ .keyword .funcWord) (u : State) :
      ¬∃ g t, signature.Yields s g t ∧ Due (t.inFunction g.result) u :=
    fun ⟨_, _, h, _⟩ => hpeek (peek_of_signature_yields h)
  have houtcome := outcome_unendedTop s
  split at houtcome
  case h_1 => exact (functionDecl_marks hs).of_outcome houtcome
  case h_2 hstruct =>
    obtain ⟨ts, hts⟩ := (inferInstance : recordDecl.Advances).leads s
    refine Marks.of_outcome (.due (.of_reads hts fun h => (expressions_of_recordDecl_yields h).symm) fun u _ => ?_)
      houtcome
    exact iff_of_false id (hnone (by simp [hstruct]) u)
  case h_3 hname =>
    obtain ⟨ts, hts⟩ : namedTop.Leads s s := .step inferInstance (by simp [hname])
    refine Marks.of_outcome (.due (.of_reads hts fun h => (expressions_of_namedTop_yields h).symm) fun u _ => ?_)
      houtcome
    exact iff_of_false id (hnone (by simp [hname]) u)
  case h_4 hfunc _ _ =>
    refine Marks.of_outcome (.due (Marks.unmarked.found fun h => absurd h yields_unexpected) fun u _ => ?_) houtcome
    exact iff_of_false id (hnone hfunc u)

theorem topLevelStmt_marks (hs : s.Framed) :
    topLevelStmt.Marks s (fun u => ∃ g t, signature.Yields s g t ∧ Due (t.inFunction g.result) u)
      fun a xs => xs = a.expressions := by
  rw [topLevelStmt_eq]
  refine (unendedTop_marks hs).bind_unmarked ?_
  rintro a t b u xs rfl hend
  simp only [yields_bind, yields_pure] at hend
  obtain ⟨_, _, -, rfl, -⟩ := hend
  rfl

theorem programRound_marks {stmts : List Stmt} (hs : s.Framed) :
    (programRound stmts).Marks s (fun u => ∃ g t, signature.Yields s g t ∧ Due (t.inFunction g.result) u)
      (Marks.foundIn (fun stmts => Stmt.expressionsOfAll stmts.reverse) Program.expressions stmts) := by
  have hround : (programRound stmts).outcome s =
      (if s.peek.kind = .eof then pure (.done ⟨stmts.reverse⟩)
        else topLevelStmt >>= fun a => pure (.again (a :: stmts))).outcome s := rfl
  refine Marks.of_outcome ?_ hround
  split
  case isTrue heof =>
    refine (Marks.unmarked.found ?_).due fun u _ => iff_of_false id ?_
    case refine_1 =>
      rintro r t xs hpure rfl
      obtain ⟨rfl, -⟩ := yields_pure.mp hpure
      exact (List.append_nil _).symm
    case refine_2 =>
      rintro ⟨_, _, h, -⟩
      simp [peek_of_signature_yields h] at heof
  case isFalse =>
    refine (topLevelStmt_marks hs).bind_unmarked ?_
    rintro a t r u xs rfl hpure
    obtain ⟨rfl, -⟩ := yields_pure.mp hpure
    simp [Marks.foundIn, Stmt.expressionsOfAll_eq_flatMap]

theorem dueInProgram_iff :
    DueInProgram s u ↔ (∃ g t, signature.Yields s g t ∧ Due (t.inFunction g.result) u) ∨
      ∃ a t, topLevelStmt.Yields s a t ∧ DueInProgram t u := by
  constructor
  case mp =>
    rintro (⟨hsignature, h⟩ | ⟨hstmt, h⟩)
    case body => exact .inl ⟨_, _, hsignature, h⟩
    case next => exact .inr ⟨_, _, hstmt, h⟩
  case mpr =>
    rintro (⟨g, t, hsignature, h⟩ | ⟨a, t, hstmt, h⟩)
    case inl => exact .body hsignature h
    case inr => exact .next hstmt h

theorem peek_of_topLevelStmt_yields (h : topLevelStmt.Yields s a t) : s.peek.kind ≠ .eof := by
  intro heof
  rw [topLevelStmt_eq] at h
  obtain ⟨v, h, -⟩ := yields_ended.mp h
  have houtcome := outcome_unendedTop s
  rw [heof] at houtcome
  exact yields_unexpected (houtcome.symm.trans h)

theorem program_marks (hs : s.Framed) :
    program.Marks s (DueInProgram s) fun p xs => p.expressions = xs := by
  refine Marks.repeatFrom (fun hs h => ?_) (fun hs _ => programRound_marks hs) (fun {stmts t u} hu => ?_) hs
    (Nat.le_refl _)
  case refine_1 =>
    obtain ⟨-, a, ha, -⟩ := programRound_again.mp h
    rw [← topLevelStmt_eq] at ha
    exact Moves.moves hs a _ ha
  case refine_2 =>
    simp only [programRound_again, ← topLevelStmt_eq]
    rw [dueInProgram_iff]
    refine or_congr_right ⟨?_, ?_⟩
    case refine_1 =>
      rintro ⟨_, v, ⟨-, a, ha, -⟩, hdue⟩
      exact ⟨a, v, ha, hdue⟩
    case refine_2 =>
      rintro ⟨a, v, ha, hdue⟩
      exact ⟨_, v, ⟨peek_of_topLevelStmt_yields ha, a, ha, rfl⟩, hdue⟩

end Programs

-- The tokens, the first of which is next where the cursor stands, and once more each of them that is a name and next
-- in one of the states.
def echoed (starts : List State) (cursor : Nat) (ts : List Token) : List Token :=
  (ts.zipIdx cursor).flatMap fun v =>
    if ∃ u ∈ starts, u.stream.cursor = v.2 ∧ u.peek.kind = .identifier then [v.1, v.1] else [v.1]

section Accounts

variable {s t u : State} {us : List State}

theorem echoed_cons (us : List State) (cursor : Nat) (v : Token) (ts : List Token) :
    echoed us cursor (v :: ts) =
      (if ∃ u ∈ us, u.stream.cursor = cursor ∧ u.peek.kind = .identifier then [v, v] else [v]) ++
        echoed us (cursor + 1) ts := by
  simp [echoed, List.zipIdx_cons]

-- A state behind the tokens, or in which no name is next, makes no difference.
theorem echoed_cons_start {cursor : Nat} {ts : List Token} (h : u.stream.cursor < cursor ∨ u.peek.kind ≠ .identifier) :
    echoed (u :: us) cursor ts = echoed us cursor ts := by
  induction ts generalizing cursor
  case nil => rfl
  case cons v ts ih =>
    have hhere : ¬(u.stream.cursor = cursor ∧ u.peek.kind = .identifier) := by
      rintro ⟨rfl, hname⟩
      simp [hname] at h
    rw [echoed_cons, echoed_cons, ih (h.imp_left Nat.lt_succ_of_lt)]
    simp [hhere]

theorem State.Framed.cursor_next (hs : s.Framed) : s.next.stream.cursor = s.stream.cursor + 1 := by
  have hahead := hs.ahead_eq_cons
  obtain ⟨⟨behind, current, _ | ⟨v, ts⟩⟩, _⟩ := s
  case nil => contradiction
  case cons => rfl

namespace State

-- Past the tokens, from the one state to the other, they have been consumed, and the names of the states between twice.
structure Accounts (s : State) (us : List State) (ts : List Token) (t : State) : Prop where
  behind   : ∀ u ∈ us, s.stream.cursor ≤ u.stream.cursor
  ahead    : s.ahead = ts ++ t.ahead
  consumed : t.consumed.reverse = s.consumed.reverse ++ echoed us s.stream.cursor ts
  number   : t.consumed.length = s.consumed.length + ts.length + us.countP fun u => u.peek.kind = .identifier

namespace Accounts

variable {ts : List Token}

theorem nil : s.Accounts [] [] s :=
  ⟨by simp, rfl, by simp [echoed], rfl⟩

theorem once (hs : s.Framed) (h : s.next.Accounts us ts t) : s.Accounts us (s.peek :: ts) t := by
  have hbehind := h.behind
  have hconsumed := h.consumed
  have hnumber := h.number
  rw [hs.cursor_next] at hbehind hconsumed
  have hnone : ¬∃ u ∈ us, u.stream.cursor = s.stream.cursor ∧ u.peek.kind = .identifier := fun ⟨u, hu, hcursor, _⟩ => by
    have := hbehind u hu
    omega
  refine ⟨fun u hu => Nat.le_of_succ_le (hbehind u hu), ?_, ?_, ?_⟩
  case refine_1 => rw [hs.ahead_eq_cons, h.ahead, List.cons_append]
  case refine_2 =>
    rw [hconsumed, echoed_cons, if_neg hnone]
    simp [State.next]
  case refine_3 =>
    simp only [State.next, List.length_cons] at hnumber ⊢
    omega

theorem twice (hs : s.Framed) (hu : u.stream = s.stream) (hname : s.peek.kind = .identifier)
    (h : s.back.next.Accounts us ts t) : s.Accounts (u :: us) (s.peek :: ts) t := by
  have hcursor : s.back.next.stream.cursor = s.stream.cursor + 1 := hs.stream_next_back ▸ hs.cursor_next
  have hconsumed : s.back.next.consumed = s.peek :: s.peek :: s.consumed := congrArg (· :: _) hs.peek_back
  have hahead : s.back.next.ahead = s.next.ahead := congrArg Stream.ahead hs.stream_next_back
  have hpeek : u.peek.kind = .identifier := by
    rw [State.peek, hu]
    exact hname
  refine ⟨?_, ?_, ?_, ?_⟩
  case refine_1 =>
    rintro w (_ | ⟨_, hw⟩)
    case head => exact Nat.le_of_eq (congrArg Stream.cursor hu.symm)
    case tail =>
      have := h.behind w hw
      omega
  case refine_2 => rw [hs.ahead_eq_cons, ← hahead, h.ahead, List.cons_append]
  case refine_3 =>
    have hbefore : u.stream.cursor < s.stream.cursor + 1 := hu ▸ Nat.lt_succ_self _
    have hhere : ∃ w ∈ u :: us, w.stream.cursor = s.stream.cursor ∧ w.peek.kind = .identifier :=
      ⟨u, List.mem_cons_self, congrArg Stream.cursor hu, hpeek⟩
    rw [h.consumed, hconsumed, hcursor, echoed_cons, if_pos hhere, echoed_cons_start (.inl hbefore)]
    simp
  case refine_4 =>
    have hnumber := h.number
    rw [hconsumed] at hnumber
    simp only [List.length_cons, List.countP_cons, hpeek, decide_true, if_true] at hnumber ⊢
    omega

theorem other (hu : u.stream = s.stream) (hname : s.peek.kind ≠ .identifier) (h : s.Accounts us ts t) :
    s.Accounts (u :: us) ts t := by
  have hpeek : u.peek.kind ≠ .identifier := by
    rw [State.peek, hu]
    exact hname
  refine ⟨?_, h.ahead, ?_, ?_⟩
  case refine_1 =>
    rintro w (_ | ⟨_, hw⟩)
    case head => exact Nat.le_of_eq (congrArg Stream.cursor hu.symm)
    case tail => exact h.behind w hw
  case refine_2 => rw [h.consumed, echoed_cons_start (.inr hpeek)]
  case refine_3 => simp [h.number, hpeek]

end Accounts

theorem Trail.exists_accounts (h : Trail s us t) (hs : s.Framed) : ∃ ts, s.Accounts us ts t := by
  induction h
  case nil => exact ⟨[], .nil⟩
  case once hpeek _ ih =>
    obtain ⟨ts, hts⟩ := ih (hs.next hpeek)
    exact ⟨_, .once hs hts⟩
  case twice hu hname _ ih =>
    obtain ⟨ts, hts⟩ := ih (hs.next_back hname)
    exact ⟨_, .twice hs hu hname hts⟩
  case other hu hname _ ih =>
    obtain ⟨ts, hts⟩ := ih hs
    exact ⟨ts, .other hu hname hts⟩

end State

end Accounts

-- The end of the source has nothing behind it.
theorem State.Framed.ahead_of_peek_eof {s : State} (hs : s.Framed) (heof : s.peek.kind = .eof) :
    s.ahead = [s.peek] := by
  have hstream : s.next.stream.Framed := by
    show (Stream.consume s.stream).Framed
    simpa [Stream.Framed] using hs.stream
  have hcurrent : s.next.stream.current = s.peek := Stream.current_consume s.stream
  rw [hs.ahead_eq_cons]
  exact congrArg _ <| ahead_of_current_eof hstream (hcurrent ▸ heof)

theorem program_framed {s : State} (hs : s.Framed) : (program.outcome s).2.Framed := by
  obtain ⟨starts, htrail, -⟩ := program_marks hs
  have hframed := htrail.framed hs.track
  exact ⟨hframed.stream, hframed.before⟩

theorem peek_of_program_yields {s : State} (h : program.Yields s p t) : t.peek.kind = .eof := by
  obtain ⟨stmts, u, -, hdone⟩ := Yields.repeatFrom (fun (_ : True) _ => trivial) trivial h
  obtain ⟨heof, -, rfl⟩ := programRound_done.mp hdone
  exact heof

-- The trail of reading a framed stream, and what it accounts for.
theorem exists_accounts_program {stream : Stream} (hframed : stream.Framed) :
    ∃ t ts starts, program.outcome (.ofStream stream) = (stream.read.1, t) ∧
      (State.ofStream stream).track.Accounts starts ts t.track ∧
      (∀ u, u ∈ starts ↔ DueInProgram (.ofStream stream) u ∧ u.BeginsExpression) ∧
      ∀ p, stream.read.1 = .ok p → ts = stream.ahead.dropLast ∧ List.Forall₂ ReadsExpression starts p.expressions := by
  by_cases heof : stream.current.kind = .eof
  case pos =>
    have hpeek := State.peek_of_current_eof hframed heof
    have hyields : program.Yields (.ofStream stream) ⟨[]⟩ (.ofStream stream) :=
      Rounds.nil.yields <| programRound_done.mpr ⟨hpeek, rfl, rfl⟩
    have hread : stream.read.1 = .ok ⟨[]⟩ := congrArg Prod.fst hyields
    refine ⟨.ofStream stream, [], [], hread ▸ hyields, .nil, fun u => ?_, fun p hp => ?_⟩
    case refine_1 =>
      refine iff_of_false (by simp) fun ⟨hdue, _⟩ => ?_
      rcases dueInProgram_iff.mp hdue with ⟨_, _, h, -⟩ | ⟨_, _, h, -⟩
      case inl => simp [peek_of_signature_yields h] at hpeek
      case inr => exact peek_of_topLevelStmt_yields h hpeek
    case refine_2 =>
      obtain rfl : (⟨[]⟩ : Program) = p := Except.ok.inj (hread.symm.trans hp)
      exact ⟨by rw [ahead_of_current_eof hframed heof]; rfl, .nil⟩
  case neg =>
    have hs : (State.ofStream stream).Framed := ⟨hframed, heof⟩
    obtain ⟨starts, htrail, hmarked, hreads⟩ := program_marks hs
    obtain ⟨ts, haccounts⟩ := htrail.exists_accounts hs.track
    refine ⟨_, ts, starts, rfl, haccounts, hmarked, fun p hp => ?_⟩
    have hyields : program.Yields (.ofStream stream) p (program.outcome (.ofStream stream)).2 := Prod.ext hp rfl
    obtain ⟨xs, rfl, hstarts⟩ := hreads p _ hyields
    have hend := (program_framed hs).ahead_of_peek_eof (peek_of_program_yields hyields)
    have hahead : stream.ahead = ts ++ (program.outcome (.ofStream stream)).2.ahead := haccounts.ahead
    exact ⟨by simp [hahead, hend], hstarts⟩

-- What reading a framed stream consumes: the tokens that it moves past, in order and each once, but for the names
-- that an expression which is a statement begins with: each of these twice. It has moved past all tokens if it
-- answers a program, and past those before the token that it tells of if that is not what was expected.
theorem consumes_once {stream : Stream} (hframed : stream.Framed) :
    ∃ t ts starts, program.outcome (.ofStream stream) = (stream.read.1, t) ∧
      stream.ahead = ts ++ t.ahead ∧ t.consumed.reverse = echoed starts stream.cursor ts ∧
      stream.read.2.tail =
        (echoed starts stream.cursor ts).map
          (fun v => ⟨.trace, "consume", [("kind", v.kind.name), ("value", v.value)]⟩) ∧
      (∀ u, u ∈ starts ↔ DueInProgram (.ofStream stream) u ∧ u.BeginsExpression) ∧
      (∀ p, stream.read.1 = .ok p →
        ts = stream.ahead.dropLast ∧ List.Forall₂ ReadsExpression starts p.expressions ∧
          t.consumed.length = ts.length + starts.countP fun u => u.peek.kind = .identifier) ∧
      ∀ d expected got, stream.read.1 = .error d → d.cause = .badToken expected got →
        ∃ v rest, t.ahead = v :: rest ∧ d = v.fault (.badToken expected v.value) := by
  obtain ⟨t, ts, starts, houtcome, haccounts, hmarked, hok⟩ := exists_accounts_program hframed
  have hconsumed : t.consumed.reverse = echoed starts stream.cursor ts := haccounts.consumed
  have hevents : stream.read.2 = t.events :=
    congrArg (fun outcome : Except Diagnostic Program × State => outcome.2.events) houtcome
  refine ⟨t, ts, starts, houtcome, haccounts.ahead, hconsumed, ?_, hmarked, ?_, ?_⟩
  case refine_1 => rw [hevents, ← hconsumed]; rfl
  case refine_2 =>
    intro p hp
    obtain ⟨hts, hstarts⟩ := hok p hp
    have hnumber := haccounts.number
    exact ⟨hts, hstarts, by simpa [State.track, State.ofStream] using hnumber⟩
  case refine_3 =>
    intro d expected got hd hcause
    have heof : stream.current.kind ≠ .eof := fun heof => by
      rw [read_of_current_eof hframed heof] at hd
      contradiction
    have hs : (State.ofStream stream).Framed := ⟨hframed, heof⟩
    have hechoes : program.Echoes program (State.ofStream stream) 0 :=
      program_echoes hs (State.leaves_ofStream stream) rfl
    have hlocated := hechoes.located hd hcause
    have ht := program_framed hs
    rw [houtcome] at hlocated ht
    exact ⟨t.peek, t.next.ahead, ht.ahead_eq_cons, hlocated⟩

-- The tokens of `func f() -> void x := 1 nil := x end`, in which one of two assignments begins with a name.
def assignments : Stream :=
  let line := "func f() -> void x := 1 nil := x end"
  .ofTokens ⟨.head, "", .start, line⟩
    [⟨.keyword .funcWord, "func", ⟨1, 1⟩, line⟩, ⟨.identifier, "f", ⟨1, 6⟩, line⟩,
     ⟨.symbol .openParen, "(", ⟨1, 7⟩, line⟩, ⟨.symbol .closeParen, ")", ⟨1, 8⟩, line⟩,
     ⟨.symbol .arrow, "->", ⟨1, 10⟩, line⟩, ⟨.keyword .voidWord, "void", ⟨1, 13⟩, line⟩,
     ⟨.identifier, "x", ⟨1, 18⟩, line⟩, ⟨.symbol .assign, ":=", ⟨1, 20⟩, line⟩, ⟨.integer, "1", ⟨1, 23⟩, line⟩,
     ⟨.keyword .nilWord, "nil", ⟨1, 25⟩, line⟩, ⟨.symbol .assign, ":=", ⟨1, 29⟩, line⟩,
     ⟨.identifier, "x", ⟨1, 32⟩, line⟩, ⟨.keyword .endWord, "end", ⟨1, 34⟩, line⟩, ⟨.eof, "", ⟨1, 37⟩, line⟩]

theorem consumes_once_assignments :
    assignments.Framed ∧ ∃ t starts, program.outcome (.ofStream assignments) = (assignments.read.1, t) ∧
      t.consumed.reverse = echoed starts 0 assignments.ahead.dropLast ∧ starts.length = 2 ∧
      starts.countP (fun u => u.peek.kind = .identifier) = 1 := by
  have hframed : assignments.Framed := ⟨assignments.toList.dropLast, _, rfl, rfl, by decide⟩
  obtain ⟨t, ts, starts, houtcome, -, hconsumed, -, -, hok, -⟩ := consumes_once hframed
  obtain ⟨rfl, hstarts, hnumber⟩ := hok _ rfl
  have hlength : t.consumed.length = 14 := (congrArg (fun outcome => outcome.2.consumed.length) houtcome).symm
  have htokens : assignments.ahead.dropLast.length = 13 := rfl
  exact ⟨hframed, t, starts, houtcome, hconsumed, hstarts.length_eq, by omega⟩

end Grammar
end BasicFrontEnd
