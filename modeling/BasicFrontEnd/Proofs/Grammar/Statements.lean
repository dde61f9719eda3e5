import BasicFrontEnd.Proofs.Grammar.Forms
import BasicFrontEnd.Proofs.Grammar.Takes

/-!
What has the form of a type, a statement or a program is read as one.
-/

namespace BasicFrontEnd.Grammar

open Rule State

variable {s : State} {next : Token} {ts rest : List Token} {n : Nat}

-- One more pair of brackets.
def dimensionRound (n : Nat) : Rule (Round Nat Nat) := do
  if ← accept (.symbol .openBracket) then
    let _ ← expect (.symbol .closeBracket)
    return .again (n + 1)
  else return .done n

theorem dimensionRound_takes {opening closing : Token} (hs : s.Framed) (hahead : s.ahead = opening :: closing :: rest)
    (hopen : opening.kind = .symbol .openBracket) (hclose : closing.kind = .symbol .closeBracket) :
    (dimensionRound n).Takes s (.again (n + 1)) rest := by
  refine (takes_accept hs hahead hopen (by simp)).bind fun t ht hst => ?_
  exact (takes_expect hst.framed ht hclose (by simp)).bind_pure

theorem rounds_of_brackets (h : Brackets ts k) (hs : s.Framed) (hahead : s.ahead = ts ++ next :: rest) (n : Nat) :
    ∃ t, Rounds dimensionRound n s (n + k) t ∧ t.ahead = next :: rest ∧ s.Along t := by
  induction h generalizing s n
  case none => exact ⟨s, .nil, hahead, .refl hs⟩
  case more hopen hclose _ ih =>
    obtain ⟨t, hround, ht, hst⟩ := dimensionRound_takes (n := n) hs hahead hopen hclose
    obtain ⟨u, hrounds, hu, htu⟩ := ih hst.framed ht (n + 1)
    have hlength : t.ahead.length < s.ahead.length := by
      simp only [hahead, ht, List.append_eq, List.length_append, List.length_cons]
      omega
    refine ⟨u, .cons hround hlength ?_, hu, hst.trans htu⟩
    rwa [Nat.add_right_comm, Nat.add_assoc] at hrounds

theorem dimensions_takes (h : Brackets ts k) (hs : s.Framed) (hahead : s.ahead = ts ++ next :: rest)
    (hnext : next.kind ≠ .symbol .openBracket) : dimensions.Takes s k (next :: rest) := by
  obtain ⟨t, hrounds, ht, hst⟩ := rounds_of_brackets h hs hahead 0
  rw [Nat.zero_add] at hrounds
  exact hrounds.takes hst <| .accept_bind_other hst.framed ht hnext <| takes_pure hst.framed ht

theorem ne_eof_of_isTypeKeyword {k : Kind} (h : k.isTypeKeyword = true) : k ≠ .eof := by
  rintro rfl
  contradiction

theorem typeSpec_takes (h : TypeForm ts type) (hs : s.Framed) (hahead : s.ahead = ts ++ next :: rest)
    (hnext : next.kind ≠ .symbol .openBracket) : typeSpec.Takes s type (next :: rest) := by
  cases h
  case base hword hdims =>
    refine .peekKind_bind hs hahead ?_
    rw [if_pos hword]
    refine (takes_consume hs hahead <| ne_eof_of_isTypeKeyword hword).bind fun t ht hst => ?_
    exact (dimensions_takes hdims hst.framed ht hnext).bind_pure
  case record hname hdims =>
    refine .peekKind_bind hs hahead ?_
    rw [if_neg (by simp [hname, Kind.isTypeKeyword]), if_pos hname]
    refine (takes_consume hs hahead (by simp [hname])).bind fun t ht hst => ?_
    exact (dimensions_takes hdims hst.framed ht hnext).bind_pure

-- The state knows what the setting says.
structure State.Suits (s : State) (g : Setting) : Prop where
  isRecord : s.isRecord = g.isRecord
  isVoid   : s.resultType.any (·.isVoid) = g.isVoid

theorem State.Along.isRecord {s t : State} (h : s.Along t) : t.isRecord = s.isRecord := by
  funext name
  rw [State.isRecord, State.isRecord, h.records]

theorem State.Along.suits {s t : State} (h : s.Along t) (hs : s.Suits g) : t.Suits g where
  isRecord := h.isRecord.trans hs.isRecord
  isVoid   := by rw [h.resultType, hs.isVoid]

theorem declaration_takes {name : Token} (h : DeclarationForm g n (name :: ts) next d) (hs : s.Framed)
    (hrecord : s.isRecord = g.isRecord) (hopens : s.Opens n) (hahead : s.ahead = ts ++ next :: rest) :
    (declaration name).Takes s d (next :: rest) := by
  -- The branch taken depends on the token behind the colon.
  have hbegins : ∀ {t : State} {v : Token}, s.Along t →
      (v.kind.isTypeKeyword || (v.kind == .identifier && t.isRecord v.value)) = g.beginsType v := by
    intro t v hst
    rw [Setting.beginsType, hst.isRecord, hrecord]
  cases h
  case declare hcolon htype hbegin hname hbracket hassign =>
    refine (takes_expect hs hahead hcolon (by simp)).bind fun t ht hst => ?_
    refine .peek_bind hst.framed ht (.get_bind ?_)
    rw [if_pos ((hbegins hst).trans hbegin)]
    refine (typeSpec_takes htype hst.framed ht hbracket).bind fun u hu htu => ?_
    exact .accept_bind_other htu.framed hu hassign <| takes_pure htu.framed hu
  case initialized hcolon htype hbegin hassign he hname hstops =>
    refine (takes_expect hs hahead hcolon (by simp)).bind fun t ht hst => ?_
    refine .peek_bind hst.framed ht (.get_bind ?_)
    rw [if_pos ((hbegins hst).trans hbegin)]
    refine (typeSpec_takes htype hst.framed (by simpa using ht) (by simp [hassign])).bind fun u hu htu => ?_
    refine (takes_accept htu.framed hu hassign (by simp)).bind fun v hv huv => ?_
    have hsv := hst.trans htu |>.trans huv
    exact (he.takes huv.framed (hsv.opens hopens) hv hstops).bind_pure
  case label hcolon hname hbegin =>
    refine (takes_expect hs hahead hcolon (by simp)).bind fun t ht hst => ?_
    refine .peek_bind hst.framed ht (.get_bind ?_)
    rw [if_neg (by rw [hbegins hst, hbegin]; decide)]
    exact takes_pure hst.framed ht

theorem gotoStmt_takes {word target : Token} (hs : s.Framed) (hahead : s.ahead = word :: target :: rest)
    (hword : word.kind = .keyword .gotoWord) (htarget : target.kind = .identifier) :
    gotoStmt.Takes s (.goto target.value word.position) rest := by
  refine (takes_expect hs hahead hword (by simp)).bind fun t ht hst => ?_
  exact (takes_expect hst.framed ht htarget (by simp)).bind_pure

theorem returnStmt_takes {word : Token} (hs : s.Framed) (hword : word.kind = .keyword .returnWord)
    (hresult : s.resultType.any (·.isVoid) = false) (hopens : s.Opens n) (he : Derives .disjunction n ts e)
    (hstops : BindingLevel.disjunction.Stops next.kind) (hahead : s.ahead = word :: (ts ++ next :: rest)) :
    returnStmt.Takes s (.returning e word.position) (next :: rest) := by
  refine (takes_expect hs hahead hword (by simp)).bind fun t ht hst => ?_
  refine .get_bind ?_
  rw [if_neg (by rw [hst.resultType, hresult]; decide)]
  exact (he.takes hst.framed (hst.opens hopens) ht hstops).bind_pure

theorem returnStmt_takes_none {word : Token} (hs : s.Framed) (hword : word.kind = .keyword .returnWord)
    (hresult : s.resultType.any (·.isVoid) = true) (hahead : s.ahead = word :: rest) :
    returnStmt.Takes s (.returning .empty word.position) rest := by
  refine (takes_expect hs hahead hword (by simp)).bind fun t ht hst => ?_
  refine .get_bind ?_
  rw [if_pos (by rw [hst.resultType, hresult])]
  exact takes_pure hst.framed ht

theorem expressionStmt_takes_call {t : Token} (hs : s.Framed) (hopens : s.Opens n)
    (he : Derives .disjunction n (t :: ts) e) (hcall : e.isCall = true)
    (hstops : BindingLevel.disjunction.Stops next.kind)
    (hassign : next.kind ≠ .symbol .assign) (hahead : s.ahead = t :: (ts ++ next :: rest)) :
    expressionStmt.Takes s (.expression e t.position) (next :: rest) := by
  refine .peek_bind hs hahead ?_
  refine (he.takes hs hopens hahead hstops).bind fun u hu hsu => ?_
  refine .accept_bind_other hsu.framed hu hassign ?_
  rw [if_neg (by decide), if_pos hcall]
  exact takes_pure hsu.framed hu

theorem expressionStmt_takes_assign {t assign : Token} (hs : s.Framed) (hopens : s.Opens n)
    (htarget : Derives .disjunction n (t :: ts) target) (hassign : assign.kind = .symbol .assign)
    (he : Derives .disjunction n us e) (hstops : BindingLevel.disjunction.Stops next.kind)
    (hahead : s.ahead = t :: (ts ++ assign :: (us ++ next :: rest))) :
    expressionStmt.Takes s (.expression (.assign target e) t.position) (next :: rest) := by
  refine .peek_bind hs hahead ?_
  refine (htarget.takes hs hopens hahead ?_).bind fun u hu hsu => ?_
  · rw [hassign]
    exact ⟨rfl, fun o ho => by cases o <;> contradiction⟩
  refine (takes_accept hsu.framed hu hassign (by simp)).bind fun v hv huv => ?_
  have hsv := hsu.trans huv
  exact (he.takes huv.framed (hsv.opens hopens) hv hstops).bind_pure

-- The rule reads the bodies of the forms one level of nesting further in, from fewer than `bound` tokens before the
-- end.
def ReadsBodies (body : BodyRule) (g : Setting) (n bound : Nat) (Bodies : List Token → Token → List Stmt → Prop) :
    Prop :=
  ∀ {s : State} {others ts closing stmts rest}, Bodies ts closing stmts → s.Framed → s.Suits g → s.Opens n →
    s.ahead.length < bound → (∀ k ∈ others, k = .keyword .elseWord) →
    closing.kind = .keyword .endWord ∨ closing.kind ∈ others → s.ahead = ts ++ closing :: rest →
    (nested (body (.keyword .endWord) others)).Takes s ⟨stmts, (ts.headD closing).position⟩ (closing :: rest)

theorem exists_append_cons (us : List Token) (close : Token) (rest : List Token) :
    ∃ more, us ++ close :: rest = us.headD close :: more := by
  cases us
  case nil => exact ⟨rest, rfl⟩
  case cons => exact ⟨_, rfl⟩

theorem stops_keyword {k : Keyword} (hand : k ≠ .andWord) (hor : k ≠ .orWord) (level : BindingLevel) :
    level.Stops (.keyword k) where
  suffix := rfl
  operator o ho := by cases o <;> simp_all [Operator.kind]

-- What an `if` reads before its first body.
def ifHeader : Rule (Expr × Position) := do
  let start ← expect (.keyword .ifWord)
  let test ← expr
  let _ ← expect (.keyword .thenWord)
  return (test, start.position)

-- What a `while` reads before its body.
def whileHeader : Rule (Expr × Position) := do
  let start ← expect (.keyword .whileWord)
  return (← expr, start.position)

-- The body behind `else`, if there is one.
def otherwise (body : BodyRule) : Rule (Option Stmt) := do
  if ← accept (.keyword .elseWord) then
    let no ← nested (body (.keyword .endWord) [])
    return some (.block no.stmts no.position)
  else return none

theorem ifStmt_eq (body : BodyRule) : ifStmt body = (do
    let header ← ifHeader
    let yes ← nested (body (.keyword .endWord) [.keyword .elseWord])
    let no ← otherwise body
    let _ ← expect (.keyword .endWord)
    return .branch header.1 (.block yes.stmts yes.position) no header.2) := by
  simp [ifStmt, ifHeader, otherwise]

theorem whileStmt_eq (body : BodyRule) : whileStmt body = (do
    let header ← whileHeader
    let block ← nested (body (.keyword .endWord) [])
    let _ ← expect (.keyword .endWord)
    return .loop header.1 (.block block.stmts block.position) header.2) := by
  simp [whileStmt, whileHeader]

theorem ifHeader_takes {word thenWord : Token} (hword : word.kind = .keyword .ifWord)
    (htest : Derives .disjunction n ts test) (hthen : thenWord.kind = .keyword .thenWord) (hs : s.Framed)
    (hopens : s.Opens n) (hahead : s.ahead = word :: (ts ++ thenWord :: rest)) :
    ifHeader.Takes s (test, word.position) rest := by
  have hstops : BindingLevel.disjunction.Stops thenWord.kind := hthen ▸ stops_keyword (by decide) (by decide) _
  refine (takes_expect hs hahead hword (by simp)).bind fun t ht hst => ?_
  refine (htest.takes hst.framed (hst.opens hopens) ht hstops).bind fun u hu htu => ?_
  exact (takes_expect htu.framed hu hthen (by simp)).bind_pure

theorem whileHeader_takes {word : Token} (hword : word.kind = .keyword .whileWord)
    (htest : Derives .disjunction n ts test) (hstops : BindingLevel.disjunction.Stops next.kind) (hs : s.Framed)
    (hopens : s.Opens n) (hahead : s.ahead = word :: (ts ++ next :: rest)) :
    whileHeader.Takes s (test, word.position) (next :: rest) := by
  refine (takes_expect hs hahead hword (by simp)).bind fun t ht hst => ?_
  exact (htest.takes hst.framed (hst.opens hopens) ht hstops).bind_pure

section Bodies

variable {body : BodyRule} {word endWord : Token} {us vs : List Token}

theorem otherwise_takes_none (hend : endWord.kind = .keyword .endWord) (hs : s.Framed)
    (hahead : s.ahead = endWord :: rest) : (otherwise body).Takes s none (endWord :: rest) :=
  .accept_bind_other hs hahead (by simp [hend]) <| takes_pure hs hahead

theorem otherwise_takes {elseWord : Token} (hbody : ReadsBodies body g n bound Bodies)
    (helse : elseWord.kind = .keyword .elseWord) (hno : Bodies vs endWord no) (hend : endWord.kind = .keyword .endWord)
    (hs : s.Framed) (hsuits : s.Suits g) (hopens : s.Opens n) (hlt : s.ahead.length < bound)
    (hahead : s.ahead = elseWord :: (vs ++ endWord :: rest)) :
    (otherwise body).Takes s (some (.block no (vs.headD endWord).position)) (endWord :: rest) := by
  refine (takes_accept hs hahead helse (by simp)).bind fun t ht hst => ?_
  have hlength : t.ahead.length < bound := by simp [hahead, ht] at hlt ⊢; omega
  exact (hbody hno hst.framed (hst.suits hsuits) (hst.opens hopens) hlength (by simp) (.inl hend) ht).bind_pure

-- Behind the first body, an `if` goes on with what may be read there.
theorem ifStmt_takes {thenWord : Token} (hbody : ReadsBodies body g n bound Bodies)
    (hword : word.kind = .keyword .ifWord) (htest : Derives .disjunction n ts test)
    (hthen : thenWord.kind = .keyword .thenWord) (hyes : Bodies us next yes)
    (hnext : next.kind = .keyword .endWord ∨ next.kind ∈ [.keyword .elseWord])
    (hs : s.Framed) (hsuits : s.Suits g) (hopens : s.Opens n) (hle : s.ahead.length ≤ bound)
    (hahead : s.ahead = word :: (ts ++ thenWord :: (us ++ next :: rest)))
    (hno : ∀ t, t.ahead = next :: rest → t.ahead.length < bound → s.Along t →
      (otherwise body).Takes t no (endWord :: rest'))
    (hend : endWord.kind = .keyword .endWord) :
    (ifStmt body).Takes s (.branch test (.block yes (us.headD next).position) no word.position) rest' := by
  have hlength : (us ++ next :: rest).length < bound := by simp [hahead] at hle ⊢; omega
  rw [ifStmt_eq]
  refine (ifHeader_takes hword htest hthen hs hopens hahead).bind fun t ht hst => ?_
  refine (hbody hyes hst.framed (hst.suits hsuits) (hst.opens hopens) (ht ▸ hlength) (by simp) hnext ht).bind
    fun u hu htu => ?_
  have hlt : u.ahead.length < bound := by simp [hu] at hlength ⊢; omega
  refine (hno u hu hlt (hst.trans htu)).bind fun v hv huv => ?_
  exact (takes_expect huv.framed hv hend (by simp)).bind_pure

theorem whileStmt_takes (hbody : ReadsBodies body g n bound Bodies)
    (hword : word.kind = .keyword .whileWord) (htest : Derives .disjunction n ts test)
    (hstops : BindingLevel.disjunction.Stops (us.headD endWord).kind) (hstmts : Bodies us endWord stmts)
    (hend : endWord.kind = .keyword .endWord) (hs : s.Framed) (hsuits : s.Suits g) (hopens : s.Opens n)
    (hle : s.ahead.length ≤ bound) (hahead : s.ahead = word :: (ts ++ (us ++ endWord :: rest))) :
    (whileStmt body).Takes s (.loop test (.block stmts (us.headD endWord).position) word.position) rest := by
  have hlength : (us ++ endWord :: rest).length < bound := by simp [hahead] at hle ⊢; omega
  obtain ⟨more, hmore⟩ := exists_append_cons us endWord rest
  rw [whileStmt_eq]
  refine (whileHeader_takes hword htest hstops hs hopens (hmore ▸ hahead)).bind fun t ht hst => ?_
  rw [← hmore] at ht
  refine (hbody hstmts hst.framed (hst.suits hsuits) (hst.opens hopens) (ht ▸ hlength) (by simp) (.inl hend) ht).bind
    fun u hu htu => ?_
  exact (takes_expect htu.framed hu hend (by simp)).bind_pure

end Bodies

-- A statement without the semicolon that may end it.
def unended (body : BodyRule) : Rule Stmt := do
  match ← peekKind with
  | .identifier =>
    let name ← consume
    if (← peekKind) = .symbol .colon then declaration name
    else
      backup
      expressionStmt
  | .keyword .gotoWord => gotoStmt
  | .keyword .ifWord => ifStmt body
  | .keyword .whileWord => whileStmt body
  | .keyword .returnWord => returnStmt
  | _ => expressionStmt

-- What the rule reads, and a semicolon if there is one.
def ended (rule : Rule α) : Rule α := do
  let a ← rule
  let _ ← accept (.symbol .semicolon)
  return a

theorem stmtWith_eq (body : BodyRule) : stmtWith body = ended (unended body) := by
  rfl

theorem takes_ended {rule : Rule α} {semicolon : Token} (h : rule.Takes s a (semicolon :: rest))
    (hkind : semicolon.kind = .symbol .semicolon) : (ended rule).Takes s a rest :=
  h.bind fun _ ht hst => (takes_accept hst.framed ht hkind (by simp)).bind_pure

theorem takes_ended_open {rule : Rule α} (h : rule.Takes s a (next :: rest))
    (hkind : next.kind ≠ .symbol .semicolon) : (ended rule).Takes s a (next :: rest) :=
  h.bind fun _ ht hst => .accept_bind_other hst.framed ht hkind <| takes_pure hst.framed ht

-- A name with a colon behind it begins a declaration, whatever would be read otherwise.
theorem named_takes {name colon : Token} {other : Rule Stmt}
    (h : DeclarationForm g n (name :: colon :: us) next d) (hname : name.kind = .identifier)
    (hcolon : colon.kind = .symbol .colon) (hs : s.Framed) (hrecord : s.isRecord = g.isRecord) (hopens : s.Opens n)
    (hahead : s.ahead = name :: colon :: us ++ next :: rest) :
    (do
      let name ← consume
      if (← peekKind) = .symbol .colon then declaration name
      else other : Rule Stmt).Takes s d (next :: rest) := by
  refine (takes_consume hs hahead (by simp [hname])).bind fun t ht hst => ?_
  refine .peekKind_bind hst.framed ht ?_
  rw [if_pos hcolon]
  exact declaration_takes h hst.framed (hst.isRecord.trans hrecord) (hst.opens hopens) ht

-- A name with no colon behind it is taken back, and read again by the other rule.
theorem takes_back {v w : Token} {rule : Rule Stmt} (hs : s.Framed) (hahead : s.ahead = v :: w :: rest)
    (hw : w.kind ≠ .symbol .colon)
    (h : ∀ t, t.ahead = v :: w :: rest → s.Along t → rule.Takes t a rest') :
    (do
      let name ← consume
      if (← peekKind) = .symbol .colon then declaration name
      else
        backup
        rule : Rule Stmt).Takes s a rest' := by
  obtain ⟨rfl, hnext⟩ := hs.peek_eq hahead
  have hpeek := hs.peek_ne_eof (by simp [hnext])
  have hback : backup.Yields s.next () { s with consumed := s.peek :: s.consumed } := by
    have hstream : s.stream.consume.backup = s.stream := Stream.backup_consume _ <| by
      show s.ahead ≠ []
      simp [hahead]
    show (_, _) = (_, _)
    rw [Prod.ext_iff]
    exact ⟨rfl, by simp [State.next, hstream]⟩
  obtain ⟨t, hrule, hrest, hst⟩ :=
    h { s with consumed := s.peek :: s.consumed } hahead ⟨⟨hs.1, hs.2⟩, rfl, rfl, rfl, rfl⟩
  have hw : s.next.peek.kind ≠ .symbol .colon := ((hs.next hpeek).peek_eq hnext).1 ▸ hw
  refine ⟨t, ?_, hrest, ⟨hst.1, hst.2, hst.3, hst.4, hst.5⟩⟩
  simp only [yields_bind]
  refine ⟨_, _, yields_consume.mpr ⟨rfl, rfl⟩, _, _, yields_peekKind.mpr ⟨rfl, rfl⟩, ?_⟩
  rw [if_neg hw, yields_bind]
  exact ⟨_, _, hback, hrule⟩

-- Where a statement begins like an expression and is not a declaration, an expression is read.
theorem unended_takes_expression {v w : Token} {body : BodyRule} (hs : s.Framed) (hahead : s.ahead = v :: w :: rest)
    (hv : v.kind.beginsExpr = true) (hw : w.kind ≠ .symbol .colon)
    (h : ∀ t, t.ahead = v :: w :: rest → s.Along t → expressionStmt.Takes t a rest') :
    (unended body).Takes s a rest' := by
  refine .peekKind_bind hs hahead ?_
  split
  case h_1 => exact takes_back hs hahead hw h
  case h_6 => exact h s hahead (.refl hs)
  all_goals
    rename_i hkind
    rw [hkind] at hv
    contradiction

theorem unended_takes {body : BodyRule} (hbody : ReadsBodies body g n bound Bodies)
    (h : StmtForm g n Bodies ts next a) (hs : s.Framed) (hsuits : s.Suits g) (hopens : s.Opens n)
    (hle : s.ahead.length ≤ bound) (hahead : s.ahead = ts ++ next :: rest) :
    (unended body).Takes s a (next :: rest) := by
  cases h
  case declaration h =>
    obtain ⟨name, colon, us, rfl, hname, hcolon⟩ := h.exists_head
    refine .peekKind_bind hs hahead ?_
    rw [hname]
    exact named_takes h hname hcolon hs hsuits.isRecord hopens hahead
  case goto hword htarget =>
    refine .peekKind_bind hs hahead ?_
    rw [hword]
    exact gotoStmt_takes hs hahead hword htarget
  case returning hword hvoid he hstops =>
    refine .peekKind_bind hs hahead ?_
    rw [hword]
    exact returnStmt_takes hs hword (hsuits.isVoid.trans hvoid) hopens he hstops hahead
  case returningNone hword hvoid =>
    refine .peekKind_bind hs hahead ?_
    rw [hword]
    exact returnStmt_takes_none hs hword (hsuits.isVoid.trans hvoid) hahead
  case branch hword htest hthen hyes hend =>
    refine .peekKind_bind hs hahead ?_
    rw [hword]
    exact ifStmt_takes hbody hword htest hthen hyes (.inl hend) hs hsuits hopens hle (by simpa using hahead)
      (fun t ht _ hst => otherwise_takes_none hend hst.framed ht) hend
  case branchElse hword htest hthen hyes helse hno hend =>
    refine .peekKind_bind hs hahead ?_
    rw [hword]
    exact ifStmt_takes hbody hword htest hthen hyes (.inr (by simp [helse])) hs hsuits hopens hle
      (by simpa using hahead) (fun t ht hlt hst =>
        otherwise_takes hbody helse hno hend hst.framed (hst.suits hsuits) (hst.opens hopens) hlt ht) hend
  case loop hword htest hstops hstmts hend =>
    refine .peekKind_bind hs hahead ?_
    rw [hword]
    exact whileStmt_takes hbody hword htest hstops hstmts hend hs hsuits hopens hle (by simpa using hahead)
  case call v vs e he hcall hstops hassign =>
    obtain ⟨_, _, ⟨⟩, hv⟩ := he.exists_head
    obtain _ | ⟨w, ws⟩ := vs
    case nil => exact absurd (he.one_lt_length_of_isCall hcall) (by simp)
    case cons =>
      refine unended_takes_expression hs hahead hv ?_ fun t ht hst => ?_
      · intro hw
        have := he.inExpr w (by simp)
        rw [hw] at this
        contradiction
      · exact expressionStmt_takes_call hst.framed (hst.opens hopens) he hcall hstops hassign ht
  case assign v vs target us e assign htarget hassign he hstops =>
    obtain ⟨_, _, ⟨⟩, hv⟩ := htarget.exists_head
    have hahead : s.ahead = v :: (vs ++ assign :: (us ++ next :: rest)) := by simpa using hahead
    obtain ⟨more, hmore⟩ := exists_append_cons vs assign (us ++ next :: rest)
    refine unended_takes_expression hs (hmore ▸ hahead) hv ?_ fun t ht hst => ?_
    · obtain _ | ⟨w, ws⟩ := vs
      case nil => simp [hassign]
      case cons =>
        intro hw
        have := htarget.inExpr w (by simp)
        rw [show w.kind = _ from hw] at this
        contradiction
    · exact expressionStmt_takes_assign hst.framed (hst.opens hopens) htarget hassign he hstops (hmore ▸ ht)

-- A loop that gathers items of a form, each with its semicolon, reads a listing of them. `Before` is what the items
-- need of the state, and `Begins` tells the tokens that they begin with.
theorem rounds_of_listing {Form : List Token → Token → α → Prop} (Before : State → Prop) (Begins : Kind → Prop)
    (rule : Rule α) (round : List α → Rule (Round (List α) γ))
    (hbefore : ∀ {s t}, Before s → s.Along t → t.ahead.length ≤ s.ahead.length → Before t)
    (hbegins : ∀ {ts next a}, Form ts next a → ∃ t us, ts = t :: us ∧ Begins t.kind)
    (hitem : ∀ {s ts next a rest}, Form ts next a → s.Framed → Before s → s.ahead = ts ++ next :: rest →
      rule.Takes s a (next :: rest))
    (hround : ∀ {s as a v rest rest'}, s.Framed → Before s → s.ahead = v :: rest → Begins v.kind →
      (ended rule).Takes s a rest' → (round as).Takes s (.again (a :: as)) rest')
    (h : Listing Form ts close as) (hs : s.Framed) (hbefore' : Before s) (hahead : s.ahead = ts ++ close :: rest)
    (gathered : List α) :
    ∃ t, Rounds round gathered s (as.reverse ++ gathered) t ∧ t.ahead = close :: rest ∧ s.Along t := by
  induction h generalizing s gathered
  case nil => exact ⟨s, .nil, hahead, .refl hs⟩
  case closed ts semicolon a us close as hform hkind _ ih =>
    obtain ⟨v, vs, rfl, hv⟩ := hbegins hform
    have hahead : s.ahead = (v :: vs) ++ semicolon :: (us ++ close :: rest) := by simpa using hahead
    obtain ⟨t, hfirst, ht, hst⟩ : (round gathered).Takes s (.again (a :: gathered)) _ :=
      hround hs hbefore' hahead hv <| takes_ended (hitem hform hs hbefore' hahead) hkind
    have hlength : t.ahead.length < s.ahead.length := by
      simp only [hahead, ht, List.length_append, List.length_cons]
      omega
    obtain ⟨u, hrounds, hu, htu⟩ := ih hst.framed (hbefore hbefore' hst (Nat.le_of_lt hlength)) ht (a :: gathered)
    exact ⟨u, .cons hfirst hlength (by simpa using hrounds), hu, hst.trans htu⟩
  case plain ts a us close as hform hkind _ ih =>
    obtain ⟨v, vs, rfl, hv⟩ := hbegins hform
    obtain ⟨more, hmore⟩ := exists_append_cons us close rest
    have hahead : s.ahead = (v :: vs) ++ us.headD close :: more := by rw [hahead, List.append_assoc, hmore]
    obtain ⟨t, hfirst, ht, hst⟩ : (round gathered).Takes s (.again (a :: gathered)) _ :=
      hround hs hbefore' hahead hv <| takes_ended_open (hitem hform hs hbefore' hahead) hkind
    have hlength : t.ahead.length < s.ahead.length := by
      simp only [hahead, ht, List.length_append, List.length_cons]
      omega
    obtain ⟨u, hrounds, hu, htu⟩ :=
      ih hst.framed (hbefore hbefore' hst (Nat.le_of_lt hlength)) (hmore ▸ ht) (a :: gathered)
    exact ⟨u, .cons hfirst hlength (by simpa using hrounds), hu, hst.trans htu⟩

-- One more statement of a body, unless it ends.
def bodyRound (stmt : Rule Stmt) (close : Kind) (others : List Kind) (stmts : List Stmt) :
    Rule (Round (List Stmt) (List Stmt)) := do
  let kind ← peekKind
  if kind = close ∨ kind ∈ others then return .done stmts.reverse
  else if kind = .eof then unexpected close.describe
  else return .again ((← stmt) :: stmts)

theorem bodyWith_eq (stmt : Rule Stmt) (close : Kind) (others : List Kind) :
    bodyWith stmt close others = (do
      let position := (← peek).position
      let stmts ← repeatFrom (bodyRound stmt close others) []
      return ⟨stmts, position⟩) :=
  rfl

theorem bodyRound_takes {stmt : Rule Stmt} {stmts : List Stmt} {v : Token} {others : List Kind} (hs : s.Framed)
    (hahead : s.ahead = v :: rest) (hbegins : v.kind.beginsStmt = true)
    (hothers : ∀ k ∈ others, k = .keyword .elseWord) (h : stmt.Takes s a rest') :
    (bodyRound stmt (.keyword .endWord) others stmts).Takes s (.again (a :: stmts)) rest' := by
  refine .peekKind_bind hs hahead ?_
  have hgoes : ¬(v.kind = .keyword .endWord ∨ v.kind ∈ others) := by
    rintro (hend | hmem)
    case inl => rw [hend] at hbegins; contradiction
    case inr => rw [hothers _ hmem] at hbegins; contradiction
  have hmore : v.kind ≠ .eof := by
    intro heof
    rw [heof] at hbegins
    contradiction
  rw [if_neg hgoes, if_neg hmore]
  exact h.bind_pure

-- A rule for statements of the form reads bodies of them.
theorem bodyWith_takes {body : BodyRule} {closing : Token} {others : List Kind}
    (hbody : ReadsBodies body g n bound (BodyForm g n))
    (h : Listing (StmtForm g n (BodyForm g n)) ts closing stmts) (hs : s.Framed) (hsuits : s.Suits g)
    (hopens : s.Opens n) (hle : s.ahead.length ≤ bound) (hothers : ∀ k ∈ others, k = .keyword .elseWord)
    (hclose : closing.kind = .keyword .endWord ∨ closing.kind ∈ others) (hahead : s.ahead = ts ++ closing :: rest) :
    (bodyWith (stmtWith body) (.keyword .endWord) others).Takes s ⟨stmts, (ts.headD closing).position⟩
      (closing :: rest) := by
  obtain ⟨more, hmore⟩ := exists_append_cons ts closing rest
  rw [bodyWith_eq]
  refine .peek_bind hs (hmore ▸ hahead) ?_
  obtain ⟨t, hrounds, ht, hst⟩ := rounds_of_listing
    (fun s => s.Suits g ∧ s.Opens n ∧ s.ahead.length ≤ bound) (·.beginsStmt = true) (unended body)
    (bodyRound (stmtWith body) (.keyword .endWord) others)
    (fun hb hst hle => ⟨hst.suits hb.1, hst.opens hb.2.1, Nat.le_trans hle hb.2.2⟩) StmtForm.exists_head
    (fun hform hs hb hahead => unended_takes hbody hform hs hb.1 hb.2.1 hb.2.2 hahead)
    (fun hs _ hahead hbegins h => bodyRound_takes hs hahead hbegins hothers (stmtWith_eq body ▸ h))
    h hs ⟨hsuits, hopens, hle⟩ hahead []
  have hdone : (bodyRound (stmtWith body) (.keyword .endWord) others (stmts.reverse ++ [])).Takes t
      (.done stmts) (closing :: rest) := by
    refine .peekKind_bind hst.framed ht ?_
    rw [if_pos hclose]
    simpa using takes_pure hst.framed ht
  exact (hrounds.takes hst hdone).bind_pure

-- By induction on the levels that are left: a body goes one level further in, past a token.
theorem readsBodies_bodyWithin (g : Setting) (n : Nat) (left : List Token) :
    ReadsBodies (bodyWithin left) g n left.length (BodyForm g n) := by
  induction n generalizing left
  case zero =>
    intro s others ts closing stmts rest h
    contradiction
  case succ n ih =>
    intro s others ts closing stmts rest h hs hsuits hopens hlt hothers hclose hahead
    obtain ⟨_, left, rfl⟩ := List.exists_cons_of_length_pos (Nat.zero_lt_of_lt hlt)
    have hsuits : s.deeper.Suits g := ⟨hsuits.isRecord, hsuits.isVoid⟩
    exact .nested hopens <|
      bodyWith_takes (ih left) h hs.deeper hsuits hopens.deeper (Nat.le_of_lt_succ hlt) hothers hclose hahead

theorem body_takes {closing : Token} (h : Listing (StmtForm g n (BodyForm g n)) ts closing stmts) (hs : s.Framed)
    (hsuits : s.Suits g) (hopens : s.Opens n) (hclose : closing.kind = .keyword .endWord)
    (hahead : s.ahead = ts ++ closing :: rest) :
    (body (.keyword .endWord) []).Takes s ⟨stmts, (ts.headD closing).position⟩ (closing :: rest) := by
  refine .get_bind ?_
  exact bodyWith_takes (readsBodies_bodyWithin g n s.ahead) h hs hsuits hopens (Nat.le_refl _) (by simp) (.inl hclose)
    hahead

end BasicFrontEnd.Grammar
