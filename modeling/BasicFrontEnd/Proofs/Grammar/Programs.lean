import BasicFrontEnd.Compile
import BasicFrontEnd.Proofs.Grammar.Statements

/-!
What has the form of a function, a record or a whole program is read as one.
-/

namespace BasicFrontEnd.Grammar

open Rule State

variable {s : State} {next : Token} {ts us rest : List Token} {n : Nat}

theorem formal_takes (h : FormalForm ts a) (hs : s.Framed) (hahead : s.ahead = ts ++ next :: rest)
    (hnext : next.kind ≠ .symbol .openBracket) : formal.Takes s a (next :: rest) := by
  cases h
  case mk htype hname hdims =>
    refine .peek_bind hs hahead ?_
    refine (typeSpec_takes htype hs (by simpa using hahead) (by simp [hname])).bind fun t ht hst => ?_
    refine (takes_expect hst.framed ht hname (by simp)).bind fun u hu htu => ?_
    exact (dimensions_takes hdims htu.framed hu hnext).bind_pure

theorem rounds_of_formals {part : List Token × TypedName} {parts : List (List Token × TypedName)}
    (hparts : ∀ part' ∈ part :: parts, FormalForm part'.1 part'.2)
    (hsep : Separated ((part :: parts).map Prod.fst) ts) (hs : s.Framed) (hahead : s.ahead = ts ++ next :: rest)
    (hclose : next.kind = .symbol .closeParen) (gathered : List TypedName) :
    ∃ t u, formal.Yields s part.2 t ∧ t.ahead.length ≤ s.ahead.length ∧
      Rounds (commaRound formal) (part.2 :: gathered) t (((part :: parts).map Prod.snd).reverse ++ gathered) u ∧
      u.ahead = next :: rest ∧ s.Along u := by
  induction parts generalizing part ts s gathered
  case nil =>
    obtain _ | _ := hsep
    obtain ⟨t, hfirst, ht, hst⟩ := formal_takes (hparts part (by simp)) hs hahead (by simp [hclose])
    exact ⟨t, t, hfirst, by simp [ht, hahead], .nil, ht, hst⟩
  case cons part' parts ih =>
    obtain _ | _ | ⟨hcomma, hsep⟩ := hsep
    obtain ⟨t, hfirst, ht, hst⟩ := formal_takes (hparts part (by simp)) hs (by simpa using hahead) (by simp [hcomma])
    obtain ⟨rfl, hnext⟩ := hst.framed.peek_eq ht
    have htn : t.Along t.next := ⟨hst.framed.next (by simp [hcomma]), rfl, rfl, rfl, rfl⟩
    obtain ⟨u, v, hsecond, hle, hrounds, hv, huv⟩ :=
      ih (fun part h => hparts part <| List.mem_cons_of_mem _ h) hsep htn.framed hnext (part.2 :: gathered)
    have hlength := hst.framed.length_next_lt
    refine ⟨t, v, hfirst, by simp [ht, hahead], .cons (commaRound_again.mpr ⟨hcomma, _, hsecond, rfl⟩) ?_ ?_, hv, ?_⟩
    · omega
    · simpa using hrounds
    · exact hst.trans htn |>.trans huv

theorem formals_takes (h : FormalsForm ts as) (hs : s.Framed) (hahead : s.ahead = ts ++ next :: rest)
    (hclose : next.kind = .symbol .closeParen) : formals.Takes s as (next :: rest) := by
  obtain ⟨parts, rfl, hparts, hsep⟩ := h
  cases parts
  case nil =>
    obtain _ | _ := hsep
    refine .peekKind_bind hs hahead ?_
    rw [if_pos hclose]
    exact takes_pure hs hahead
  case cons part parts =>
    obtain ⟨us, rfl⟩ := hsep.exists_append
    obtain ⟨v, vs, hv, hbegins⟩ := (hparts part (by simp)).exists_head
    have hpeek : s.ahead = v :: (vs ++ us ++ next :: rest) := by simpa [hv] using hahead
    refine .peekKind_bind hs hpeek ?_
    rw [if_neg hbegins, separated_eq]
    obtain ⟨t, u, hfirst, _, hrounds, hu, hsu⟩ := rounds_of_formals hparts hsep hs hahead hclose []
    obtain ⟨rfl, -⟩ := hsu.framed.peek_eq hu
    have hdone : (repeatFrom (commaRound formal) [part.2]).Yields t ((part :: parts).map Prod.snd) u :=
      hrounds.yields <| commaRound_done.mpr ⟨by simp [hclose], by simp, rfl⟩
    exact ⟨u, yields_bind.mpr ⟨_, t, hfirst, hdone⟩, hu, hsu⟩

-- The state inside a function with the result type.
def State.inFunction (s : State) (result : TypeSpec) : State :=
  { s with resultType := some result }

theorem withResultType_takes {rule : Rule α} (hs : s.resultType = none) (h : rule.Takes (s.inFunction result) a rest) :
    (withResultType result rule).Takes s a rest := by
  obtain ⟨t, hrule, hrest, hst⟩ := h
  have : (withResultType result rule).outcome s =
      ((rule.outcome (s.inFunction result)).1, { (rule.outcome (s.inFunction result)).2 with resultType := none }) :=
    rfl
  refine ⟨{ t with resultType := none }, ?_, hrest, ⟨⟨hst.1.1, hst.1.2⟩, hst.2, hst.3, hst.4, hs.symm⟩⟩
  rw [Yields, this, hrule]

def signature : Rule Signature := do
  let start ← expect (.keyword .funcWord)
  let name ← expect .identifier
  let _ ← expect (.symbol .openParen)
  let formals ← formals
  let _ ← expect (.symbol .closeParen)
  let _ ← expect (.symbol .arrow)
  let result ← typeSpec
  return ⟨name.value, formals, result, start.position⟩

-- A function from its signature on.
def signedFunction (signature : Signature) : Rule Stmt := do
  let body ← withResultType signature.result (body (.keyword .endWord) [])
  let _ ← expect (.keyword .endWord)
  return .function signature.name signature.result signature.formals body.stmts body.position signature.position

theorem functionDecl_eq : functionDecl = signature >>= signedFunction := by
  simp [functionDecl, signature, signedFunction]

theorem signature_takes (h : SignatureForm ts g) (hs : s.Framed) (hahead : s.ahead = ts ++ next :: rest)
    (hbracket : next.kind ≠ .symbol .openBracket) : signature.Takes s g (next :: rest) := by
  cases h
  case mk hword hname hopen hformals hclose harrow hresult =>
    refine (takes_expect hs hahead hword (by simp)).bind fun t ht hst => ?_
    refine (takes_expect hst.framed ht hname (by simp)).bind fun u hu htu => ?_
    refine (takes_expect htu.framed hu hopen (by simp)).bind fun v hv huv => ?_
    refine (formals_takes hformals huv.framed (by simpa using hv) hclose).bind fun w hw hvw => ?_
    refine (takes_expect hvw.framed hw hclose (by simp)).bind fun x hx hwx => ?_
    refine (takes_expect hwx.framed hx harrow (by simp)).bind fun y hy hxy => ?_
    exact (typeSpec_takes hresult hxy.framed hy hbracket).bind_pure

theorem functionDecl_takes {endWord : Token} {isRecord : String → Bool} (h : SignatureForm ts g) (hs : s.Framed)
    (hrecord : s.isRecord = isRecord) (hopens : s.Opens n) (hresultType : s.resultType = none)
    (hbracket : (us.headD endWord).kind ≠ .symbol .openBracket)
    (hbody : Listing (StmtForm ⟨isRecord, g.result.isVoid⟩ n (BodyForm ⟨isRecord, g.result.isVoid⟩ n)) us endWord stmts)
    (hend : endWord.kind = .keyword .endWord) (hahead : s.ahead = ts ++ (us ++ endWord :: rest)) :
    functionDecl.Takes s (.function g.name g.result g.formals stmts (us.headD endWord).position g.position) rest := by
  obtain ⟨more, hmore⟩ := exists_append_cons us endWord rest
  rw [functionDecl_eq]
  refine (signature_takes h hs (hmore ▸ hahead) hbracket).bind fun t ht hst => ?_
  rw [← hmore] at ht
  have hframed : (t.inFunction g.result).Framed := ⟨hst.framed.stream, hst.framed.before⟩
  have hsuits : (t.inFunction g.result).Suits ⟨isRecord, g.result.isVoid⟩ := ⟨hst.isRecord.trans hrecord, rfl⟩
  have hbody := body_takes hbody hframed hsuits (hst.opens hopens) hend ht
  refine (withResultType_takes (hst.resultType.trans hresultType) hbody).bind fun u hu htu => ?_
  exact (takes_expect htu.framed hu hend (by simp)).bind_pure

-- A member without the semicolon that may end it.
def unendedMember : Rule TypedName := do
  let name ← expect .identifier
  let _ ← expect (.symbol .colon)
  let type ← typeSpec
  return ⟨name.value, type, name.position⟩

theorem member_eq : member = ended unendedMember := by
  simp [member, ended, unendedMember]

theorem unendedMember_takes (h : MemberForm ts next a) (hs : s.Framed) (hahead : s.ahead = ts ++ next :: rest) :
    unendedMember.Takes s a (next :: rest) := by
  cases h
  case mk hname hcolon htype hnext =>
    refine (takes_expect hs hahead hname (by simp)).bind fun t ht hst => ?_
    refine (takes_expect hst.framed ht hcolon (by simp)).bind fun u hu htu => ?_
    exact (typeSpec_takes htype htu.framed hu hnext).bind_pure

-- One more member, unless the record ends.
def memberRound (members : List TypedName) : Rule (Round (List TypedName) (List TypedName)) := do
  if (← peekKind) = .keyword .endWord then return .done members.reverse
  else return .again ((← member) :: members)

theorem MemberForm.exists_head (h : MemberForm ts next a) : ∃ t us, ts = t :: us ∧ t.kind = .identifier := by
  cases h
  case mk hname _ _ _ => exact ⟨_, _, rfl, hname⟩

theorem recordDecl_takes {word name endWord : Token} (hs : s.Framed) (hword : word.kind = .keyword .structWord)
    (hname : name.kind = .identifier) (hmembers : Listing MemberForm ts endWord members)
    (hend : endWord.kind = .keyword .endWord) (hahead : s.ahead = word :: name :: (ts ++ endWord :: rest)) :
    recordDecl.Takes s (.record name.value members word.position) rest := by
  refine (takes_expect hs hahead hword (by simp)).bind fun t ht hst => ?_
  refine (takes_expect hst.framed ht hname (by simp)).bind fun u hu htu => ?_
  obtain ⟨v, hrounds, hv, huv⟩ := rounds_of_listing (fun _ => True) (· = .identifier) unendedMember memberRound
    (fun _ _ _ => trivial) MemberForm.exists_head (fun hform hs _ hahead => unendedMember_takes hform hs hahead)
    (fun hs _ hahead hbegins h => by
      refine .peekKind_bind hs hahead ?_
      rw [if_neg (by simp [hbegins]), member_eq]
      exact h.bind_pure)
    hmembers htu.framed trivial hu []
  have hdone : (memberRound (members.reverse ++ [])).Takes v (.done members) (endWord :: rest) := by
    refine .peekKind_bind huv.framed hv ?_
    rw [if_pos hend]
    simpa using takes_pure huv.framed hv
  refine (hrounds.takes huv hdone).bind fun w hw huw => ?_
  exact (takes_expect huw.framed hw hend (by simp)).bind_pure

-- A statement outside of functions without the semicolon that may end it.
def unendedTop : Rule Stmt := do
  match ← peekKind with
  | .keyword .funcWord => functionDecl
  | .keyword .structWord => recordDecl
  | .identifier =>
    let name ← consume
    if (← peekKind) = .symbol .colon then declaration name
    else unexpected (Kind.symbol .colon).describe
  | _ => unexpected "declaration"

theorem topLevelStmt_eq : topLevelStmt = ended unendedTop :=
  rfl

theorem unendedTop_takes {isRecord : String → Bool} (h : TopForm isRecord n ts next a) (hs : s.Framed)
    (hrecord : s.isRecord = isRecord) (hopens : s.Opens n) (hresultType : s.resultType = none)
    (hahead : s.ahead = ts ++ next :: rest) : unendedTop.Takes s a (next :: rest) := by
  cases h
  case declaration h =>
    obtain ⟨name, colon, us, rfl, hname, hcolon⟩ := h.exists_head
    refine .peekKind_bind hs hahead ?_
    rw [hname]
    exact named_takes h hname hcolon hs hrecord hopens hahead
  case function hword hname hopen hparts hsep hclose harrow hresult hbracket hbody hend =>
    refine .peekKind_bind hs hahead ?_
    rw [hword]
    have hsignature := SignatureForm.mk hword hname hopen ⟨_, rfl, hparts, hsep⟩ hclose harrow hresult
    exact functionDecl_takes hsignature hs hrecord hopens hresultType hbracket hbody hend (by simpa using hahead)
  case record hword hname hmembers hend =>
    refine .peekKind_bind hs hahead ?_
    rw [hword]
    exact recordDecl_takes hs hword hname hmembers hend (by simpa using hahead)

-- One more statement, unless the source ends.
def programRound (stmts : List Stmt) : Rule (Round (List Stmt) Program) := do
  if (← peekKind) = .eof then return .done ⟨stmts.reverse⟩
  else return .again ((← topLevelStmt) :: stmts)

theorem TopForm.exists_head {isRecord : String → Bool} (h : TopForm isRecord n ts next a) :
    ∃ t us, ts = t :: us ∧ t.kind ≠ .eof := by
  cases h
  case declaration h =>
    obtain ⟨_, _, _, rfl, hname, _⟩ := h.exists_head
    exact ⟨_, _, rfl, by simp [hname]⟩
  all_goals exact ⟨_, _, rfl, by simp [*]⟩

-- A listing of statements outside of functions, up to the end of the source, is read as a program.
theorem program_takes {isRecord : String → Bool} {eof : Token} (h : Listing (TopForm isRecord n) ts eof stmts)
    (hs : s.Framed) (hrecord : s.isRecord = isRecord) (hopens : s.Opens n) (hresultType : s.resultType = none)
    (heof : eof.kind = .eof) (hahead : s.ahead = ts ++ [eof]) : program.Takes s ⟨stmts⟩ [eof] := by
  obtain ⟨t, hrounds, ht, hst⟩ := rounds_of_listing
    (fun s => s.isRecord = isRecord ∧ s.Opens n ∧ s.resultType = none) (· ≠ .eof) unendedTop programRound
    (fun hb hst _ => ⟨hst.isRecord.trans hb.1, hst.opens hb.2.1, hst.resultType.trans hb.2.2⟩) TopForm.exists_head
    (fun hform hs hb hahead => unendedTop_takes hform hs hb.1 hb.2.1 hb.2.2 hahead)
    (fun hs _ hahead hbegins h => by
      refine .peekKind_bind hs hahead ?_
      rw [if_neg hbegins, topLevelStmt_eq]
      exact h.bind_pure)
    h hs ⟨hrecord, hopens, hresultType⟩ hahead []
  refine hrounds.takes hst <| .peekKind_bind hst.framed ht ?_
  rw [if_pos heof]
  simpa using takes_pure hst.framed ht

theorem mem_declaredRecords {record name : Token} (hrecord : record.kind = .keyword .structWord)
    (hname : name.kind = .identifier) (us vs : List Token) :
    name.value ∈ declaredRecords (us ++ record :: name :: vs) := by
  induction us
  case nil => simp [declaredRecords, hrecord, hname]
  case cons u us ih =>
    obtain ⟨t, ts, hts⟩ := List.exists_cons_of_ne_nil (show us ++ record :: name :: vs ≠ [] by simp)
    rw [List.cons_append, hts, declaredRecords]
    rw [hts] at ih
    split
    · exact List.mem_cons_of_mem _ ih
    · exact ih

theorem isRecord_ofStream {stream : Stream} {name : String} :
    (State.ofStream stream).isRecord name = true ↔ name ∈ declaredRecords stream.toList := by
  simp [State.isRecord, State.ofStream]

theorem State.opens_ofStream (stream : Stream) : (State.ofStream stream).Opens maxNesting := by
  intro limit hlimit
  obtain rfl : maxNesting = limit := Option.some.inj hlimit
  exact Nat.le_of_eq (Nat.zero_add _)

-- Whatever has the form of a program is read as that program.
theorem read_of_listing {stream : Stream} {eof : Token} (hframed : stream.Framed) (hbefore : stream.current.kind ≠ .eof)
    (h : Listing (TopForm (State.ofStream stream).isRecord maxNesting) ts eof stmts) (heof : eof.kind = .eof)
    (hahead : stream.ahead = ts ++ [eof]) : stream.read.1 = .ok ⟨stmts⟩ := by
  have hs : (State.ofStream stream).Framed := ⟨hframed, hbefore⟩
  obtain ⟨t, hprogram, _, _⟩ := program_takes h hs rfl (opens_ofStream stream) rfl heof hahead
  have : program (State.ofStream stream) = (.ok ⟨stmts⟩, t) := hprogram
  simp [Stream.read, ExceptT.run, StateT.run, this]

end BasicFrontEnd.Grammar
