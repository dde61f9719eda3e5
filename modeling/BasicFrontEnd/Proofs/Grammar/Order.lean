import BasicFrontEnd.Proofs.Grammar.Records
import BasicFrontEnd.Proofs.Writing.Stmts

/-!
The statements outside of functions may stand in any order: the tokens of each are read as the same statement wherever
they stand among those of the others. Main statement: `read_permuted`.
-/

namespace BasicFrontEnd.Grammar

open Rule State

-- The tokens that are consumed for a statement, together with it.
abbrev Portion := List Token × Stmt

-- Statements outside of functions are read one after the other, each from its tokens.
inductive Consumes : State → List Portion → State → Prop
  | nil  : Consumes s [] s
  | cons : topLevelStmt.Yields s a t → s.ahead = ts ++ t.ahead → Consumes t portions u →
           Consumes s ((ts, a) :: portions) u

namespace Portion

-- The tokens write the statement, with a semicolon behind it or none.
inductive Written (isRecord : String → Bool) (n : Nat) : Portion → Prop
  | closed : TopForm isRecord n ts semicolon a → semicolon.kind = .symbol .semicolon →
             Written isRecord n (ts ++ [semicolon], a)
  | plain {next : Token} : TopForm isRecord n ts next a → Written isRecord n (ts, a)

end Portion

section Consuming

variable {isRecord : String → Bool} {s t : State} {eof : Token}

-- No function is being read, and `n` levels of nesting are left.
structure Outside (isRecord : String → Bool) (n : Nat) (s : State) : Prop where
  framed     : s.Framed
  isRecord   : s.isRecord = isRecord
  opens      : s.Opens n
  resultType : s.resultType = none

theorem Outside.along (h : Outside isRecord n s) (hst : s.Along t) : Outside isRecord n t where
  framed     := hst.framed
  isRecord   := hst.isRecord.trans h.isRecord
  opens      := hst.opens h.opens
  resultType := hst.resultType.trans h.resultType

theorem outside_ofStream {stream : Stream} (hframed : stream.Framed) (hbefore : stream.current.kind ≠ .eof) :
    Outside (State.ofStream stream).isRecord maxNesting (State.ofStream stream) where
  framed     := ⟨hframed, hbefore⟩
  isRecord   := rfl
  opens      := opens_ofStream stream
  resultType := rfl

theorem Listing.consumes (h : Listing (TopForm isRecord n) ts eof stmts) (hs : Outside isRecord n s)
    (hahead : s.ahead = ts ++ [eof]) :
    ∃ portions t, Consumes s portions t ∧ t.ahead = [eof] ∧ ts = portions.flatMap Prod.fst ∧
      stmts = portions.map Prod.snd ∧ ∀ portion ∈ portions, Portion.Written isRecord n portion := by
  induction h generalizing s
  case nil => exact ⟨[], s, .nil, hahead, rfl, rfl, by simp⟩
  case closed ts semicolon a us eof _ ha hsemicolon _ ih =>
    have hahead' : s.ahead = ts ++ semicolon :: (us ++ [eof]) := by simp [hahead]
    have hitem : topLevelStmt.Takes s a (us ++ [eof]) :=
      takes_ended (unendedTop_takes ha hs.framed hs.isRecord hs.opens hs.resultType hahead') hsemicolon
    obtain ⟨t, hyields, ht, hst⟩ := hitem
    obtain ⟨portions, u, hportions, hu, rfl, rfl, hwritten⟩ := ih (hs.along hst) ht
    refine ⟨(ts ++ [semicolon], a) :: portions, u, .cons hyields ?_ hportions, hu, ?_, rfl, ?_⟩
    case refine_1 => simp [hahead', ht]
    case refine_2 => simp
    case refine_3 => exact List.forall_mem_cons.mpr ⟨.closed ha hsemicolon, hwritten⟩
  case plain ts a us eof _ ha hplain _ ih =>
    obtain ⟨more, hmore⟩ := exists_append_cons us eof []
    have hahead' : s.ahead = ts ++ us.headD eof :: more := by rw [hahead, List.append_assoc, hmore]
    have hitem : topLevelStmt.Takes s a (us.headD eof :: more) :=
      takes_ended_open (unendedTop_takes ha hs.framed hs.isRecord hs.opens hs.resultType hahead') hplain
    obtain ⟨t, hyields, ht, hst⟩ := hitem
    obtain ⟨portions, u, hportions, hu, rfl, rfl, hwritten⟩ := ih (hs.along hst) (hmore ▸ ht)
    refine ⟨(ts, a) :: portions, u, .cons hyields ?_ hportions, hu, by simp, rfl, ?_⟩
    case refine_1 => rw [hahead', ht]
    case refine_2 => exact List.forall_mem_cons.mpr ⟨.plain ha, hwritten⟩

end Consuming

section Seams

variable {isRecord : String → Bool} {next next' eof : Token}

theorem TopForm.beginsAnew (h : TopForm isRecord n ts next a) : ∃ t us, ts = t :: us ∧ t.kind.beginsAnew = true := by
  cases h
  case declaration h =>
    obtain ⟨_, _, _, rfl, hname, _⟩ := h.exists_head
    exact ⟨_, _, rfl, by rw [hname]; rfl⟩
  case function hword _ _ _ _ _ _ _ _ _ _ => exact ⟨_, _, rfl, by rw [hword]; rfl⟩
  case record hword _ _ _ => exact ⟨_, _, rfl, by rw [hword]; rfl⟩

-- Whether a statement that is no label ends can be seen at the token behind it, whichever statement that begins.
theorem TopForm.before (h : TopForm isRecord n ts next a) (hlabel : ∀ name position, a ≠ .label name position)
    (hkind : next'.kind.beginsAnew = true) : TopForm isRecord n ts next' a := by
  cases h
  case declaration h =>
    refine .declaration ?_
    cases h
    case declare hname hcolon htype hbegins _ _ =>
      have hsymbol := Kind.ne_symbol_of_beginsAnew hkind
      exact .declare hname hcolon htype hbegins (hsymbol _) (hsymbol _)
    case initialized hname hcolon htype hbegins hassign he _ =>
      exact .initialized hname hcolon htype hbegins hassign he (Kind.Ends.stops <| .inr hkind)
    case label => exact absurd rfl (hlabel _ _)
  case function hword hname hopen hparts hsep hclose harrow hresult hbracket hbody hend =>
    exact .function _ hword hname hopen hparts hsep hclose harrow hresult hbracket hbody hend
  case record hword hname hmembers hend => exact .record hword hname hmembers hend

theorem Portion.Written.beginsAnew {portion : Portion} (h : portion.Written isRecord n) :
    ∃ t us, portion.1 = t :: us ∧ t.kind.beginsAnew = true := by
  cases h
  case closed h _ =>
    obtain ⟨t, us, rfl, ht⟩ := h.beginsAnew
    exact ⟨t, _, rfl, ht⟩
  case plain h => exact h.beginsAnew

-- Behind each of the portions another one begins, or the source ends.
theorem beginsAnew_headD {portions : List Portion} (h : ∀ portion ∈ portions, portion.Written isRecord n)
    (heof : eof.kind = .eof) : ((portions.flatMap Prod.fst).headD eof).kind.beginsAnew = true := by
  cases portions
  case nil => simp [heof, Kind.beginsAnew]
  case cons portion portions =>
    obtain ⟨t, us, hts, ht⟩ := (h portion (.head _)).beginsAnew
    simpa [hts] using ht

theorem listing_of_portions {portions : List Portion} (h : ∀ portion ∈ portions, portion.Written isRecord n)
    (hlabel : ∀ name position, .label name position ∉ portions.map Prod.snd) (heof : eof.kind = .eof) :
    Listing (TopForm isRecord n) (portions.flatMap Prod.fst) eof (portions.map Prod.snd) := by
  induction portions
  case nil => exact .nil
  case cons portion portions ih =>
    obtain ⟨hfirst, hrest⟩ := List.forall_mem_cons.mp h
    have hlisting := ih hrest fun name position hmem => hlabel name position (.tail _ hmem)
    have hnext := beginsAnew_headD hrest heof
    cases hfirst
    case closed ha hsemicolon => simpa using Listing.closed ha hsemicolon hlisting
    case plain ha =>
      have ha := ha.before (fun name position heq => hlabel name position (heq ▸ .head _)) hnext
      exact .plain ha (Kind.ne_symbol_of_beginsAnew hnext _) hlisting

end Seams

section Permuting

variable {head eof : Token} {rest ts : List Token} {p : Program}

-- The streams have the same tokens but for their order, and end with the same one.
theorem framed_of_perm (h : (Stream.ofTokens head (us ++ [eof])).Framed) (hperm : ts.Perm us) :
    (Stream.ofTokens head (ts ++ [eof])).Framed := by
  obtain ⟨vs, last, hlist, heof, hother⟩ := h
  obtain ⟨rfl, rfl⟩ : head :: us = vs ∧ eof = last := by
    have : (head :: us) ++ [eof] = vs ++ [last] := hlist
    simpa using List.append_inj' this rfl
  exact ⟨head :: ts, eof, rfl, heof, fun t ht => hother t <| (hperm.cons head).mem_iff.mp ht⟩

-- Where the statements are the same but for their order, the same names are those of records.
theorem isRecord_of_perm {isRecord isRecord' : String → Bool} (hhead : head.kind = .head)
    (h : Listing (TopForm isRecord n) us eof stmts) (h' : Listing (TopForm isRecord' n) ts eof stmts')
    (hperm : stmts'.Perm stmts) :
    (State.ofStream (.ofTokens head (ts ++ [eof]))).isRecord =
      (State.ofStream (.ofTokens head (us ++ [eof]))).isRecord := by
  funext name
  rw [Bool.eq_iff_iff, isRecord_ofStream, isRecord_ofStream]
  show name ∈ declaredRecords (head :: (ts ++ [eof])) ↔ name ∈ declaredRecords (head :: (us ++ [eof]))
  rw [h.declaredRecords_eq hhead, h'.declaredRecords_eq hhead]
  exact (hperm.filterMap _).mem_iff

-- The statements outside of functions can be read in any order, if no label is among them: the tokens that are consumed
-- for one are read as the same statement wherever they stand.
theorem read_permuted (hhead : head.kind = .head) (hframed : (Stream.ofTokens head rest).Framed)
    (h : (Stream.ofTokens head rest).read.1 = .ok p) (hlabel : ∀ name position, .label name position ∉ p.body) :
    ∃ portions eof t, Consumes (State.ofStream (.ofTokens head rest)) portions t ∧ t.ahead = [eof] ∧
      rest = portions.flatMap Prod.fst ++ [eof] ∧ p.body = portions.map Prod.snd ∧
      ∀ permuted : List Portion, permuted.Perm portions →
        (Stream.ofTokens head (permuted.flatMap Prod.fst ++ [eof])).Framed ∧
          (Stream.ofTokens head (permuted.flatMap Prod.fst ++ [eof])).read.1 = .ok ⟨permuted.map Prod.snd⟩ := by
  have hbefore : head.kind ≠ .eof := by simp [hhead]
  obtain ⟨ts, eof, hahead, heof, hlisting⟩ := listing_of_read hframed hbefore h
  obtain rfl : rest = ts ++ [eof] := hahead
  obtain ⟨portions, t, hconsumes, ht, rfl, hbody, hwritten⟩ := hlisting.consumes (outside_ofStream hframed hbefore) rfl
  refine ⟨portions, eof, t, hconsumes, ht, rfl, hbody, fun permuted hperm => ?_⟩
  have hframed' := framed_of_perm hframed (hperm.flatMap_right Prod.fst)
  have hwritten' : ∀ portion ∈ permuted, Portion.Written _ _ portion :=
    fun portion hportion => hwritten portion (hperm.mem_iff.mp hportion)
  have hlabel' : ∀ name position, .label name position ∉ permuted.map Prod.snd := by
    intro name position hmem
    exact hlabel name position <| hbody ▸ (hperm.map _).mem_iff.mp hmem
  have hlisting' := listing_of_portions hwritten' hlabel' heof
  refine ⟨hframed', read_of_listing hframed' hbefore ?_ heof rfl⟩
  rw [isRecord_of_perm hhead (hbody ▸ hlisting) hlisting' (hperm.map _)]
  exact hlisting'

-- The function with the label in it and the record change places.
theorem read_permuted_lateRecord :
    ∃ p, ∃ portions : List Portion, ∃ eof, lateRecord.read.1 = .ok p ∧
      (∀ name position, .label name position ∉ p.body) ∧ lateRecord.ahead = portions.flatMap Prod.fst ++ [eof] ∧
      portions.length = 2 ∧
      (Stream.ofTokens lateRecord.current (portions.reverse.flatMap Prod.fst ++ [eof])).read.1 =
        .ok ⟨p.body.reverse⟩ := by
  have hframed : lateRecord.Framed := ⟨lateRecord.toList.dropLast, _, rfl, rfl, by decide⟩
  have hread : ∃ p, lateRecord.read.1 = .ok p ∧ p.body.map Stmt.kindName = ["FuncDecl", "StructDecl"] := ⟨_, rfl, rfl⟩
  obtain ⟨p, h, hkinds⟩ := hread
  have hlabel (name : String) (position : Position) : .label name position ∉ p.body := fun hmem => by
    have hkind : "LabelDecl" ∈ p.body.map Stmt.kindName := List.mem_map.mpr ⟨_, hmem, rfl⟩
    simp [hkinds] at hkind
  obtain ⟨portions, eof, t, -, -, htokens, hbody, hpermuted⟩ := read_permuted rfl hframed h hlabel
  refine ⟨p, portions, eof, h, hlabel, htokens, ?_, ?_⟩
  case refine_1 => simpa [hbody] using congrArg List.length hkinds
  case refine_2 =>
    rw [hbody, ← List.map_reverse]
    exact (hpermuted _ (List.reverse_perm _)).2

end Permuting

end BasicFrontEnd.Grammar
