import BasicFrontEnd.Proofs.Grammar.ProgramEchoes
import BasicFrontEnd.Proofs.Grammar.Regular
import BasicFrontEnd.Proofs.Grammar.Unfinished
import Mathlib.Data.Fintype.EquivFin

/-!
A program is refused at the first token that none goes on with: the tokens before it can be completed, and whatever
stands behind it, reading stops there with the same fault. Main statement: `badToken_at_first_misfit`.
-/

namespace BasicFrontEnd

open Grammar

namespace Stream

-- The stream with other tokens after the current one.
def withAhead (stream : Stream) (ts : List Token) : Stream :=
  { stream with ahead := ts }

-- How many levels of nesting are open where reading stops.
def openLevels (stream : Stream) : Nat :=
  Script.program.openLevels (State.ofStream stream)

-- Reading ends with the fault, and with the tokens `left` not moved past.
def StopsAt (stream : Stream) (d : Diagnostic) (left : List Token) : Prop :=
  stream.read.1 = .error d ∧ (program.outcome (State.ofStream stream)).2.ahead = left

variable {stream : Stream} {ts us before after completion : List Token} {v eof : Token}

-- The tokens that are not the last do not end the source.
theorem Framed.kind_ne_eof (h : stream.Framed) (hlist : stream.toList = ts ++ v :: us) :
    ∀ t : Token, t ∈ ts → t.kind ≠ .eof := by
  obtain ⟨vs, last, hlast, -, hother⟩ := h
  obtain ⟨us, w, hlast'⟩ : ∃ us' w, v :: us = us' ++ [w] := ⟨_, _, (List.dropLast_concat_getLast (by simp)).symm⟩
  have hvs : ts ++ us ++ [w] = vs ++ [last] := by rw [List.append_assoc, ← hlast', ← hlist, hlast]
  exact fun t ht => hother t <| (List.append_inj' hvs rfl).1 ▸ List.mem_append_left us ht

-- Up to some token, the stream may go on otherwise.
theorem Framed.completed (h : stream.Framed) (hahead : stream.ahead = before ++ v :: after)
    (hcompletion : ∀ t : Token, t ∈ completion → t.kind ≠ .eof) (heof : eof.kind = .eof) :
    (stream.withAhead (before ++ completion ++ [eof])).Framed := by
  have hlist : stream.toList = (stream.behind.reverse ++ stream.current :: before) ++ v :: after := by
    simp [toList, hahead]
  have hbefore := h.kind_ne_eof hlist
  refine ⟨(stream.behind.reverse ++ stream.current :: before) ++ completion, eof, ?_, heof, fun t ht => ?_⟩
  case refine_1 => simp [toList, withAhead]
  case refine_2 => exact (List.mem_append.mp ht).elim (hbefore t) (hcompletion t)

end Stream

namespace Grammar

open Rule State

section Records

variable {name : String} {ts us : List Token}

theorem mem_declaredRecords_iff :
    name ∈ declaredRecords ts ↔
      ∃ us, ∃ record v : Token, ∃ vs, ts = us ++ record :: v :: vs ∧ record.kind = .keyword .structWord ∧
        v.kind = .identifier ∧ v.value = name := by
  constructor
  case mpr =>
    rintro ⟨us, record, v, vs, rfl, hrecord, hname, rfl⟩
    exact mem_declaredRecords hrecord hname us vs
  case mp =>
    intro h
    fun_induction declaredRecords ts
    case case1 record v ts hdeclares ih =>
      obtain rfl | h := List.mem_cons.mp h
      case inl => exact ⟨[], record, v, ts, rfl, hdeclares.1, hdeclares.2, rfl⟩
      case inr =>
        obtain ⟨us, record', w, vs, hts, hdeclares⟩ := ih h
        exact ⟨record :: us, record', w, vs, by rw [hts]; rfl, hdeclares⟩
    case case2 record v ts _ ih =>
      obtain ⟨us, record', w, vs, hts, hdeclares⟩ := ih h
      exact ⟨record :: us, record', w, vs, by rw [hts]; rfl, hdeclares⟩
    case case3 => contradiction

theorem declaredRecords_append_left (h : name ∈ declaredRecords ts) (us : List Token) :
    name ∈ declaredRecords (ts ++ us) := by
  obtain ⟨ts, record, v, vs, rfl, hdeclares⟩ := mem_declaredRecords_iff.mp h
  exact mem_declaredRecords_iff.mpr ⟨ts, record, v, vs ++ us, by simp, hdeclares⟩

-- A record that is declared only with the tokens behind is named there.
theorem declaredRecords_of_append (h : name ∈ declaredRecords (ts ++ us)) :
    name ∈ declaredRecords ts ∨ ∃ v : Token, v ∈ us ∧ v.kind = .identifier ∧ v.value = name := by
  obtain ⟨as, record, v, bs, hlist, hrecord, hkind, hname⟩ := mem_declaredRecords_iff.mp h
  obtain ⟨cs, -, rfl⟩ | ⟨cs, rfl, hrest⟩ := List.append_eq_append_iff.mp hlist
  case inl => exact .inr ⟨v, by simp, hkind, hname⟩
  case inr =>
    obtain _ | ⟨c, _ | ⟨c', cs⟩⟩ := cs
    case nil =>
      obtain rfl : record :: v :: bs = us := hrest
      exact .inr ⟨v, by simp, hkind, hname⟩
    case cons.nil =>
      obtain ⟨-, rfl⟩ : record = c ∧ v :: bs = us := by simpa using hrest
      exact .inr ⟨v, List.mem_cons_self, hkind, hname⟩
    case cons.cons =>
      obtain ⟨rfl, rfl, -⟩ : record = c ∧ v = c' ∧ bs = cs ++ us := by simpa using hrest
      exact .inl <| mem_declaredRecords_iff.mpr ⟨as, record, v, cs, rfl, hrecord, hkind, hname⟩

-- A record without members for each of the names.
def emptyRecords (names : List String) : List Token :=
  names.flatMap fun name => fill name [.keyword .structWord, .identifier, .keyword .endWord]

theorem emptyRecords_listing {isRecord : String → Bool} {eof : Token} (heof : eof.kind = .eof) (n : Nat)
    (names : List String) :
    (((emptyRecords names).headD eof).kind).closes = true ∧
      ∃ stmts, Listing (TopForm isRecord n) (emptyRecords names) eof stmts := by
  induction names
  case nil => exact ⟨by simp [emptyRecords, heof, Kind.closes], [], .nil⟩
  case cons name names ih =>
    obtain ⟨hcloses, stmts, hlisting⟩ := ih
    have hrecord : TopForm isRecord n (fill name [.keyword .structWord, .identifier, .keyword .endWord])
        ((emptyRecords names).headD eof) _ := .record rfl rfl .nil rfl
    exact ⟨rfl, _, .plain hrecord (Kind.ne_symbol_of_closes hcloses _) hlisting⟩

theorem emptyRecords_eq_append {names : List String} (h : name ∈ names) :
    ∃ us vs, emptyRecords names = us ++ filler name (.keyword .structWord) :: filler name .identifier :: vs := by
  obtain ⟨before, after, rfl⟩ := List.append_of_mem h
  exact ⟨emptyRecords before, filler name (.keyword .endWord) :: emptyRecords after, by simp [emptyRecords]⟩

theorem of_mem_emptyRecords {names : List String} {t : Token} (h : t ∈ emptyRecords names) :
    t.kind ≠ .eof ∧ (t.kind = .identifier → t.value ∈ names) := by
  obtain ⟨name, hname, ht⟩ := List.mem_flatMap.mp h
  obtain ⟨kind, hkind, rfl⟩ := List.mem_map.mp ht
  obtain rfl | rfl | rfl : kind = .keyword .structWord ∨ kind = .identifier ∨ kind = .keyword .endWord := by
    simpa using hkind
  all_goals simp [filler, hname]

end Records

section Completion

variable {stream : Stream} {before after : List Token} {v : Token} {t : State}

-- What is made up declares a name of its own, and once more the records that the stream declares anywhere.
theorem isRecord_completed {name : String} {kinds : List Kind} {eof : Token} (heof : eof.kind = .eof)
    (hahead : stream.ahead = before ++ after) :
    let names := name :: declaredRecords stream.toList
    (State.ofStream (stream.withAhead (before ++ (fill name kinds ++ emptyRecords names) ++ [eof]))).isRecord =
      (· ∈ names) := by
  intro names
  funext r
  let start := stream.behind.reverse ++ stream.current :: before
  have hlist : (stream.withAhead (before ++ (fill name kinds ++ emptyRecords names) ++ [eof])).toList =
      start ++ (fill name kinds ++ emptyRecords names ++ [eof]) := by
    simp [Stream.toList, Stream.withAhead, start]
  have hlist' : stream.toList = start ++ after := by simp [Stream.toList, start, hahead]
  rw [Bool.eq_iff_iff, isRecord_ofStream, hlist, decide_eq_true_iff]
  constructor
  case mp =>
    intro h
    obtain h | ⟨w, hw, hkind, rfl⟩ := declaredRecords_of_append h
    case inl => exact List.mem_cons_of_mem _ <| hlist' ▸ declaredRecords_append_left h after
    case inr =>
      obtain ⟨kind, -, rfl⟩ | hempty | rfl :
          (∃ kind ∈ kinds, filler name kind = w) ∨ w ∈ emptyRecords names ∨ w = eof := by
        simpa using hw
      case inl =>
        obtain rfl : kind = .identifier := hkind
        exact List.mem_cons_self
      case inr.inl => exact (of_mem_emptyRecords hempty).2 hkind
      case inr.inr => simp [heof] at hkind
  case mpr =>
    intro h
    obtain ⟨us, vs, hrecords⟩ := emptyRecords_eq_append h
    have hrecord := mem_declaredRecords (kind_filler r (.keyword .structWord)) (kind_filler r .identifier)
      (start ++ (fill name kinds ++ us)) (vs ++ [eof])
    simpa [hrecords, filler] using hrecord

-- What is read before a fault can be completed, if it does not take too many levels of nesting to find the fault.
theorem exists_completion (hframed : stream.Framed) (hbefore : stream.current.kind ≠ .eof)
    (h : Script.program.Refuses (State.ofStream stream) t) (hahead : stream.ahead = before ++ t.ahead)
    (hleft : t.ahead = v :: after) :
    ∃ completion, ∀ eof : Token, eof.kind = .eof →
      (stream.withAhead (before ++ completion ++ [eof])).Framed ∧
        ∃ p, (stream.withAhead (before ++ completion ++ [eof])).read.1 = .ok p := by
  -- A name that no token ahead has, so that it does not matter whether it is one of a record.
  obtain ⟨name, hfresh⟩ := Infinite.exists_notMem_finset (stream.ahead.map Token.value).toFinset
  let names := name :: declaredRecords stream.toList
  have htop : (State.ofStream stream).AtTop (· ∈ names) := by
    refine ⟨⟨fun w hw _ => ?_, rfl⟩, rfl⟩
    have hne : w.value ≠ name := fun hvalue => hfresh <| by
      simpa using ⟨w, hw, hvalue⟩
    rw [Bool.eq_iff_iff, isRecord_ofStream]
    simp [names, hne]
  have hunfinished : UnfinishedListing name (TopForm (· ∈ names) maxNesting) (State.ofStream stream) t :=
    program_refuses h ⟨hframed, hbefore⟩ htop (State.leaves_ofStream stream)
  obtain ⟨ts, kinds, stmts, hts, hkinds, -, hlists⟩ := hunfinished
  obtain rfl : ts = before := List.append_cancel_right <| hts.ahead.symm.trans hahead
  refine ⟨fill name kinds ++ emptyRecords names, fun eof heof => ?_⟩
  obtain ⟨hcloses, records, hrecords⟩ := emptyRecords_listing heof maxNesting names
  have hframed' : (stream.withAhead (ts ++ (fill name kinds ++ emptyRecords names) ++ [eof])).Framed := by
    refine hframed.completed (hleft ▸ hahead) (fun w hw => ?_) heof
    obtain hfill | hempty := List.mem_append.mp hw
    case inl =>
      obtain ⟨kind, hkind, rfl⟩ := List.mem_map.mp hfill
      exact fun hkind' => hkinds <| hkind' ▸ hkind
    case inr => exact (of_mem_emptyRecords hempty).1
  have hlisting := hlists _ eof _ hcloses hrecords
  rw [← isRecord_completed heof hahead] at hlisting
  exact ⟨hframed', _, read_of_listing hframed' hbefore hlisting heof (by simp [Stream.withAhead])⟩

end Completion

-- A stream that goes on differently behind the token, but declares the same records, is read no further.
theorem stopsAt_of_stopsAt {stream : Stream} {before after after' : List Token} {v : Token} {d : Diagnostic}
    (hframed : stream.Framed) (hbefore : stream.current.kind ≠ .eof) (h : stream.StopsAt d (v :: after))
    (hahead : stream.ahead = before ++ v :: after)
    (hframed' : (stream.withAhead (before ++ v :: after')).Framed)
    (hrecords : ∀ name, name ∈ declaredRecords (stream.withAhead (before ++ v :: after')).toList ↔
      name ∈ declaredRecords stream.toList) :
    (stream.withAhead (before ++ v :: after')).StopsAt d (v :: after') := by
  let stream' := stream.withAhead (before ++ v :: after')
  have hs : (State.ofStream stream).Framed := ⟨hframed, hbefore⟩
  have hechoes : program.Echoes program (State.ofStream stream) (stream'.ahead.length + 1) :=
    program_echoes hs (State.leaves_ofStream stream) rfl
  obtain ⟨ts, hts⟩ := hechoes.passes
  obtain ⟨herror, hleft⟩ := h
  have hpeek : (program.outcome (State.ofStream stream)).2.peek = v := (hts.framed.peek_eq hleft).1
  obtain rfl : ts = before := by
    refine List.append_cancel_right (hts.ahead.symm.trans ?_)
    rw [hleft]
    exact hahead
  have htwin : (State.ofStream stream).Twin (State.ofStream stream')
      (ts ++ [(program.outcome (State.ofStream stream)).2.peek]) := by
    rw [hpeek]
    refine ⟨⟨hframed', hbefore⟩, ?_, rfl, rfl, rfl, ⟨after', ?_⟩⟩
    case refine_1 =>
      funext name
      rw [Bool.eq_iff_iff, isRecord_ofStream, isRecord_ofStream, hrecords]
    case refine_2 => simp [stream', Stream.withAhead, State.ahead, State.ofStream]
  obtain ⟨t', ht', hpasses⟩ := hechoes.echo hts htwin (Nat.lt_succ_self _)
  refine ⟨?_, ?_⟩
  case refine_1 =>
    rw [Stream.read_eq, ht', ← Stream.read_eq, herror]
  case refine_2 =>
    rw [ht']
    exact List.append_cancel_left hpasses.ahead.symm

-- A token that the grammar does not ask for is found where it stands: what is before it can be completed, and what is
-- behind it does not matter. The limit on nesting must not be in the way of completing it.
theorem badToken_at_first_misfit {stream : Stream} {d : Diagnostic} {expected got : String} (hframed : stream.Framed)
    (h : stream.read.1 = .error d) (hcause : d.cause = .badToken expected got)
    (hlevels : stream.openLevels < maxNesting) :
    ∃ before v after, stream.ahead = before ++ v :: after ∧ stream.StopsAt d (v :: after) ∧
      d = v.fault (.badToken expected v.value) ∧
      (∃ completion, ∀ eof : Token, eof.kind = .eof →
        (stream.withAhead (before ++ completion ++ [eof])).Framed ∧
          ∃ p, (stream.withAhead (before ++ completion ++ [eof])).read.1 = .ok p) ∧
      ∀ after', (stream.withAhead (before ++ v :: after')).Framed →
        (∀ name, name ∈ declaredRecords (stream.withAhead (before ++ v :: after')).toList ↔
          name ∈ declaredRecords stream.toList) →
        (stream.withAhead (before ++ v :: after')).StopsAt d (v :: after') := by
  have hbefore : stream.current.kind ≠ .eof := fun heof => by
    rw [read_of_current_eof hframed heof] at h
    contradiction
  have hs : (State.ofStream stream).Framed := ⟨hframed, hbefore⟩
  have hechoes : program.Echoes program (State.ofStream stream) 0 :=
    program_echoes hs (State.leaves_ofStream stream) rfl
  obtain ⟨before, hts⟩ := hechoes.passes
  have hlocated := hechoes.located h hcause
  rcases hr : program.outcome (State.ofStream stream) with ⟨r, t⟩
  rw [hr] at hts hlocated
  obtain rfl : r = .error d := by rw [← h, Stream.read_eq, hr]
  have hleft : t.ahead = t.peek :: t.next.ahead := hts.framed.ahead_eq_cons
  have hahead : stream.ahead = before ++ t.ahead := hts.ahead
  have hstops : stream.StopsAt d (t.peek :: t.next.ahead) := ⟨h, by rw [hr, hleft]⟩
  have hrefuses : Script.program.Refuses (State.ofStream stream) t := by
    refine ⟨⟨d, expected, got, Script.rule_program ▸ hr, hcause⟩, fun limit hlimit => ?_⟩
    obtain rfl := Option.some.inj hlimit
    exact hlevels
  refine ⟨before, t.peek, t.next.ahead, hleft ▸ hahead, hstops, hlocated, ?_, fun after' => ?_⟩
  case refine_1 => exact exists_completion hframed hbefore hrefuses hahead hleft
  case refine_2 => exact stopsAt_of_stopsAt hframed hbefore hstops (hleft ▸ hahead)

-- The tokens of `x : P := ; struct P end`, where a value is missing.
def missingValue : Stream :=
  let line := "x : P := ; struct P end"
  .ofTokens ⟨.head, "", .start, line⟩
    [⟨.identifier, "x", ⟨1, 1⟩, line⟩, ⟨.symbol .colon, ":", ⟨1, 3⟩, line⟩, ⟨.identifier, "P", ⟨1, 5⟩, line⟩,
     ⟨.symbol .assign, ":=", ⟨1, 7⟩, line⟩, ⟨.symbol .semicolon, ";", ⟨1, 10⟩, line⟩,
     ⟨.keyword .structWord, "struct", ⟨1, 12⟩, line⟩, ⟨.identifier, "P", ⟨1, 19⟩, line⟩,
     ⟨.keyword .endWord, "end", ⟨1, 21⟩, line⟩, ⟨.eof, "EOF", ⟨1, 24⟩, line⟩]

theorem badToken_at_first_misfit_missingValue :
    missingValue.Framed ∧ missingValue.openLevels < maxNesting ∧
      ∃ d v after, missingValue.StopsAt d (v :: after) ∧ d = v.fault (.badToken "expression" v.value) := by
  have hframed : missingValue.Framed := ⟨missingValue.toList.dropLast, _, rfl, rfl, by decide⟩
  have hlevels : missingValue.openLevels < maxNesting := by decide
  obtain ⟨before, v, after, -, hstops, hfault, -⟩ := badToken_at_first_misfit hframed rfl rfl hlevels
  exact ⟨hframed, hlevels, _, v, after, hstops, hfault⟩

end Grammar
end BasicFrontEnd
