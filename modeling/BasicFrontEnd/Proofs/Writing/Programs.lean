import BasicFrontEnd.Proofs.Grammar.Programs
import BasicFrontEnd.Proofs.Writing.Stmts

/-!
Plain programs are read back, up to places, from any tokens that have their words.
-/

namespace BasicFrontEnd

open Grammar Layout

namespace TypedName

-- The typed name at the place of the first of the tokens.
def placed (f : TypedName) (ts : List Token) : TypedName :=
  { f with position := (ts.headD default).position }

@[simp]
theorem bare_placed (f : TypedName) (ts : List Token) : (f.placed ts).bare = f.bare :=
  rfl

theorem Plain.formalForm {f : TypedName} (h : f.Plain) (hts : (Stmt.formalLayout f).Of n ts) :
    FormalForm ts (f.placed ts) := by
  simp only [Stmt.formalLayout, Layout.name, of_append, of_word] at hts
  obtain ⟨_, _, rfl, hus, name, rfl, hname, hvalue⟩ := hts
  obtain ⟨t, us, rfl, htype, _⟩ := h.type.form hus
  have := FormalForm.mk htype hname .none
  rwa [hvalue] at this

theorem exists_formals {formals : List TypedName} (h : ∀ f ∈ formals, f.Plain)
    (hts : (Layout.separated (formals.map Stmt.formalLayout)).Of n ts) :
    ∃ parts : List (List Token × TypedName), (∀ part ∈ parts, FormalForm part.1 part.2) ∧
      Separated (parts.map Prod.fst) ts ∧ (parts.map Prod.snd).map bare = formals.map bare := by
  obtain ⟨parts, rfl, hparts, hsep⟩ := hts.separated
  refine ⟨parts.map fun part => (part.1, part.2.placed part.1), ?_, ?_, by simp⟩
  · exact List.forall_mem_map.mpr fun part hpart =>
      (h _ (List.mem_map_of_mem hpart)).formalForm (hparts part hpart)
  · rw [List.map_map]
    exact hsep

theorem beginsAnew_memberLayout (m : TypedName) : (Stmt.memberLayout m).BeginsAnew :=
  ⟨_, rfl, rfl⟩

theorem Plain.memberForm {m : TypedName} (h : m.Plain) (hts : (Stmt.memberLayout m).Of n ts)
    (hnext : next.kind.Ends) : MemberForm ts next (m.placed ts) := by
  simp only [Stmt.memberLayout, Layout.name, Layout.symbol, append_assoc, of_append, of_word] at hts
  obtain ⟨_, _, rfl, ⟨name, rfl, hname, hvalue⟩, _, us, rfl, ⟨colon, rfl, hcolon, _⟩, hus⟩ := hts
  obtain ⟨t, us, rfl, htype, _⟩ := h.type.form hus
  have := MemberForm.mk hname hcolon htype (hnext.ne_symbol (by decide))
  rwa [hvalue] at this

end TypedName

namespace Stmt

variable {records : List String} {isRecord : String → Bool} {s : Stmt} {style : Style}

theorem PlainTop.beginsAnew (h : s.PlainTop records) : (s.layout style).BeginsAnew := by
  cases h
  case declaration h => exact h.beginsAnew
  all_goals
    rw [layout]
    exact ⟨_, rfl, rfl⟩

theorem PlainTop.form (h : s.PlainTop records) (hrecords : ∀ r ∈ records, isRecord r = true)
    (hts : (s.layout style).Of n ts) (hnext : next.kind.Ends)
    (hclosed : s.isClosed style = true → next.kind = .symbol .semicolon) :
    ∃ s', TopForm isRecord n ts next s' ∧ s'.bare = s.bare := by
  cases h
  case declaration h =>
    obtain ⟨s', hform, hbare⟩ := h.form (g := ⟨isRecord, false⟩) hrecords hts hnext hclosed
    exact ⟨s', .declaration hform, hbare⟩
  case function formals body result q p _ hresult hformals hbody =>
    simp only [layout, Layout.name, Layout.keyword, Layout.symbol, append_assoc, of_append, of_word] at hts
    obtain ⟨_, _, rfl, ⟨word, rfl, hword, _⟩, _, _, rfl, ⟨name, rfl, hname, rfl⟩, _, _, rfl, ⟨opening, rfl, hopen, _⟩,
      ts, _, rfl, hts, _, _, rfl, ⟨closing, rfl, hclose, _⟩, _, _, rfl, ⟨arrow, rfl, harrow, _⟩,
      us, _, rfl, hus, vs, _, rfl, hvs, endWord, rfl, hend, _⟩ := hts
    obtain ⟨parts, hparts, hsep, hbareFormals⟩ := TypedName.exists_formals hformals hts
    obtain ⟨t, us, rfl, htype, _⟩ := hresult.form hus
    let g : Setting := ⟨isRecord, result.isVoid⟩
    have hwritten : ∀ s ∈ body, s.Written g style := fun s hs => (hbody s hs).written hrecords rfl
    have hendAnew : endWord.kind.beginsAnew = true := by rw [hend]; rfl
    obtain ⟨⟨stmts, hstmts, hbare⟩, hhead⟩ := exists_listing (fun s hs => (hbody s hs).beginsAnew) hwritten hendAnew hvs
    have hform : TopForm isRecord n _ next _ :=
      .function parts hword hname hopen hparts hsep hclose harrow htype (Kind.ne_symbol_of_beginsAnew hhead _) hstmts
        hend
    exact ⟨_, hform, by simp only [bare, bares_eq_map, hbareFormals, hbare]⟩
  case record members p _ hmembers =>
    simp only [layout, Layout.name, Layout.keyword, append_assoc, of_append, of_word] at hts
    obtain ⟨_, _, rfl, ⟨word, rfl, hword, _⟩, _, _, rfl, ⟨name, rfl, hname, rfl⟩, us, _, rfl, hus,
      endWord, rfl, hend, _⟩ := hts
    have hendAnew : endWord.kind.beginsAnew = true := by rw [hend]; rfl
    obtain ⟨⟨members', hlisting, hbare⟩, _⟩ :=
      listing_of_join (fun m _ => m.beginsAnew_memberLayout)
        (fun m hm _ _ h hnext _ => ⟨_, (hmembers m hm).memberForm h hnext, m.bare_placed _⟩) hendAnew hus
    have hform : TopForm isRecord n _ next _ := .record hword hname hlisting hend
    exact ⟨_, hform, by simp [bare, hbare]⟩

end Stmt

namespace Layout

theorem Of.exists_of_ended {x : Layout} (h : (x.ended closed).Of n ts) : ∃ us vs, ts = us ++ vs ∧ x.Of n us := by
  unfold ended at h
  split at h
  case isTrue =>
    obtain ⟨us, vs, rfl, hus, _⟩ := of_append.mp h
    exact ⟨us, vs, rfl, hus⟩
  case isFalse => exact ⟨ts, [], by simp, h⟩

theorem Of.exists_of_join {layout : α → Layout} {as : List α} (h : (join (as.map layout)).Of n ts) (ha : a ∈ as) :
    ∃ us vs ws, ts = us ++ (vs ++ ws) ∧ (layout a).Of n vs := by
  induction as generalizing ts
  case nil => contradiction
  case cons b as ih =>
    obtain ⟨us, vs, rfl, hb, hrest⟩ := of_append.mp h
    obtain rfl | ha := List.mem_cons.mp ha
    case inl => exact ⟨[], us, vs, rfl, hb⟩
    case inr =>
      obtain ⟨ws, xs, ys, rfl, hxs⟩ := ih hrest ha
      exact ⟨us ++ ws, xs, ys, by simp, hxs⟩

end Layout

namespace Program

variable {p : Program} {style : Style}

theorem mem_declaredRecords_of_layout (hts : (p.layout style).Of n ts) (us vs : List Token) :
    ∀ r ∈ p.records, r ∈ declaredRecords (us ++ (ts ++ vs)) := by
  intro r hr
  obtain ⟨s, hs, hsome⟩ := List.mem_filterMap.mp hr
  rw [layout, Stmt.bodyLayout_eq] at hts
  obtain ⟨xs, ys, zs, rfl, hended⟩ := hts.exists_of_join hs
  obtain ⟨ys, ws, rfl, hys⟩ := hended.exists_of_ended
  cases s
  case record =>
    obtain rfl := Option.some.inj hsome
    simp only [Stmt.layout, Layout.name, Layout.keyword, Layout.append_assoc, of_append, of_word] at hys
    obtain ⟨_, _, rfl, ⟨word, rfl, hword, _⟩, _, _, rfl, ⟨name, rfl, hname, rfl⟩, _, _, rfl, _, _⟩ := hys
    simpa using Grammar.mem_declaredRecords hword hname (us ++ xs) _
  all_goals contradiction

-- Whatever stream has the words of a plain program between its first token and its last is read as the program.
theorem Plain.read (h : p.Plain) {stream : Stream} {eof : Token} (hframed : stream.Framed)
    (hbefore : stream.current.kind ≠ .eof) (heof : eof.kind = .eof) (hahead : stream.ahead = ts ++ [eof])
    (hts : (p.layout style).Of maxNesting ts) : ∃ q, stream.read.1 = .ok q ∧ q.bare = p.bare := by
  have hrecords : ∀ r ∈ p.records, (State.ofStream stream).isRecord r = true := by
    intro r hr
    have := mem_declaredRecords_of_layout hts (stream.behind.reverse ++ [stream.current]) [eof] r hr
    simpa [State.isRecord, State.ofStream, Stream.toList, hahead] using this
  have hwords := hts
  rw [layout, Stmt.bodyLayout_eq] at hwords
  obtain ⟨⟨stmts, hlisting, hbare⟩, _⟩ :=
    listing_of_join (fun s hs => (h s hs).beginsAnew) (fun s hs _ _ => (h s hs).form hrecords)
      (show eof.kind.beginsAnew = true by rw [heof]; rfl) hwords
  exact ⟨⟨stmts⟩, read_of_listing hframed hbefore hlisting heof hahead, by simp [bare, hbare]⟩

end Program

end BasicFrontEnd
