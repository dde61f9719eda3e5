import BasicFrontEnd.Proofs.Grammar.Begun

/-!
Where a rule for types, statements or whole programs refuses to go on, what it has read is unfinished: some more tokens
finish it.
-/

namespace BasicFrontEnd.Grammar

open Rule State

theorem Derives.eof_notMem (h : Derives level n (ts ++ fill name kinds) e) : .eof ∉ kinds := by
  intro heof
  have := h.inExpr (filler name .eof) (List.mem_append_right ts <| List.mem_map_of_mem heof)
  contradiction

-- The tokens between the states, together with made-up ones behind them, have the form.
def Unfinished (name : String) (Form : List Token → Prop) (s t : State) : Prop :=
  ∃ ts kinds, s.Passes ts t ∧ .eof ∉ kinds ∧ Form (ts ++ fill name kinds)

-- The tokens have the form of some item before any token that closes.
def Closing (Form : List Token → Token → α → Prop) (ts : List Token) : Prop :=
  ∃ a, ∀ close, close.kind.closes = true → Form ts close a

-- The tokens list items before whatever goes on with the listing, if that begins with a token that closes.
def Extends (Form : List Token → Token → α → Prop) (ts : List Token) (as : List α) : Prop :=
  ∀ us close bs, (us.headD close).kind.closes = true → Listing Form us close bs →
    Listing Form (ts ++ us) close (as ++ bs)

-- Of an item of the form, nothing has been read yet, or it is unfinished.
def Started (name : String) (Form : List Token → Token → α → Prop) (s t : State) : Prop :=
  s.Passes [] t ∨ Unfinished name (Closing Form) s t

-- A listing whose last item may be unfinished. Nothing is made up where nothing has been read.
def UnfinishedListing (name : String) (Form : List Token → Token → α → Prop) (s t : State) : Prop :=
  ∃ ts kinds as, s.Passes ts t ∧ .eof ∉ kinds ∧ (ts = [] → kinds = []) ∧ Extends Form (ts ++ fill name kinds) as

section Unfinished

variable {name : String} {s t u : State} {Form Form' : List Token → Prop}

-- What is a part of a greater form is finished with it, by yet more tokens.
theorem Unfinished.extend (h : Unfinished name Form u t) (hsu : s.Passes us u) (more : List Kind)
    (hmore : .eof ∉ more) (hform : ∀ ts, Form ts → Form' (us ++ (ts ++ fill name more))) :
    Unfinished name Form' s t := by
  obtain ⟨ts, kinds, hts, hkinds, h⟩ := h
  exact ⟨us ++ ts, kinds ++ more, hsu.append hts, by simp [hkinds, hmore], by simpa using hform _ h⟩

theorem Unfinished.imp (h : Unfinished name Form s t) (hform : ∀ ts, Form ts → Form' ts) :
    Unfinished name Form' s t := by
  obtain ⟨ts, kinds, hts, hkinds, h⟩ := h
  exact ⟨ts, kinds, hts, hkinds, hform _ h⟩

theorem Started.of_passes {Form : List Token → Token → α → Prop} (h : Started name Form u t) (hsu : s.Passes [] u) :
    Started name Form s t := by
  obtain hnil | hitem := h
  case inl => exact .inl <| hsu.append hnil
  case inr => exact .inr <| hitem.extend hsu [] (by simp) fun ts hform => by simpa using hform

theorem Extends.listing {Form : List Token → Token → α → Prop} (h : Extends Form ts as)
    (hclose : close.kind.closes = true) : Listing Form ts close as := by
  simpa using h [] close [] hclose .nil

theorem UnfinishedListing.unfinished {Form : List Token → Token → α → Prop} (h : UnfinishedListing name Form s t) :
    Unfinished name (fun ts => Closing (Listing Form) ts) s t := by
  obtain ⟨ts, kinds, as, hts, hkinds, -, hlists⟩ := h
  exact ⟨ts, kinds, hts, hkinds, as, fun close hclose => hlists.listing hclose⟩

-- Behind the items that are finished, the next may not have been begun, or may be unfinished.
theorem Collects.unfinished {Form : List Token → Token → α → Prop} (h : Collects Form s as u)
    (hitem : Started name Form u t) : UnfinishedListing name Form s t := by
  obtain ⟨ts, hts, hlists⟩ := h
  have hnone : u.Passes [] t → UnfinishedListing name Form s t := fun hnil =>
    ⟨ts, [], as.reverse, by simpa using hts.append hnil, by simp, fun _ => rfl, fun us close bs hclose hrest => by
      simpa using hlists us close bs (.inr hclose) hrest⟩
  obtain hnil | ⟨us, kinds, hus, hkinds, a, hitem⟩ := hitem
  case inl => exact hnone hnil
  case inr =>
    obtain _ | ⟨w, us⟩ := us
    case nil => exact hnone hus
    case cons =>
      obtain rfl := hus.head hts.framed
      refine ⟨_, kinds, as.reverse ++ [a], hts.append hus, hkinds, by simp, fun vs close bs hclose hrest => ?_⟩
      have hitems := Listing.plain (hitem _ hclose) (Kind.ne_symbol_of_closes hclose _) hrest
      simpa using hlists _ close (a :: bs) (.inl rfl) hitems

end Unfinished

section Types

variable {name : String} {s t : State}

theorem dimensions_refuses (h : dimensions.Refuses s t) (hs : s.Framed) :
    Unfinished name (fun ts => ∃ k, Brackets ts k) s t := by
  obtain ⟨k, u, ⟨ts, hts, hdims⟩, hround | rfl⟩ :=
    Refuses.repeatFrom dimensionRound_keeps ⟨[], .nil hs, .none⟩ h
  case inr => exact ⟨ts, [], hts, by simp, k, by simpa⟩
  case inl =>
    obtain ⟨hopen, hround⟩ | ⟨-, hround⟩ := Rule.refuses_if_accept.mp hround
    case inr => exact absurd hround refuses_pure
    obtain ⟨-, rfl⟩ | ⟨-, hround⟩ := Rule.refuses_expect_bind.mp hround
    case inr => exact absurd hround refuses_pure
    refine ⟨_, [.symbol .closeBracket], hts.snoc (by simp [hopen]), by simp, k + 1, ?_⟩
    simpa using hdims.append <| .more hopen (kind_filler name (.symbol .closeBracket)) .none

-- The tokens write a type that begins as the tokens ahead do, or with a keyword.
def TypeAhead (s : State) (ts : List Token) : Prop :=
  ∃ v us type, ts = v :: us ∧ TypeForm (v :: us) type ∧ (v = s.peek ∨ v.kind.isTypeKeyword = true)

theorem typeSpec_refuses (h : typeSpec.Refuses s t) (hs : s.Framed) : Unfinished name (TypeAhead s) s t := by
  have hword : (filler name (.keyword .intWord)).kind.isTypeKeyword = true := rfl
  simp only [typeSpec, Rule.refuses_peekKind_bind] at h
  split at h
  case isTrue hkeyword =>
    have hpeek := ne_eof_of_isTypeKeyword hkeyword
    have h : dimensions.Refuses s.next t := by simpa [-refuses_bind] using h
    refine (dimensions_refuses h (hs.next hpeek)).extend (.next hs hpeek) [] (by simp) ?_
    rintro ts ⟨k, hdims⟩
    exact ⟨s.peek, ts, _, by simp, .base hkeyword hdims, .inl rfl⟩
  case isFalse =>
    split at h
    case isTrue hname =>
      have hpeek : s.peek.kind ≠ .eof := by simp [hname]
      have h : dimensions.Refuses s.next t := by simpa [-refuses_bind] using h
      refine (dimensions_refuses h (hs.next hpeek)).extend (.next hs hpeek) [] (by simp) ?_
      rintro ts ⟨k, hdims⟩
      exact ⟨s.peek, ts, _, by simp, .record hname hdims, .inl rfl⟩
    case isFalse =>
      obtain rfl := refuses_unexpected.mp h
      exact ⟨[], [.keyword .intWord], .nil hs, by simp, _, [], _, rfl, .base hword .none, .inr hword⟩

end Types

section Statements

variable {name : String} {s t : State} {g : Setting} {n : Nat}

theorem expr_refuses (h : Script.expr.Refuses s t) (hs : s.Framed) (hleaves : s.Leaves n) :
    Unfinished name (fun ts => ∃ v us e, ts = v :: us ∧ Derives .disjunction n (v :: us) e) s t := by
  obtain ⟨ts, hts, kinds, e, he, -⟩ := Script.begins_expr.refuses hleaves h
  obtain ⟨v, us, hne, -⟩ := he.exists_head
  exact ⟨ts, kinds, hts.passes hs, he.eof_notMem, v, us, e, hne, hne ▸ he⟩

-- A name, to stand for an expression.
theorem derives_filler (level : BindingLevel) (n : Nat) (name : String) :
    Derives level n [filler name .identifier] (.identifier name) :=
  .of_primary <| .atom <| .identifier rfl

-- A declaration or a label, begun with its name.
theorem declaration_refuses {v : Token} (h : (Script.declaration v).Refuses s t) (hname : v.kind = .identifier)
    (hcolon : s.peek.kind = .symbol .colon) (hs : s.Framed) (hfits : s.Fits g) (hleaves : s.Leaves n) :
    Unfinished name (fun ts => Closing (DeclarationForm g n) (v :: ts)) s t := by
  have hpeek : s.peek.kind ≠ .eof := by simp [hcolon]
  have hnext := hs.next hpeek
  have hpasses := Passes.next hs hpeek
  obtain ⟨hother, -⟩ | ⟨-, h⟩ := Script.refuses_expect_bind.mp h
  case inl => exact absurd hcolon hother
  simp only [Script.refuses_peek_bind, Script.refuses_asksRecord_bind] at h
  split at h
  case isFalse => exact absurd h Script.refuses_pure
  case isTrue hbegins =>
    rw [(hfits.passes hpasses).beginsType hnext] at hbegins
    obtain h | ⟨type, u, htype, h⟩ := Script.refuses_bind.mp h
    case inl =>
      refine (typeSpec_refuses (Script.refuses_ofRule.mp h).1 hnext).extend hpasses [] (by simp) ?_
      rintro _ ⟨w, us, type, rfl, hform, hhead⟩
      have hbegins : g.beginsType w = true := by
        obtain rfl | hword := hhead
        case inl => exact hbegins
        case inr => simp [Setting.beginsType, hword]
      exact ⟨_, fun close hclose => by
        simpa using DeclarationForm.declare hname hcolon hform hbegins (Kind.ne_symbol_of_closes hclose _)
          (Kind.ne_symbol_of_closes hclose _)⟩
    case inr =>
      obtain ⟨ts, hts, hform, hbracket⟩ := typeSpec_reads (Script.rule_ofRule typeSpec ▸ htype) hnext
      obtain ⟨hassign, h⟩ | ⟨hassign, h⟩ := Script.refuses_if_accept.mp h
      case inr => exact absurd h Script.refuses_pure
      case inl =>
        have hu : u.peek.kind ≠ .eof := by simp [hassign]
        have hsu := (hpasses.append hts).snoc hu
        have h := Script.refuses_bind_pure.mp h
        refine (expr_refuses h hsu.framed (hsu.leaves hleaves)).extend hsu [] (by simp) ?_
        rintro _ ⟨w, us, e, rfl, he⟩
        exact ⟨_, fun close hclose => by
          simpa using DeclarationForm.initialized hname hcolon hform hbegins hassign he
            (BindingLevel.stops_of_closes hclose)⟩

theorem gotoStmt_refuses (h : gotoStmt.Refuses s t) (hs : s.Framed) :
    Started name (StmtForm g n Bodies) s t := by
  obtain ⟨-, rfl⟩ | ⟨hword, h⟩ := Rule.refuses_expect_bind.mp h
  case inl => exact .inl <| .nil hs
  case inr =>
    obtain ⟨-, rfl⟩ | ⟨-, h⟩ := Rule.refuses_expect_bind.mp h
    case inr => exact absurd h refuses_pure
    case inl =>
      have hform : Closing (StmtForm g n Bodies) [s.peek, filler name .identifier] :=
        ⟨_, fun close _ => .goto hword (kind_filler name .identifier)⟩
      exact .inr ⟨_, [.identifier], .next hs (by simp [hword]), by simp, hform⟩

theorem returnStmt_refuses (h : Script.returnStmt.Refuses s t) (hs : s.Framed) (hfits : s.Fits g)
    (hleaves : s.Leaves n) : Started name (StmtForm g n Bodies) s t := by
  obtain ⟨-, rfl, -⟩ | ⟨hword, h⟩ := Script.refuses_expect_bind.mp h
  case inl => exact .inl <| .nil hs
  case inr =>
    have hpeek : s.peek.kind ≠ .eof := by simp [hword]
    have hpasses := Passes.next hs hpeek
    rw [Script.refuses_asksVoid_bind] at h
    split at h
    case isTrue => exact absurd h Script.refuses_pure
    case isFalse hvoid =>
      have hvoid : g.isVoid = false := hfits.isVoid.symm.trans <| Bool.eq_false_iff.mpr hvoid
      have h := Script.refuses_bind_pure.mp h
      refine .inr <| (expr_refuses h hpasses.framed (hpasses.leaves hleaves)).extend hpasses [] (by simp) ?_
      rintro _ ⟨v, us, e, rfl, he⟩
      exact ⟨_, fun close hclose => by
        simpa using StmtForm.returning hword hvoid he (BindingLevel.stops_of_closes hclose)⟩

theorem expressionStmt_refuses (h : Script.expressionStmt.Refuses s t) (hs : s.Framed) (hleaves : s.Leaves n) :
    Started name (StmtForm g n Bodies) s t := by
  -- A target alone is finished by the value of a name.
  have hassign : ∀ {v ts e}, Derives .disjunction n (v :: ts) e →
      Closing (StmtForm g n Bodies) (v :: ts ++ fill name [.symbol .assign, .identifier]) := fun he =>
    ⟨_, fun close hclose => by
      simpa using StmtForm.assign he (kind_filler name (.symbol .assign)) (derives_filler .disjunction n name)
        (BindingLevel.stops_of_closes hclose)⟩
  rw [Script.expressionStmt, Script.refuses_peek_bind] at h
  obtain h | ⟨e, u, he, h⟩ := Script.refuses_bind.mp h
  case inl =>
    refine .inr <| (expr_refuses h hs hleaves).extend (.nil hs) [.symbol .assign, .identifier] (by simp) ?_
    rintro _ ⟨v, us, e, rfl, he⟩
    exact hassign he
  case inr =>
    obtain ⟨ts, hts, hderives, -⟩ := expr_reads (Script.rule_expr ▸ he) hs hleaves
    obtain ⟨hkind, h⟩ | ⟨-, h⟩ := Script.refuses_if_accept.mp h
    case inl =>
      have hu : u.peek.kind ≠ .eof := by simp [hkind]
      have hsu := hts.snoc hu
      have h := Script.refuses_bind_pure.mp h
      refine .inr <| (expr_refuses h hsu.framed (hsu.leaves hleaves)).extend hsu [] (by simp) ?_
      rintro _ ⟨v, us, value, rfl, hvalue⟩
      exact ⟨_, fun close hclose => by
        simpa using StmtForm.assign hderives hkind hvalue (BindingLevel.stops_of_closes hclose)⟩
    case inr =>
      split at h
      case isTrue => exact absurd h Script.refuses_pure
      case isFalse =>
        obtain rfl := refuses_unexpected.mp (Script.refuses_ofRule.mp h).1
        exact .inr ⟨_, [.symbol .assign, .identifier], hts, by simp, hassign hderives⟩

-- The script reads bodies; where it refuses, it has read an unfinished one.
structure BeginsBodies (name : String) (g : Setting) (body : Script.BodyScript) : Prop where
  reads   : FindsBodies body.rules g
  refuses : ∀ {n close others s t}, (body close others).Refuses s t → s.Framed → s.Fits g → s.Leaves n →
    UnfinishedListing name (StmtForm g n (BodyForm g n)) s t

theorem BeginsBodies.nested {body : Script.BodyScript} (hbody : BeginsBodies name g body)
    (h : (body close others).nested.Refuses s t) (hs : s.Framed) (hfits : s.Fits g) (hleaves : s.Leaves n) :
    ∃ ts kinds stmts, s.Passes ts t ∧ .eof ∉ kinds ∧ (ts = [] → kinds = []) ∧
      ∀ close, close.kind.closes = true → BodyForm g n (ts ++ fill name kinds) close stmts := by
  obtain ⟨m, u, rfl, hdeeper, hwithin, rfl⟩ := h.leaves hleaves
  obtain ⟨ts, kinds, stmts, hts, hkinds, hnil, hlists⟩ := hbody.refuses hwithin hs.deeper hfits.deeper hdeeper
  exact ⟨ts, kinds, stmts, hts.shallower, hkinds, hnil, fun close hclose => hlists.listing hclose⟩

-- Where a level may be opened, there may be a body with nothing in it.
theorem bodyForm_nil (hopens : s.Opens 1) (hleaves : s.Leaves n) (close : Token) : BodyForm g n [] close [] := by
  have hle := hopens _ hleaves
  obtain ⟨m, rfl⟩ : ∃ m, n = m + 1 := Nat.exists_eq_add_one.mpr (by omega)
  exact .nil

theorem otherwise_refuses {body : Script.BodyScript} (hbody : BeginsBodies name g body)
    (h : (Script.otherwise body).Refuses s t) (hs : s.Framed) (hfits : s.Fits g) (hleaves : s.Leaves n) :
    s.peek.kind = .keyword .elseWord ∧ ∃ ts kinds stmts, s.Passes (s.peek :: ts) t ∧ .eof ∉ kinds ∧
      ∀ close, close.kind.closes = true → BodyForm g n (ts ++ fill name kinds) close stmts := by
  obtain ⟨helse, h⟩ | ⟨-, h⟩ := Script.refuses_if_accept.mp h
  case inr => exact absurd h Script.refuses_pure
  case inl =>
    have hpeek : s.peek.kind ≠ .eof := by simp [helse]
    have hpasses := Passes.next hs hpeek
    obtain ⟨ts, kinds, stmts, hts, hkinds, -, hform⟩ :=
      hbody.nested (Script.refuses_bind_pure.mp h) hpasses.framed (hfits.passes hpasses) (hpasses.leaves hleaves)
    exact ⟨helse, ts, kinds, stmts, .cons hs hpeek hts, hkinds, hform⟩

-- The word that ends the statement is next behind the bodies.
theorem otherwise_ends {body : Script.BodyScript} (hbody : BeginsBodies name g body)
    (h : (Script.otherwise body).rule.Yields s no t) (hs : s.Framed) (hfits : s.Fits g) (hleaves : s.Leaves n)
    (hclose : s.peek.kind = .keyword .endWord ∨ s.peek.kind ∈ [.keyword .elseWord]) :
    t.peek.kind = .keyword .endWord := by
  simp only [Script.otherwise, Script.rule_bind, Script.rule_ofRule, Script.rule_ite] at h
  obtain ⟨helse, h⟩ | ⟨helse, h⟩ := yields_if_accept.mp h
  case inl =>
    simp only [Script.rule_nested, Script.rule_pure, yields_bind, yields_pure] at h
    obtain ⟨_, _, hno, -, rfl⟩ := h
    have hpasses := Passes.next hs (by simp [helse])
    obtain ⟨-, -, -, -, hend⟩ :=
      FindsBodies.nested hbody.reads hno hpasses.framed (hfits.passes hpasses) (hpasses.leaves hleaves)
    simpa using hend
  case inr =>
    obtain ⟨-, rfl⟩ := yields_pure.mp h
    simpa [helse] using hclose

theorem ifStmt_refuses {body : Script.BodyScript} (hbody : BeginsBodies name g body)
    (h : (Script.ifStmt body).Refuses s t) (hs : s.Framed) (hfits : s.Fits g) (hleaves : s.Leaves n) :
    Started name (StmtForm g n (BodyForm g n)) s t := by
  have hnone : ∀ close, BodyForm g n [] close [] := bodyForm_nil h.opens hleaves
  have hend := kind_filler name (.keyword .endWord)
  obtain ⟨-, rfl, -⟩ | ⟨hword, h⟩ := Script.refuses_expect_bind.mp h
  case inl => exact .inl <| .nil hs
  have hpeek : s.peek.kind ≠ .eof := by simp [hword]
  have hpasses := Passes.next hs hpeek
  -- The test is finished by the word behind it and an empty body.
  have htests : ∀ {ts e}, Derives .disjunction n ts e → Closing (StmtForm g n (BodyForm g n))
      (s.peek :: (ts ++ fill name [.keyword .thenWord, .keyword .endWord])) := fun he =>
    ⟨_, fun close _ => by
      simpa using StmtForm.branch hword he (kind_filler name (.keyword .thenWord)) (hnone _) hend⟩
  obtain h | ⟨test, u, htest, h⟩ := Script.refuses_bind.mp h
  case inl =>
    refine .inr <| (expr_refuses h hpasses.framed (hpasses.leaves hleaves)).extend hpasses
      [.keyword .thenWord, .keyword .endWord] (by simp) ?_
    rintro _ ⟨v, us, e, rfl, he⟩
    exact htests he
  obtain ⟨ts, hts, hderives, -⟩ := expr_reads (Script.rule_expr ▸ htest) hpasses.framed (hpasses.leaves hleaves)
  have hsu := hpasses.append hts
  obtain ⟨-, rfl, -⟩ | ⟨hthen, h⟩ := Script.refuses_expect_bind.mp h
  case inl => exact .inr ⟨_, [.keyword .thenWord, .keyword .endWord], hsu, by simp, by simpa using htests hderives⟩
  have hsu := hsu.snoc (by simp [hthen])
  obtain h | ⟨yes, v, hyes, h⟩ := Script.refuses_bind.mp h
  case inl =>
    obtain ⟨us, kinds, stmts, hus, hkinds, -, hform⟩ :=
      hbody.nested h hsu.framed (hfits.passes hsu) (hsu.leaves hleaves)
    have hform : Closing (StmtForm g n (BodyForm g n))
        (s.peek :: (s.next.peek :: ts ++ u.peek :: (us ++ fill name kinds ++ fill name [.keyword .endWord]))) :=
      ⟨_, fun close _ => .branch hword hderives hthen (hform _ (by rw [hend]; rfl)) hend⟩
    exact .inr ⟨_, kinds ++ [Kind.keyword .endWord], hsu.append hus, by simp [hkinds], by simpa using hform⟩
  obtain ⟨us, hus, hyes, -, hclose⟩ :=
    FindsBodies.nested hbody.reads (Script.rule_nested _ ▸ hyes) hsu.framed (hfits.passes hsu) (hsu.leaves hleaves)
  have hsv := hsu.append hus
  obtain h | ⟨no, w, hno, h⟩ := Script.refuses_bind.mp h
  case inl =>
    obtain ⟨helse, vs, kinds, stmts, hvs, hkinds, hform⟩ :=
      otherwise_refuses hbody h hsv.framed (hfits.passes hsv) (hsv.leaves hleaves)
    have hform : Closing (StmtForm g n (BodyForm g n))
        (s.peek :: (s.next.peek :: ts ++ u.peek ::
          (us ++ v.peek :: (vs ++ fill name kinds ++ fill name [.keyword .endWord])))) :=
      ⟨_, fun close _ => .branchElse hword hderives hthen hyes helse (hform _ (by rw [hend]; rfl)) hend⟩
    exact .inr ⟨_, kinds ++ [Kind.keyword .endWord], hsv.append hvs, by simp [hkinds], by simpa using hform⟩
  have hends := otherwise_ends hbody hno hsv.framed (hfits.passes hsv) (hsv.leaves hleaves) hclose
  obtain ⟨hother, -⟩ | ⟨-, h⟩ := Script.refuses_expect_bind.mp h
  case inl => exact absurd hends hother
  case inr => exact absurd h Script.refuses_pure

theorem whileStmt_refuses {body : Script.BodyScript} (hbody : BeginsBodies name g body)
    (h : (Script.whileStmt body).Refuses s t) (hs : s.Framed) (hfits : s.Fits g) (hleaves : s.Leaves n) :
    Started name (StmtForm g n (BodyForm g n)) s t := by
  have hnone : ∀ close, BodyForm g n [] close [] := bodyForm_nil h.opens hleaves
  have hend := kind_filler name (.keyword .endWord)
  obtain ⟨-, rfl, -⟩ | ⟨hword, h⟩ := Script.refuses_expect_bind.mp h
  case inl => exact .inl <| .nil hs
  have hpeek : s.peek.kind ≠ .eof := by simp [hword]
  have hpasses := Passes.next hs hpeek
  obtain h | ⟨test, u, htest, h⟩ := Script.refuses_bind.mp h
  case inl =>
    refine .inr <| (expr_refuses h hpasses.framed (hpasses.leaves hleaves)).extend hpasses
      [.keyword .endWord] (by simp) ?_
    rintro _ ⟨v, us, e, rfl, he⟩
    have hstops : BindingLevel.disjunction.Stops (([] : List Token).headD (filler name (.keyword .endWord))).kind :=
      BindingLevel.stops_of_closes rfl
    exact ⟨_, fun close _ => by simpa using StmtForm.loop hword he hstops (hnone _) hend⟩
  obtain ⟨ts, hts, hderives, hstops⟩ := expr_reads (Script.rule_expr ▸ htest) hpasses.framed (hpasses.leaves hleaves)
  have hsu := hpasses.append hts
  obtain h | ⟨block, v, hblock, h⟩ := Script.refuses_bind.mp h
  case inl =>
    obtain ⟨us, kinds, stmts, hus, hkinds, hnil, hform⟩ :=
      hbody.nested h hsu.framed (hfits.passes hsu) (hsu.leaves hleaves)
    -- The body begins as the tokens ahead do, or ends at once.
    have hstops : BindingLevel.disjunction.Stops
        ((us ++ fill name kinds).headD (filler name (.keyword .endWord))).kind := by
      cases us
      case nil => simpa [hnil rfl] using BindingLevel.stops_of_closes rfl
      case cons => exact hus.head hsu.framed ▸ hstops
    have hform : Closing (StmtForm g n (BodyForm g n))
        (s.peek :: (s.next.peek :: ts ++ (us ++ fill name kinds ++ fill name [.keyword .endWord]))) :=
      ⟨_, fun close _ => .loop hword hderives hstops (hform _ (by rw [hend]; rfl)) hend⟩
    exact .inr ⟨_, kinds ++ [Kind.keyword .endWord], hsu.append hus, by simp [hkinds], by simpa using hform⟩
  obtain ⟨us, hus, -, -, hends⟩ :=
    FindsBodies.nested hbody.reads (Script.rule_nested _ ▸ hblock) hsu.framed (hfits.passes hsu) (hsu.leaves hleaves)
  obtain ⟨hother, -⟩ | ⟨-, h⟩ := Script.refuses_expect_bind.mp h
  case inl => exact absurd (by simpa using hends) hother
  case inr => exact absurd h Script.refuses_pure

theorem unended_refuses {body : Script.BodyScript} (hbody : BeginsBodies name g body)
    (h : (Script.unended body).Refuses s t) (hs : s.Framed) (hfits : s.Fits g) (hleaves : s.Leaves n) :
    Started name (StmtForm g n (BodyForm g n)) s t := by
  rw [Script.unended, Script.refuses_peekKind_bind] at h
  split at h
  case h_1 hname =>
    have hpeek : s.peek.kind ≠ .eof := by simp [hname]
    have hpasses := Passes.next hs hpeek
    rw [Script.refuses_consume_bind, Script.refuses_peekKind_bind] at h
    split at h
    case isTrue hcolon =>
      refine .inr <| (declaration_refuses h hname hcolon hpasses.framed (hfits.passes hpasses)
        (hpasses.leaves hleaves)).extend hpasses [] (by simp) ?_
      rintro ts ⟨stmt, hform⟩
      exact ⟨stmt, fun close hclose => .declaration (by simpa using hform close hclose)⟩
    case isFalse =>
      have hback := hs.passes_back
      obtain h | ⟨_, u, hu, h⟩ := Script.refuses_bind.mp h
      case inl => exact absurd (Script.refuses_ofRule.mp h).1 refuses_backup
      case inr =>
        rw [Script.rule_ofRule, yields_backup] at hu
        subst hu
        exact (expressionStmt_refuses h hback.framed (hback.leaves hleaves)).of_passes hback
  case h_2 => exact gotoStmt_refuses (Script.refuses_ofRule.mp h).1 hs
  case h_3 => exact ifStmt_refuses hbody h hs hfits hleaves
  case h_4 => exact whileStmt_refuses hbody h hs hfits hleaves
  case h_5 => exact returnStmt_refuses h hs hfits hleaves
  case h_6 => exact expressionStmt_refuses h hs hleaves

theorem refuses_ended {rule : Rule α} : (ended rule).Refuses s t ↔ rule.Refuses s t := by
  simp [ended]

theorem Script.refuses_ended {x : Script α} : (Script.ended x).Refuses s t ↔ x.Refuses s t := by
  simp [Script.ended]

theorem BeginsBodies.bodyWith {body : Script.BodyScript} (hbody : BeginsBodies name g body) :
    BeginsBodies name g (Script.bodyWith (.ended (.unended body))) where
  reads := by
    have hrules : (Script.bodyWith (.ended (.unended body))).rules = Grammar.bodyWith (stmtWith body.rules) := by
      simp [Script.rules_bodyWith, stmtWith_eq]
    have hreads : FindsBodies (Grammar.bodyWith (stmtWith body.rules)) g := FindsBodies.bodyWith hbody.reads
    rwa [← hrules] at hreads
  refuses {n close others s t} h hs hfits hleaves := by
    rw [Script.bodyWith, Script.refuses_peek_bind] at h
    have keeps : ∀ {as u as' v}, Collects (StmtForm g n (BodyForm g n)) s as u →
        (Script.bodyRound (.ended (.unended body)) close others as).rule.Yields u (.again as') v →
        Collects (StmtForm g n (BodyForm g n)) s as' v := fun hcollects hagain =>
      hcollects.again closable_stmt bodyRound_gathers
        (fun hsu h => unended_reads hbody.reads h hsu.framed (hfits.passes hsu) (hsu.leaves hleaves))
        (by simpa [stmtWith_eq] using hagain)
    obtain ⟨as, u, ⟨ts, hts, hlists⟩, hround⟩ := (Script.refuses_bind_pure.mp h).repeatFrom keeps (.nil hs)
    refine Collects.unfinished ⟨ts, hts, hlists⟩ ?_
    obtain hround | rfl := hround
    case inr => exact .inl <| .nil hts.framed
    case inl =>
      rw [Script.bodyRound, Script.refuses_peekKind_bind] at hround
      split at hround
      case isTrue => exact absurd hround Script.refuses_pure
      case isFalse =>
        split at hround
        case isTrue =>
          obtain rfl := refuses_unexpected.mp (Script.refuses_ofRule.mp hround).1
          exact .inl <| .nil hts.framed
        case isFalse =>
          have hstmt := Script.refuses_ended.mp <| Script.refuses_bind_pure.mp hround
          exact unended_refuses hbody hstmt hts.framed (hfits.passes hts) (hts.leaves hleaves)

theorem beginsBodies_bodyWithin (name : String) (g : Setting) (left : List Token) :
    BeginsBodies name g (Script.bodyWithin left) := by
  induction left
  case nil =>
    refine ⟨Script.rules_bodyWithin [] ▸ findsBodies_bodyWithin g [], fun {n close others s t} h hs _ _ => ?_⟩
    obtain rfl := refuses_unexpected.mp (Script.refuses_ofRule.mp h).1
    exact Collects.unfinished (.nil hs) <| .inl <| .nil hs
  case cons ih => exact ih.bodyWith

theorem beginsBodies_body (name : String) (g : Setting) : BeginsBodies name g Script.body where
  reads := Script.rules_body ▸ findsBodies_body g
  refuses h hs hfits hleaves :=
    (beginsBodies_bodyWithin name g _).refuses (Script.refuses_rest_bind.mp h) hs hfits hleaves

end Statements

section Programs

variable {name : String} {s t : State} {n : Nat} {isRecord : String → Bool}

theorem formal_refuses (h : formal.Refuses s t) (hs : s.Framed) :
    Unfinished name (fun ts => ∃ a, FormalForm ts a) s t := by
  rw [formal, Rule.refuses_peek_bind] at h
  obtain h | ⟨type, u, htype, h⟩ := Rule.refuses_bind.mp h
  case inl =>
    refine (typeSpec_refuses h hs).extend (.nil hs) [.identifier] (by simp) ?_
    rintro _ ⟨v, us, type, rfl, htype, -⟩
    exact ⟨_, by simpa using FormalForm.mk htype (kind_filler name .identifier) .none⟩
  case inr =>
    obtain ⟨ts, hts, hform, -⟩ := typeSpec_reads htype hs
    obtain ⟨-, rfl⟩ | ⟨hname, h⟩ := Rule.refuses_expect_bind.mp h
    case inl => exact ⟨_, [.identifier], hts, by simp, _, .mk hform (kind_filler name .identifier) .none⟩
    case inr =>
      have hsu := hts.snoc (by simp [hname])
      refine (dimensions_refuses (Rule.refuses_bind_pure.mp h) hsu.framed).extend hsu [] (by simp) ?_
      rintro ts ⟨k, hdims⟩
      exact ⟨_, by simpa using FormalForm.mk hform hname hdims⟩

theorem formals_refuses (h : formals.Refuses s t) (hs : s.Framed) :
    Unfinished name (fun ts => ∃ as, FormalsForm ts as) s t := by
  rw [formals, Rule.refuses_peekKind_bind] at h
  split at h
  case isTrue => exact absurd h refuses_pure
  case isFalse =>
    obtain h | ⟨first, u, hfirst, h⟩ := Rule.refuses_bind.mp h
    case inl =>
      refine (formal_refuses h hs).imp ?_
      rintro ts ⟨a, ha⟩
      exact ⟨[a], .one ha⟩
    case inr =>
      obtain ⟨ts, hts, hform⟩ := formal_reads hfirst hs
      obtain ⟨as, v, ⟨ts, hts, hform, hne⟩, hround | rfl⟩ :=
        h.repeatFrom formalRound_keeps ⟨ts, hts, .one hform, by simp⟩
      case inr => exact ⟨ts, [], hts, by simp, _, by simpa using hform⟩
      case inl =>
        obtain ⟨hcomma, hround⟩ | ⟨-, hround⟩ := Rule.refuses_if_accept.mp hround
        case inr => exact absurd hround refuses_pure
        case inl =>
          have hsv := hts.snoc (by simp [hcomma])
          refine (formal_refuses (Rule.refuses_bind_pure.mp hround) hsv.framed).extend hsv [] (by simp) ?_
          rintro us ⟨a, ha⟩
          exact ⟨_, by simpa using hform.snoc (by simpa using hne) hcomma ha⟩

theorem unendedMember_refuses (h : unendedMember.Refuses s t) (hs : s.Framed) : Started name MemberForm s t := by
  have hword : TypeForm [filler name (.keyword .intWord)] _ := .base rfl .none
  obtain ⟨-, rfl⟩ | ⟨hname, h⟩ := Rule.refuses_expect_bind.mp h
  case inl => exact .inl <| .nil hs
  have hpasses := Passes.next hs (by simp [hname])
  obtain ⟨-, rfl⟩ | ⟨hcolon, h⟩ := Rule.refuses_expect_bind.mp h
  case inl =>
    have hform : Closing MemberForm [s.peek, filler name (.symbol .colon), filler name (.keyword .intWord)] :=
      ⟨_, fun close hclose => .mk hname rfl hword (Kind.ne_symbol_of_closes hclose _)⟩
    exact .inr ⟨_, [.symbol .colon, .keyword .intWord], hpasses, by simp, hform⟩
  case inr =>
    have hsu := hpasses.snoc (by simp [hcolon])
    refine .inr <| (typeSpec_refuses (Rule.refuses_bind_pure.mp h) hsu.framed).extend hsu [] (by simp) ?_
    rintro _ ⟨v, us, type, rfl, htype, -⟩
    exact ⟨_, fun close hclose => by
      simpa using MemberForm.mk hname hcolon htype (Kind.ne_symbol_of_closes hclose _)⟩

theorem recordDecl_refuses (h : recordDecl.Refuses s t) (hs : s.Framed) :
    Started name (TopForm isRecord n) s t := by
  have hend := kind_filler name (.keyword .endWord)
  rw [recordDecl_eq] at h
  obtain ⟨-, rfl⟩ | ⟨hword, h⟩ := Rule.refuses_expect_bind.mp h
  case inl => exact .inl <| .nil hs
  have hpasses := Passes.next hs (by simp [hword])
  obtain ⟨-, rfl⟩ | ⟨hname, h⟩ := Rule.refuses_expect_bind.mp h
  case inl =>
    have hform : Closing (TopForm isRecord n)
        (s.peek :: filler name .identifier :: ([] ++ [filler name (.keyword .endWord)])) :=
      ⟨_, fun close _ => .record hword (kind_filler name .identifier) .nil hend⟩
    exact .inr ⟨_, [.identifier, .keyword .endWord], hpasses, by simp, hform⟩
  have hsu := hpasses.snoc (by simp [hname])
  have hitem : ∀ {ts u a v}, s.next.next.Passes ts u → unendedMember.Yields u a v →
      ∃ ts, u.Passes ts v ∧ MemberForm ts v.peek a := fun hsu h => unendedMember_reads h hsu.framed
  obtain h | ⟨members, u, hloop, h⟩ := Rule.refuses_bind.mp h
  case inr =>
    obtain ⟨as, v, -, hdone⟩ := hloop.collects closable_member memberRound_gathers hitem hsu.framed
    obtain ⟨hends, -, rfl⟩ := memberRound_done.mp hdone
    obtain ⟨hother, -⟩ | ⟨-, h⟩ := Rule.refuses_expect_bind.mp h
    case inl => exact absurd hends hother
    case inr => exact absurd h refuses_pure
  case inl =>
    obtain ⟨as, u, ⟨ts, hts, hlists⟩, hround⟩ := h.repeatFrom
      (fun hcollects hagain => hcollects.again closable_member memberRound_gathers hitem hagain)
      (Collects.nil hsu.framed)
    have hmember : Started name MemberForm u t := by
      obtain hround | rfl := hround
      case inr => exact .inl <| .nil hts.framed
      case inl =>
        rw [memberRound, Rule.refuses_peekKind_bind, member_eq] at hround
        split at hround
        case isTrue => exact absurd hround refuses_pure
        case isFalse =>
          exact unendedMember_refuses (refuses_ended.mp <| Rule.refuses_bind_pure.mp hround) hts.framed
    have hmembers := (Collects.unfinished ⟨ts, hts, hlists⟩ hmember).unfinished
    refine .inr <| hmembers.extend hsu [.keyword .endWord] (by simp) ?_
    rintro us ⟨members, hform⟩
    exact ⟨_, fun close _ => by simpa using TopForm.record hword hname (hform _ (by rw [hend]; rfl)) hend⟩

-- A signature is finished by what remains of it, without formals and with the shortest of types.
theorem signature_refuses (h : Script.signature.Refuses s t) (hs : s.Framed) :
    s.Passes [] t ∨ Unfinished name (fun ts => ∃ g, SignatureForm ts g) s t := by
  have hvoid : TypeForm [filler name (.keyword .voidWord)] _ := .base rfl .none
  have hnone : FormalsForm [] [] := ⟨[], rfl, by simp, .none⟩
  obtain ⟨-, rfl, -⟩ | ⟨hword, h⟩ := Script.refuses_expect_bind.mp h
  case inl => exact .inl <| .nil hs
  have hhead := Passes.next hs (by simp [hword])
  obtain ⟨-, rfl, -⟩ | ⟨hname, h⟩ := Script.refuses_expect_bind.mp h
  case inl =>
    exact .inr ⟨_, [.identifier, .symbol .openParen, .symbol .closeParen, .symbol .arrow, .keyword .voidWord], hhead,
      by simp, _, .mk hword rfl rfl hnone rfl rfl hvoid⟩
  have hhead := hhead.snoc (by simp [hname])
  obtain ⟨-, rfl, -⟩ | ⟨hopen, h⟩ := Script.refuses_expect_bind.mp h
  case inl =>
    exact .inr ⟨_, [.symbol .openParen, .symbol .closeParen, .symbol .arrow, .keyword .voidWord], hhead, by simp, _,
      .mk hword hname rfl hnone rfl rfl hvoid⟩
  have hhead := hhead.snoc (by simp [hopen])
  obtain h | ⟨as, u, has, h⟩ := Script.refuses_bind.mp h
  case inl =>
    refine .inr <| (formals_refuses (Script.refuses_ofRule.mp h).1 hhead.framed).extend hhead
      [.symbol .closeParen, .symbol .arrow, .keyword .voidWord] (by simp) ?_
    rintro ts ⟨as, has⟩
    exact ⟨_, by simpa using SignatureForm.mk hword hname hopen has rfl rfl hvoid⟩
  obtain ⟨ts, hts, hformals⟩ := formals_reads (Script.rule_ofRule formals ▸ has) hhead.framed
  have hu := hhead.append hts
  obtain ⟨-, rfl, -⟩ | ⟨hclose, h⟩ := Script.refuses_expect_bind.mp h
  case inl =>
    exact .inr ⟨_, [.symbol .closeParen, .symbol .arrow, .keyword .voidWord], hu, by simp, _,
      by simpa using SignatureForm.mk hword hname hopen hformals rfl rfl hvoid⟩
  have hu := hu.snoc (by simp [hclose])
  obtain ⟨-, rfl, -⟩ | ⟨harrow, h⟩ := Script.refuses_expect_bind.mp h
  case inl =>
    exact .inr ⟨_, [.symbol .arrow, .keyword .voidWord], hu, by simp, _,
      by simpa using SignatureForm.mk hword hname hopen hformals hclose rfl hvoid⟩
  have hu := hu.snoc (by simp [harrow])
  have h := (Script.refuses_ofRule.mp <| Script.refuses_bind_pure.mp h).1
  have htype : Unfinished name _ u.next.next t := typeSpec_refuses h hu.framed
  refine .inr <| htype.extend hu [] (by simp) ?_
  rintro _ ⟨w, us, result, rfl, hresult, -⟩
  exact ⟨_, by simpa using SignatureForm.mk hword hname hopen hformals hclose harrow hresult⟩

theorem functionDecl_refuses (h : Script.functionDecl.Refuses s t) (hs : s.Framed) (htop : s.AtTop isRecord)
    (hleaves : s.Leaves n) : Started name (TopForm isRecord n) s t := by
  have hend := kind_filler name (.keyword .endWord)
  rw [Script.functionDecl_eq] at h
  obtain h | ⟨g, u, hsignature, h⟩ := Script.refuses_bind.mp h
  case inl =>
    -- An empty body goes with a signature that is unfinished.
    refine (signature_refuses h hs).imp_right fun hunfinished =>
      hunfinished.extend (.nil hs) [.keyword .endWord] (by simp) ?_
    rintro ts ⟨g, hform⟩
    have hbracket : (([] : List Token).headD (filler name (.keyword .endWord))).kind ≠ .symbol .openBracket := by simp
    exact ⟨_, fun close _ => by simpa using hform.function hbracket .nil hend⟩
  obtain ⟨ts, hts, hform, hbracket⟩ := signature_reads (Script.rule_signature ▸ hsignature) hs
  have hutop := htop.passes hts
  have hinside : (u.inFunction g.result).Framed := ⟨hts.framed.stream, hts.framed.before⟩
  obtain h | ⟨b, v, hbody, h⟩ := Script.refuses_bind.mp h
  case inl =>
    obtain ⟨v, hbody, rfl⟩ := h.withResultType
    obtain ⟨us, kinds, stmts, hus, hkinds, hnil, hlists⟩ :=
      (beginsBodies_body name _).refuses hbody hinside (hutop.inFunction g.result) (hts.leaves hleaves)
    -- The body begins as the tokens ahead do, or ends at once.
    have hbracket : ((us ++ fill name kinds).headD (filler name (.keyword .endWord))).kind ≠ .symbol .openBracket := by
      cases us
      case nil => simp [hnil rfl]
      case cons => exact hus.head hinside ▸ hbracket
    have hform : Closing (TopForm isRecord n) (ts ++ (us ++ fill name kinds ++ [filler name (.keyword .endWord)])) :=
      ⟨_, fun close _ => hform.function hbracket (hlists.listing (by rw [hend]; rfl)) hend⟩
    exact .inr ⟨_, kinds ++ [Kind.keyword .endWord], hts.append (hus.outside hutop.resultType), by simp [hkinds],
      by simpa using hform⟩
  case inr =>
    rw [Script.rule_withResultType, yields_withResultType] at hbody
    obtain ⟨v, hbody, rfl⟩ := hbody
    obtain ⟨-, -, -, -, hends⟩ :=
      (beginsBodies_body name _).reads hbody hinside (hutop.inFunction g.result) (hts.leaves hleaves)
    obtain ⟨hother, -⟩ | ⟨-, h⟩ := Script.refuses_expect_bind.mp h
    case inl => exact absurd (by simpa using hends) hother
    case inr => exact absurd h Script.refuses_pure

theorem unendedTop_refuses (h : Script.unendedTop.Refuses s t) (hs : s.Framed) (htop : s.AtTop isRecord)
    (hleaves : s.Leaves n) : Started name (TopForm isRecord n) s t := by
  rw [Script.unendedTop, Script.refuses_peekKind_bind] at h
  split at h
  case h_1 => exact functionDecl_refuses h hs htop hleaves
  case h_2 => exact recordDecl_refuses (Script.refuses_ofRule.mp h).1 hs
  case h_3 hname =>
    have hpasses := Passes.next hs (by simp [hname])
    rw [Script.refuses_consume_bind, Script.refuses_peekKind_bind] at h
    split at h
    case isTrue hcolon =>
      refine .inr <| (declaration_refuses h hname hcolon hpasses.framed (htop.passes hpasses).fits
        (hpasses.leaves hleaves)).extend hpasses [] (by simp) ?_
      rintro ts ⟨stmt, hform⟩
      exact ⟨stmt, fun close hclose => .declaration (by simpa using hform close hclose)⟩
    case isFalse =>
      obtain rfl := refuses_unexpected.mp (Script.refuses_ofRule.mp h).1
      have hform : Closing (TopForm isRecord n) [s.peek, filler name (.symbol .colon)] :=
        ⟨_, fun close hclose => .declaration <| .label hname rfl (Setting.not_beginsType_of_closes hclose)⟩
      exact .inr ⟨_, [.symbol .colon], hpasses, by simp, hform⟩
  case h_4 =>
    obtain rfl := refuses_unexpected.mp (Script.refuses_ofRule.mp h).1
    exact .inl <| .nil hs

theorem program_refuses (h : Script.program.Refuses s t) (hs : s.Framed) (htop : s.AtTop isRecord)
    (hleaves : s.Leaves n) : UnfinishedListing name (TopForm isRecord n) s t := by
  have keeps : ∀ {as u as' v}, Collects (TopForm isRecord n) s as u →
      (Script.programRound as).rule.Yields u (.again as') v → Collects (TopForm isRecord n) s as' v :=
    fun hcollects hagain => hcollects.again closable_top programRound_gathers
      (fun hsu h => unendedTop_reads h hsu.framed (htop.passes hsu) (hsu.leaves hleaves))
      (Script.rule_programRound _ ▸ hagain)
  obtain ⟨as, u, ⟨ts, hts, hlists⟩, hround⟩ := h.repeatFrom keeps (.nil hs)
  refine Collects.unfinished ⟨ts, hts, hlists⟩ ?_
  obtain hround | rfl := hround
  case inr => exact .inl <| .nil hts.framed
  case inl =>
    rw [Script.programRound, Script.refuses_peekKind_bind] at hround
    split at hround
    case isTrue => exact absurd hround Script.refuses_pure
    case isFalse =>
      have hitem := Script.refuses_ended.mp <| Script.refuses_bind_pure.mp hround
      exact unendedTop_refuses hitem hts.framed (htop.passes hts) (hts.leaves hleaves)

end Programs
end BasicFrontEnd.Grammar
