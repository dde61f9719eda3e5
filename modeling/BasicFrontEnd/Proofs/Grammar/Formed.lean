import BasicFrontEnd.Proofs.Grammar.Programs

/-!
Whatever is read as a type, a statement or a program has the form of one.
-/

namespace BasicFrontEnd

-- The kinds of token that end a body or a source, or begin a record. What stands before some token may stand before
-- one of these.
def Kind.closes (k : Kind) : Bool :=
  k ∈ [.eof, .keyword .endWord, .keyword .structWord]

theorem Kind.closes_iff {k : Kind} : k.closes = true ↔ k = .eof ∨ k = .keyword .endWord ∨ k = .keyword .structWord := by
  simp [Kind.closes]

theorem Kind.ne_symbol_of_closes {k : Kind} (h : k.closes = true) (s : Symbol) : k ≠ .symbol s := by
  rintro rfl
  contradiction

namespace Grammar

open Rule State

theorem BindingLevel.stops_of_closes {level : BindingLevel} {k : Kind} (h : k.closes = true) : level.Stops k := by
  obtain rfl | rfl | rfl := Kind.closes_iff.mp h
  case inl => exact ⟨rfl, fun o ho => absurd ho.symm o.kind_ne_eof⟩
  all_goals exact stops_keyword (by decide) (by decide) _

namespace State

-- The tokens lie between the states, and nothing that rules depend on has changed.
structure Passes (s : State) (ts : List Token) (t : State) : Prop where
  along : s.Along t
  ahead : s.ahead = ts ++ t.ahead

namespace Passes

variable {s t u : State} {ts us : List Token} {v : Token}

theorem nil (hs : s.Framed) : s.Passes [] s :=
  ⟨.refl hs, rfl⟩

theorem append (h : s.Passes ts t) (h' : t.Passes us u) : s.Passes (ts ++ us) u :=
  ⟨h.along.trans h'.along, by rw [h.ahead, h'.ahead, List.append_assoc]⟩

theorem next (hs : s.Framed) (hpeek : s.peek.kind ≠ .eof) : s.Passes [s.peek] s.next :=
  ⟨⟨hs.next hpeek, rfl, rfl, rfl, rfl⟩, hs.ahead_eq_cons⟩

theorem snoc (h : s.Passes ts t) (hpeek : t.peek.kind ≠ .eof) : s.Passes (ts ++ [t.peek]) t.next :=
  h.append <| .next h.along.framed hpeek

theorem cons (hs : s.Framed) (hpeek : s.peek.kind ≠ .eof) (h : s.next.Passes ts t) : s.Passes (s.peek :: ts) t :=
  (Passes.next hs hpeek).append h

theorem shallower (h : s.deeper.Passes ts t) : s.Passes ts t.shallower :=
  ⟨h.along.shallower, h.ahead⟩

theorem framed (h : s.Passes ts t) : t.Framed :=
  h.along.framed

theorem head (h : s.Passes (v :: ts) t) (hs : s.Framed) : v = s.peek :=
  (hs.peek_eq h.ahead).1.symm

theorem ahead_eq (h : s.Passes ts t) : s.ahead = ts ++ t.peek :: t.next.ahead := by
  rw [h.ahead, h.framed.ahead_eq_cons]

theorem headD (h : s.Passes ts t) (hs : s.Framed) : ts.headD t.peek = s.peek := by
  cases ts
  case nil => exact (hs.peek_eq h.ahead_eq).1.symm
  case cons => exact h.head hs

theorem leaves (h : s.Passes ts t) (hs : s.Leaves n) : t.Leaves n := by
  rw [Leaves, h.along.limit, h.along.depth, hs]

end Passes

theorem Reads.passes {s t : State} (h : s.Reads ts t) (hs : s.Framed) : s.Passes ts t :=
  ⟨h.along hs, h.ahead hs⟩

-- The setting tells what the state knows, as far as the tokens ahead ask for it.
structure Fits (s : State) (g : Setting) : Prop where
  isRecord : ∀ v ∈ s.ahead, v.kind = .identifier → s.isRecord v.value = g.isRecord v.value
  isVoid   : s.resultType.any (·.isVoid) = g.isVoid

theorem Fits.passes {s t : State} (h : s.Fits g) (hst : s.Passes ts t) : t.Fits g where
  isRecord v hv hkind := by
    rw [hst.along.isRecord]
    exact h.isRecord v (hst.ahead ▸ List.mem_append_right ts hv) hkind
  isVoid := by rw [hst.along.resultType, h.isVoid]

theorem Fits.beginsType {s : State} (h : s.Fits g) (hs : s.Framed) :
    (s.peek.kind.isTypeKeyword || (s.peek.kind == .identifier && s.isRecord s.peek.value)) = g.beginsType s.peek := by
  unfold Setting.beginsType
  by_cases hkind : s.peek.kind = .identifier
  case pos => rw [h.isRecord _ (hs.ahead_eq_cons ▸ List.mem_cons_self) hkind]
  case neg => rw [beq_eq_false_iff_ne.mpr hkind, Bool.false_and, Bool.false_and]

theorem Fits.deeper {s : State} (h : s.Fits g) : s.deeper.Fits g :=
  ⟨h.isRecord, h.isVoid⟩

end State

section Combinators

variable {s t : State} {kind : Kind}

theorem yields_backup {u : Unit} : backup.Yields s u t ↔ t = { s with stream := s.stream.backup } := by
  have : backup.outcome s = (.ok (), { s with stream := s.stream.backup }) := rfl
  simp [Yields, this, eq_comm]

theorem yields_if_accept {x y : Rule α} {a : α} :
    (do if ← accept kind then x else y : Rule α).Yields s a t ↔
      (s.peek.kind = kind ∧ x.Yields s.next a t) ∨ (s.peek.kind ≠ kind ∧ y.Yields s a t) := by
  simp only [yields_bind, yields_accept]
  by_cases h : s.peek.kind = kind <;> simp [h]

theorem yields_ended {rule : Rule α} {a : α} :
    (ended rule).Yields s a t ↔
      ∃ u, rule.Yields s a u ∧
        ((u.peek.kind = .symbol .semicolon ∧ t = u.next) ∨ (u.peek.kind ≠ .symbol .semicolon ∧ t = u)) := by
  simp only [ended, yields_bind, yields_accept, yields_pure]
  constructor
  case mp =>
    rintro ⟨_, u, hu, _, _, ⟨hkind, -, rfl⟩ | ⟨hkind, -, rfl⟩, rfl, rfl⟩
    case inl => exact ⟨u, hu, .inl ⟨hkind, rfl⟩⟩
    case inr => exact ⟨_, hu, .inr ⟨hkind, rfl⟩⟩
  case mpr =>
    rintro ⟨u, hu, ⟨hkind, rfl⟩ | ⟨hkind, rfl⟩⟩
    case inl => exact ⟨a, u, hu, true, _, .inl ⟨hkind, rfl, rfl⟩, rfl, rfl⟩
    case inr => exact ⟨a, _, hu, false, _, .inr ⟨hkind, rfl, rfl⟩, rfl, rfl⟩

-- Where a token is read and taken back, nothing has happened.
theorem State.Framed.passes_back (hs : s.Framed) : s.Passes [] { s.next with stream := s.next.stream.backup } := by
  have hstream : s.stream.consume.backup = s.stream := Stream.backup_consume _ <| by
    show s.ahead ≠ []
    simp [hs.ahead_eq_cons]
  refine ⟨⟨⟨?_, ?_⟩, rfl, rfl, rfl, rfl⟩, ?_⟩
  case refine_1 => exact hstream ▸ hs.stream
  case refine_2 => exact hstream ▸ hs.before
  case refine_3 =>
    show _ = (s.stream.consume.backup).ahead
    rw [hstream]
    rfl

end Combinators

section Types

variable {s t : State} {n : Nat} {type : TypeSpec}

theorem Brackets.append (h : Brackets ts n) (h' : Brackets us m) : Brackets (ts ++ us) (n + m) := by
  induction h
  case none => rwa [Nat.zero_add]
  case more hopen hclose _ ih => exact Nat.add_right_comm _ 1 m ▸ .more hopen hclose ih

theorem dimensionRound_again {k : Nat} :
    (dimensionRound n).Yields s (.again k) t ↔
      s.peek.kind = .symbol .openBracket ∧ s.next.peek.kind = .symbol .closeBracket ∧ k = n + 1 ∧ t = s.next.next := by
  simp only [dimensionRound, yields_if_accept]
  simp [and_assoc, and_comm (a := t = _)]

theorem dimensionRound_done {k : Nat} :
    (dimensionRound n).Yields s (.done k) t ↔ s.peek.kind ≠ .symbol .openBracket ∧ k = n ∧ t = s := by
  simp only [dimensionRound, yields_if_accept]
  simp

-- One more pair of brackets stands behind those before.
theorem dimensionRound_keeps {k k' : Nat} {u v : State} (h : ∃ ts, s.Passes ts u ∧ Brackets ts k)
    (hround : (dimensionRound k).Yields u (.again k') v) : ∃ ts, s.Passes ts v ∧ Brackets ts k' := by
  obtain ⟨ts, hts, hdims⟩ := h
  obtain ⟨hopen, hclose, rfl, rfl⟩ := dimensionRound_again.mp hround
  have hnext : u.next.Framed := hts.framed.next (by simp [hopen])
  refine ⟨ts ++ [u.peek, u.next.peek], ?_, hdims.append <| .more hopen hclose .none⟩
  exact hts.append <| .cons hts.framed (by simp [hopen]) <| .next hnext (by simp [hclose])

theorem dimensions_reads (h : dimensions.Yields s n t) (hs : s.Framed) :
    ∃ ts, s.Passes ts t ∧ Brackets ts n ∧ t.peek.kind ≠ .symbol .openBracket := by
  obtain ⟨k, u, ⟨ts, hts, hdims⟩, hdone⟩ := Yields.repeatFrom dimensionRound_keeps ⟨[], .nil hs, .none⟩ h
  obtain ⟨hbracket, rfl, rfl⟩ := dimensionRound_done.mp hdone
  exact ⟨ts, hts, hdims, hbracket⟩

theorem typeSpec_reads (h : typeSpec.Yields s type t) (hs : s.Framed) :
    ∃ ts, s.Passes (s.peek :: ts) t ∧ TypeForm (s.peek :: ts) type ∧ t.peek.kind ≠ .symbol .openBracket := by
  simp only [typeSpec, yields_bind, yields_peekKind, and_assoc, exists_and_left, exists_eq_left] at h
  split at h
  case isTrue hword =>
    simp only [yields_bind, yields_consume, yields_pure, and_assoc, exists_and_left, exists_eq_left] at h
    obtain ⟨n, u, hdims, rfl, rfl⟩ := h
    have hpeek := ne_eof_of_isTypeKeyword hword
    obtain ⟨ts, hts, hbrackets, hnext⟩ := dimensions_reads hdims (hs.next hpeek)
    exact ⟨ts, .cons hs hpeek hts, .base hword hbrackets, hnext⟩
  case isFalse =>
    split at h
    case isFalse => simp at h
    case isTrue hname =>
      simp only [yields_bind, yields_consume, yields_pure, and_assoc, exists_and_left, exists_eq_left] at h
      obtain ⟨n, u, hdims, rfl, rfl⟩ := h
      have hpeek : s.peek.kind ≠ .eof := by simp [hname]
      obtain ⟨ts, hts, hbrackets, hnext⟩ := dimensions_reads hdims (hs.next hpeek)
      exact ⟨ts, .cons hs hpeek hts, .record hname hbrackets, hnext⟩

end Types

section Statements

variable {s t : State} {g : Setting} {n : Nat} {stmt : Stmt}

theorem expr_reads (h : expr.Yields s e t) (hs : s.Framed) (hleaves : s.Leaves n) :
    ∃ ts, s.Passes (s.peek :: ts) t ∧ Derives .disjunction n (s.peek :: ts) e ∧
      BindingLevel.disjunction.Stops t.peek.kind := by
  obtain ⟨ts, hts, hderives, hstops⟩ := reader_expr _ _ _ _ hleaves h
  obtain ⟨v, ts, rfl, -⟩ := hderives.exists_head
  have hpasses := hts.passes hs
  obtain rfl := hpasses.head hs
  exact ⟨ts, hpasses, hderives, hstops⟩

theorem declaration_reads {name : Token} (h : (declaration name).Yields s stmt t) (hname : name.kind = .identifier)
    (hs : s.Framed) (hfits : s.Fits g) (hleaves : s.Leaves n) :
    ∃ ts, s.Passes ts t ∧ DeclarationForm g n (name :: ts) t.peek stmt := by
  simp only [declaration, yields_bind, yields_expect, yields_peek, yields_get, and_assoc, exists_and_left,
    exists_eq_left] at h
  obtain ⟨hcolon, h⟩ := h
  have hpeek : s.peek.kind ≠ .eof := by simp [hcolon]
  have hnext := hs.next hpeek
  have hpasses := Passes.next hs hpeek
  split at h
  case isFalse hlabel =>
    obtain ⟨rfl, rfl⟩ := yields_pure.mp h
    rw [(hfits.passes hpasses).beginsType hnext, Bool.not_eq_true] at hlabel
    exact ⟨_, hpasses, .label hname hcolon hlabel⟩
  case isTrue hbegins =>
    rw [(hfits.passes hpasses).beginsType hnext] at hbegins
    rw [yields_bind] at h
    obtain ⟨type, u, htype, h⟩ := h
    obtain ⟨ts, hts, hform, hbracket⟩ := typeSpec_reads htype hnext
    obtain ⟨hassign, h⟩ | ⟨hassign, h⟩ := yields_if_accept.mp h
    case inl =>
      simp only [bind_pure_comp, yields_map] at h
      obtain ⟨e, he, rfl⟩ := h
      have hu : u.peek.kind ≠ .eof := by simp [hassign]
      have hsu := (hpasses.append hts).snoc hu
      obtain ⟨us, hus, hderives, hstops⟩ := expr_reads he hsu.framed (hsu.leaves hleaves)
      refine ⟨_, (hpasses.append hts).append <| .cons hts.framed hu hus, ?_⟩
      exact .initialized hname hcolon hform hbegins hassign hderives hstops
    case inr =>
      obtain ⟨rfl, rfl⟩ := yields_pure.mp h
      exact ⟨_, hpasses.append hts, .declare hname hcolon hform hbegins hbracket hassign⟩

theorem gotoStmt_reads (h : gotoStmt.Yields s stmt t) (hs : s.Framed) :
    ∃ ts, s.Passes ts t ∧ StmtForm g n Bodies ts t.peek stmt := by
  simp only [gotoStmt, yields_bind, yields_expect, yields_pure, and_assoc, exists_and_left, exists_eq_left] at h
  obtain ⟨hword, htarget, rfl, rfl⟩ := h
  have hpeek : s.peek.kind ≠ .eof := by simp [hword]
  exact ⟨_, .cons hs hpeek <| .next (hs.next hpeek) (by simp [htarget]), .goto hword htarget⟩

theorem returnStmt_reads (h : returnStmt.Yields s stmt t) (hs : s.Framed) (hfits : s.Fits g) (hleaves : s.Leaves n) :
    ∃ ts, s.Passes ts t ∧ StmtForm g n Bodies ts t.peek stmt := by
  simp only [returnStmt, yields_bind, yields_expect, yields_get, and_assoc, exists_and_left, exists_eq_left] at h
  obtain ⟨hword, h⟩ := h
  have hpeek : s.peek.kind ≠ .eof := by simp [hword]
  have hpasses := Passes.next hs hpeek
  split at h
  case isTrue hvoid =>
    obtain ⟨rfl, rfl⟩ := yields_pure.mp h
    exact ⟨_, hpasses, .returningNone hword <| hfits.isVoid.symm.trans hvoid⟩
  case isFalse hvoid =>
    simp only [bind_pure_comp, yields_map] at h
    obtain ⟨e, he, rfl⟩ := h
    obtain ⟨ts, hts, hderives, hstops⟩ := expr_reads he (hs.next hpeek) (hpasses.leaves hleaves)
    refine ⟨_, .cons hs hpeek hts, .returning hword ?_ hderives hstops⟩
    exact hfits.isVoid.symm.trans <| Bool.eq_false_iff.mpr hvoid

theorem expressionStmt_reads (h : expressionStmt.Yields s stmt t) (hs : s.Framed) (hleaves : s.Leaves n) :
    ∃ ts, s.Passes ts t ∧ StmtForm g n Bodies ts t.peek stmt := by
  simp only [expressionStmt, yields_bind, yields_peek, and_assoc, exists_and_left, exists_eq_left] at h
  obtain ⟨e, u, he, h⟩ := h
  obtain ⟨ts, hts, hderives, hstops⟩ := expr_reads he hs hleaves
  obtain ⟨hassign, h⟩ | ⟨hassign, h⟩ := yields_if_accept.mp (by simpa only [yields_bind] using h)
  case inl =>
    simp only [bind_pure_comp, yields_map] at h
    obtain ⟨value, hvalue, rfl⟩ := h
    have hu : u.peek.kind ≠ .eof := by simp [hassign]
    obtain ⟨us, hus, hvalue, hstops⟩ := expr_reads hvalue (hts.framed.next hu) ((hts.snoc hu).leaves hleaves)
    exact ⟨_, hts.append <| .cons hts.framed hu hus, .assign hderives hassign hvalue hstops⟩
  case inr =>
    split at h
    case isFalse => simp at h
    case isTrue hcall =>
      obtain ⟨rfl, rfl⟩ := yields_pure.mp h
      exact ⟨_, hts, .call hderives hcall hstops hassign⟩

-- What the rule reads as a body is a listing of statements, up to one of the kinds.
def FindsBodies (body : BodyRule) (g : Setting) : Prop :=
  ∀ {n close others s b t}, (body close others).Yields s b t → s.Framed → s.Fits g → s.Leaves n →
    ∃ ts, s.Passes ts t ∧ Listing (StmtForm g n (BodyForm g n)) ts t.peek b.stmts ∧
      b.position = (ts.headD t.peek).position ∧ (t.peek.kind = close ∨ t.peek.kind ∈ others)

theorem FindsBodies.nested {body : BodyRule} (hbody : FindsBodies body g)
    (h : (nested (body close others)).Yields s b t) (hs : s.Framed) (hfits : s.Fits g) (hleaves : s.Leaves n) :
    ∃ ts, s.Passes ts t ∧ BodyForm g n ts t.peek b.stmts ∧ b.position = (ts.headD t.peek).position ∧
      (t.peek.kind = close ∨ t.peek.kind ∈ others) := by
  obtain ⟨m, u, rfl, hdeeper, hwithin, rfl⟩ := h.nested hleaves
  obtain ⟨ts, hts, hform, hposition, hclose⟩ := hbody hwithin hs.deeper hfits.deeper hdeeper
  exact ⟨ts, hts.shallower, hform, hposition, hclose⟩

theorem ifStmt_reads {body : BodyRule} (hbody : FindsBodies body g) (h : (ifStmt body).Yields s stmt t) (hs : s.Framed)
    (hfits : s.Fits g) (hleaves : s.Leaves n) :
    ∃ ts, s.Passes ts t ∧ StmtForm g n (BodyForm g n) ts t.peek stmt := by
  simp only [ifStmt, yields_bind, yields_expect, and_assoc, exists_and_left, exists_eq_left] at h
  obtain ⟨hword, test, u, htest, hthen, yes, v, hyes, h⟩ := h
  have hpeek : s.peek.kind ≠ .eof := by simp [hword]
  have hpasses := Passes.next hs hpeek
  obtain ⟨ts, hts, hderives, -⟩ := expr_reads htest (hs.next hpeek) (hpasses.leaves hleaves)
  have hsu := (hpasses.append hts).snoc (by simp [hthen])
  obtain ⟨us, hus, hyes, hposition, hclose⟩ := hbody.nested hyes hsu.framed (hfits.passes hsu) (hsu.leaves hleaves)
  have hsv := hsu.append hus
  obtain ⟨otherwise, w, hotherwise, hend, rfl, rfl⟩ := h
  obtain ⟨helse, hno⟩ | ⟨helse, hno⟩ := yields_if_accept.mp (by simpa only [yields_bind] using hotherwise)
  case inl =>
    simp only [bind_pure_comp, yields_map] at hno
    obtain ⟨no, hno, rfl⟩ := hno
    have hv : v.peek.kind ≠ .eof := by simp [helse]
    have hsv' := hsv.snoc hv
    obtain ⟨vs, hvs, hno, hposition', -⟩ := hbody.nested hno hsv'.framed (hfits.passes hsv') (hsv'.leaves hleaves)
    have hform : StmtForm g n (BodyForm g n) _ w.next.peek _ := .branchElse hword hderives hthen hyes helse hno hend
    rw [hposition, hposition']
    refine ⟨_, ?_, hform⟩
    simpa using (hsv'.append hvs).snoc (by simp [hend])
  case inr =>
    obtain ⟨rfl, rfl⟩ := yields_pure.mp hno
    have hform : StmtForm g n (BodyForm g n) _ w.next.peek _ := .branch hword hderives hthen hyes hend
    rw [hposition]
    refine ⟨_, ?_, hform⟩
    simpa using hsv.snoc (by simp [hend])

theorem whileStmt_reads {body : BodyRule} (hbody : FindsBodies body g) (h : (whileStmt body).Yields s stmt t)
    (hs : s.Framed) (hfits : s.Fits g) (hleaves : s.Leaves n) :
    ∃ ts, s.Passes ts t ∧ StmtForm g n (BodyForm g n) ts t.peek stmt := by
  simp only [whileStmt, yields_bind, yields_expect, yields_pure, and_assoc, exists_and_left, exists_eq_left] at h
  obtain ⟨hword, test, u, htest, block, v, hblock, hend, rfl, rfl⟩ := h
  have hpeek : s.peek.kind ≠ .eof := by simp [hword]
  have hpasses := Passes.next hs hpeek
  obtain ⟨ts, hts, hderives, hstops⟩ := expr_reads htest (hs.next hpeek) (hpasses.leaves hleaves)
  have hsu := hpasses.append hts
  obtain ⟨us, hus, hform, hposition, -⟩ := hbody.nested hblock hsu.framed (hfits.passes hsu) (hsu.leaves hleaves)
  rw [← hus.headD hsu.framed] at hstops
  have hform : StmtForm g n (BodyForm g n) _ v.next.peek _ := .loop hword hderives hstops hform hend
  rw [hposition]
  refine ⟨_, ?_, hform⟩
  simpa using (hsu.append hus).snoc (by simp [hend])

theorem unended_reads {body : BodyRule} (hbody : FindsBodies body g) (h : (unended body).Yields s stmt t)
    (hs : s.Framed) (hfits : s.Fits g) (hleaves : s.Leaves n) :
    ∃ ts, s.Passes ts t ∧ StmtForm g n (BodyForm g n) ts t.peek stmt := by
  simp only [unended, yields_bind, yields_peekKind, and_assoc, exists_and_left, exists_eq_left] at h
  split at h
  case h_1 hname =>
    simp only [yields_bind, yields_consume, yields_peekKind, and_assoc, exists_and_left, exists_eq_left] at h
    have hpeek : s.peek.kind ≠ .eof := by simp [hname]
    have hpasses := Passes.next hs hpeek
    split at h
    case isTrue =>
      obtain ⟨ts, hts, hform⟩ :=
        declaration_reads h hname hpasses.framed (hfits.passes hpasses) (hpasses.leaves hleaves)
      exact ⟨_, .cons hs hpeek hts, .declaration hform⟩
    case isFalse =>
      simp only [yields_bind, yields_backup, exists_eq_left] at h
      obtain ⟨-, h⟩ := h
      have hback := hs.passes_back
      obtain ⟨ts, hts, hform⟩ := expressionStmt_reads h hback.framed (hback.leaves hleaves)
      exact ⟨ts, hback.append hts, hform⟩
  case h_2 => exact gotoStmt_reads h hs
  case h_3 => exact ifStmt_reads hbody h hs hfits hleaves
  case h_4 => exact whileStmt_reads hbody h hs hfits hleaves
  case h_5 => exact returnStmt_reads h hs hfits hleaves
  case h_6 => exact expressionStmt_reads h hs hleaves

end Statements

section Listings

-- The items of a form are made of tokens, and any item may stand before a token that closes.
structure Closable (Form : List Token → Token → α → Prop) : Prop where
  ne_nil  : ∀ {ts next a}, Form ts next a → ts ≠ []
  closing : ∀ {ts next close a}, Form ts next a → close.kind.closes = true → Form ts close a

theorem Setting.not_beginsType_of_closes {g : Setting} {t : Token} (h : t.kind.closes = true) :
    g.beginsType t = false := by
  obtain h | h | h := Kind.closes_iff.mp h <;> simp [Setting.beginsType, h, Kind.isTypeKeyword]

theorem closable_declaration : Closable (DeclarationForm g n) where
  ne_nil h := by
    obtain ⟨_, _, _, rfl, _⟩ := h.exists_head
    simp
  closing h hclose := by
    cases h
    case declare hname hcolon htype hbegins _ _ =>
      exact .declare hname hcolon htype hbegins (Kind.ne_symbol_of_closes hclose _) (Kind.ne_symbol_of_closes hclose _)
    case initialized hname hcolon htype hbegins hassign he _ =>
      exact .initialized hname hcolon htype hbegins hassign he (BindingLevel.stops_of_closes hclose)
    case label hname hcolon _ => exact .label hname hcolon (Setting.not_beginsType_of_closes hclose)

theorem closable_stmt : Closable (StmtForm g n Bodies) where
  ne_nil h := by
    obtain ⟨_, _, rfl, _⟩ := h.exists_head
    simp
  closing h hclose := by
    cases h
    case declaration h => exact .declaration <| closable_declaration.closing h hclose
    case goto hword htarget => exact .goto hword htarget
    case returning hword hvoid he _ => exact .returning hword hvoid he <| BindingLevel.stops_of_closes hclose
    case returningNone hword hvoid => exact .returningNone hword hvoid
    case branch hword htest hthen hyes hend => exact .branch hword htest hthen hyes hend
    case branchElse hword htest hthen hyes helse hno hend => exact .branchElse hword htest hthen hyes helse hno hend
    case loop hword htest hstops hbody hend => exact .loop hword htest hstops hbody hend
    case call he hcall _ _ =>
      exact .call he hcall (BindingLevel.stops_of_closes hclose) (Kind.ne_symbol_of_closes hclose _)
    case assign htarget hassign he _ => exact .assign htarget hassign he <| BindingLevel.stops_of_closes hclose

theorem closable_member : Closable MemberForm where
  ne_nil h := by
    obtain ⟨_, _, rfl, _⟩ := h.exists_head
    simp
  closing h hclose := by
    cases h
    case mk hname hcolon htype _ => exact .mk hname hcolon htype <| Kind.ne_symbol_of_closes hclose _

theorem closable_top {isRecord : String → Bool} : Closable (TopForm isRecord n) where
  ne_nil h := by
    obtain ⟨_, _, rfl, _⟩ := h.exists_head
    simp
  closing h hclose := by
    cases h
    case declaration h => exact .declaration <| closable_declaration.closing h hclose
    case function hword hname hopen hparts hsep hclose harrow hresult hbracket hbody hend =>
      exact .function _ hword hname hopen hparts hsep hclose harrow hresult hbracket hbody hend
    case record hword hname hmembers hend => exact .record hword hname hmembers hend

-- What was read since `s` lists the items, the last of them first, before whatever goes on with the listing: either
-- where the reading stands or with a token that closes.
def Collects (Form : List Token → Token → α → Prop) (s : State) (as : List α) (u : State) : Prop :=
  ∃ ts, s.Passes ts u ∧ ∀ us close bs, us.headD close = u.peek ∨ (us.headD close).kind.closes = true →
    Listing Form us close bs → Listing Form (ts ++ us) close (as.reverse ++ bs)

variable {Form : List Token → Token → α → Prop} {s t u : State} {as : List α}

theorem Collects.nil (hs : s.Framed) : Collects Form s [] s :=
  ⟨[], .nil hs, fun _ _ _ _ h => h⟩

theorem Collects.listing (h : Collects Form s as u) : ∃ ts, s.Passes ts u ∧ Listing Form ts u.peek as.reverse := by
  obtain ⟨ts, hts, hlists⟩ := h
  exact ⟨ts, hts, by simpa using hlists [] u.peek [] (.inl rfl) .nil⟩

theorem Collects.snoc {rule : Rule α} {a : α} (hform : Closable Form) (h : Collects Form s as u)
    (ha : (ended rule).Yields u a t)
    (hitem : ∀ {v}, rule.Yields u a v → ∃ ts, u.Passes ts v ∧ Form ts v.peek a) : Collects Form s (a :: as) t := by
  obtain ⟨ts, hts, hlists⟩ := h
  obtain ⟨v, hv, hend⟩ := yields_ended.mp ha
  obtain ⟨us, hus, hwritten⟩ := hitem hv
  obtain ⟨w, us, rfl⟩ := List.exists_cons_of_ne_nil (hform.ne_nil hwritten)
  obtain rfl := hus.head hts.framed
  obtain ⟨hsemicolon, rfl⟩ | ⟨hplain, rfl⟩ := hend
  case inl =>
    refine ⟨_, hts.append <| hus.snoc (by simp [hsemicolon]), fun vs close bs _ hrest => ?_⟩
    have hitems := Listing.closed hwritten hsemicolon hrest
    simpa using hlists _ close _ (.inl rfl) hitems
  case inr =>
    refine ⟨_, hts.append hus, fun vs close bs hnext hrest => ?_⟩
    have hitems : Listing Form (u.peek :: us ++ vs) close (a :: bs) := by
      obtain hnext | hnext := hnext
      case inl => exact .plain (hnext ▸ hwritten) (hnext ▸ hplain) hrest
      case inr => exact .plain (hform.closing hwritten hnext) (Kind.ne_symbol_of_closes hnext _) hrest
    simpa using hlists _ close _ (.inl rfl) hitems

-- A round that gathers an item, with the semicolon that may end it, collects it.
theorem Collects.again {rule : Rule α} {round : List α → Rule (Round (List α) γ)} {as' : List α} {v : State}
    (hform : Closable Form)
    (hround : ∀ {as u as' v}, (round as).Yields u (.again as') v → ∃ a, as' = a :: as ∧ (ended rule).Yields u a v)
    (hitem : ∀ {ts u a v}, s.Passes ts u → rule.Yields u a v → ∃ ts, u.Passes ts v ∧ Form ts v.peek a)
    (h : Collects Form s as u) (hagain : (round as).Yields u (.again as') v) : Collects Form s as' v := by
  obtain ⟨a, rfl, ha⟩ := hround hagain
  obtain ⟨ts, hts, hlists⟩ := h
  exact Collects.snoc hform ⟨ts, hts, hlists⟩ ha fun hrule => hitem hts hrule

-- A loop that gathers items has collected them when it stops.
theorem Rule.Yields.collects {rule : Rule α} {round : List α → Rule (Round (List α) γ)} {c : γ}
    (hform : Closable Form)
    (hround : ∀ {as u as' v}, (round as).Yields u (.again as') v → ∃ a, as' = a :: as ∧ (ended rule).Yields u a v)
    (hitem : ∀ {ts u a v}, s.Passes ts u → rule.Yields u a v → ∃ ts, u.Passes ts v ∧ Form ts v.peek a)
    (h : (Rule.repeatFrom round []).Yields s c t) (hs : s.Framed) :
    ∃ as u, Collects Form s as u ∧ (round as).Yields u (.done c) t :=
  Yields.repeatFrom (fun hcollects hagain => hcollects.again hform hround hitem hagain) (Collects.nil hs) h

end Listings

section Bodies

variable {s t : State} {g : Setting} {n : Nat}

theorem bodyRound_again {stmt : Rule Stmt} {close : Kind} {others : List Kind} {stmts stmts' : List Stmt} :
    (bodyRound stmt close others stmts).Yields s (.again stmts') t ↔
      s.peek.kind ≠ close ∧ s.peek.kind ∉ others ∧ s.peek.kind ≠ .eof ∧
        ∃ a, stmt.Yields s a t ∧ stmts' = a :: stmts := by
  simp only [bodyRound, yields_bind, yields_peekKind, and_assoc, exists_and_left, exists_eq_left]
  by_cases hclose : s.peek.kind = close ∨ s.peek.kind ∈ others
  case pos =>
    have : s.peek.kind ≠ close → s.peek.kind ∈ others := fun h => hclose.resolve_left h
    simp_all
  case neg =>
    by_cases heof : s.peek.kind = .eof <;> simp_all

theorem bodyRound_done {stmt : Rule Stmt} {close : Kind} {others : List Kind} {stmts stmts' : List Stmt} :
    (bodyRound stmt close others stmts).Yields s (.done stmts') t ↔
      (s.peek.kind = close ∨ s.peek.kind ∈ others) ∧ stmts' = stmts.reverse ∧ t = s := by
  simp only [bodyRound, yields_bind, yields_peekKind, and_assoc, exists_and_left, exists_eq_left]
  by_cases hclose : s.peek.kind = close ∨ s.peek.kind ∈ others
  case pos => simp [hclose]
  case neg => by_cases heof : s.peek.kind = .eof <;> simp_all

theorem bodyRound_gathers {stmt : Rule Stmt} {close : Kind} {others : List Kind} {stmts stmts' : List Stmt}
    (h : (bodyRound stmt close others stmts).Yields s (.again stmts') t) :
    ∃ a, stmts' = a :: stmts ∧ stmt.Yields s a t := by
  obtain ⟨-, -, -, a, ha, rfl⟩ := bodyRound_again.mp h
  exact ⟨a, rfl, ha⟩

theorem FindsBodies.bodyWith {body : BodyRule} (hbody : FindsBodies body g) :
    FindsBodies (bodyWith (stmtWith body)) g := by
  intro n close others s b t h hs hfits hleaves
  simp only [bodyWith_eq, yields_bind, yields_peek, yields_pure, and_assoc, exists_and_left, exists_eq_left] at h
  obtain ⟨stmts, u, hloop, rfl, rfl⟩ := h
  obtain ⟨as, v, hcollects, hdone⟩ := hloop.collects closable_stmt bodyRound_gathers
    (fun hsu h => unended_reads hbody h hsu.framed (hfits.passes hsu) (hsu.leaves hleaves)) hs
  obtain ⟨hclose, rfl, rfl⟩ := bodyRound_done.mp hdone
  obtain ⟨ts, hts, hlisting⟩ := hcollects.listing
  exact ⟨ts, hts, hlisting, by rw [hts.headD hs], hclose⟩

theorem findsBodies_bodyWithin (g : Setting) (left : List Token) : FindsBodies (bodyWithin left) g := by
  induction left
  case nil =>
    intro n close others s b t h
    exact absurd h yields_unexpected
  case cons ih => exact ih.bodyWith

theorem findsBodies_body (g : Setting) : FindsBodies body g := by
  intro n close others s b t h
  simp only [body, yields_bind, yields_get] at h
  obtain ⟨_, _, ⟨rfl, rfl⟩, h⟩ := h
  exact findsBodies_bodyWithin g _ h

end Bodies

section Programs

variable {s t : State} {n : Nat} {isRecord : String → Bool}

theorem formal_reads {a : TypedName} (h : formal.Yields s a t) (hs : s.Framed) :
    ∃ ts, s.Passes ts t ∧ FormalForm ts a := by
  simp only [formal, yields_bind, yields_peek, yields_expect, yields_pure, and_assoc, exists_and_left,
    exists_eq_left] at h
  obtain ⟨type, u, htype, hname, k, v, hdims, rfl, rfl⟩ := h
  obtain ⟨ts, hts, hform, -⟩ := typeSpec_reads htype hs
  have hu : u.peek.kind ≠ .eof := by simp [hname]
  obtain ⟨us, hus, hbrackets, -⟩ := dimensions_reads hdims (hts.framed.next hu)
  exact ⟨_, hts.append <| .cons hts.framed hu hus, .mk hform hname hbrackets⟩

theorem FormalsForm.snoc (h : FormalsForm ts as) (hne : as ≠ []) (hcomma : comma.kind = .symbol .comma)
    (ha : FormalForm us a) : FormalsForm (ts ++ comma :: us) (as ++ [a]) := by
  obtain ⟨parts, rfl, hparts, hsep⟩ := h
  refine ⟨parts ++ [(us, a)], by simp, ?_, ?_⟩
  · rintro part hpart
    obtain hpart | rfl : part ∈ parts ∨ part = (us, a) := by simpa using hpart
    case inl => exact hparts part hpart
    case inr => exact ha
  · simpa using hsep.append (by simpa using hne) hcomma .one (List.cons_ne_nil us [])

-- One more formal behind a comma is gathered with those before, the last of them first.
theorem formalRound_keeps {as as' : List TypedName} {u v : State}
    (h : ∃ ts, s.Passes ts u ∧ FormalsForm ts as.reverse ∧ as ≠ [])
    (hround : (commaRound formal as).Yields u (.again as') v) :
    ∃ ts, s.Passes ts v ∧ FormalsForm ts as'.reverse ∧ as' ≠ [] := by
  obtain ⟨ts, hts, hform, hne⟩ := h
  obtain ⟨hcomma, a, ha, rfl⟩ := commaRound_again.mp hround
  have hu : u.peek.kind ≠ .eof := by simp [hcomma]
  obtain ⟨us, hus, ha⟩ := formal_reads ha (hts.framed.next hu)
  refine ⟨_, hts.append <| .cons hts.framed hu hus, ?_, by simp⟩
  simpa using hform.snoc (by simpa using hne) hcomma ha

theorem FormalsForm.one {a : TypedName} (h : FormalForm ts a) : FormalsForm ts [a] :=
  ⟨[(ts, a)], rfl, by simpa, .one⟩

theorem formals_reads {as : List TypedName} (h : formals.Yields s as t) (hs : s.Framed) :
    ∃ ts, s.Passes ts t ∧ FormalsForm ts as := by
  simp only [formals, yields_bind, yields_peekKind, and_assoc, exists_and_left, exists_eq_left] at h
  split at h
  case isTrue =>
    obtain ⟨rfl, rfl⟩ := yields_pure.mp h
    exact ⟨[], .nil hs, [], rfl, by simp, .none⟩
  case isFalse =>
    simp only [separated_eq, yields_bind] at h
    obtain ⟨first, u, hfirst, hrest⟩ := h
    obtain ⟨ts, hts, hform⟩ := formal_reads hfirst hs
    obtain ⟨as, u, ⟨ts, hts, hform, -⟩, hdone⟩ := hrest.repeatFrom formalRound_keeps ⟨ts, hts, .one hform, by simp⟩
    obtain ⟨-, rfl, rfl⟩ := commaRound_done.mp hdone
    exact ⟨ts, hts, hform⟩

-- The state with the result type forgotten.
def State.outside (s : State) : State :=
  { s with resultType := none }

@[simp]
theorem State.peek_outside (s : State) : s.outside.peek = s.peek :=
  rfl

theorem yields_withResultType {rule : Rule α} {type : TypeSpec} {a : α} :
    (withResultType type rule).Yields s a t ↔
      ∃ u, rule.Yields (s.inFunction type) a u ∧ t = u.outside := by
  have : (withResultType type rule).outcome s =
      ((rule.outcome (s.inFunction type)).1, (rule.outcome (s.inFunction type)).2.outside) := rfl
  unfold Yields
  rw [this]
  obtain ⟨r, u⟩ := rule.outcome (s.inFunction type)
  simp [eq_comm, and_assoc]

theorem State.Passes.outside {u : State} (h : (s.inFunction type).Passes ts u) (hs : s.resultType = none) :
    s.Passes ts u.outside :=
  ⟨⟨⟨h.framed.stream, h.framed.before⟩, h.along.records, h.along.depth, h.along.limit, hs.symm⟩, h.ahead⟩

-- A state outside of functions, where the names that may stand for types are known.
structure State.AtTop (s : State) (isRecord : String → Bool) : Prop where
  fits       : s.Fits ⟨isRecord, false⟩
  resultType : s.resultType = none

theorem State.AtTop.passes (h : s.AtTop isRecord) (hst : s.Passes ts t) : t.AtTop isRecord :=
  ⟨h.fits.passes hst, hst.along.resultType.trans h.resultType⟩

theorem State.AtTop.inFunction (h : s.AtTop isRecord) (type : TypeSpec) :
    (s.inFunction type).Fits ⟨isRecord, type.isVoid⟩ :=
  ⟨h.fits.isRecord, rfl⟩

theorem signature_reads {g : Signature} (h : signature.Yields s g t) (hs : s.Framed) :
    ∃ ts, s.Passes ts t ∧ SignatureForm ts g ∧ t.peek.kind ≠ .symbol .openBracket := by
  simp only [signature, yields_bind, yields_expect, yields_pure, and_assoc, exists_and_left, exists_eq_left] at h
  obtain ⟨hword, hname, hopen, as, u, has, hclose, harrow, type, v, htype, rfl, rfl⟩ := h
  have hhead := (Passes.next hs (by simp [hword])).snoc (by simp [hname]) |>.snoc (by simp [hopen])
  obtain ⟨ts, hts, hformals⟩ := formals_reads has hhead.framed
  have hu := (hhead.append hts).snoc (by simp [hclose]) |>.snoc (by simp [harrow])
  obtain ⟨us, hus, hresult, hbracket⟩ := typeSpec_reads htype hu.framed
  exact ⟨_, by simpa using hu.append hus, .mk hword hname hopen hformals hclose harrow hresult, hbracket⟩

theorem functionDecl_reads {stmt : Stmt} (h : functionDecl.Yields s stmt t) (hs : s.Framed) (htop : s.AtTop isRecord)
    (hleaves : s.Leaves n) : ∃ ts, s.Passes ts t ∧ TopForm isRecord n ts t.peek stmt := by
  simp only [functionDecl_eq, signedFunction, yields_bind, yields_expect, yields_withResultType, yields_pure, and_assoc,
    exists_and_left, exists_eq_left] at h
  obtain ⟨g, u, hsignature, b, _, ⟨v, hbody, rfl⟩, hend, rfl, rfl⟩ := h
  obtain ⟨ts, hts, hform, hbracket⟩ := signature_reads hsignature hs
  have hutop := htop.passes hts
  have hinside : (u.inFunction g.result).Framed := ⟨hts.framed.stream, hts.framed.before⟩
  obtain ⟨us, hus, hlisting, hposition, -⟩ :=
    findsBodies_body _ hbody hinside (hutop.inFunction g.result) (hts.leaves hleaves)
  have hend : v.peek.kind = .keyword .endWord := hend
  have hform : TopForm isRecord n _ v.outside.next.peek _ :=
    hform.function (hus.headD hinside ▸ hbracket) hlisting hend
  rw [hposition]
  refine ⟨_, ?_, hform⟩
  simpa using (hts.append <| hus.outside hutop.resultType).snoc (by simp [hend])

theorem unendedMember_reads {a : TypedName} (h : unendedMember.Yields s a t) (hs : s.Framed) :
    ∃ ts, s.Passes ts t ∧ MemberForm ts t.peek a := by
  simp only [unendedMember, yields_bind, yields_expect, yields_pure, and_assoc, exists_and_left, exists_eq_left] at h
  obtain ⟨hname, hcolon, type, u, htype, rfl, rfl⟩ := h
  have hpeek : s.peek.kind ≠ .eof := by simp [hname]
  have hhead := (Passes.next hs hpeek).snoc (by simp [hcolon])
  obtain ⟨ts, hts, hform, hbracket⟩ := typeSpec_reads htype hhead.framed
  exact ⟨_, hhead.append hts, .mk hname hcolon hform hbracket⟩

theorem memberRound_again {as as' : List TypedName} :
    (memberRound as).Yields s (.again as') t ↔
      s.peek.kind ≠ .keyword .endWord ∧ ∃ a, (ended unendedMember).Yields s a t ∧ as' = a :: as := by
  simp only [memberRound, yields_bind, yields_peekKind, and_assoc, exists_and_left, exists_eq_left, ← member_eq]
  by_cases hend : s.peek.kind = .keyword .endWord <;> simp [hend]

theorem memberRound_gathers {as as' : List TypedName} (h : (memberRound as).Yields s (.again as') t) :
    ∃ a, as' = a :: as ∧ (ended unendedMember).Yields s a t := by
  obtain ⟨-, a, ha, rfl⟩ := memberRound_again.mp h
  exact ⟨a, rfl, ha⟩

theorem memberRound_done {as as' : List TypedName} :
    (memberRound as).Yields s (.done as') t ↔ s.peek.kind = .keyword .endWord ∧ as' = as.reverse ∧ t = s := by
  simp only [memberRound, yields_bind, yields_peekKind, and_assoc, exists_and_left, exists_eq_left]
  by_cases hend : s.peek.kind = .keyword .endWord <;> simp [hend]

theorem recordDecl_eq :
    recordDecl = (do
      let start ← expect (.keyword .structWord)
      let name := (← expect .identifier).value
      let members ← repeatFrom memberRound []
      let _ ← expect (.keyword .endWord)
      return .record name members start.position) :=
  rfl

theorem recordDecl_reads {stmt : Stmt} (h : recordDecl.Yields s stmt t) (hs : s.Framed) :
    ∃ ts, s.Passes ts t ∧ TopForm isRecord n ts t.peek stmt := by
  simp only [recordDecl_eq, yields_bind, yields_expect, yields_pure, and_assoc, exists_and_left, exists_eq_left] at h
  obtain ⟨hword, hname, members, u, hloop, hend, rfl, rfl⟩ := h
  have hpeek : s.peek.kind ≠ .eof := by simp [hword]
  have hhead := (Passes.next hs hpeek).snoc (by simp [hname])
  obtain ⟨as, v, hcollects, hdone⟩ := hloop.collects closable_member memberRound_gathers
    (fun hsu h => unendedMember_reads h hsu.framed) hhead.framed
  obtain ⟨-, rfl, rfl⟩ := memberRound_done.mp hdone
  obtain ⟨ts, hts, hlisting⟩ := hcollects.listing
  have hform : TopForm isRecord n _ u.next.peek _ := .record hword hname hlisting hend
  refine ⟨_, ?_, hform⟩
  simpa using (hhead.append hts).snoc (by simp [hend])

theorem unendedTop_reads {stmt : Stmt} (h : unendedTop.Yields s stmt t) (hs : s.Framed) (htop : s.AtTop isRecord)
    (hleaves : s.Leaves n) : ∃ ts, s.Passes ts t ∧ TopForm isRecord n ts t.peek stmt := by
  simp only [unendedTop, yields_bind, yields_peekKind, and_assoc, exists_and_left, exists_eq_left] at h
  split at h
  case h_1 => exact functionDecl_reads h hs htop hleaves
  case h_2 => exact recordDecl_reads h hs
  case h_3 hname =>
    simp only [yields_bind, yields_consume, yields_peekKind, and_assoc, exists_and_left, exists_eq_left] at h
    have hpeek : s.peek.kind ≠ .eof := by simp [hname]
    have hpasses := Passes.next hs hpeek
    split at h
    case isFalse => simp at h
    case isTrue =>
      obtain ⟨ts, hts, hform⟩ :=
        declaration_reads h hname hpasses.framed (htop.fits.passes hpasses) (hpasses.leaves hleaves)
      exact ⟨_, .cons hs hpeek hts, .declaration hform⟩
  case h_4 => simp at h

theorem programRound_again {as as' : List Stmt} :
    (programRound as).Yields s (.again as') t ↔
      s.peek.kind ≠ .eof ∧ ∃ a, (ended unendedTop).Yields s a t ∧ as' = a :: as := by
  simp only [programRound, yields_bind, yields_peekKind, and_assoc, exists_and_left, exists_eq_left, ← topLevelStmt_eq]
  by_cases heof : s.peek.kind = .eof <;> simp [heof]

theorem programRound_gathers {as as' : List Stmt} (h : (programRound as).Yields s (.again as') t) :
    ∃ a, as' = a :: as ∧ (ended unendedTop).Yields s a t := by
  obtain ⟨-, a, ha, rfl⟩ := programRound_again.mp h
  exact ⟨a, rfl, ha⟩

theorem programRound_done {as : List Stmt} {p : Program} :
    (programRound as).Yields s (.done p) t ↔ s.peek.kind = .eof ∧ p = ⟨as.reverse⟩ ∧ t = s := by
  simp only [programRound, yields_bind, yields_peekKind, and_assoc, exists_and_left, exists_eq_left]
  by_cases heof : s.peek.kind = .eof <;> simp [heof]

theorem State.leaves_ofStream (stream : Stream) : (State.ofStream stream).Leaves maxNesting :=
  congrArg some (Nat.zero_add _).symm

theorem State.atTop_ofStream (stream : Stream) : (State.ofStream stream).AtTop (State.ofStream stream).isRecord :=
  ⟨⟨fun _ _ _ => rfl, rfl⟩, rfl⟩

theorem Stream.read_eq (stream : Stream) : stream.read.1 = (program.outcome (State.ofStream stream)).1 :=
  rfl

-- What is read as a program is a listing of statements, up to the end of the source.
theorem listing_of_read {stream : Stream} {p : Program} (hframed : stream.Framed)
    (hbefore : stream.current.kind ≠ .eof) (h : stream.read.1 = .ok p) :
    ∃ ts eof, stream.ahead = ts ++ [eof] ∧ eof.kind = .eof ∧
      Listing (TopForm (State.ofStream stream).isRecord maxNesting) ts eof p.body := by
  have hs : (State.ofStream stream).Framed := ⟨hframed, hbefore⟩
  obtain ⟨t, h⟩ : ∃ t, program.Yields (State.ofStream stream) p t := ⟨_, Prod.ext h rfl⟩
  obtain ⟨as, u, hcollects, hdone⟩ := h.collects closable_top programRound_gathers
    (fun hsu h => unendedTop_reads h hsu.framed ((State.atTop_ofStream stream).passes hsu)
      (hsu.leaves <| State.leaves_ofStream stream)) hs
  obtain ⟨heof, rfl, rfl⟩ := programRound_done.mp hdone
  obtain ⟨ts, hts, hlisting⟩ := hcollects.listing
  have hlast : t.next.ahead = [] := Classical.byContradiction fun hmore => hts.framed.peek_ne_eof hmore heof
  exact ⟨ts, t.peek, hlast ▸ hts.ahead_eq, heof, hlisting⟩

end Programs

end Grammar
end BasicFrontEnd
