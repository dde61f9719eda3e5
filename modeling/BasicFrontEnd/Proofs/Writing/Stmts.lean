import BasicFrontEnd.Proofs.Grammar.Forms
import BasicFrontEnd.Proofs.Writing.Exprs

/-!
Plain statements have the forms of the grammar: whatever tokens have the words of a plain statement write it, up to
places. It can be seen where each statement ends, as the word behind it neither goes on with an expression nor with a
type.
-/

namespace BasicFrontEnd

open Grammar

namespace Kind

-- Nothing that stands before a word of the kind goes on with it.
def beginsAnew : Kind → Bool
  | .identifier | .eof => true
  | .keyword k         => k ∉ [.andWord, .orWord]
  | _                  => false

-- What stands behind a phrase: a semicolon, or something else that begins.
def Ends (k : Kind) : Prop :=
  k = .symbol .semicolon ∨ k.beginsAnew = true

variable {k : Kind}

theorem ne_symbol_of_beginsAnew (h : k.beginsAnew = true) (s : Symbol) : k ≠ .symbol s := by
  rintro rfl
  contradiction

theorem Ends.ne_symbol (h : k.Ends) {s : Symbol} (hs : s ≠ .semicolon) : k ≠ .symbol s := by
  obtain rfl | h := h
  case inl => simpa using hs.symm
  case inr => exact ne_symbol_of_beginsAnew h s

theorem Ends.stops (h : k.Ends) : BindingLevel.disjunction.Stops k where
  suffix := by
    obtain rfl | h := h
    case inl => rfl
    case inr => cases k <;> first | rfl | contradiction
  operator o ho := by
    subst ho
    obtain h | h := h <;> cases o <;> simp_all [Operator.kind, beginsAnew]

end Kind

namespace Layout

-- Whatever stands before the layout has ended.
def BeginsAnew (x : Layout) : Prop :=
  ∃ w ∈ x.words.head?, w.kind.beginsAnew = true

variable {x y : Layout}

theorem BeginsAnew.append (h : x.BeginsAnew) (y : Layout) : (x ++ y).BeginsAnew := by
  obtain ⟨w, hw, hkind⟩ := h
  refine ⟨w, ?_, hkind⟩
  show w ∈ (x.words ++ y.words).head?
  simp [List.head?_append, Option.mem_def.mp hw]

theorem BeginsAnew.exists_head (h : x.BeginsAnew) (hts : x.Of n ts) :
    ∃ t us, ts = t :: us ∧ t.kind.beginsAnew = true := by
  obtain ⟨w, hw, hkind⟩ := h
  rw [← hts.1] at hw
  cases ts
  case nil => contradiction
  case cons t us => exact ⟨t, us, rfl, by simpa [Token.word, ← Option.some.inj hw] using hkind⟩

end Layout

namespace Grammar

-- Items in a row, each of which may have a semicolon behind it, are a listing.
theorem listing_of_join {Form : List Token → Token → α → Prop} {layout : α → Layout} {closed : α → Bool}
    {bare : α → α} {as : List α} (hbegins : ∀ a ∈ as, (layout a).BeginsAnew)
    (hform : ∀ a ∈ as, ∀ {ts next}, (layout a).Of n ts → next.kind.Ends →
      (closed a = true → next.kind = .symbol .semicolon) → ∃ b, Form ts next b ∧ bare b = bare a)
    (hclose : close.kind.beginsAnew = true)
    (h : (Layout.join (as.map fun a => (layout a).ended (closed a))).Of n ts) :
    (∃ bs, Listing Form ts close bs ∧ bs.map bare = as.map bare) ∧ (ts.headD close).kind.beginsAnew = true := by
  induction as generalizing ts
  case nil =>
    obtain rfl := Layout.of_empty.mp h
    exact ⟨⟨[], .nil, rfl⟩, hclose⟩
  case cons a as ih =>
    rw [List.forall_mem_cons] at hbegins hform
    obtain ⟨us, vs, rfl, ha, hrest⟩ := Layout.of_append.mp h
    obtain ⟨⟨bs, hlisting, hbs⟩, hhead⟩ := ih hbegins.2 hform.2 hrest
    change ((layout a).ended (closed a)).Of n us at ha
    unfold Layout.ended at ha
    split at ha
    case isTrue hclosed =>
      simp only [Layout.symbol, Layout.of_append, Layout.of_word] at ha
      obtain ⟨ws, _, rfl, hws, semicolon, rfl, hsemicolon, _⟩ := ha
      obtain ⟨b, hb, hbare⟩ := hform.1 hws (.inl hsemicolon) fun _ => hsemicolon
      refine ⟨⟨b :: bs, ?_, by simp [hbs, hbare]⟩, ?_⟩
      · simpa using Listing.closed hb hsemicolon hlisting
      · obtain ⟨t, ws, rfl, ht⟩ := hbegins.1.exists_head hws
        exact ht
    case isFalse hclosed =>
      obtain ⟨b, hb, hbare⟩ := hform.1 ha (.inr hhead) fun h => absurd h hclosed
      refine ⟨⟨b :: bs, .plain hb (Kind.ne_symbol_of_beginsAnew hhead _) hlisting, by simp [hbs, hbare]⟩, ?_⟩
      obtain ⟨t, us, rfl, ht⟩ := hbegins.1.exists_head ha
      exact ht

theorem brackets_of_join {k : Nat}
    (h : (Layout.join (.replicate k (.symbol .openBracket ++ .symbol .closeBracket))).Of n ts) : Brackets ts k := by
  induction k generalizing ts
  case zero =>
    obtain rfl := Layout.of_empty.mp h
    exact .none
  case succ ih =>
    obtain ⟨_, vs, rfl, hpair, hrest⟩ := Layout.of_append.mp h
    simp only [Layout.symbol, Layout.of_append, Layout.of_word] at hpair
    obtain ⟨_, _, rfl, ⟨opening, rfl, hopen, _⟩, closing, rfl, hclose, _⟩ := hpair
    exact .more hopen hclose (ih hrest)

end Grammar

theorem TypeSpec.Plain.form {type : TypeSpec} (h : type.Plain) (hts : type.layout.Of n ts) :
    ∃ t us, ts = t :: us ∧ TypeForm (t :: us) type ∧
      (t.kind.isTypeKeyword = true ∨ t.kind = .identifier ∧ type.recordName = some t.value) := by
  cases h
  case base b k hb =>
    simp only [List.mem_cons, List.not_mem_nil, or_false] at hb
    obtain ⟨_, us, rfl, hword, hdims⟩ := Layout.of_append.mp hts
    obtain rfl | rfl | rfl | rfl | rfl := hb
    all_goals
      obtain ⟨t, rfl, hkind, _⟩ := Layout.of_word.mp hword
      have hkeyword : t.kind.isTypeKeyword = true := by rw [hkind]; rfl
      have := TypeForm.base hkeyword (brackets_of_join hdims)
      rw [hkind] at this
      exact ⟨t, us, rfl, this, .inl hkeyword⟩
  case record =>
    obtain ⟨_, us, rfl, hword, hdims⟩ := Layout.of_append.mp hts
    obtain ⟨t, rfl, hkind, rfl⟩ := Layout.of_word.mp hword
    exact ⟨t, us, rfl, .record hkind (brackets_of_join hdims), .inr ⟨hkind, rfl⟩⟩

namespace Stmt

open Layout

variable {records : List String} {isVoid : Bool} {g : Setting} {s : Stmt} {style : Style}

theorem PlainDeclaration.beginsAnew (h : s.PlainDeclaration records) : (s.layout style).BeginsAnew := by
  cases h
  all_goals
    rw [layout]
    exact ⟨_, rfl, rfl⟩

theorem PlainDeclaration.form (h : s.PlainDeclaration records) (hrecords : ∀ r ∈ records, g.isRecord r = true)
    (hts : (s.layout style).Of n ts) (hnext : next.kind.Ends)
    (hclosed : s.isClosed style = true → next.kind = .symbol .semicolon) :
    ∃ s', DeclarationForm g n ts next s' ∧ s'.bare = s.bare := by
  cases h
  case label =>
    simp only [layout, Layout.name, Layout.symbol, of_append, of_word] at hts
    obtain ⟨_, _, rfl, ⟨name, rfl, hname, rfl⟩, colon, rfl, hcolon, _⟩ := hts
    refine ⟨_, .label hname hcolon ?_, by simp only [bare]⟩
    rw [Setting.beginsType, hclosed rfl]
    rfl
  case declare initial type p _ htype hknown hinitial =>
    simp only [layout, Layout.name, Layout.symbol, append_assoc, of_append, of_word] at hts
    obtain ⟨_, _, rfl, ⟨name, rfl, hname, rfl⟩, _, _, rfl, ⟨colon, rfl, hcolon, _⟩, vs, us, rfl, hvs, hus⟩ := hts
    obtain ⟨t, vs, rfl, hform, hword⟩ := htype.form hvs
    have hbegins : g.beginsType t = true := by
      obtain hkeyword | ⟨hkind, hrecord⟩ := hword
      case inl => simp [Setting.beginsType, hkeyword]
      case inr => simp [Setting.beginsType, hkind, hrecords _ (hknown _ hrecord)]
    cases initial
    case none =>
      obtain rfl := of_empty.mp hus
      have hopen : next.kind ≠ .symbol .openBracket := hnext.ne_symbol (by decide)
      have hassign : next.kind ≠ .symbol .assign := hnext.ne_symbol (by decide)
      exact ⟨_, by simpa using .declare hname hcolon hform hbegins hopen hassign, by simp only [bare]⟩
    case some e =>
      simp only [Option.map_some, Option.getD_some, of_append, of_word] at hus
      obtain ⟨_, us, rfl, ⟨assign, rfl, hassign, _⟩, hus⟩ := hus
      have he := (hinitial e rfl).derives_whole hus
      exact ⟨_, .initialized hname hcolon hform hbegins hassign he hnext.stops, by simp only [bare]⟩

theorem beginsAnew_of_isCall {e : Expr} (h : e.isCall = true) : (e.layout style).BeginsAnew := by
  cases e
  case call =>
    rw [Expr.layout]
    exact ⟨_, rfl, rfl⟩
  all_goals contradiction

theorem beginsAnew_of_isPlainTarget {e : Expr} (h : e.isPlainTarget = true) : (e.layout style).BeginsAnew := by
  cases e
  case identifier | member =>
    rw [Expr.layout]
    exact ⟨_, rfl, rfl⟩
  case index base indices =>
    rw [Expr.layout]
    refine BeginsAnew.append ?_ _
    cases base
    case identifier | member | call =>
      rw [Expr.layout]
      exact ⟨_, rfl, rfl⟩
    all_goals contradiction
  all_goals contradiction

theorem Plain.beginsAnew (h : s.Plain records isVoid) : (s.layout style).BeginsAnew := by
  cases h
  case declaration h => exact h.beginsAnew
  case call hcall =>
    rw [layout]
    exact beginsAnew_of_isCall hcall
  case assign htarget _ =>
    rw [layout, Expr.layout]
    exact (beginsAnew_of_isPlainTarget htarget).append _ |>.append _
  all_goals
    rw [layout]
    exact ⟨_, rfl, rfl⟩

-- The statement is written by whatever has its words, up to places.
def Written (g : Setting) (style : Style) (s : Stmt) : Prop :=
  ∀ {n ts next}, (s.layout style).Of n ts → next.kind.Ends →
    (s.isClosed style = true → next.kind = .symbol .semicolon) →
    ∃ s', StmtForm g n (BodyForm g n) ts next s' ∧ s'.bare = s.bare

theorem exists_listing {ss : List Stmt} (hbegins : ∀ s ∈ ss, (s.layout style).BeginsAnew)
    (hwritten : ∀ s ∈ ss, s.Written g style) (hclose : close.kind.beginsAnew = true)
    (h : (bodyLayout style ss).Of n ts) :
    (∃ ss', Listing (StmtForm g n (BodyForm g n)) ts close ss' ∧ ss'.map bare = ss.map bare) ∧
      (ts.headD close).kind.beginsAnew = true := by
  rw [bodyLayout_eq] at h
  exact listing_of_join hbegins (fun s hs => hwritten s hs) hclose h

theorem exists_bodyForm {ss : List Stmt} (hbegins : ∀ s ∈ ss, (s.layout style).BeginsAnew)
    (hwritten : ∀ s ∈ ss, s.Written g style) (hclose : close.kind.beginsAnew = true)
    (h : (bodyLayout style ss).nested.Of n ts) :
    (∃ ss', BodyForm g n ts close ss' ∧ ss'.map bare = ss.map bare) ∧ (ts.headD close).kind.beginsAnew = true := by
  obtain ⟨m, rfl, hts⟩ := of_nested.mp h
  exact exists_listing hbegins hwritten hclose hts

theorem Plain.written (h : s.Plain records isVoid) (hrecords : ∀ r ∈ records, g.isRecord r = true)
    (hvoid : g.isVoid = isVoid) : s.Written g style := by
  induction h
  case declaration h =>
    intro n ts next hts hnext hclosed
    obtain ⟨s', hform, hbare⟩ := h.form hrecords hts hnext hclosed
    exact ⟨s', .declaration hform, hbare⟩
  all_goals
    intro n ts next hts hnext hclosed
    simp only [layout, Expr.layout, Layout.name, Layout.keyword, Layout.symbol, append_assoc, of_append,
      of_word] at hts
  case goto =>
    obtain ⟨_, _, rfl, ⟨word, rfl, hword, _⟩, target, rfl, htarget, rfl⟩ := hts
    exact ⟨_, .goto hword htarget, by simp only [bare]⟩
  case returning hresult he =>
    obtain ⟨_, us, rfl, ⟨word, rfl, hword, _⟩, hus⟩ := hts
    rw [he.returnedLayout_eq] at hus
    exact ⟨_, .returning hword (hvoid.trans hresult) (he.derives_whole hus) hnext.stops, by simp only [bare]⟩
  case returningNone hresult =>
    obtain ⟨_, us, rfl, ⟨word, rfl, hword, _⟩, hus⟩ := hts
    obtain rfl := of_empty.mp hus
    exact ⟨_, .returningNone hword (hvoid.trans hresult), by simp only [bare]⟩
  case branch htest hyes ih =>
    obtain ⟨_, _, rfl, ⟨word, rfl, hword, _⟩, ts, _, rfl, hts, _, _, rfl, ⟨thenWord, rfl, hthen, _⟩,
      us, _, rfl, hus, _, _, rfl, hnone, endWord, rfl, hend, _⟩ := hts
    obtain rfl := of_empty.mp hnone
    have hclose : endWord.kind.beginsAnew = true := by rw [hend]; rfl
    obtain ⟨⟨ss, hbody, hbare⟩, _⟩ := exists_bodyForm (fun s hs => (hyes s hs).beginsAnew) ih hclose hus
    have hform : StmtForm g n (BodyForm g n) _ next _ :=
      .branch hword (htest.derives_whole hts) hthen hbody hend
    exact ⟨_, hform, by simp [bare, hbare]⟩
  case branchElse htest hyes hno ihyes ihno =>
    obtain ⟨_, _, rfl, ⟨word, rfl, hword, _⟩, ts, _, rfl, hts, _, _, rfl, ⟨thenWord, rfl, hthen, _⟩,
      us, _, rfl, hus, _, _, rfl, ⟨elseWord, rfl, helse, _⟩, vs, _, rfl, hvs, endWord, rfl, hend, _⟩ := hts
    have hcloseYes : elseWord.kind.beginsAnew = true := by rw [helse]; rfl
    have hcloseNo : endWord.kind.beginsAnew = true := by rw [hend]; rfl
    obtain ⟨⟨ss, hbodyYes, hbareYes⟩, _⟩ := exists_bodyForm (fun s hs => (hyes s hs).beginsAnew) ihyes hcloseYes hus
    obtain ⟨⟨ss', hbodyNo, hbareNo⟩, _⟩ := exists_bodyForm (fun s hs => (hno s hs).beginsAnew) ihno hcloseNo hvs
    have hform : StmtForm g n (BodyForm g n) _ next _ :=
      .branchElse hword (htest.derives_whole hts) hthen hbodyYes helse hbodyNo hend
    exact ⟨_, hform, by simp [bare, hbareYes, hbareNo]⟩
  case loop htest hbody ih =>
    obtain ⟨_, _, rfl, ⟨word, rfl, hword, _⟩, ts, _, rfl, hts, us, _, rfl, hus, endWord, rfl, hend, _⟩ := hts
    have hclose : endWord.kind.beginsAnew = true := by rw [hend]; rfl
    obtain ⟨⟨ss, hstmts, hbare⟩, hhead⟩ := exists_bodyForm (fun s hs => (hbody s hs).beginsAnew) ih hclose hus
    have hends : (us.headD endWord).kind.Ends := .inr hhead
    have hform : StmtForm g n (BodyForm g n) _ next _ :=
      .loop hword (htest.derives_whole hts) hends.stops hstmts hend
    exact ⟨_, hform, by simp [bare, hbare]⟩
  case call he hcall =>
    obtain ⟨t, ts, rfl, _⟩ := (beginsAnew_of_isCall hcall).exists_head hts
    exact ⟨_, .call (he.derives hts).loosest hcall hnext.stops (hnext.ne_symbol (by decide)), by simp only [bare]⟩
  case assign htarget hplain he =>
    obtain ⟨ts, _, rfl, hts, _, us, rfl, ⟨assign, rfl, hassign, _⟩, hus⟩ := hts
    obtain ⟨t, ts, rfl, _⟩ := (beginsAnew_of_isPlainTarget hplain).exists_head hts
    have hform : StmtForm g n (BodyForm g n) _ next _ :=
      .assign (htarget.derives hts).loosest hassign (he.derives_whole hus) hnext.stops
    exact ⟨_, hform, by simp only [bare]⟩

end Stmt

end BasicFrontEnd
