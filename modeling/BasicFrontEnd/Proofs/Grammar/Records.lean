import BasicFrontEnd.Proofs.Grammar.Regular
import BasicFrontEnd.Proofs.Relabel.Programs

/-!
The names that are collected from the tokens before anything is read are those of the records that the program
declares. Main statement: `records_read`.
-/

namespace BasicFrontEnd

section Occurrence

-- The statement `s` is the other, or stands in a body of it at any depth.
inductive Stmt.Within (s : Stmt) : Stmt → Prop
  | self      : Within s s
  | function  : t ∈ body → Within s t → Within s (.function name result formals body q p)
  | branch    : Within s body → Within s (.branch test body otherwise p)
  | otherwise : Within s no → Within s (.branch test body (some no) p)
  | loop      : Within s body → Within s (.loop test body p)
  | block     : t ∈ body → Within s t → Within s (.block body p)

namespace Program

def Contains (p : Program) (s : Stmt) : Prop :=
  ∃ t ∈ p.body, s.Within t

def DeclaresRecord (p : Program) (name : String) : Prop :=
  ∃ members position, p.Contains (.record name members position)

end Program

namespace Stmt

-- Each statement in one satisfies `P`, that one included.
def Throughout (P : Stmt → Prop) (t : Stmt) : Prop :=
  ∀ s : Stmt, s.Within t → P s

variable {s t : Stmt} {P Q : Stmt → Prop}

theorem Throughout.imp (h : s.Throughout P) (himp : ∀ {t}, P t → Q t) : s.Throughout Q :=
  fun t ht => himp (h t ht)

theorem throughout_function (hself : P (.function name result formals body q p)) (hbody : ∀ s ∈ body, s.Throughout P) :
    (Stmt.function name result formals body q p).Throughout P := by
  intro s hs
  cases hs
  case self => exact hself
  case function hs ht => exact hbody _ ht s hs

theorem throughout_branch (hself : P (.branch test body otherwise p)) (hbody : body.Throughout P)
    (hotherwise : ∀ no ∈ otherwise, no.Throughout P) : (Stmt.branch test body otherwise p).Throughout P := by
  intro s hs
  cases hs
  case self => exact hself
  case branch hs => exact hbody s hs
  case otherwise hs => exact hotherwise _ rfl s hs

theorem throughout_loop (hself : P (.loop test body p)) (hbody : body.Throughout P) :
    (Stmt.loop test body p).Throughout P := by
  intro s hs
  cases hs
  case self => exact hself
  case loop hs => exact hbody s hs

theorem throughout_block (hself : P (.block body p)) (hbody : ∀ s ∈ body, s.Throughout P) :
    (Stmt.block body p).Throughout P := by
  intro s hs
  cases hs
  case self => exact hself
  case block hs ht => exact hbody _ ht s hs

-- The name that a record is declared with.
def recordName? : Stmt → Option String
  | record name _ _ => some name
  | _               => none

theorem RegularDeclaration.recordName?_eq (h : RegularDeclaration s) : s.recordName? = none := by
  cases h <;> rfl

theorem RegularDeclaration.eq_of_within (h : RegularDeclaration s) (ht : t.Within s) : t = s := by
  cases h <;> cases ht <;> rfl

theorem RegularDeclaration.throughout (h : RegularDeclaration s) (hs : P s) : s.Throughout P :=
  fun _ ht => h.eq_of_within ht ▸ hs

-- No record is declared in the body of a function.
theorem Regular.throughout_recordName? {isVoid : Bool} (h : s.Regular isVoid) :
    s.Throughout (·.recordName? = none) := by
  induction h
  case declaration h => exact h.throughout h.recordName?_eq
  case branch ih => exact throughout_branch rfl (throughout_block rfl ih) (by simp)
  case branchElse ih ih' =>
    refine throughout_branch rfl (throughout_block rfl ih) ?_
    rintro _ ⟨⟩
    exact throughout_block rfl ih'
  case loop ih => exact throughout_loop rfl (throughout_block rfl ih)
  all_goals
    rintro t ⟨⟩
    rfl

theorem RegularTop.recordName?_of_within (h : s.RegularTop) (ht : t.Within s) (hname : t.recordName? = some name) :
    s.recordName? = some name := by
  cases h
  case declaration h => exact h.eq_of_within ht ▸ hname
  case function h =>
    cases ht
    case self => exact hname
    case function ht hs => simp [(h _ hs).throughout_recordName? t ht] at hname
  case record =>
    cases ht
    exact hname

end Stmt

namespace Program

theorem records_eq (p : Program) : p.records = p.body.filterMap Stmt.recordName? := by
  rfl

theorem declaresRecord_iff {p : Program} :
    p.DeclaresRecord name ↔ ∃ s, p.Contains s ∧ s.recordName? = some name := by
  constructor
  case mp =>
    rintro ⟨members, position, h⟩
    exact ⟨_, h, rfl⟩
  case mpr =>
    rintro ⟨s, h, hname⟩
    cases s <;> cases hname
    exact ⟨_, _, h⟩

-- Records are declared outside of functions only.
theorem Regular.mem_records_iff {p : Program} (h : p.Regular) : name ∈ p.records ↔ p.DeclaresRecord name := by
  rw [records_eq, List.mem_filterMap, declaresRecord_iff]
  constructor
  case mp =>
    rintro ⟨s, hs, hname⟩
    exact ⟨s, ⟨s, hs, .self⟩, hname⟩
  case mpr =>
    rintro ⟨s, ⟨t, ht, hs⟩, hname⟩
    exact ⟨t, ht, (h t ht).recordName?_of_within hs hname⟩

end Program

end Occurrence

namespace Grammar

section Declared

-- No record is declared in the tokens.
def Recordless (ts : List Token) : Prop :=
  ∀ t ∈ ts, t.kind ≠ .keyword .structWord

@[simp]
theorem recordless_nil : Recordless [] := by
  simp [Recordless]

@[simp]
theorem recordless_cons : Recordless (t :: ts) ↔ t.kind ≠ .keyword .structWord ∧ Recordless ts :=
  List.forall_mem_cons

@[simp]
theorem recordless_append : Recordless (ts ++ us) ↔ Recordless ts ∧ Recordless us :=
  List.forall_mem_append

theorem Recordless.declaredRecords_append (h : Recordless ts) (us : List Token) :
    declaredRecords (ts ++ us) = declaredRecords us := by
  induction ts
  case nil => rfl
  case cons t ts ih =>
    obtain ⟨ht, hts⟩ := recordless_cons.mp h
    rw [← ih hts, List.cons_append]
    cases ts ++ us
    case nil => rfl
    case cons => rw [declaredRecords, if_neg fun h => ht h.1]

theorem Brackets.recordless (h : Brackets ts n) : Recordless ts := by
  induction h
  case none => simp
  case more hopen hclose _ ih => simp [hopen, hclose, ih]

theorem TypeForm.recordless (h : TypeForm ts type) : Recordless ts := by
  cases h
  case base hword hdims =>
    refine recordless_cons.mpr ⟨fun hkind => ?_, hdims.recordless⟩
    rw [hkind] at hword
    contradiction
  case record hname hdims => simp [hname, hdims.recordless]

theorem Derives.recordless (h : Derives level n ts e) : Recordless ts := by
  intro t ht hkind
  have := h.inExpr t ht
  rw [hkind] at this
  contradiction

theorem Separated.recordless (h : Separated parts ts) (hparts : ∀ part ∈ parts, Recordless part) : Recordless ts :=
  h.forall_mem hparts fun t hcomma => by simp [hcomma]

theorem Listing.recordless (h : Listing Form ts close as) (hform : ∀ {ts next a}, Form ts next a → Recordless ts) :
    Recordless ts := by
  induction h
  case nil => simp
  case closed ha hsemicolon _ ih => simp [hform ha, hsemicolon, ih]
  case plain ha _ _ ih => simp [hform ha, ih]

theorem DeclarationForm.recordless (h : DeclarationForm g n ts next s) : Recordless ts := by
  cases h
  case declare hname hcolon htype _ _ _ => simp [hname, hcolon, recordless_cons.mp htype.recordless]
  case initialized hname hcolon htype _ hassign he _ =>
    simp [hname, hcolon, recordless_cons.mp htype.recordless, hassign, he.recordless]
  case label hname hcolon _ => simp [hname, hcolon]

theorem StmtForm.recordless (h : StmtForm g n Bodies ts next s)
    (hbodies : ∀ {ts close stmts}, Bodies ts close stmts → Recordless ts) : Recordless ts := by
  cases h
  case declaration h => exact h.recordless
  case goto hword htarget => simp [hword, htarget]
  case returning hword _ he _ => simp [hword, he.recordless]
  case returningNone hword _ => simp [hword]
  case branch hword htest hthen hyes hend => simp [hword, htest.recordless, hthen, hbodies hyes, hend]
  case branchElse hword htest hthen hyes helse hno hend =>
    simp [hword, htest.recordless, hthen, hbodies hyes, helse, hbodies hno, hend]
  case loop hword htest _ hbody hend => simp [hword, htest.recordless, hbodies hbody, hend]
  case call he _ _ _ => exact he.recordless
  case assign htarget hassign he _ => simp [recordless_cons.mp htarget.recordless, hassign, he.recordless]

theorem BodyForm.recordless (h : BodyForm g n ts close stmts) : Recordless ts := by
  induction n generalizing ts close stmts
  case zero => contradiction
  case succ ih => exact Listing.recordless h fun hs => hs.recordless ih

theorem FormalForm.recordless (h : FormalForm ts a) : Recordless ts := by
  cases h
  case mk htype hname hdims => simp [recordless_cons.mp htype.recordless, hname, hdims.recordless]

theorem MemberForm.recordless (h : MemberForm ts next a) : Recordless ts := by
  cases h
  case mk hname hcolon htype _ => simp [hname, hcolon, htype.recordless]

variable {isRecord : String → Bool}

-- The word that begins a record stands nowhere else, so a statement adds the name of its record and no other.
theorem TopForm.declaredRecords_append (h : TopForm isRecord n ts next s) (us : List Token) :
    declaredRecords (ts ++ us) = s.recordName?.toList ++ declaredRecords us := by
  cases h
  case declaration h => rw [h.recordless.declaredRecords_append, h.regular.recordName?_eq]; rfl
  case function hword hname hopen hparts hsep hclose harrow hresult _ hbody hend =>
    have hformals := hsep.recordless <| List.forall_mem_map.mpr fun part hpart => (hparts part hpart).recordless
    have hstmts := hbody.recordless fun hs => hs.recordless BodyForm.recordless
    refine Recordless.declaredRecords_append ?_ us
    simp [hword, hname, hopen, hformals, hclose, harrow, hresult.recordless, hstmts, hend]
  case record vs endWord members word name hword hname hmembers hend =>
    have hrest : Recordless (name :: (vs ++ [endWord])) := by
      simp [hname, hmembers.recordless MemberForm.recordless, hend]
    show declaredRecords (word :: name :: ((vs ++ [endWord]) ++ us)) = _
    rw [declaredRecords, if_pos ⟨hword, hname⟩]
    exact congrArg (name.value :: ·) (hrest.declaredRecords_append us)

theorem Listing.declaredRecords_append (h : Listing (TopForm isRecord n) ts close stmts) (us : List Token) :
    declaredRecords (ts ++ us) = stmts.filterMap Stmt.recordName? ++ declaredRecords us := by
  have hcons (s : Stmt) (ss : List Stmt) :
      (s :: ss).filterMap Stmt.recordName? = s.recordName?.toList ++ ss.filterMap Stmt.recordName? := by
    cases h : s.recordName? <;> simp [h]
  induction h
  case nil => rfl
  case closed semicolon _ us' _ _ ha hsemicolon _ ih =>
    have hsemicolon : Recordless [semicolon] := by simp [hsemicolon]
    have hrest : declaredRecords (semicolon :: (us' ++ us)) = declaredRecords (us' ++ us) :=
      hsemicolon.declaredRecords_append _
    rw [List.append_assoc, List.cons_append, ha.declaredRecords_append, hrest, ih, hcons, List.append_assoc]
  case plain ha _ _ ih => rw [List.append_assoc, ha.declaredRecords_append, ih, hcons, List.append_assoc]

theorem Listing.declaredRecords_eq {head eof : Token} (h : Listing (TopForm isRecord n) ts eof stmts)
    (hhead : head.kind = .head) :
    declaredRecords (head :: (ts ++ [eof])) = stmts.filterMap Stmt.recordName? := by
  have hfirst : Recordless [head] := by simp [hhead]
  rw [← List.singleton_append, hfirst.declaredRecords_append, h.declaredRecords_append]
  exact List.append_nil _

-- The names that are collected from the tokens of a program are those of its records.
theorem isRecord_iff_of_read {head : Token} {rest : List Token} {p : Program} (hhead : head.kind = .head)
    (hframed : (Stream.ofTokens head rest).Framed) (h : (Stream.ofTokens head rest).read.1 = .ok p) (name : String) :
    (State.ofStream (.ofTokens head rest)).isRecord name = true ↔ p.DeclaresRecord name := by
  obtain ⟨ts, eof, hahead, heof, hlisting⟩ := listing_of_read hframed (by simp [Stream.ofTokens, hhead]) h
  obtain rfl : rest = ts ++ [eof] := hahead
  have hregular : p.Regular := hlisting.forall_mem TopForm.regular
  rw [isRecord_ofStream, ← hregular.mem_records_iff, p.records_eq, ← hlisting.declaredRecords_eq hhead]
  rfl

end Declared

section Sites

-- Where a variable has the type of a record, its name is one. A label stands somewhere in the tokens, in front of no
-- token that begins a type.
def Sited (isRecord : String → Bool) (ts : List Token) : Stmt → Prop
  | .declare _ type _ _  => type.base = .record → ∃ record, type.recordName = some record ∧ isRecord record = true
  | .label name position => ∃ t colon next, [t, colon, next] <:+: ts ∧ t.kind = .identifier ∧ t.value = name ∧
      t.position = position ∧ colon.kind = .symbol .colon ∧ Setting.beginsType ⟨isRecord, false⟩ next = false
  | _                    => True

variable {isRecord : String → Bool}

theorem Sited.mono (h : Sited isRecord ts s) (hpart : ts <:+: us) : Sited isRecord us s := by
  cases s
  case declare => exact h
  case label =>
    obtain ⟨t, colon, next, hts, hsite⟩ := h
    exact ⟨t, colon, next, hts.trans hpart, hsite⟩
  all_goals trivial

-- All statements in one stand in the tokens like this.
def SitedThroughout (isRecord : String → Bool) (ts : List Token) (s : Stmt) : Prop :=
  s.Throughout (Sited isRecord ts)

theorem SitedThroughout.mono (h : SitedThroughout isRecord ts s) (hpart : ts <:+: us) :
    SitedThroughout isRecord us s :=
  Stmt.Throughout.imp h fun hs => hs.mono hpart

theorem TypeForm.isRecord_of_record {g : Setting} (h : TypeForm (t :: ts) type) (hbegins : g.beginsType t = true)
    (hrecord : type.base = .record) : ∃ record, type.recordName = some record ∧ g.isRecord record = true := by
  have hsome := h.regular.recordName.mpr hrecord
  cases h
  case base => contradiction
  case record hname _ =>
    rw [Setting.beginsType, hname] at hbegins
    exact ⟨t.value, rfl, hbegins⟩

theorem DeclarationForm.sited {g : Setting} (h : DeclarationForm g n ts next s) :
    SitedThroughout g.isRecord (ts ++ [next]) s := by
  refine h.regular.throughout ?_
  cases h
  case declare htype hbegins _ _ => exact htype.isRecord_of_record hbegins
  case initialized htype hbegins _ _ _ => exact htype.isRecord_of_record hbegins
  case label hname hcolon hbegins => exact ⟨_, _, _, List.infix_rfl, hname, rfl, rfl, hcolon, hbegins⟩

theorem Listing.sited {Form : List Token → Token → Stmt → Prop} (h : Listing Form ts close stmts)
    (hform : ∀ {ts next s}, Form ts next s → SitedThroughout isRecord (ts ++ [next]) s) :
    ∀ s ∈ stmts, SitedThroughout isRecord (ts ++ [close]) s := by
  induction h
  case nil => simp
  case closed us semicolon _ vs close _ ha _ _ ih =>
    have hitem : us ++ [semicolon] <:+: us ++ semicolon :: vs ++ [close] := ⟨[], vs ++ [close], by simp⟩
    have hrest : vs ++ [close] <:+: us ++ semicolon :: vs ++ [close] := ⟨us ++ [semicolon], [], by simp⟩
    exact List.forall_mem_cons.mpr ⟨(hform ha).mono hitem, fun s hs => (ih s hs).mono hrest⟩
  case plain us _ vs close _ ha _ _ ih =>
    have hitem : us ++ [vs.headD close] <:+: us ++ vs ++ [close] := by
      obtain _ | ⟨v, vs⟩ := vs
      case nil => simp
      case cons => exact ⟨[], vs ++ [close], by simp⟩
    have hrest : vs ++ [close] <:+: us ++ vs ++ [close] := ⟨us, [], by simp⟩
    exact List.forall_mem_cons.mpr ⟨(hform ha).mono hitem, fun s hs => (ih s hs).mono hrest⟩

theorem StmtForm.sited {g : Setting} (h : StmtForm g n Bodies ts next s)
    (hbodies : ∀ {ts close stmts}, Bodies ts close stmts → ∀ s ∈ stmts, SitedThroughout g.isRecord (ts ++ [close]) s) :
    SitedThroughout g.isRecord (ts ++ [next]) s := by
  cases h
  case declaration h => exact h.sited
  case branch us _ vs endWord _ word thenWord _ _ _ hyes _ =>
    have hpart : vs ++ [endWord] <:+: word :: (us ++ thenWord :: (vs ++ [endWord])) ++ [next] :=
      ⟨word :: (us ++ [thenWord]), [next], by simp⟩
    refine Stmt.throughout_branch trivial (Stmt.throughout_block trivial fun s hs => ?_) (by simp)
    exact (hbodies hyes s hs).mono hpart
  case branchElse us _ vs elseWord _ ws endWord _ word thenWord _ _ _ hyes _ hno _ =>
    let ts := word :: (us ++ thenWord :: (vs ++ elseWord :: (ws ++ [endWord]))) ++ [next]
    have hpart : vs ++ [elseWord] <:+: ts := ⟨word :: (us ++ [thenWord]), ws ++ [endWord, next], by simp [ts]⟩
    have hpart' : ws ++ [endWord] <:+: ts := ⟨word :: (us ++ thenWord :: (vs ++ [elseWord])), [next], by simp [ts]⟩
    refine Stmt.throughout_branch trivial (Stmt.throughout_block trivial fun s hs => ?_) ?_
    case refine_1 => exact (hbodies hyes s hs).mono hpart
    case refine_2 =>
      rintro _ ⟨⟩
      exact Stmt.throughout_block trivial fun s hs => (hbodies hno s hs).mono hpart'
  case loop us _ vs endWord _ word _ _ _ hbody _ =>
    have hpart : vs ++ [endWord] <:+: word :: (us ++ (vs ++ [endWord])) ++ [next] := ⟨word :: us, [next], by simp⟩
    refine Stmt.throughout_loop trivial <| Stmt.throughout_block trivial fun s hs => ?_
    exact (hbodies hbody s hs).mono hpart
  all_goals
    rintro t ⟨⟩
    trivial

theorem BodyForm.sited {g : Setting} (h : BodyForm g n ts close stmts) :
    ∀ s ∈ stmts, SitedThroughout g.isRecord (ts ++ [close]) s := by
  induction n generalizing ts close stmts
  case zero => contradiction
  case succ ih => exact Listing.sited h fun hs => hs.sited ih

theorem TopForm.sited (h : TopForm isRecord n ts next s) : SitedThroughout isRecord (ts ++ [next]) s := by
  cases h
  case declaration h => exact h.sited
  case function us vs _ ws endWord _ word name opening closing arrow _ _ _ _ _ _ _ _ _ _ hbody _ =>
    have hstmts := hbody.sited fun hs => hs.sited BodyForm.sited
    refine Stmt.throughout_function trivial fun s hs => (hstmts s hs).mono ?_
    exact ⟨word :: name :: opening :: (us ++ closing :: arrow :: vs), [next], by simp⟩
  case record =>
    rintro t ⟨⟩
    trivial

theorem sited_of_read {stream : Stream} {p : Program} (hframed : stream.Framed) (hbefore : stream.current.kind ≠ .eof)
    (h : stream.read.1 = .ok p) (hs : p.Contains s) : Sited (State.ofStream stream).isRecord stream.ahead s := by
  obtain ⟨ts, eof, hahead, -, hlisting⟩ := listing_of_read hframed hbefore h
  obtain ⟨t, ht, hs⟩ := hs
  exact hahead ▸ hlisting.sited TopForm.sited t ht s hs

-- Token number `i`, counted from 0, stands as a label does in the program: behind it a colon, and then no token that
-- begins a type.
structure BeginsLabel (p : Program) (ts : List Token) (i : Nat) (t : Token) : Prop where
  here : ts[i]? = some t
  name : t.kind = .identifier
  next : ∃ colon next, ts[i + 1]? = some colon ∧ colon.kind = .symbol .colon ∧ ts[i + 2]? = some next ∧
    next.kind.isTypeKeyword = false ∧ ¬(next.kind = .identifier ∧ p.DeclaresRecord next.value)

theorem Sited.beginsLabel {p : Program} (h : Sited isRecord ts (.label name position)) (hpart : ts <:+: us)
    (hrecords : ∀ name, isRecord name = true ↔ p.DeclaresRecord name) :
    ∃ i t, BeginsLabel p us i t ∧ t.value = name ∧ t.position = position := by
  obtain ⟨t, colon, next, hts, hkind, hname, hposition, hcolon, hbegins⟩ := h
  obtain ⟨i, -, hget⟩ := List.infix_iff_getElem?.mp (hts.trans hpart)
  obtain ⟨hword, hrecord⟩ := Bool.or_eq_false_iff.mp hbegins
  refine ⟨i, t, ⟨by simpa using hget 0 (by simp), hkind, colon, next, ?_, hcolon, ?_, hword, ?_⟩, hname, hposition⟩
  case refine_1 => simpa [Nat.add_comm] using hget 1 (by simp)
  case refine_2 => simpa [Nat.add_comm] using hget 2 (by simp)
  case refine_3 => simpa [← hrecords] using hrecord

end Sites

end Grammar

section Numbers

open Grammar

-- The token with a number for its place.
def Token.numbered (t : Token) (i : Nat) : Token :=
  { t with position := ⟨i, 0⟩ }

def numbered (ts : List Token) : List Token :=
  ts.mapIdx fun i t => t.numbered i

-- The stream of the same tokens, each numbered.
def Stream.numbered (head : Token) (rest : List Token) : Stream :=
  .ofTokens (head.numbered 0) (rest.mapIdx fun i t => t.numbered (i + 1))

-- Takes the numbers of the tokens to their places.
def Relabelling.places (ts : List Token) : Relabelling where
  name      := id
  place p   := (ts[p.line]?.map (·.position)).getD p
  lineText  := id
  injective := Function.injective_id

theorem Token.relabel_numbered {t : Token} (h : ts[i]? = some t) : (t.numbered i).relabel (.places ts) = t := by
  rw [relabel, numbered, Relabelling.places]
  simp [h]

variable {head : Token} {rest : List Token}

theorem Stream.relabel_numbered :
    (Stream.numbered head rest).relabel (.places (head :: rest)) = .ofTokens head rest := by
  refine Stream.ext rfl (Token.relabel_numbered rfl) <| List.ext_getElem? fun i => ?_
  simp only [relabel, numbered, ofTokens, List.getElem?_map, List.getElem?_mapIdx]
  cases h : rest[i]?
  case none => rfl
  case some => exact congrArg some <| Token.relabel_numbered h

theorem Stream.Framed.of_relabel {r : Relabelling} {stream : Stream} (h : (stream.relabel r).Framed) :
    stream.Framed := by
  obtain ⟨ts, eof, hlist, heof, hother⟩ := h
  rw [toList_relabel] at hlist
  obtain ⟨us, last, hlist', rfl, hlast⟩ := List.map_eq_append_iff.mp hlist
  obtain ⟨t, rfl, rfl⟩ := List.map_eq_singleton_iff.mp hlast
  exact ⟨us, t, hlist', heof, fun u hu => hother (u.relabel r) (List.mem_map_of_mem hu)⟩

theorem Grammar.BeginsLabel.of_numbered {p : Program} {t : Token} (h : BeginsLabel p (numbered ts) i t) :
    ∃ u, BeginsLabel p ts i u ∧ t = u.numbered i := by
  have hget {k : Nat} {v : Token} (hv : (numbered ts)[k]? = some v) : ∃ u, ts[k]? = some u ∧ v = u.numbered k := by
    rw [numbered, List.getElem?_mapIdx] at hv
    obtain ⟨u, hu, rfl⟩ := Option.map_eq_some_iff.mp hv
    exact ⟨u, hu, rfl⟩
  obtain ⟨hhere, hname, colon, next, hcolon, hkind, hnext, htype⟩ := h
  obtain ⟨t, hhere', rfl⟩ := hget hhere
  obtain ⟨colon, hcolon', rfl⟩ := hget hcolon
  obtain ⟨next, hnext', rfl⟩ := hget hnext
  exact ⟨t, ⟨hhere', hname, colon, next, hcolon', hkind, hnext', htype⟩, rfl⟩

theorem Stream.isRecord_numbered (name : String) :
    (State.ofStream (.numbered head rest)).isRecord name = (State.ofStream (.ofTokens head rest)).isRecord name := by
  rw [← relabel_numbered, State.ofStream_relabel]
  exact (State.isRecord_relabel (r := .places (head :: rest)) _ name).symm

-- The names that are collected before anything is read are those of the records that the program declares. So each
-- variable whose type is a record has the type of a declared one, and behind the colon of a label no type begins. The
-- last part says which token a label is named by where several stand at one place: numbered tokens make the same
-- program, with the numbers of its tokens for their places.
theorem records_read {p : Program} (hhead : head.kind = .head) (hframed : (Stream.ofTokens head rest).Framed)
    (h : (Stream.ofTokens head rest).read.1 = .ok p) :
    (∀ name, name ∈ (State.ofStream (.ofTokens head rest)).records ↔ p.DeclaresRecord name) ∧
      (∀ name type initial position, p.Contains (.declare name type initial position) → type.base = .record →
        ∃ record, type.recordName = some record ∧ p.DeclaresRecord record) ∧
      (∀ name position, p.Contains (.label name position) →
        ∃ i t, BeginsLabel p (head :: rest) i t ∧ t.value = name ∧ t.position = position) ∧
      ∃ q, (Stream.numbered head rest).read.1 = .ok q ∧ p = q.relabel (.places (head :: rest)) ∧
        ∀ name place, q.Contains (.label name place) →
          ∃ i t, BeginsLabel p (head :: rest) i t ∧ t.value = name ∧ ⟨i, 0⟩ = place := by
  have hrecords := isRecord_iff_of_read hhead hframed h
  have hbefore : head.kind ≠ .eof := by simp [hhead]
  refine ⟨fun name => ?names, fun _ _ _ _ hs hbase => ?typed, fun _ _ hs => ?labels, ?numbered⟩
  case names => simpa [State.isRecord] using hrecords name
  case typed =>
    obtain ⟨record, hname, hrecord⟩ := sited_of_read hframed hbefore h hs hbase
    exact ⟨record, hname, (hrecords record).mp hrecord⟩
  case labels => exact (sited_of_read hframed hbefore h hs).beginsLabel (List.infix_cons List.infix_rfl) hrecords
  case numbered =>
    have hnumbered : (Stream.numbered head rest).Framed := .of_relabel <| by rwa [Stream.relabel_numbered]
    have hread := (Stream.numbered head rest).read_relabel (.places (head :: rest))
    rw [Stream.relabel_numbered, h] at hread
    generalize hq : (Stream.numbered head rest).read.1 = result at hread
    cases hread
    case ok q =>
      refine ⟨q, rfl, rfl, fun name place hs => ?_⟩
      have hsite := sited_of_read hnumbered hbefore hq hs
      have hlist : rest.mapIdx (fun i t => t.numbered (i + 1)) <:+: numbered (head :: rest) := by
        rw [numbered, List.mapIdx_cons]
        exact List.infix_cons List.infix_rfl
      obtain ⟨i, t, ht, hname, rfl⟩ := hsite.beginsLabel hlist fun name => by rw [Stream.isRecord_numbered, hrecords]
      obtain ⟨u, hu, rfl⟩ := ht.of_numbered
      exact ⟨i, u, hu, hname, rfl⟩

-- The tokens of `func f() -> void l: x: r end struct r end`.
def lateRecord : Stream :=
  let line := "func f() -> void l: x: r end struct r end"
  .ofTokens ⟨.head, "", .start, line⟩
    [⟨.keyword .funcWord, "func", ⟨1, 1⟩, line⟩, ⟨.identifier, "f", ⟨1, 6⟩, line⟩,
     ⟨.symbol .openParen, "(", ⟨1, 7⟩, line⟩, ⟨.symbol .closeParen, ")", ⟨1, 8⟩, line⟩,
     ⟨.symbol .arrow, "->", ⟨1, 10⟩, line⟩, ⟨.keyword .voidWord, "void", ⟨1, 13⟩, line⟩,
     ⟨.identifier, "l", ⟨1, 18⟩, line⟩, ⟨.symbol .colon, ":", ⟨1, 19⟩, line⟩,
     ⟨.identifier, "x", ⟨1, 21⟩, line⟩, ⟨.symbol .colon, ":", ⟨1, 22⟩, line⟩,
     ⟨.identifier, "r", ⟨1, 24⟩, line⟩, ⟨.keyword .endWord, "end", ⟨1, 26⟩, line⟩,
     ⟨.keyword .structWord, "struct", ⟨1, 30⟩, line⟩, ⟨.identifier, "r", ⟨1, 37⟩, line⟩,
     ⟨.keyword .endWord, "end", ⟨1, 39⟩, line⟩, ⟨.eof, "", ⟨1, 42⟩, line⟩]

-- The name of the record stands for a type before its declaration, and the other name does not.
theorem records_read_lateRecord :
    lateRecord.Framed ∧ ∃ p, lateRecord.read.1 = .ok p ∧ p.DeclaresRecord "r" ∧ ¬p.DeclaresRecord "x" ∧
      p.Contains (.label "l" ⟨1, 18⟩) ∧ ∃ i t, BeginsLabel p lateRecord.toList i t ∧ t.position = ⟨1, 18⟩ := by
  have hframed : lateRecord.Framed := ⟨lateRecord.toList.dropLast, _, rfl, rfl, by decide⟩
  have hlabel : ∃ p, lateRecord.read.1 = .ok p ∧ p.Contains (.label "l" ⟨1, 18⟩) :=
    ⟨_, rfl, _, .head _, .function (.head _) .self⟩
  obtain ⟨p, h, hlabel⟩ := hlabel
  obtain ⟨hnames, -, hlabels, -⟩ := records_read rfl hframed h
  obtain ⟨i, t, ht, -, hposition⟩ := hlabels _ _ hlabel
  refine ⟨hframed, p, h, (hnames "r").mp ?_, fun hx => ?_, hlabel, i, t, ht, hposition⟩
  case refine_1 => decide
  case refine_2 => exact absurd ((hnames "x").mpr hx) (by decide)

end Numbers

end BasicFrontEnd
