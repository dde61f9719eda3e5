import BasicFrontEnd.Proofs.Dump.Legible
import BasicFrontEnd.Proofs.Writing.Plain

/-!
The text of a tree tells all of the tree but its places. The word in front of each label tells which node it is, and
which of the optional parts are there. Main statement: `printed_inj`.
-/

namespace BasicFrontEnd

section Lists

variable {α β γ : Type} {f : α → β} {g : α → γ} {as bs : List α}

theorem map_eq_map_of_inj (h : ∀ a ∈ as, ∀ b ∈ bs, f a = f b → g a = g b) (hmap : as.map f = bs.map f) :
    as.map g = bs.map g := by
  induction as generalizing bs
  case nil => rw [List.map_eq_nil_iff.mp hmap.symm]
  case cons a as ih =>
    cases bs
    case nil => simp at hmap
    case cons b bs =>
      rw [List.map_cons, List.map_cons, List.cons_eq_cons] at hmap ⊢
      refine ⟨h a List.mem_cons_self b List.mem_cons_self hmap.1, ih (fun a' ha b' hb => ?_) hmap.2⟩
      exact h a' (List.mem_cons_of_mem _ ha) b' (List.mem_cons_of_mem _ hb)

theorem map_eq_map_of_inj_of_toList {a b : Option α} (h : ∀ x ∈ a, ∀ y ∈ b, f x = f y → g x = g y)
    (hmap : (a.map f).toList = (b.map f).toList) : a.map g = b.map g := by
  cases a <;> cases b <;> simp only [Option.map_none, Option.map_some, Option.toList_none, Option.toList_some] at hmap ⊢
  case some.some a b => exact congrArg some (h a rfl b rfl (List.singleton_inj.mp hmap))
  all_goals cases hmap

-- An optional member in front of others that differ from it.
theorem toList_append_inj {p : α → Prop} {a b : Option α} (ha : ∀ x ∈ a, p x) (hb : ∀ x ∈ b, p x)
    (has : ∀ x ∈ as, ¬p x) (hbs : ∀ x ∈ bs, ¬p x) (h : a.toList ++ as = b.toList ++ bs) : a = b ∧ as = bs := by
  cases a <;> cases b <;>
    simp only [Option.toList_none, Option.toList_some, List.nil_append, List.cons_append, List.cons_eq_cons] at h
  case none.none => exact ⟨rfl, h⟩
  case none.some b => exact absurd (hb b rfl) (has b (h ▸ List.mem_cons_self))
  case some.none a => exact absurd (ha a rfl) (hbs a (h ▸ List.mem_cons_self))
  case some.some => exact ⟨congrArg some h.1, h.2⟩

end Lists

namespace Outline

variable {key value value' : String} {children children' : List Outline}

-- The word that the label begins with.
def stem : Outline → String
  | node label _ => String.ofList (label.toList.takeWhile fun c => Lexical.IsLetter c ∨ Lexical.IsDigit c)

theorem stem_append {rest : String} (hkey : IsWord key)
    (hrest : ∀ c ∈ rest.toList.head?, ¬(Lexical.IsLetter c ∨ Lexical.IsDigit c)) :
    (node (key ++ rest) children).stem = key := by
  have hnone : rest.toList.takeWhile (fun c => Lexical.IsLetter c ∨ Lexical.IsDigit c) = [] := by
    cases hchars : rest.toList
    case nil => rfl
    case cons c cs => exact List.takeWhile_cons_of_neg (by simpa using hrest c (by rw [hchars]; rfl))
  rw [stem, String.toList_append, List.takeWhile_append_of_pos (by simpa using hkey.consists), hnone, List.append_nil,
    String.ofList_toList]

theorem stem_kind (hkey : IsWord key := by decide) : (node key children).stem = key := by
  have hstem : (node (key ++ "") children).stem = key := stem_append hkey (by simp)
  simpa using hstem

theorem stem_field (hkey : IsWord key := by decide) : (field key value).stem = key := by
  rw [field, leaf, String.append_assoc]
  exact stem_append hkey (by simp [Lexical.IsLetter, Lexical.IsDigit])

theorem stem_group (hkey : IsWord key := by decide) : (group key children).stem = key :=
  stem_append hkey (by simp [Lexical.IsLetter, Lexical.IsDigit])

theorem stem_wrap (hkey : IsWord key := by decide) : (Expr.wrap key value).stem = key := by
  rw [Expr.wrap, leaf, String.append_assoc, String.append_assoc]
  exact stem_append hkey (by simp [Lexical.IsLetter, Lexical.IsDigit])

@[simp]
theorem field_inj : field key value = field key value' ↔ value = value' := by
  simp [field, leaf]

@[simp]
theorem group_inj : group key children = group key children' ↔ children = children' := by
  simp [group]

@[simp]
theorem wrap_inj : Expr.wrap key value = Expr.wrap key value' ↔ value = value' := by
  simp [Expr.wrap, leaf]

end Outline

theorem BaseType.ofName?_name (b : BaseType) : ofName? b.name = some b := by
  cases b <;> decide

theorem Operator.ofText?_write (o : Operator) : ofText? o.write = some o := by
  cases o <;> decide

@[simp]
theorem BaseType.name_inj {b b' : BaseType} : b.name = b'.name ↔ b = b' := by
  refine ⟨fun h => ?_, congrArg name⟩
  simpa [ofName?_name] using congrArg ofName? h

@[simp]
theorem Operator.write_inj {o o' : Operator} : o.write = o'.write ↔ o = o' := by
  refine ⟨fun h => ?_, congrArg write⟩
  simpa [ofText?_write] using congrArg ofText? h

theorem natRepr_inj {m n : Nat} (h : m.repr = n.repr) : m = n := by
  have hdigits := congrArg (fun text => Nat.ofDigitChars 10 text.toList 0) h
  simpa only [Nat.toList_repr, Nat.ofDigitChars_ten_toDigits] using hdigits

theorem intRepr_inj {m n : Int} (h : m.repr = n.repr) : m = n := by
  have hsign {k l : Nat} : k.repr ≠ "-" ++ l.repr := fun h =>
    not_mem_natRepr (c := '-') (by decide) k (by rw [h, String.toList_append]; simp)
  rw [Int.repr_eq_if, Int.repr_eq_if] at h
  split at h <;> split at h
  case isTrue.isTrue =>
    have := natRepr_inj h
    omega
  case isTrue.isFalse => exact absurd h hsign
  case isFalse.isTrue => exact absurd h.symm hsign
  case isFalse.isFalse =>
    have := natRepr_inj ((String.append_right_inj "-").mp h)
    omega

namespace TypedName

variable {t t' : TypeSpec} {os os' : List Outline}

-- The line that is there for a record only.
def recordField? (t : TypeSpec) : Option Outline :=
  t.recordName.map (Outline.field "struct_type")

-- The line that is there for an array only.
def dimensionsField? (t : TypeSpec) : Option Outline :=
  if t.isArray then some (.field "dimensions" (toString t.dimensions)) else none

-- The words that begin those lines.
def optionalKeys : List String :=
  ["struct_type", "dimensions"]

theorem stem_recordField : ∀ o ∈ recordField? t, o.stem = "struct_type" := by
  simp only [recordField?, Option.mem_def, Option.map_eq_some_iff]
  rintro _ ⟨name, -, rfl⟩
  exact Outline.stem_field

theorem stem_dimensionsField : ∀ o ∈ dimensionsField? t, o.stem = "dimensions" := by
  simp only [dimensionsField?, Option.mem_ite_none_right, Option.mem_some]
  rintro _ ⟨-, rfl⟩
  exact Outline.stem_field

theorem dimensionsField?_inj (h : dimensionsField? t = dimensionsField? t') : t.dimensions = t'.dimensions := by
  simp only [dimensionsField?] at h
  split at h <;> split at h
  case isTrue.isTrue => exact natRepr_inj (Outline.field_inj.mp (Option.some.inj h))
  case isFalse.isFalse ht ht' =>
    simp only [TypeSpec.isArray, decide_eq_true_eq] at ht ht'
    omega
  all_goals cases h

theorem typeFields_append (t : TypeSpec) (os : List Outline) :
    typeFields t ++ os =
      .field "type" t.base.name :: ((recordField? t).toList ++ ((dimensionsField? t).toList ++ os)) := by
  rw [typeFields, dimensionsField?]
  split <;> simp [recordField?]

-- What stands behind the lines of a type tells no more of it.
theorem typeFields_append_inj (hos : ∀ o ∈ os, o.stem ∉ optionalKeys) (hos' : ∀ o ∈ os', o.stem ∉ optionalKeys)
    (h : typeFields t ++ os = typeFields t' ++ os') : t = t' ∧ os = os' := by
  have hrest {t : TypeSpec} {os : List Outline} (hos : ∀ o ∈ os, o.stem ∉ optionalKeys) :
      ∀ o ∈ (dimensionsField? t).toList ++ os, o.stem ≠ "struct_type" := by
    refine List.forall_mem_append.mpr ⟨fun o ho => ?_, fun o ho => List.ne_of_not_mem_cons (hos o ho)⟩
    rw [stem_dimensionsField o (Option.mem_toList.mp ho)]
    decide
  rw [typeFields_append, typeFields_append, List.cons_eq_cons, Outline.field_inj, BaseType.name_inj] at h
  obtain ⟨hbase, h⟩ := h
  obtain ⟨hrecord, h⟩ := toList_append_inj stem_recordField stem_recordField (hrest hos) (hrest hos') h
  obtain ⟨hdimensions, rfl⟩ := toList_append_inj stem_dimensionsField stem_dimensionsField
    (fun o ho heq => hos o ho (by simp [heq, optionalKeys])) (fun o ho heq => hos' o ho (by simp [heq, optionalKeys])) h
  have hname := Option.map_injective (fun _ _ => Outline.field_inj.mp) hrecord
  exact ⟨TypeSpec.ext hbase hname (dimensionsField?_inj hdimensions), rfl⟩

theorem stem_group_not_mem {key : String} (hkey : IsWord key := by decide) (h : key ∉ optionalKeys := by decide) :
    (Outline.group key os).stem ∉ optionalKeys := by
  rwa [Outline.stem_group hkey]

theorem outline_inj {m n : TypedName} {kind : String} (h : m.outline kind = n.outline kind) : m.bare = n.bare := by
  simp only [outline, Outline.node.injEq, List.cons.injEq, Outline.field_inj, true_and] at h
  obtain ⟨hname, htype⟩ := h
  rw [← List.append_nil (typeFields m.type), ← List.append_nil (typeFields n.type)] at htype
  exact TypedName.ext hname (typeFields_append_inj (by simp) (by simp) htype).1 rfl

end TypedName

namespace Expr

variable {e f : Expr}

theorem stem_outline (e : Expr) : e.outline.stem = e.kindName := by
  cases e <;> rw [outline]
  case member | identifier | integer | float | string | boolean => exact Outline.stem_wrap
  all_goals exact Outline.stem_kind

theorem kindName_eq_of_outline_eq (h : e.outline = f.outline) : e.kindName = f.kindName := by
  rw [← stem_outline, h, stem_outline]

-- A word holds no dot, so the first one stands behind the record.
theorem dotted_inj {record record' field field' : String} (h : IsWord record) (h' : IsWord record')
    (heq : record ++ "." ++ field = record' ++ "." ++ field') : record = record' ∧ field = field' := by
  simp only [← String.toList_inj, String.toList_append, List.append_assoc] at heq ⊢
  exact Text.append_cons_inj (x := '.') (h.not_mem (by decide)) (h'.not_mem (by decide)) heq

theorem map_inj_of_legible {es fs : List Expr} (h : ∀ e ∈ es, ∀ {f : Expr}, f.Legible → e.outline = f.outline → e = f)
    (hfs : ∀ f ∈ fs, f.Legible) (hmap : es.map outline = fs.map outline) : es = fs := by
  simpa using map_eq_map_of_inj (g := id) (fun e he f hf => h e he (hfs f hf)) hmap

theorem outline_inj (he : e.Legible) (hf : f.Legible) (h : e.outline = f.outline) : e = f := by
  -- The kinds agree, so that one case remains for each constructor, with what the children tell.
  induction he generalizing f <;> have hkind := kindName_eq_of_outline_eq h <;> cases hf <;>
    simp only [kindName, String.reduceEq] at hkind <;> clear hkind <;>
    simp only [outline, outlines_eq_map, Outline.node.injEq, List.cons.injEq, Outline.field_inj, Outline.group_inj,
      Outline.wrap_inj, Operator.write_inj, and_true, true_and] at h
  case call.call ih _ _ _ hall =>
    obtain ⟨rfl, harguments⟩ := h
    rw [map_inj_of_legible ih hall harguments]
  case binary.binary ihleft ihright _ _ _ hleft hright =>
    obtain ⟨rfl, hl, hr⟩ := h
    rw [ihleft hleft hl, ihright hright hr]
  case assign.assign ihtarget ihvalue _ _ htarget hvalue => rw [ihtarget htarget h.1, ihvalue hvalue h.2]
  case negate.negate ih _ hoperand | not.not ih _ hoperand => rw [ih hoperand h]
  case empty.empty | nil.nil => rfl
  case member.member hrecord _ _ _ hrecord' _ =>
    obtain ⟨rfl, rfl⟩ := dotted_inj hrecord hrecord' h
    rfl
  case array.array ih _ hall => rw [map_inj_of_legible ih hall h]
  case index.index ihbase ihindices _ _ hbase hall =>
    rw [ihbase hbase h.1, map_inj_of_legible ihindices hall h.2]
  case identifier.identifier => rw [h]
  case integer.integer => rw [Int64.toInt_inj.mp (intRepr_inj h)]
  case string.string => rw [Text.quoted_inj h]
  case boolean.boolean value value' => cases value <;> cases value' <;> simp at h ⊢

end Expr

namespace Stmt

variable {s t : Stmt}

theorem stem_outline (s : Stmt) : s.outline.stem = s.kindName := by
  cases s
  case expression e _ =>
    rw [outline]
    exact e.stem_outline
  case label => exact outline_label _ _ ▸ Outline.stem_wrap
  case goto => exact outline_goto _ _ ▸ Outline.stem_wrap
  case branch => exact outline_branch _ _ _ _ ▸ Outline.stem_kind
  all_goals
    rw [outline]
    exact Outline.stem_kind

theorem kindName_eq_of_outline_eq (h : s.outline = t.outline) : s.kindName = t.kindName := by
  rw [← stem_outline, h, stem_outline]

-- The kinds of the statements that are no expressions.
def ownKinds : List String :=
  ["VarDecl", "StructDecl", "FuncDecl", "LabelDecl", "GotoStmt", "ReturnStmt", "IfStmt", "WhileStmt", "BlockStmt"]

theorem kindName_not_mem_ownKinds (e : Expr) : e.kindName ∉ ownKinds := by
  cases e <;> simp [ownKinds, Expr.kindName]

theorem kindName_ne {kind : String} (e : Expr) (h : kind ∈ ownKinds) : e.kindName ≠ kind :=
  (ne_of_mem_of_not_mem h (kindName_not_mem_ownKinds e)).symm

theorem ne_kindName {kind : String} (e : Expr) (h : kind ∈ ownKinds) : kind ≠ e.kindName :=
  (kindName_ne e h).symm

theorem bare_branch (test : Expr) (body : Stmt) (otherwise : Option Stmt) (p : Position) :
    (branch test body otherwise p).bare = .branch test body.bare (otherwise.map bare) .nowhere := by
  cases otherwise <;> rw [bare] <;> rfl

theorem map_bare_eq_of_legible {ss ts : List Stmt}
    (h : ∀ s ∈ ss, ∀ {t : Stmt}, t.Legible → s.outline = t.outline → s.bare = t.bare) (hts : ∀ t ∈ ts, t.Legible)
    (hmap : ss.map outline = ts.map outline) : ss.map bare = ts.map bare :=
  map_eq_map_of_inj (fun s hs t ht => h s hs (hts t ht)) hmap

theorem outline_inj (hs : s.Legible) (ht : t.Legible) (h : s.outline = t.outline) : s.bare = t.bare := by
  induction hs generalizing t <;> have hkind := kindName_eq_of_outline_eq h <;> cases ht <;>
    simp (disch := decide) only [kindName, String.reduceEq, ne_kindName, kindName_ne] at hkind <;> clear hkind <;>
    simp only [outline, outline_branch, outlines_eq_map, List.cons_append, Outline.node.injEq, List.cons.injEq,
      Outline.field_inj, Outline.group_inj, Outline.leaf, String.append_left_inj, String.append_right_inj, and_true,
      true_and] at h
  case declare.declare hinitial _ _ _ _ _ _ hinitial' =>
    obtain ⟨rfl, htype⟩ := h
    have hinit {initial : Option Expr} :
        ∀ o ∈ (initial.map fun e => Outline.group "init" [e.outline]).toList, o.stem ∉ TypedName.optionalKeys := by
      simp only [Option.mem_toList, Option.map_eq_some_iff]
      rintro _ ⟨e, -, rfl⟩
      exact TypedName.stem_group_not_mem
    obtain ⟨rfl, hinitials⟩ := TypedName.typeFields_append_inj hinit hinit htype
    -- Behind the type stands the value, or nothing.
    have hinitials := map_eq_map_of_inj_of_toList (g := id)
      (fun e he e' he' heq => Expr.outline_inj (hinitial e he) (hinitial' e' he') (by simpa using heq)) hinitials
    simp only [Option.map_id, id_eq] at hinitials
    rw [bare, bare, hinitials]
  case record.record =>
    obtain ⟨rfl, hmembers⟩ := h
    rw [bare, bare, map_eq_map_of_inj (fun _ _ _ _ => TypedName.outline_inj) hmembers]
  case function.function ih _ _ _ _ _ _ _ _ _ hbody =>
    obtain ⟨rfl, hresult⟩ := h
    have hgroups {formals body : List Outline} : ∀ o ∈ [Outline.group "formals" formals, Outline.group "body" body],
        o.stem ∉ TypedName.optionalKeys :=
      List.forall_mem_cons.mpr
        ⟨TypedName.stem_group_not_mem, List.forall_mem_singleton.mpr TypedName.stem_group_not_mem⟩
    obtain ⟨rfl, hrest⟩ := TypedName.typeFields_append_inj hgroups hgroups hresult
    simp only [List.cons.injEq, Outline.group_inj, Outline.node.injEq, true_and, and_true] at hrest
    rw [bare, bare, bares_eq_map, bares_eq_map, map_eq_map_of_inj (fun _ _ _ _ => TypedName.outline_inj) hrest.1,
      map_bare_eq_of_legible ih hbody hrest.2]
  case label.label | goto.goto => rw [bare, bare, h]
  case returning.returning hvalue _ _ hvalue' => rw [bare, bare, Expr.outline_inj hvalue hvalue' h]
  case branch.branch htest _ _ ihbody ihotherwise _ _ _ _ htest' hbody' hotherwise' =>
    obtain ⟨htests, hbodies, hothers⟩ := h
    have hothers := map_eq_map_of_inj_of_toList
      (fun s hs t ht heq => ihotherwise s hs (hotherwise' t ht) (by simpa using heq)) hothers
    rw [bare_branch, bare_branch, Expr.outline_inj htest htest' htests, ihbody hbody' hbodies, hothers]
  case loop.loop htest _ ih _ _ _ htest' hbody' =>
    rw [bare, bare, Expr.outline_inj htest htest' h.1, ih hbody' h.2]
  case block.block ih _ _ hbody => rw [bare, bare, bares_eq_map, bares_eq_map, map_bare_eq_of_legible ih hbody h]
  case expression.expression he _ _ he' => rw [bare, bare, Expr.outline_inj he he' h]

end Stmt

theorem Program.outline_inj {p q : Program} (hp : p.Legible) (hq : q.Legible) (h : p.outline = q.outline) :
    p.bare = q.bare := by
  simp only [outline, Outline.node.injEq, Stmt.outlines_eq_map, true_and] at h
  rw [bare, bare, map_eq_map_of_inj (fun s hs t ht => Stmt.outline_inj (hp s hs) (hq t ht)) h]

/-- Programs, statements and expressions that are printed the same are the same up to places. -/
theorem printed_inj :
    (∀ {p q : Program} {text : String}, p.Legible → q.Legible → p.outline.write? = some text →
      q.outline.write? = some text → p.bare = q.bare) ∧
    (∀ {s t : Stmt} {text : String}, s.Legible → t.Legible → s.outline.write? = some text →
      t.outline.write? = some text → s.bare = t.bare) ∧
    (∀ {e f : Expr} {text : String}, e.Legible → f.Legible → e.outline.write? = some text →
      f.outline.write? = some text → e = f) := by
  refine ⟨?program, ?statement, ?expression⟩
  case program =>
    intro p q text hp hq h h'
    exact Program.outline_inj hp hq (Outline.write?_inj hp.readable hq.readable h h')
  case statement =>
    intro s t text hs ht h h'
    exact Stmt.outline_inj hs ht (Outline.write?_inj hs.readable ht.readable h h')
  case expression =>
    intro e f text he hf h h'
    exact Expr.outline_inj he hf (Outline.write?_inj he.readable hf.readable h h')

section Ready

-- A call with an argument of two lines.
def readyCall : Expr :=
  .call "run" [.identifier "ready", .string "a\n\"b\""]

def readyBranch (p : Position) : Stmt :=
  .branch (.identifier "ready") (.expression readyCall p) none p

def readyProgram (p : Position) : Program :=
  ⟨[.declare "ready" ⟨.boolean, none, 1⟩ none p, readyBranch p]⟩

theorem legible_readyCall : readyCall.Legible :=
  .call (by decide) (List.forall_mem_cons.mpr ⟨.identifier (by decide), List.forall_mem_singleton.mpr .string⟩)

theorem legible_readyBranch (p : Position) : (readyBranch p).Legible :=
  .branch (.identifier (by decide)) (.expression legible_readyCall) (by simp)

theorem legible_readyProgram (p : Position) : (readyProgram p).Legible :=
  List.forall_mem_cons.mpr ⟨.declare (by decide) (by simp [TypeSpec.Legible]) (by simp),
    List.forall_mem_singleton.mpr (legible_readyBranch p)⟩

theorem printed_inj_ready :
    (∃ text, (readyProgram .start).outline.write? = some text ∧ (readyProgram ⟨3, 5⟩).outline.write? = some text ∧
      (readyProgram .start).bare = (readyProgram ⟨3, 5⟩).bare) ∧
    (∃ text, (readyBranch .start).outline.write? = some text ∧ (readyBranch ⟨3, 5⟩).outline.write? = some text ∧
      (readyBranch .start).bare = (readyBranch ⟨3, 5⟩).bare) ∧
    (∃ text, readyCall.outline.write? = some text ∧
      readyCall = .call "run" [.identifier "ready", .string "a\n\"b\""]) := by
  refine ⟨⟨_, rfl, rfl, ?program⟩, ⟨_, rfl, rfl, ?statement⟩, ⟨_, rfl, ?expression⟩⟩
  case program => exact printed_inj.1 (legible_readyProgram _) (legible_readyProgram _) rfl rfl
  case statement => exact printed_inj.2.1 (legible_readyBranch _) (legible_readyBranch _) rfl rfl
  case expression => exact printed_inj.2.2 legible_readyCall legible_readyCall rfl rfl

end Ready

end BasicFrontEnd
