import BasicFrontEnd.Proofs.Shape.Rules

/-!
What the state of the check knows: the open scopes hold the names that have been declared in the functions around and
outside of them, and the labels are those of the innermost function.
-/

namespace BasicFrontEnd

namespace ChainedMap

variable {β : Type} {m : ChainedMap β} {key key' : String} {value : β}

theorem contains_iff : m.contains key = true ↔ ∃ e ∈ m.chain key, e.key = key := by
  simp [contains, find?, findInSlot?]

@[simp]
theorem contains_empty : (empty : ChainedMap β).contains key = false := by
  rw [Bool.eq_false_iff, ne_eq, contains_iff]
  simp

theorem contains_insert : (m.insert key value).contains key' = true ↔ key' = key ∨ m.contains key' = true := by
  simp only [contains_iff, chain_insert]
  split
  case isTrue => simp [or_and_right, exists_or, or_comm, eq_comm]
  case isFalse h =>
    have hne : key' ≠ key := by rintro rfl; exact h rfl
    simp [hne]

end ChainedMap

namespace Shape

section DeclareAll

variable {xs : List (String × Position)} {m : Scope} {seen : List String}

@[simp]
theorem names_cons (x : String × Position) (xs : List (String × Position)) : names (x :: xs) = x.1 :: names xs :=
  rfl

-- What has been declared before is `seen`; declaring stops where a name comes again.
theorem declareAll_from (hseen : ∀ name, m.contains name = true ↔ name ∈ seen) :
    (∀ m', declareAll xs m = .ok m' → (names xs).Nodup ∧ (∀ name ∈ names xs, name ∉ seen) ∧
      ∀ name, m'.contains name = true ↔ name ∈ names xs ∨ name ∈ seen) ∧
    ∀ x, declareAll xs m = .error x → ∃ before after, xs = before ++ x :: after ∧ (names before).Nodup ∧
      (∀ name ∈ names before, name ∉ seen) ∧ (x.1 ∈ names before ∨ x.1 ∈ seen) := by
  induction xs generalizing m seen
  case nil =>
    refine ⟨fun m' h => ?_, fun x h => by cases h⟩
    obtain rfl := Except.ok.inj h
    simpa [names] using hseen
  case cons y xs ih =>
    obtain ⟨name, p⟩ := y
    rw [declareAll]
    split
    case isTrue hcontains =>
      refine ⟨fun m' h => (by cases h), fun x h => ?_⟩
      obtain rfl := Except.error.inj h
      exact ⟨[], xs, rfl, List.nodup_nil, by simp [names], .inr ((hseen name).mp hcontains)⟩
    case isFalse hcontains =>
      have hname : name ∉ seen := mt (hseen name).mpr hcontains
      have hseen' : ∀ other, (m.insert name p).contains other = true ↔ other ∈ name :: seen := fun other => by
        rw [ChainedMap.contains_insert, hseen, List.mem_cons]
      have hcons : ∀ zs, (names zs).Nodup → (∀ other ∈ names zs, other ∉ name :: seen) →
          (name :: names zs).Nodup ∧ ∀ other ∈ name :: names zs, other ∉ seen := by
        intro zs hnodup hnew
        simp only [List.mem_cons, not_or] at hnew
        exact ⟨List.nodup_cons.mpr ⟨fun hmem => (hnew _ hmem).1 rfl, hnodup⟩,
          List.forall_mem_cons.mpr ⟨hname, fun other hmem => (hnew other hmem).2⟩⟩
      obtain ⟨hok, herror⟩ := ih hseen'
      refine ⟨fun m' h => ?_, fun x h => ?_⟩
      case refine_1 =>
        obtain ⟨hnodup, hnew, hcontains⟩ := hok m' h
        obtain ⟨hnodup, hnew⟩ := hcons xs hnodup hnew
        exact ⟨hnodup, hnew, fun other => by simp [hcontains, or_assoc, or_left_comm]⟩
      case refine_2 =>
        obtain ⟨before, after, rfl, hnodup, hnew, hx⟩ := herror x h
        obtain ⟨hnodup, hnew⟩ := hcons before hnodup hnew
        exact ⟨(name, p) :: before, after, rfl, hnodup, hnew, by simpa [or_assoc, or_left_comm] using hx⟩

theorem declareAll_eq_ok (h : declareAll xs = .ok m) :
    (names xs).Nodup ∧ ∀ name, m.contains name = true ↔ name ∈ names xs := by
  have hempty : ∀ name, (ChainedMap.empty : Scope).contains name = true ↔ name ∈ [] := by simp
  obtain ⟨hnodup, _, hcontains⟩ := (declareAll_from hempty).1 m h
  exact ⟨hnodup, by simpa using hcontains⟩

theorem declareAll_eq_error (h : declareAll xs = .error x) : Repeats xs x := by
  have hempty : ∀ name, (ChainedMap.empty : Scope).contains name = true ↔ name ∈ [] := by simp
  obtain ⟨before, after, hxs, hnodup, _, hx⟩ := (declareAll_from hempty).2 x h
  exact ⟨before, after, hxs, hnodup, by simpa using hx⟩

end DeclareAll

-- The maps hold the names that the visits declare in the scope and in those around it.
inductive Holds (vs : List Visit) : List Scope → List Nat → Prop
  | outermost : (∀ name, m.contains name = true ↔ ∃ v ∈ vs, v.act = .declare name ∧ v.scope = []) → Holds vs [m] []
  | function : (∀ name, m.contains name = true ↔ ∃ v ∈ vs, v.act = .declare name ∧ v.scope = k :: scope) →
      Holds vs ms scope → Holds vs (m :: ms) (k :: scope)

namespace Holds

variable {vs us : List Visit} {ms : List Scope} {m : Scope} {scope : List Nat}

theorem isVisible (h : Holds vs ms scope) {name : String} :
    ms.any (·.contains name) = true ↔ Visible vs scope name := by
  induction h
  case outermost h => simp [h, Visible]
  case function h _ ih =>
    simp only [List.any_cons, Bool.or_eq_true, h, ih, Visible, List.suffix_cons_iff, and_or_left, exists_or]

-- Visits that declare nothing in the scope or around it change nothing.
theorem append (h : Holds vs ms scope) (hus : ∀ v ∈ us, ∀ name, v.act = .declare name → ¬v.scope <:+ scope) :
    Holds (vs ++ us) ms scope := by
  have hmem : ∀ scope', scope' <:+ scope → ∀ name,
      (∃ v ∈ vs ++ us, v.act = .declare name ∧ v.scope = scope') ↔
        ∃ v ∈ vs, v.act = .declare name ∧ v.scope = scope' := by
    intro scope' hsuffix name
    constructor
    case mp =>
      rintro ⟨v, hv, hact, rfl⟩
      obtain hv | hv := List.mem_append.mp hv
      case inl => exact ⟨v, hv, hact, rfl⟩
      case inr => exact absurd hsuffix (hus v hv name hact)
    case mpr =>
      rintro ⟨v, hv, hact, rfl⟩
      exact ⟨v, List.mem_append_left us hv, hact, rfl⟩
  induction h
  case outermost h => exact .outermost fun name => (h name).trans (hmem [] List.nil_suffix name).symm
  case function h _ ih =>
    refine .function (fun name => (h name).trans (hmem _ (List.suffix_refl _) name).symm) (ih ?_ ?_)
    · exact fun v hv name hact hsuffix => hus v hv name hact (hsuffix.trans (List.suffix_cons ..))
    · exact fun scope' hsuffix => hmem scope' (hsuffix.trans (List.suffix_cons ..))

theorem declare (h : Holds vs (m :: ms) scope) (name : String) (p : Position) :
    Holds (vs ++ [⟨scope, p, .declare name⟩]) (m.insert name p :: ms) scope := by
  have hinsert : ∀ other, (m.contains other = true ↔ ∃ v ∈ vs, v.act = .declare other ∧ v.scope = scope) →
      ((m.insert name p).contains other = true ↔
        ∃ v ∈ vs ++ [⟨scope, p, .declare name⟩], v.act = .declare other ∧ v.scope = scope) := by
    intro other h
    rw [ChainedMap.contains_insert, h, or_comm, eq_comm (a := other)]
    simp [or_and_right, exists_or]
  cases h
  case outermost h => exact .outermost fun other => hinsert other (h other)
  case function k scope h hms =>
    refine .function (fun other => hinsert other (h other)) (hms.append fun v hv _ _ hsuffix => ?_)
    obtain rfl := List.mem_singleton.mp hv
    exact Nat.not_succ_le_self _ hsuffix.length_le

-- On entry to a function, its formals are declared in a scope of their own.
theorem enter (h : Holds vs ms scope) (hk : ∀ v ∈ vs, k ∉ v.scope) (hus : ∀ v ∈ us, v.scope = k :: scope)
    (hm : ∀ name, m.contains name = true ↔ ∃ v ∈ us, v.act = .declare name) :
    Holds (vs ++ us) (m :: ms) (k :: scope) := by
  refine .function (fun name => ?_) (h.append fun v hv _ _ hsuffix => ?_)
  case refine_1 =>
    rw [hm]
    constructor
    case mp =>
      rintro ⟨v, hv, hact⟩
      exact ⟨v, List.mem_append_right vs hv, hact, hus v hv⟩
    case mpr =>
      rintro ⟨v, hv, hact, hscope⟩
      obtain hv | hv := List.mem_append.mp hv
      case inl => exact absurd (hscope ▸ List.mem_cons_self) (hk v hv)
      case inr => exact ⟨v, hv, hact⟩
  case refine_2 =>
    rw [hus v hv] at hsuffix
    exact Nat.not_succ_le_self _ hsuffix.length_le

end Holds

-- The state of the check behind `done`, the first visits of all.
structure Matches (vs done : List Visit) (scope : List Nat) (s : State) : Prop where
  scopes : Holds done s.scopes scope
  labels : ∀ name, s.labels.any (·.contains name) = true ↔ scope ≠ [] ∧ name ∈ names (labelsIn vs scope)

theorem Matches.isVisible (h : Matches vs done scope s) (name : String) :
    s.isVisible name = true ↔ Visible done scope name :=
  h.scopes.isVisible

theorem Matches.report (h : Matches vs done scope s) (event : Event) : Matches vs done scope (s.report event) :=
  ⟨h.scopes, h.labels⟩

theorem Matches.append (h : Matches vs done scope s) (hus : ∀ v ∈ us, ∀ name, v.act ≠ .declare name) :
    Matches vs (done ++ us) scope s where
  scopes := h.scopes.append fun v hv name hact => absurd hact (hus v hv name)
  labels := h.labels

end Shape

end BasicFrontEnd
