import BasicFrontEnd.Proofs.Shape.Visits
import Mathlib.Data.List.Induction

/-!
The rules on the shape of a program, as a property of all its visits, and their violations one by one.
-/

namespace BasicFrontEnd

namespace Shape

-- One of the visits declares the name, in the function of the scope, in one around it, or outside of all.
def Visible (vs : List Visit) (scope : List Nat) (name : String) : Prop :=
  ∃ v ∈ vs, v.act = .declare name ∧ v.scope <:+ scope

def names (xs : List (String × Position)) : List String :=
  xs.map Prod.fst

-- The rules on the visits of a whole program.
structure WellShaped (vs : List Visit) : Prop where
  targets : ∀ v ∈ vs, ∀ target, v.act = .assign target →
    (∃ name, target = .identifier name) ∨ (∃ record field, target = .member record field) ∨
      ∃ base indices, target = .index base indices
  -- Only earlier declarations count.
  accesses : ∀ i v record field, vs[i]? = some v → v.act = .access record field →
    Visible (vs.take i) v.scope record
  members : ∀ v ∈ vs, ∀ name members, v.act = .record name members → (names (namesOf members)).Nodup
  formals : ∀ v ∈ vs, ∀ name formals, v.act = .function name formals → (names (namesOf formals)).Nodup
  labels : ∀ i v name formals, vs[i]? = some v → v.act = .function name formals →
    (names (labelsIn vs (i :: v.scope))).Nodup
  -- A label may stand before the `goto` or behind it.
  gotos : ∀ v ∈ vs, ∀ target, v.act = .goto target →
    v.scope ≠ [] ∧ (names (labelsIn vs v.scope)).count target = 1

-- The name is the first to come again, and has the place where it does.
def Repeats (xs : List (String × Position)) (x : String × Position) : Prop :=
  ∃ before after, xs = before ++ x :: after ∧ (names before).Nodup ∧ x.1 ∈ names before

-- What is wrong with visit number `i`, and where. A function's labels count once its formals are found to differ.
inductive Faulty (vs : List Visit) (i : Nat) : Visit → Fault → Position → Prop
  | target : target.isTarget = false →
      Faulty vs i ⟨scope, p, .assign target⟩ (.notAssignable target.kindName) p
  | access : ¬Visible (vs.take i) scope record →
      Faulty vs i ⟨scope, p, .access record field⟩ (.undeclared record field) p
  | member : Repeats (namesOf members) (member, p) →
      Faulty vs i ⟨scope, q, .record name members⟩ (.duplicateMember member name) p
  | formal : Repeats (namesOf formals) (formal, p) →
      Faulty vs i ⟨scope, q, .function name formals⟩ (.duplicateFormal formal name) p
  | label : (names (namesOf formals)).Nodup → Repeats (labelsIn vs (i :: scope)) (label, p) →
      Faulty vs i ⟨scope, q, .function name formals⟩ (.duplicateLabel label) p
  | goto : scope = [] ∨ target ∉ names (labelsIn vs scope) →
      Faulty vs i ⟨scope, p, .goto target⟩ (.unknownTarget target) p

def Breaks (vs : List Visit) (i : Nat) (fault : Fault) (p : Position) : Prop :=
  ∃ v, vs[i]? = some v ∧ Faulty vs i v fault p

-- No fault from visit number `n` on up to `m`.
def Clean (vs : List Visit) (n m : Nat) : Prop :=
  ∀ i, n ≤ i → i < m → ∀ fault p, ¬Breaks vs i fault p

-- The diagnostic of the first fault from visit number `n` on up to `m`.
def Fails (vs : List Visit) (n m : Nat) (d : Diagnostic) : Prop :=
  ∃ i fault p, n ≤ i ∧ i < m ∧ Breaks vs i fault p ∧ d = fault.toDiagnostic p ∧ Clean vs n i

section Repeats

variable {xs : List (String × Position)} {x y : String × Position}

theorem Repeats.unique (hx : Repeats xs x) (hy : Repeats xs y) : x = y := by
  obtain ⟨before, after, rfl, hnodup, hx⟩ := hx
  obtain ⟨before', after', heq, hnodup', hy⟩ := hy
  obtain ⟨cs, rfl, h⟩ | ⟨cs, rfl, h⟩ := List.append_eq_append_iff.mp heq
  all_goals obtain _ | ⟨c, cs⟩ := cs
  case inl.nil => exact (List.cons.inj h).1
  case inr.nil => exact (List.cons.inj h).1.symm
  case inl.cons =>
    obtain ⟨rfl, _⟩ := List.cons.inj h
    simp only [names, List.map_append, List.map_cons, List.nodup_append] at hnodup'
    exact absurd rfl (hnodup'.2.2 _ hx _ List.mem_cons_self)
  case inr.cons =>
    obtain ⟨rfl, _⟩ := List.cons.inj h
    simp only [names, List.map_append, List.map_cons, List.nodup_append] at hnodup
    exact absurd rfl (hnodup.2.2 _ hy _ List.mem_cons_self)

theorem Repeats.not_nodup (h : Repeats xs x) : ¬(names xs).Nodup := by
  obtain ⟨before, after, rfl, _, hx⟩ := h
  intro hnodup
  simp only [names, List.map_append, List.map_cons, List.nodup_append] at hnodup
  exact absurd rfl (hnodup.2.2 _ hx _ List.mem_cons_self)

theorem exists_repeats (h : ¬(names xs).Nodup) : ∃ x, Repeats xs x := by
  induction xs using List.reverseRecOn
  case nil => exact absurd List.nodup_nil h
  case append_singleton xs x ih =>
    by_cases hnodup : (names xs).Nodup
    case pos =>
      refine ⟨x, xs, [], rfl, hnodup, Classical.byContradiction fun hx => h ?_⟩
      simp only [names, List.map_append, List.map_cons, List.map_nil, List.nodup_append] at hnodup hx ⊢
      refine ⟨hnodup, by simp, fun a ha b hb => ?_⟩
      rintro rfl
      exact hx (List.mem_singleton.mp hb ▸ ha)
    case neg =>
      obtain ⟨y, before, after, rfl, hrepeats⟩ := ih hnodup
      exact ⟨y, before, after ++ [x], by simp, hrepeats⟩

end Repeats

section Breaks

variable {vs : List Visit} {n m k i : Nat} {d : Diagnostic}

theorem Breaks.unique (h : Breaks vs i fault p) (h' : Breaks vs i fault' p') : fault = fault' ∧ p = p' := by
  obtain ⟨v, hv, h⟩ := h
  obtain ⟨_, hv', h'⟩ := h'
  obtain rfl := Option.some.inj (hv.symm.trans hv')
  cases h <;> cases h'
  case target.target | access.access | goto.goto => exact ⟨rfl, rfl⟩
  case member.member hx _ hy | formal.formal hx _ hy | label.label hx _ _ hy =>
    obtain ⟨rfl, rfl⟩ := Prod.mk.inj (hx.unique hy)
    exact ⟨rfl, rfl⟩
  case formal.label hx _ hnodup _ => exact absurd hnodup hx.not_nodup
  case label.formal hnodup _ _ hx => exact absurd hnodup hx.not_nodup

theorem Clean.empty (vs : List Visit) (n : Nat) : Clean vs n n :=
  fun _ hn hm => absurd hm (Nat.not_lt.mpr hn)

theorem Clean.append (h : Clean vs n m) (h' : Clean vs m k) : Clean vs n k := by
  intro i hn hk
  by_cases hm : i < m
  case pos => exact h i hn hm
  case neg => exact h' i (Nat.le_of_not_lt hm) hk

theorem Fails.left (h : Fails vs n m d) (hle : m ≤ k) : Fails vs n k d := by
  obtain ⟨i, fault, p, hn, hm, hbreaks, hd, hclean⟩ := h
  exact ⟨i, fault, p, hn, Nat.lt_of_lt_of_le hm hle, hbreaks, hd, hclean⟩

theorem Fails.right (h : Clean vs n m) (hle : n ≤ m) (h' : Fails vs m k d) : Fails vs n k d := by
  obtain ⟨i, fault, p, hm, hk, hbreaks, hd, hclean⟩ := h'
  exact ⟨i, fault, p, Nat.le_trans hle hm, hk, hbreaks, hd, h.append hclean⟩

end Breaks

section Rules

variable {vs : List Visit}

theorem isTarget_iff {e : Expr} : e.isTarget = true ↔
    (∃ name, e = .identifier name) ∨ (∃ record field, e = .member record field) ∨
      ∃ base indices, e = .index base indices := by
  cases e <;> simp [Expr.isTarget]

theorem WellShaped.clean (h : WellShaped vs) : Clean vs 0 vs.length := by
  rintro i _ _ fault p ⟨v, hv, hfaulty⟩
  have hmem := List.mem_of_getElem? hv
  cases hfaulty
  case target htarget =>
    rw [isTarget_iff.mpr (h.targets _ hmem _ rfl)] at htarget
    contradiction
  case access haccess => exact haccess (h.accesses i _ _ _ hv rfl)
  case member hrepeats => exact hrepeats.not_nodup (h.members _ hmem _ _ rfl)
  case formal hrepeats => exact hrepeats.not_nodup (h.formals _ hmem _ _ rfl)
  case label _ hrepeats => exact hrepeats.not_nodup (h.labels i _ _ _ hv rfl)
  case goto hgoto =>
    obtain ⟨hscope, hcount⟩ := h.gotos _ hmem _ rfl
    obtain hnone | htarget := hgoto
    case inl => exact hscope hnone
    case inr => exact htarget (List.count_pos_iff.mp (hcount ▸ Nat.one_pos))

theorem Clean.wellShaped (h : Clean vs 0 vs.length) (hplaced : Placed [] 0 vs) : WellShaped vs := by
  have hfaulty : ∀ {i v fault p}, vs[i]? = some v → ¬Faulty vs i v fault p := fun hv hf =>
    h _ (Nat.zero_le _) (List.getElem?_eq_some_iff.mp hv).1 _ _ ⟨_, hv, hf⟩
  have hformals : ∀ (i : Nat) (v : Visit) name formals, vs[i]? = some v → v.act = .function name formals →
      (names (namesOf formals)).Nodup := by
    rintro i ⟨scope, p, _⟩ name formals hv rfl
    refine Classical.byContradiction fun hnodup => ?_
    obtain ⟨⟨formal, q⟩, hrepeats⟩ := exists_repeats hnodup
    exact hfaulty hv (.formal hrepeats)
  have hlabels : ∀ (i : Nat) (v : Visit) name formals, vs[i]? = some v → v.act = .function name formals →
      (names (labelsIn vs (i :: v.scope))).Nodup := by
    rintro i ⟨scope, p, _⟩ name formals hv rfl
    refine Classical.byContradiction fun hnodup => ?_
    obtain ⟨⟨label, q⟩, hrepeats⟩ := exists_repeats hnodup
    exact hfaulty hv (.label (hformals i _ _ _ hv rfl) hrepeats)
  constructor
  case formals =>
    intro v hv
    obtain ⟨i, hi⟩ := List.getElem?_of_mem hv
    exact fun name formals => hformals i v name formals hi
  case labels => exact hlabels
  case targets =>
    rintro ⟨scope, p, _⟩ hv target rfl
    obtain ⟨i, hi⟩ := List.getElem?_of_mem hv
    exact isTarget_iff.mp (Bool.of_not_eq_false fun htarget => hfaulty hi (.target htarget))
  case accesses =>
    rintro i ⟨scope, p, _⟩ record field hv rfl
    exact Classical.byContradiction fun haccess => hfaulty hv (.access haccess)
  case members =>
    rintro ⟨scope, p, _⟩ hv name members rfl
    obtain ⟨i, hi⟩ := List.getElem?_of_mem hv
    refine Classical.byContradiction fun hnodup => ?_
    obtain ⟨⟨member, q⟩, hrepeats⟩ := exists_repeats hnodup
    exact hfaulty hi (.member hrepeats)
  case gotos =>
    rintro ⟨scope, p, _⟩ hv target rfl
    obtain ⟨i, hi⟩ := List.getElem?_of_mem hv
    have hscope : scope ≠ [] := fun hnone => hfaulty hi (.goto (.inl hnone))
    have htarget : target ∈ names (labelsIn vs scope) :=
      Classical.byContradiction fun htarget => hfaulty hi (.goto (.inr htarget))
    -- The scope is that of a function, whose labels differ.
    obtain ⟨j, outer, q, name, formals, rfl, hj⟩ := hplaced.entered _ hv hscope
    rw [Nat.zero_add] at htarget ⊢
    exact ⟨List.cons_ne_nil _ _, (hlabels j _ _ _ hj rfl).count.trans (if_pos htarget)⟩

end Rules

end Shape

end BasicFrontEnd
