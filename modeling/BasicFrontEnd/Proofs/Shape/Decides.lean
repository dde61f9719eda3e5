import BasicFrontEnd.Proofs.Shape.Scopes

/-!
The check decides the rules, and fails with the first violation. Main statement: `check_iff_wellShaped`.
-/

namespace BasicFrontEnd.Shape

-- The visits `vs` are those that are done, those at hand, and others that lie in the scope or in functions entered
-- later.
structure Within (vs done us : List Visit) (scope : List Nat) : Prop where
  rest    : ∃ after, vs = done ++ (us ++ after) ∧ ∀ v ∈ after, ∀ k ∈ v.scope, k ∈ scope ∨ done.length + us.length ≤ k
  earlier : ∀ v ∈ done, ∀ k ∈ v.scope, k < done.length
  outer   : ∀ k ∈ scope, k < done.length

namespace Within

variable {vs done us ws : List Visit} {scope : List Nat}

theorem left (h : Within vs done (us ++ ws) scope) (hws : Placed scope (done.length + us.length) ws) :
    Within vs done us scope where
  rest := by
    obtain ⟨after, hvs, hafter⟩ := h.rest
    refine ⟨ws ++ after, by simpa using hvs, List.forall_mem_append.mpr ⟨fun v hv k hk => ?_, fun v hv k hk => ?_⟩⟩
    · exact (hws.numbers v hv k hk).imp_right And.left
    · refine (hafter v hv k hk).imp_right fun h => ?_
      rw [List.length_append] at h
      omega
  earlier := h.earlier
  outer := h.outer

theorem right (h : Within vs done (us ++ ws) scope) (hus : Placed scope done.length us) :
    Within vs (done ++ us) ws scope where
  rest := by
    obtain ⟨after, hvs, hafter⟩ := h.rest
    exact ⟨after, by simpa using hvs, by simpa [Nat.add_assoc] using hafter⟩
  earlier := by
    rw [List.length_append]
    refine List.forall_mem_append.mpr ⟨fun v hv k hk => ?_, fun v hv k hk => ?_⟩
    · exact Nat.lt_add_right _ (h.earlier v hv k hk)
    · obtain hk | hk := hus.numbers v hv k hk
      case inl => exact Nat.lt_add_right _ (h.outer k hk)
      case inr => exact hk.2
  outer k hk := by
    rw [List.length_append]
    exact Nat.lt_add_right _ (h.outer k hk)

-- What is visited in a function belongs to the function.
theorem body (h : Within vs done (v :: us) scope) (hv : v.scope = scope) :
    Within vs (done ++ [v]) us (done.length :: scope) where
  rest := by
    obtain ⟨after, hvs, hafter⟩ := h.rest
    refine ⟨after, by simpa using hvs, fun w hw k hk => ?_⟩
    obtain hk | hk := hafter w hw k hk
    case inl => exact .inl (List.mem_cons_of_mem _ hk)
    case inr => exact .inr (by simpa [Nat.add_assoc, Nat.add_comm 1] using hk)
  earlier := by
    rw [List.length_append]
    refine List.forall_mem_append.mpr ⟨fun w hw k hk => Nat.lt_add_right _ (h.earlier w hw k hk), ?_⟩
    exact List.forall_mem_singleton.mpr fun k hk => Nat.lt_add_right _ (h.outer k (hv ▸ hk))
  outer := by
    rw [List.length_append]
    exact List.forall_mem_cons.mpr ⟨Nat.lt_succ_self _, fun k hk => Nat.lt_add_right _ (h.outer k hk)⟩

theorem getElem? (h : Within vs done (v :: us) scope) : vs[done.length]? = some v := by
  obtain ⟨after, rfl, _⟩ := h.rest
  simp

theorem take (h : Within vs done us scope) : vs.take done.length = done := by
  obtain ⟨after, rfl, _⟩ := h.rest
  simp

-- The labels in the scope of a function are those of its body.
theorem labelsIn_body {body : List Stmt}
    (h : Within vs done (v :: (us ++ visitsOfAll (done.length :: scope) n body)) scope)
    (hv : v.label? (done.length :: scope) = none) (hus : labelsIn us (done.length :: scope) = []) :
    labelsIn vs (done.length :: scope) = labelsOfAll body := by
  obtain ⟨after, rfl, hafter⟩ := h.rest
  have hdone : labelsIn done (done.length :: scope) = [] := labelsIn_eq_nil fun w hw hscope =>
    Nat.lt_irrefl _ (h.earlier w hw _ (hscope ▸ List.mem_cons_self))
  have hrest : labelsIn after (done.length :: scope) = [] := labelsIn_eq_nil fun w hw hscope => by
    obtain hk | hk := hafter w hw _ (hscope ▸ List.mem_cons_self)
    case inl => exact Nat.lt_irrefl _ (h.outer _ hk)
    case inr =>
      rw [List.length_cons] at hk
      omega
  rw [labelsIn_append, hdone, List.cons_append, labelsIn_cons_of_label?_eq_none hv]
  simp [hus, hrest, labelsIn_visitsOfAll]

end Within

section Single

variable {vs : List Visit} {n : Nat} {v : Visit}

theorem clean_single (hv : vs[n]? = some v) (h : ∀ fault p, ¬Faulty vs n v fault p) : Clean vs n (n + 1) := by
  rintro i hn hm fault p ⟨u, hu, hfaulty⟩
  obtain rfl : i = n := Nat.le_antisymm (Nat.le_of_lt_succ hm) hn
  obtain rfl := Option.some.inj (hu.symm.trans hv)
  exact h fault p hfaulty

theorem fails_single (hv : vs[n]? = some v) (h : Faulty vs n v fault p) : Fails vs n (n + 1) (fault.toDiagnostic p) :=
  ⟨n, fault, p, Nat.le_refl n, Nat.lt_succ_self n, ⟨v, hv, h⟩, rfl, .empty vs n⟩

end Single

-- An outcome that is right: no visit at hand is faulty and the state is the one behind them, or the first fault is
-- told.
def Carried (vs done us : List Visit) (scope : List Nat) : Except Diagnostic Unit × State → Prop
  | (.ok _, t)    => Clean vs done.length (done.length + us.length) ∧ Matches vs (done ++ us) scope t
  | (.error d, _) => Fails vs done.length (done.length + us.length) d

def Carries (check : Check Unit) (vs done us : List Visit) (scope : List Nat) : Prop :=
  ∀ s, Matches vs done scope s → Carried vs done us scope (check s)

theorem run_bind (x : Check α) (f : α → Check β) (s : State) :
    (x >>= f) s = match x s with
      | (.ok a, t)    => f a t
      | (.error d, t) => (.error d, t) := by
  have hbind : (x >>= f) s = ExceptT.bindCont f (x s).1 (x s).2 := rfl
  rw [hbind]
  obtain ⟨_ | _, _⟩ := x s <;> rfl

theorem Carried.prepend (h : Carried vs (done ++ us) ws scope outcome)
    (hclean : Clean vs done.length (done.length + us.length)) : Carried vs done (us ++ ws) scope outcome := by
  have hlength : done.length + (us ++ ws).length = (done ++ us).length + ws.length := by simp [Nat.add_assoc]
  rw [← List.length_append] at hclean
  obtain ⟨d | _, t⟩ := outcome
  case error =>
    rw [Carried, hlength]
    exact Fails.right hclean (by simp) h
  case ok =>
    rw [Carried, hlength, ← List.append_assoc]
    exact ⟨hclean.append h.1, h.2⟩

namespace Carries

variable {check check' : Check Unit} {vs done us ws : List Visit} {scope : List Nat}

theorem bind (h : Carries check vs done us scope) (h' : Carries check' vs (done ++ us) ws scope) :
    Carries (check >>= fun _ => check') vs done (us ++ ws) scope := by
  intro s hs
  have hfirst := h s hs
  rw [run_bind]
  generalize check s = outcome at hfirst ⊢
  obtain ⟨d | _, t⟩ := outcome
  case error => exact Fails.left hfirst (by simp)
  case ok => exact (h' t hfirst.2).prepend hfirst.1

theorem pure (vs done : List Visit) (scope : List Nat) : Carries (pure ()) vs done [] scope :=
  fun s hs => ⟨.empty vs _, by simpa using hs⟩

end Carries

section Exprs

-- What is wrong with a part of an expression.
def actFault? (visible : String → Bool) : Act → Option Fault
  | .assign target       => if target.isTarget then none else some (.notAssignable target.kindName)
  | .access record field => if visible record then none else some (.undeclared record field)
  | _                    => none

mutual

theorem exprFault?_eq (visible : String → Bool) (e : Expr) :
    exprFault? visible e = (acts e).findSome? (actFault? visible) := by
  cases e
  case assign target value =>
    rw [exprFault?, acts, List.findSome?_cons, actFault?, List.findSome?_append, exprFault?_eq visible target,
      exprFault?_eq visible value]
    split <;> rfl
  case member record field =>
    rw [exprFault?, acts, List.findSome?_singleton, actFault?]
  case call arguments => rw [exprFault?, acts, exprsFault?_eq visible arguments]
  case binary left right =>
    rw [exprFault?, acts, List.findSome?_append, exprFault?_eq visible left, exprFault?_eq visible right]
  case negate operand | not operand => rw [exprFault?, acts, exprFault?_eq visible operand]
  case array elements => rw [exprFault?, acts, exprsFault?_eq visible elements]
  case index base indices =>
    rw [exprFault?, acts, List.findSome?_append, exprFault?_eq visible base, exprsFault?_eq visible indices]
  all_goals rw [exprFault?, acts, List.findSome?_nil]

theorem exprsFault?_eq (visible : String → Bool) (es : List Expr) :
    exprsFault? visible es = (actsOfAll es).findSome? (actFault? visible) := by
  cases es
  case nil => rw [exprsFault?, actsOfAll, List.findSome?_nil]
  case cons e es =>
    rw [exprsFault?, actsOfAll, List.findSome?_append, exprFault?_eq visible e, exprsFault?_eq visible es]

end

variable {vs done : List Visit} {scope : List Nat} {visible : String → Bool}

theorem faulty_iff_actFault? {a : Act}
    (hpart : (∃ target, a = .assign target) ∨ ∃ record field, a = .access record field)
    (hvisible : ∀ name, visible name = true ↔ Visible (vs.take n) scope name) :
    Faulty vs n ⟨scope, p, a⟩ fault q ↔ actFault? visible a = some fault ∧ q = p := by
  obtain ⟨target, rfl⟩ | ⟨record, field, rfl⟩ := hpart
  case inl =>
    constructor
    case mp =>
      intro h
      cases h
      case target htarget => simp [actFault?, htarget]
    case mpr =>
      rintro ⟨h, rfl⟩
      rw [actFault?] at h
      split at h
      case isTrue => contradiction
      case isFalse htarget =>
        obtain rfl := Option.some.inj h
        exact .target (Bool.eq_false_iff.mpr htarget)
  case inr =>
    constructor
    case mp =>
      intro h
      cases h
      case access haccess => simp [actFault?, mt (hvisible record).mp haccess]
    case mpr =>
      rintro ⟨h, rfl⟩
      rw [actFault?] at h
      split at h
      case isTrue => contradiction
      case isFalse haccess =>
        obtain rfl := Option.some.inj h
        exact .access (mt (hvisible record).mpr haccess)

theorem visible_append (h : ∀ v ∈ us, ∀ name, v.act ≠ .declare name) {name : String} :
    Visible (done ++ us) scope name ↔ Visible done scope name := by
  constructor
  case mp =>
    rintro ⟨v, hv, hact, hscope⟩
    obtain hv | hv := List.mem_append.mp hv
    case inl => exact ⟨v, hv, hact, hscope⟩
    case inr => exact absurd hact (h v hv name)
  case mpr =>
    rintro ⟨v, hv, hact, hscope⟩
    exact ⟨v, List.mem_append_left us hv, hact, hscope⟩

theorem clean_or_fails_of_acts {as : List Act}
    (hparts : ∀ a ∈ as, (∃ target, a = .assign target) ∨ ∃ record field, a = .access record field)
    (h : Within vs done (as.map (.mk scope p)) scope)
    (hvisible : ∀ name, visible name = true ↔ Visible done scope name) :
    match as.findSome? (actFault? visible) with
    | none       => Clean vs done.length (done.length + as.length)
    | some fault => Fails vs done.length (done.length + as.length) (fault.toDiagnostic p) := by
  induction as generalizing done
  case nil => exact .empty vs _
  case cons a as ih =>
    rw [List.forall_mem_cons] at hparts
    have hv := h.getElem?
    have hfaulty : ∀ {fault q},
        Faulty vs done.length ⟨scope, p, a⟩ fault q ↔ actFault? visible a = some fault ∧ q = p :=
      faulty_iff_actFault? hparts.1 (by rwa [h.take])
    rw [List.findSome?_cons]
    cases hfault : actFault? visible a
    case some fault => exact (fails_single hv (hfaulty.mpr ⟨hfault, rfl⟩)).left (by simp)
    case none =>
      have hclean : Clean vs done.length (done.length + 1) :=
        clean_single hv fun fault q hf => by simp [hfaulty, hfault] at hf
      have hwithin : Within vs done ([⟨scope, p, a⟩] ++ as.map (.mk scope p)) scope := h
      have hrest := hwithin.right (.of_scope (by simp))
      have hnone : ∀ v ∈ [Visit.mk scope p a], ∀ name, v.act ≠ .declare name := by
        obtain ⟨_, rfl⟩ | ⟨_, _, rfl⟩ := hparts.1 <;> simp
      have hlast := ih hparts.2 hrest fun name => (hvisible name).trans (visible_append hnone).symm
      have hlength : done.length + (a :: as).length = (done ++ [Visit.mk scope p a]).length + as.length := by
        simp [Nat.add_assoc, Nat.add_comm 1]
      rw [hlength]
      generalize as.findSome? (actFault? visible) = fault? at hlast ⊢
      cases fault?
      case none => exact Clean.append (by simpa using hclean) hlast
      case some => exact Fails.right (by simpa using hclean) (by simp) hlast

theorem run_checkExpr (e : Expr) (p : Position) (s : State) :
    checkExpr e p s = match exprFault? s.isVisible e with
      | none       => (.ok (), s)
      | some fault => (.error (fault.toDiagnostic p), s) := by
  show (match exprFault? s.isVisible e with
    | none       => (pure () : Check Unit)
    | some fault => throw (fault.toDiagnostic p)) s = _
  cases exprFault? s.isVisible e <;> rfl

theorem carries_checkExpr (e : Expr) (p : Position) (h : Within vs done (exprVisits scope p e) scope) :
    Carries (checkExpr e p) vs done (exprVisits scope p e) scope := by
  intro s hs
  have hcheck := clean_or_fails_of_acts (mem_acts e) h hs.isVisible
  rw [← exprFault?_eq] at hcheck
  rw [run_checkExpr]
  generalize exprFault? s.isVisible e = fault? at hcheck ⊢
  have hlength : (exprVisits scope p e).length = (acts e).length := by simp [exprVisits]
  cases fault?
  case some => simpa [Carried, hlength] using hcheck
  case none =>
    rw [← hlength] at hcheck
    refine ⟨hcheck, hs.append fun v hv name hact => ?_⟩
    obtain ⟨_, h⟩ | ⟨_, _, h⟩ := act_of_mem_exprVisits hv <;> simp [h] at hact

end Exprs

section Stmts

variable {vs done : List Visit} {scope : List Nat} {p : Position} {name : String}

-- A visit that is not faulty and declares nothing.
theorem carries_pure_single {v : Visit} (h : Within vs done [v] scope)
    (hfaulty : ∀ fault p, ¬Faulty vs done.length v fault p) (hdeclare : ∀ name, v.act ≠ .declare name) :
    Carries (pure ()) vs done [v] scope :=
  fun _ hs => ⟨clean_single h.getElem? hfaulty, hs.append (by simpa using hdeclare)⟩

theorem carries_declare (h : Within vs done [⟨scope, p, .declare name⟩] scope) :
    Carries (modify (·.declare name p)) vs done [⟨scope, p, .declare name⟩] scope := by
  intro s hs
  obtain ⟨scopes, labels, events⟩ := s
  obtain ⟨m, ms, rfl⟩ : ∃ m ms, scopes = m :: ms := by cases hs.scopes <;> exact ⟨_, _, rfl⟩
  refine ⟨clean_single h.getElem? fun _ _ hf => (by cases hf), ?_, hs.labels⟩
  exact hs.scopes.declare name p

theorem run_declared (xs : List (String × Position)) (fault : String → Fault) (s : State) :
    declared xs fault s = match declareAll xs with
      | .ok m            => (.ok m, s)
      | .error (name, p) => (.error ((fault name).toDiagnostic p), s) := by
  unfold declared
  cases declareAll xs <;> rfl

theorem carries_record {members : List TypedName} (h : Within vs done [⟨scope, p, .record name members⟩] scope) :
    Carries (checkStmt (.record name members p)) vs done [⟨scope, p, .record name members⟩] scope := by
  intro s hs
  rw [checkStmt, run_bind, run_declared]
  cases hmembers : declareAll (namesOf members)
  case error x => exact fails_single h.getElem? (.member (declareAll_eq_error hmembers))
  case ok m =>
    have hnodup := (declareAll_eq_ok hmembers).1
    refine ⟨clean_single h.getElem? fun fault q hf => ?_, hs.append (by simp)⟩
    cases hf
    case member hrepeats => exact hrepeats.not_nodup hnodup

theorem run_goto (target : String) (p : Position) (s : State) :
    checkStmt (.goto target p) s =
      if s.labels.any (·.contains target) = true then (.ok (), s)
      else (.error ((Fault.unknownTarget target).toDiagnostic p), s) := by
  rw [checkStmt]
  show (if (!s.labels.any (·.contains target)) = true then throw ((Fault.unknownTarget target).toDiagnostic p)
    else (pure () : Check Unit)) s = _
  cases s.labels.any (·.contains target) <;> rfl

theorem carries_goto {target : String} (h : Within vs done [⟨scope, p, .goto target⟩] scope) :
    Carries (checkStmt (.goto target p)) vs done [⟨scope, p, .goto target⟩] scope := by
  intro s hs
  have hlabels := hs.labels target
  rw [run_goto]
  split
  case isTrue hknown =>
    obtain ⟨hscope, htarget⟩ := hlabels.mp hknown
    refine ⟨clean_single h.getElem? fun fault q hf => ?_, hs.append (by simp)⟩
    cases hf
    case goto hgoto => exact hgoto.elim hscope (absurd htarget)
  case isFalse hknown =>
    refine fails_single h.getElem? (.goto (Classical.byContradiction fun hgoto => hknown (hlabels.mpr ?_)))
    simpa using hgoto

theorem clean_of_declares (h : Within vs done (us ++ ws) scope) (hus : ∀ v ∈ us, ∃ name, v.act = .declare name) :
    Clean vs done.length (done.length + us.length) := by
  obtain ⟨after, rfl, _⟩ := h.rest
  rintro i hn hm fault p ⟨v, hv, hfaulty⟩
  rw [List.getElem?_append_right hn, List.append_assoc, List.getElem?_append_left (by omega)] at hv
  obtain ⟨name, hact⟩ := hus v (List.mem_of_getElem? hv)
  cases hfaulty <;> cases hact

-- The state in which the body of a function is checked.
theorem Matches.enter {formals : List TypedName} {m labels : Scope} (hs : Matches vs done scope s)
    (hdone : ∀ v ∈ done, k ∉ v.scope) (hm : ∀ name, m.contains name = true ↔ name ∈ names (namesOf formals))
    (hlabels : ∀ name, labels.contains name = true ↔ name ∈ names (labelsIn vs (k :: scope))) (events : List Event) :
    Matches vs (done ++ formals.map fun f => ⟨k :: scope, f.position, .declare f.name⟩) (k :: scope)
      ⟨m :: s.scopes, some labels, events⟩ where
  scopes := by
    refine hs.scopes.enter hdone (by simp) fun name => ?_
    simp [hm, names, namesOf, eq_comm]
  labels name := by simp [hlabels]

-- Leaving a function, its scope and its labels are gone.
theorem carried_withinFunction {check : Check Unit} {m labels : Scope} {s : State}
    (h : Carried vs done us (k :: scope) (check ⟨m :: s.scopes, some labels, s.events⟩))
    (hlabels : ∀ name, s.labels.any (·.contains name) = true ↔ scope ≠ [] ∧ name ∈ names (labelsIn vs scope)) :
    Carried vs done us scope (withinFunction name m labels check s) := by
  unfold withinFunction
  change Carried _ _ _ _ (check { s with scopes := m :: s.scopes, labels := some labels }) at h
  generalize check { s with scopes := m :: s.scopes, labels := some labels } = outcome at h ⊢
  obtain ⟨d | _, after⟩ := outcome
  case error =>
    obtain ⟨_ | _, _, _⟩ := after
    all_goals exact h
  case ok =>
    obtain ⟨hclean, hafter⟩ := h
    obtain ⟨scopes, _, _⟩ := after
    cases hafter.scopes
    case function houter _ => exact ⟨hclean, houter, hlabels⟩

-- What happens inside of a function: its formals are declared, its labels are known, and both are gone behind it.
theorem carries_function {formals : List TypedName} {body : List Stmt} {entry : Visit}
    {declared bodyVisits : List Visit}
    (hentry : entry = ⟨scope, p, .function name formals⟩)
    (hdeclared : declared = formals.map fun f => ⟨done.length :: scope, f.position, .declare f.name⟩)
    (hlabelsIn : labelsIn vs (done.length :: scope) = labelsOfAll body)
    (h : Within vs done (entry :: (declared ++ bodyVisits)) scope)
    (hbody : Carries (checkStmts body) vs (done ++ [entry] ++ declared) bodyVisits (done.length :: scope)) :
    Carries (checkStmt (.function name result formals body q p)) vs done (entry :: (declared ++ bodyVisits)) scope := by
  intro s hs
  rw [checkStmt, run_bind, run_declared]
  cases hformals : declareAll (namesOf formals)
  case error x =>
    have hfaulty : Faulty vs done.length entry (.duplicateFormal x.1 name) x.2 :=
      hentry ▸ .formal (declareAll_eq_error hformals)
    exact (fails_single h.getElem? hfaulty).left (by simp)
  case ok m =>
    obtain ⟨hnodup, hcontains⟩ := declareAll_eq_ok hformals
    show Carried _ _ _ _ ((Shape.declared (labelsOfAll body) .duplicateLabel >>= _) s)
    rw [run_bind, run_declared]
    cases hlabels : declareAll (labelsOfAll body)
    case error x =>
      have hrepeats : Repeats (labelsIn vs (done.length :: scope)) x := hlabelsIn ▸ declareAll_eq_error hlabels
      have hfaulty : Faulty vs done.length entry (.duplicateLabel x.1) x.2 := hentry ▸ .label hnodup hrepeats
      exact (fails_single h.getElem? hfaulty).left (by simp)
    case ok labels =>
      obtain ⟨hnodupLabels, hcontainsLabels⟩ := declareAll_eq_ok hlabels
      rw [← hlabelsIn] at hnodupLabels hcontainsLabels
      have hcleanEntry : Clean vs done.length (done.length + 1) := by
        refine clean_single h.getElem? fun fault q hf => ?_
        rw [hentry] at hf
        cases hf
        case formal hrepeats => exact hrepeats.not_nodup hnodup
        case label _ hrepeats => exact hrepeats.not_nodup hnodupLabels
      have hcleanDeclared := clean_of_declares (h.body (by rw [hentry])) (by rw [hdeclared]; simp)
      have hdone : ∀ v ∈ done ++ [entry], done.length ∉ v.scope := by
        refine List.forall_mem_append.mpr ⟨fun v hv hk => Nat.lt_irrefl _ (h.earlier v hv _ hk), ?_⟩
        rw [hentry]
        exact List.forall_mem_singleton.mpr fun hk => Nat.lt_irrefl _ (h.outer _ hk)
      let entered := s.report (scopeEvent "labels" name labels)
      have hentered : Matches vs (done ++ [entry]) scope entered := (hs.report _).append (by simp [hentry])
      have hinside := hbody _ (hdeclared ▸ hentered.enter hdone hcontains hcontainsLabels entered.events)
      have houtside : Carried _ _ _ _ (withinFunction name m labels (checkStmts body) entered) :=
        carried_withinFunction hinside hentered.labels
      have hwhole : Carried _ _ ([entry] ++ (declared ++ bodyVisits)) _ _ :=
        (houtside.prepend hcleanDeclared).prepend hcleanEntry
      exact hwhole

end Stmts

mutual

theorem carries_checkStmt {vs done : List Visit} {scope : List Nat} (s : Stmt)
    (h : Within vs done (visits scope done.length s) scope) :
    Carries (checkStmt s) vs done (visits scope done.length s) scope := by
  cases s
  case declare initial p =>
    cases initial <;> simp only [visits, checkStmt] at h ⊢
    case none => exact carries_declare h
    case some e =>
      have he := carries_checkExpr e p (h.left (.of_scope (by simp)))
      exact he.bind (carries_declare (h.right (.exprVisits p e)))
  case record =>
    simp only [visits] at h ⊢
    exact carries_record h
  case function name _ formals body _ p =>
    simp only [visits] at h ⊢
    refine carries_function rfl rfl (h.labelsIn_body rfl (by simp [labelsIn, Visit.label?])) h ?_
    have hinside := (h.body rfl).right (.of_scope (by simp))
    rw [← List.length_singleton (a := Visit.mk scope p (.function name formals)), ← List.length_append,
      ← List.length_append] at hinside ⊢
    exact carries_checkStmts body hinside
  case label =>
    simp only [visits, checkStmt] at h ⊢
    exact carries_pure_single h (fun _ _ hf => by cases hf) (by simp)
  case goto =>
    simp only [visits] at h ⊢
    exact carries_goto h
  case returning e p | expression e p =>
    simp only [visits, checkStmt] at h ⊢
    exact carries_checkExpr e p h
  case branch test body otherwise p =>
    cases otherwise <;> simp only [visits, checkStmt] at h ⊢
    case none =>
      have htest := carries_checkExpr test p (h.left ((placed_visits ..).append (.of_scope (by simp))))
      have hrest := h.right (.exprVisits p test)
      rw [← List.length_append] at hrest ⊢
      have hbody := carries_checkStmt body (hrest.left (.of_scope (by simp)))
      exact htest.bind (hbody.bind (.pure vs _ scope))
    case some s =>
      have htest := carries_checkExpr test p (h.left ((placed_visits ..).append (placed_visits ..)))
      have hrest := h.right (.exprVisits p test)
      rw [← List.length_append] at hrest ⊢
      have hbody := carries_checkStmt body (hrest.left (placed_visits ..))
      have hotherwise := hrest.right (placed_visits ..)
      rw [← List.length_append] at hotherwise ⊢
      exact htest.bind (hbody.bind (carries_checkStmt s hotherwise))
  case loop test body p =>
    simp only [visits, checkStmt] at h ⊢
    have htest := carries_checkExpr test p (h.left (placed_visits ..))
    have hrest := h.right (.exprVisits p test)
    rw [← List.length_append] at hrest ⊢
    exact htest.bind (carries_checkStmt body hrest)
  case block body _ =>
    simp only [visits, checkStmt] at h ⊢
    exact carries_checkStmts body h

theorem carries_checkStmts {vs done : List Visit} {scope : List Nat} (ss : List Stmt)
    (h : Within vs done (visitsOfAll scope done.length ss) scope) :
    Carries (checkStmts ss) vs done (visitsOfAll scope done.length ss) scope := by
  cases ss <;> simp only [visitsOfAll, checkStmts] at h ⊢
  case nil => exact .pure vs done scope
  case cons s ss =>
    have hplaced := placed_visits scope done.length s
    have hs := carries_checkStmt s (h.left (placed_visitsOfAll ..))
    have hrest := h.right hplaced
    rw [← List.length_append] at hrest ⊢
    exact hs.bind (carries_checkStmts ss hrest)

end

theorem check_eq (p : Program) : p.check.1 = (checkStmts p.body .initial).1 := by
  show (checkProgram p .initial).1 = _
  rw [checkProgram, run_bind]
  obtain ⟨_ | _, _⟩ := checkStmts p.body .initial <;> rfl

theorem within_programVisits (p : Program) : Within (programVisits p) [] (programVisits p) [] where
  rest    := ⟨[], by simp⟩
  earlier := by simp
  outer   := by simp

theorem matches_initial (vs : List Visit) : Matches vs [] [] .initial where
  scopes := .outermost (by simp)
  labels := by simp [State.initial]

theorem Fails.unique (h : Fails vs n m d) (h' : Fails vs n m d') : d = d' := by
  obtain ⟨i, fault, p, hn, hm, hbreaks, rfl, hclean⟩ := h
  obtain ⟨j, fault', p', hn', hm', hbreaks', rfl, hclean'⟩ := h'
  obtain hlt | rfl | hlt := Nat.lt_trichotomy i j
  case inl => exact absurd hbreaks (hclean' i hn hlt fault p)
  case inr.inl =>
    obtain ⟨rfl, rfl⟩ := hbreaks.unique hbreaks'
    rfl
  case inr.inr => exact absurd hbreaks' (hclean j hn' hlt fault' p')

theorem Fails.not_clean (h : Fails vs n m d) : ¬Clean vs n m := by
  obtain ⟨i, fault, p, hn, hm, hbreaks, _, _⟩ := h
  exact fun hclean => hclean i hn hm fault p hbreaks

theorem fails_iff {vs : List Visit} :
    Fails vs 0 vs.length d ↔
      ∃ i fault p, Breaks vs i fault p ∧ d = fault.toDiagnostic p ∧ ∀ j < i, ∀ fault' p', ¬Breaks vs j fault' p' := by
  constructor
  case mp =>
    rintro ⟨i, fault, p, _, _, hbreaks, hd, hclean⟩
    exact ⟨i, fault, p, hbreaks, hd, fun j hj => hclean j (Nat.zero_le j) hj⟩
  case mpr =>
    rintro ⟨i, fault, p, hbreaks, hd, hfirst⟩
    obtain ⟨v, hv, _⟩ := id hbreaks
    exact ⟨i, fault, p, Nat.zero_le i, (List.getElem?_eq_some_iff.mp hv).1, hbreaks, hd, fun j _ hj => hfirst j hj⟩

-- A program passes the check exactly if it has the right shape. Otherwise the diagnostic is that of its first fault, in
-- the order of its visits.
theorem check_iff_wellShaped (p : Program) :
    (p.check.1 = .ok () ↔ WellShaped (programVisits p)) ∧
    ∀ d, p.check.1 = .error d ↔
      ∃ i fault position, Breaks (programVisits p) i fault position ∧ d = fault.toDiagnostic position ∧
        ∀ j < i, ∀ fault' position', ¬Breaks (programVisits p) j fault' position' := by
  have hplaced : Placed [] 0 (programVisits p) := placed_visitsOfAll [] 0 p.body
  have hcarried : Carried (programVisits p) [] (programVisits p) [] (checkStmts p.body .initial) :=
    carries_checkStmts p.body (within_programVisits p) _ (matches_initial _)
  rw [check_eq]
  generalize checkStmts p.body .initial = outcome at hcarried ⊢
  obtain ⟨d | _, s⟩ := outcome
  case error =>
    have hfails : Fails (programVisits p) 0 (programVisits p).length d := by simpa [Carried] using hcarried
    constructor
    case left => exact iff_of_false (by simp) fun h => hfails.not_clean h.clean
    case right =>
      intro d'
      rw [← fails_iff]
      exact ⟨fun h => Except.error.inj h ▸ hfails, fun h => by rw [hfails.unique h]⟩
  case ok =>
    have hclean : Clean (programVisits p) 0 (programVisits p).length := by simpa using hcarried.1
    constructor
    case left => exact iff_of_true rfl (hclean.wellShaped hplaced)
    case right =>
      intro d
      rw [← fails_iff]
      exact iff_of_false (by simp) fun h => h.not_clean hclean

end BasicFrontEnd.Shape
