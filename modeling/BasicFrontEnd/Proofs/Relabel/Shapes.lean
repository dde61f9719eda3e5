import BasicFrontEnd.Proofs.Relabel.Trees
import BasicFrontEnd.Proofs.Shape.Decides

/-!
The check of a relabelled program goes the same way step by step, since a scope is asked for nothing but whether it
holds a name. Main statement: `Program.check_relabel`.
-/

namespace BasicFrontEnd

namespace Shape

variable {r : Relabelling} {m m' : Scope} {s s' : State}

section Scopes

-- The second map holds the relabelled names of the first. Where in its slots they are does not matter.
def SameNames (r : Relabelling) (m m' : Scope) : Prop :=
  ∀ name, m'.contains (r.name name) = m.contains name

theorem SameNames.empty : SameNames r .empty .empty := fun _ => by
  rw [ChainedMap.contains_empty, ChainedMap.contains_empty]

theorem SameNames.insert (h : SameNames r m m') (name : String) (p p' : Position) :
    SameNames r (m.insert name p) (m'.insert (r.name name) p') := by
  intro other
  rw [Bool.eq_iff_iff, ChainedMap.contains_insert, ChainedMap.contains_insert, h, r.injective.eq_iff]

-- A declared name and its place.
def relabelName (r : Relabelling) (x : String × Position) : String × Position :=
  (r.name x.1, r.place x.2)

theorem declareAll_relabel (h : SameNames r m m') (xs : List (String × Position)) :
    (∃ n n', declareAll xs m = .ok n ∧ declareAll (xs.map (relabelName r)) m' = .ok n' ∧ SameNames r n n') ∨
    ∃ x, declareAll xs m = .error x ∧ declareAll (xs.map (relabelName r)) m' = .error (relabelName r x) := by
  induction xs generalizing m m'
  case nil => exact .inl ⟨m, m', rfl, rfl, h⟩
  case cons x xs ih =>
    obtain ⟨name, p⟩ := x
    rw [List.map_cons, relabelName, declareAll, declareAll, h name]
    split
    case isTrue => exact .inr ⟨(name, p), rfl, rfl⟩
    case isFalse => exact ih (h.insert name p _)

theorem namesOf_relabel (ts : List TypedName) :
    namesOf (ts.map (·.relabel r)) = (namesOf ts).map (relabelName r) := by
  simp [namesOf, relabelName, TypedName.relabel]

mutual

theorem labels_relabel : ∀ s : Stmt, labels (s.relabel r) = (labels s).map (relabelName r)
  | .label _ _ => by rw [Stmt.relabel, labels, labels]; rfl
  | .branch _ body none _ => by
    simp only [Stmt.relabel, labels, labels_relabel body, List.append_nil]
  | .branch _ body (some otherwise) _ => by
    simp only [Stmt.relabel, labels, labels_relabel body, labels_relabel otherwise, List.map_append]
  | .loop _ body _ => by rw [Stmt.relabel, labels, labels, labels_relabel body]
  | .block body _ => by rw [Stmt.relabel, labels, labels, labelsOfAll_relabel body]
  | .declare _ _ _ _ | .record _ _ _ | .function _ _ _ _ _ _ | .goto _ _ | .returning _ _ | .expression _ _ => by
    simp only [Stmt.relabel, labels, List.map_nil]

theorem labelsOfAll_relabel : ∀ ss : List Stmt,
    labelsOfAll (Stmt.relabels r ss) = (labelsOfAll ss).map (relabelName r)
  | []      => by rw [Stmt.relabels, labelsOfAll, List.map_nil]
  | s :: ss => by
    rw [Stmt.relabels, labelsOfAll, labelsOfAll, labels_relabel s, labelsOfAll_relabel ss, List.map_append]

end

end Scopes

section Exprs

variable {visible visible' : String → Bool}

mutual

theorem exprFault?_relabel (h : ∀ name, visible' (r.name name) = visible name) : ∀ e : Expr,
    exprFault? visible' (e.relabel r) = (exprFault? visible e).map (·.relabel r)
  | .assign target value => by
    rw [Expr.relabel, exprFault?, exprFault?, exprFault?_relabel h target, exprFault?_relabel h value,
      target.isTarget_relabel, target.kindName_relabel, ← Option.map_or]
    split <;> rfl
  | .member record field => by
    rw [Expr.relabel, exprFault?, exprFault?, h]
    split <;> rfl
  | .call _ arguments => by rw [Expr.relabel, exprFault?, exprFault?, exprsFault?_relabel h arguments]
  | .binary _ left right => by
    rw [Expr.relabel, exprFault?, exprFault?, exprFault?_relabel h left, exprFault?_relabel h right, Option.map_or]
  | .negate operand | .not operand => by rw [Expr.relabel, exprFault?, exprFault?, exprFault?_relabel h operand]
  | .array elements => by rw [Expr.relabel, exprFault?, exprFault?, exprsFault?_relabel h elements]
  | .index base indices => by
    rw [Expr.relabel, exprFault?, exprFault?, exprFault?_relabel h base, exprsFault?_relabel h indices, Option.map_or]
  | .empty | .identifier _ | .integer _ | .float _ | .string _ | .boolean _ | .nil => by
    rw [Expr.relabel, exprFault?, exprFault?, Option.map_none]

theorem exprsFault?_relabel (h : ∀ name, visible' (r.name name) = visible name) : ∀ es : List Expr,
    exprsFault? visible' (Expr.relabels r es) = (exprsFault? visible es).map (·.relabel r)
  | []      => by rw [Expr.relabels, exprsFault?, exprsFault?, Option.map_none]
  | e :: es => by
    rw [Expr.relabels, exprsFault?, exprsFault?, exprFault?_relabel h e, exprsFault?_relabel h es, Option.map_or]

end

end Exprs

section Functions

-- The state in which the body of a function is checked.
def State.within (s : State) (scope labels : Scope) : State :=
  { s with scopes := scope :: s.scopes, labels := some labels }

-- The state behind a function whose body leaves `after`.
def State.behind (s after : State) (function : String) : State :=
  match after.scopes with
  | []              => { after with labels := s.labels }
  | locals :: outer =>
    { after with scopes := outer, labels := s.labels }.report (scopeEvent "locals" function locals)

theorem run_withinFunction (name : String) (m labels : Scope) (check : Check Unit) (s : State) :
    withinFunction name m labels check s =
      ((check (s.within m labels)).1, s.behind (check (s.within m labels)).2 name) := by
  rw [withinFunction, State.within]
  generalize check { s with scopes := m :: s.scopes, labels := some labels } = outcome
  obtain ⟨res, ⟨_ | ⟨_, _⟩, _, _⟩⟩ := outcome <;> rfl

end Functions

section Checks

-- The states of both checks: the same names are declared in the open scopes, and the same labels are known.
structure State.Twin (r : Relabelling) (s s' : State) : Prop where
  scopes : List.Forall₂ (SameNames r) s.scopes s'.scopes
  labels : Option.Rel (SameNames r) s.labels s'.labels

theorem State.Twin.isVisible (h : s.Twin r s') (name : String) : s'.isVisible (r.name name) = s.isVisible name := by
  have hscopes := h.scopes
  rw [State.isVisible, State.isVisible]
  generalize s.scopes = scopes at hscopes ⊢
  generalize s'.scopes = scopes' at hscopes ⊢
  induction hscopes
  case nil => rfl
  case cons hm _ ih => rw [List.any_cons, List.any_cons, ih, hm]

theorem State.Twin.hasLabel (h : s.Twin r s') (name : String) :
    s'.labels.any (·.contains (r.name name)) = s.labels.any (·.contains name) := by
  have hlabels := h.labels
  generalize s.labels = labels at hlabels ⊢
  generalize s'.labels = labels' at hlabels ⊢
  cases hlabels
  case none => rfl
  case some h => exact h name

theorem State.Twin.declare (h : s.Twin r s') (name : String) (p p' : Position) :
    (s.declare name p).Twin r (s'.declare (r.name name) p') := by
  obtain ⟨scopes, labels, events⟩ := s
  obtain ⟨scopes', labels', events'⟩ := s'
  obtain ⟨hscopes, hlabels⟩ := h
  cases hscopes
  case nil => exact ⟨.nil, hlabels⟩
  case cons hm hscopes => exact ⟨.cons (hm.insert name p p') hscopes, hlabels⟩

theorem State.Twin.within {labels labels' : Scope} (h : s.Twin r s') (hm : SameNames r m m')
    (hlabels : SameNames r labels labels') : (s.within m labels).Twin r (s'.within m' labels') :=
  ⟨.cons hm h.scopes, .some hlabels⟩

theorem State.Twin.behind {t t' : State} (h : s.Twin r s') (ht : t.Twin r t') (name name' : String) :
    (s.behind t name).Twin r (s'.behind t' name') := by
  obtain ⟨scopes, labels, events⟩ := t
  obtain ⟨scopes', labels', events'⟩ := t'
  obtain ⟨hscopes, -⟩ := ht
  cases hscopes
  case nil => exact ⟨.nil, h.labels⟩
  case cons houter => exact ⟨houter, h.labels⟩

theorem State.twin_initial : State.initial.Twin r .initial :=
  ⟨.cons .empty .nil, .none⟩

def Check.Relabels (r : Relabelling) (check check' : Check Unit) : Prop :=
  ∀ s s', s.Twin r s' → Relabelled r id (State.Twin r) (check s) (check' s')

namespace Check.Relabels

variable {check check' next next' : Check Unit}

theorem pure : Check.Relabels r (Pure.pure ()) (Pure.pure ()) :=
  fun _ _ h => .ok h

theorem bind (h : Check.Relabels r check check') (hnext : Check.Relabels r next next') :
    Check.Relabels r (check >>= fun _ => next) (check' >>= fun _ => next') := by
  intro s s' hs
  have h := h s s' hs
  rw [run_bind, run_bind]
  generalize check s = res at h
  generalize check' s' = res' at h
  cases h
  case ok ht => exact hnext _ _ ht
  case error hd ht => exact .error hd ht

theorem modify {f f' : State → State} (h : ∀ s s', s.Twin r s' → (f s).Twin r (f' s')) :
    Check.Relabels r (modify f) (modify f') :=
  fun s s' hs => .ok (h s s' hs)

theorem expr (e : Expr) (p : Position) : Check.Relabels r (checkExpr e p) (checkExpr (e.relabel r) (r.place p)) := by
  intro s s' hs
  rw [run_checkExpr, run_checkExpr, exprFault?_relabel hs.isVisible]
  cases exprFault? s.isVisible e
  case none => exact .ok hs
  case some fault => exact .error (.tree fault p) hs

-- Names are declared in both, or come again in both.
theorem declared_bind {xs : List (String × Position)} {fault fault' : String → Fault} {next next' : Scope → Check Unit}
    (hfault : ∀ name, fault' (r.name name) = (fault name).relabel r)
    (hnext : ∀ m m', SameNames r m m' → Check.Relabels r (next m) (next' m')) :
    Check.Relabels r (declared xs fault >>= next) (declared (xs.map (relabelName r)) fault' >>= next') := by
  intro s s' hs
  rw [run_bind, run_bind, run_declared, run_declared]
  obtain ⟨m, m', hm, hm', h⟩ | ⟨x, hx, hx'⟩ := declareAll_relabel (SameNames.empty (r := r)) xs
  case inl =>
    rw [hm, hm']
    exact hnext m m' h s s' hs
  case inr =>
    have hd : Diagnostic.Relabels r ((fault x.1).toDiagnostic x.2) ((fault' (r.name x.1)).toDiagnostic (r.place x.2)) :=
      hfault x.1 ▸ .tree (fault x.1) x.2
    rw [hx, hx']
    exact .error hd hs

theorem withinFunction {name name' : String} {labels labels' : Scope} (hm : SameNames r m m')
    (hlabels : SameNames r labels labels') (h : Check.Relabels r check check') :
    Check.Relabels r (withinFunction name m labels check) (withinFunction name' m' labels' check') := by
  intro s s' hs
  have h := h _ _ (hs.within hm hlabels)
  rw [run_withinFunction, run_withinFunction]
  generalize check (s.within m labels) = res at h
  generalize check' (s'.within m' labels') = res' at h
  cases h
  case ok ht => exact .ok (hs.behind ht name name')
  case error hd ht => exact .error hd (hs.behind ht name name')

end Check.Relabels

end Checks

section Stmts

mutual

theorem checkStmt_relabels : ∀ s : Stmt, Check.Relabels r (checkStmt s) (checkStmt (s.relabel r))
  | .declare name _ none p => by
    simp only [Stmt.relabel, Option.map_none, checkStmt]
    exact .bind .pure <| .modify fun _ _ hs => hs.declare name p _
  | .declare name _ (some e) p => by
    simp only [Stmt.relabel, Option.map_some, checkStmt]
    exact .bind (.expr e p) <| .modify fun _ _ hs => hs.declare name p _
  | .record name members _ => by
    rw [Stmt.relabel, checkStmt, checkStmt, namesOf_relabel]
    exact .declared_bind (fun _ => rfl) fun _ _ _ => .pure
  | .function name _ formals body _ _ => by
    rw [Stmt.relabel, checkStmt, checkStmt, namesOf_relabel, labelsOfAll_relabel]
    refine .declared_bind (fun _ => rfl) fun m m' hm => .declared_bind (fun _ => rfl) fun labels labels' hlabels => ?_
    refine .bind (.modify fun _ _ hs => ⟨hs.scopes, hs.labels⟩) ?_
    exact .withinFunction hm hlabels (checkStmts_relabels body)
  | .label _ _ => by
    rw [Stmt.relabel, checkStmt, checkStmt]
    exact .pure
  | .goto target p => by
    intro s s' hs
    rw [Stmt.relabel, run_goto, run_goto, hs.hasLabel]
    split
    case isTrue => exact .ok hs
    case isFalse => exact .error (.tree (.unknownTarget target) p) hs
  | .returning e p | .expression e p => by
    rw [Stmt.relabel, checkStmt, checkStmt]
    exact .expr e p
  | .branch test body none p => by
    simp only [Stmt.relabel, checkStmt]
    exact .bind (.expr test p) <| .bind (checkStmt_relabels body) .pure
  | .branch test body (some otherwise) p => by
    simp only [Stmt.relabel, checkStmt]
    exact .bind (.expr test p) <| .bind (checkStmt_relabels body) (checkStmt_relabels otherwise)
  | .loop test body p => by
    rw [Stmt.relabel, checkStmt, checkStmt]
    exact .bind (.expr test p) (checkStmt_relabels body)
  | .block body _ => by
    rw [Stmt.relabel, checkStmt, checkStmt]
    exact checkStmts_relabels body

theorem checkStmts_relabels : ∀ ss : List Stmt, Check.Relabels r (checkStmts ss) (checkStmts (Stmt.relabels r ss))
  | [] => by
    rw [Stmt.relabels, checkStmts]
    exact .pure
  | s :: ss => by
    rw [Stmt.relabels, checkStmts, checkStmts]
    exact .bind (checkStmt_relabels s) (checkStmts_relabels ss)

end

end Stmts

end Shape

-- The check passes both programs, or finds the same fault in both.
theorem Program.check_relabel (r : Relabelling) (p : Program) : Agrees r id p.check.1 (p.relabel r).check.1 := by
  rw [Shape.check_eq, Shape.check_eq, Program.relabel, ← Stmt.relabels_eq_map]
  exact (Shape.checkStmts_relabels p.body _ _ Shape.State.twin_initial).agrees

end BasicFrontEnd
