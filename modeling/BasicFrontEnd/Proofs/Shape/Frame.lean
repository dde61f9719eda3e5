import BasicFrontEnd.Proofs.ChainedMap.Entries
import BasicFrontEnd.Proofs.Relabel.Shapes

/-!
What a check leaves behind, whether it passes or fails. A statement is checked step by step, and a function within it
is one step: it leaves the scopes and the labels as they were, however it ends. So of all that a check knew before, only
the innermost scope can differ, and there a declaration that has been passed is put last. Main statement:
`check_frames`.
-/

namespace BasicFrontEnd.Shape

open ChainedMap (Entry)

-- What is done to check a statement, apart from what is done inside of functions.
inductive Step
  | test (e : Expr) (p : Position)
  | declare (name : String) (p : Position)
  | record (name : String) (members : List TypedName) (p : Position)
  | function (name : String) (result : TypeSpec) (formals : List TypedName) (body : List Stmt) (q p : Position)
  | goto (target : String) (p : Position)

namespace Step

def check : Step → Check Unit
  | test e p                               => checkExpr e p
  | declare name p                         => modify (·.declare name p)
  | record name members p                  => checkStmt (.record name members p)
  | function name result formals body q p  => checkStmt (.function name result formals body q p)
  | goto target p                          => checkStmt (.goto target p)

-- What the step adds to the innermost scope.
def entries : Step → List (Entry Position)
  | declare name p => [⟨name, p⟩]
  | _              => []

end Step

mutual

def stepsOf : Stmt → List Step
  | .declare name _ initial p => (initial.map (Step.test · p)).toList ++ [.declare name p]
  | .record name members p => [.record name members p]
  | .function name result formals body q p => [.function name result formals body q p]
  | .label _ _ => []
  | .goto target p => [.goto target p]
  | .returning e p | .expression e p => [.test e p]
  | .branch test body otherwise p =>
    .test test p :: (stepsOf body ++
      match otherwise with
      | none   => []
      | some s => stepsOf s)
  | .loop test body p => .test test p :: stepsOf body
  | .block body _ => stepsOfAll body

def stepsOfAll : List Stmt → List Step
  | []      => []
  | s :: ss => stepsOf s ++ stepsOfAll ss

end

section Runs

-- The steps pass one after the other.
inductive Passes : State → List Step → State → Prop
  | nil  : Passes s [] s
  | cons : step.check s = (.ok (), t) → Passes t steps u → Passes s (step :: steps) u

-- The steps all pass, or those before the first one that fails do.
inductive Ends (s : State) : List Step → Except Diagnostic Unit × State → Prop
  | passed : Passes s steps t → Ends s steps (.ok (), t)
  | failed : Passes s before t → step.check t = (.error d, u) → Ends s (before ++ step :: after) (.error d, u)

variable {s t u : State} {steps steps' : List Step}

theorem Passes.append (h : Passes s steps t) (h' : Passes t steps' u) : Passes s (steps ++ steps') u := by
  induction h
  case nil => exact h'
  case cons hstep _ ih => exact .cons hstep (ih h')

namespace Ends

theorem done (s : State) : Ends s [] ((pure () : Check Unit) s) :=
  .passed .nil

theorem single (step : Step) (s : State) : Ends s [step] (step.check s) := by
  generalize h : step.check s = outcome
  obtain ⟨d | _, t⟩ := outcome
  case error => exact .failed .nil h
  case ok => exact .passed (.cons h .nil)

theorem bind {check check' : Check Unit} (h : Ends s steps (check s)) (h' : ∀ t, Ends t steps' (check' t)) :
    Ends s (steps ++ steps') ((check >>= fun _ => check') s) := by
  rw [run_bind]
  generalize check s = outcome at h ⊢
  cases h
  case failed hbefore hstep =>
    rw [List.append_assoc]
    exact .failed hbefore hstep
  case passed t ht =>
    have h' := h' t
    dsimp only
    generalize check' t = outcome at h' ⊢
    cases h'
    case passed ht' => exact .passed (ht.append ht')
    case failed hbefore hstep =>
      rw [← List.append_assoc]
      exact .failed (ht.append hbefore) hstep

end Ends

mutual

-- A statement is checked by its steps.
theorem ends_checkStmt (s : State) : ∀ stmt : Stmt, Ends s (stepsOf stmt) (checkStmt stmt s)
  | .declare name _ none p => by
    simp only [stepsOf, checkStmt]
    exact (Ends.done s).bind (.single (.declare name p))
  | .declare name _ (some e) p => by
    simp only [stepsOf, checkStmt]
    exact (Ends.single (.test e p) s).bind (.single (.declare name p))
  | .record name members p => by
    rw [stepsOf]
    exact .single (.record name members p) s
  | .function name result formals body q p => by
    rw [stepsOf]
    exact .single (.function name result formals body q p) s
  | .label _ _ => by
    rw [stepsOf, checkStmt]
    exact .done s
  | .goto target p => by
    rw [stepsOf]
    exact .single (.goto target p) s
  | .returning e p | .expression e p => by
    rw [stepsOf, checkStmt]
    exact .single (.test e p) s
  | .branch test body none p => by
    simp only [stepsOf, checkStmt]
    exact (Ends.single (.test test p) s).bind fun t => (ends_checkStmt t body).bind .done
  | .branch test body (some otherwise) p => by
    simp only [stepsOf, checkStmt]
    exact (Ends.single (.test test p) s).bind fun t => (ends_checkStmt t body).bind (ends_checkStmt · otherwise)
  | .loop test body p => by
    rw [stepsOf, checkStmt]
    exact (Ends.single (.test test p) s).bind (ends_checkStmt · body)
  | .block body _ => by
    rw [stepsOf, checkStmt]
    exact ends_checkStmts s body

theorem ends_checkStmts (s : State) : ∀ stmts : List Stmt, Ends s (stepsOfAll stmts) (checkStmts stmts s)
  | [] => by
    rw [stepsOfAll, checkStmts]
    exact .done s
  | stmt :: stmts => by
    rw [stepsOfAll, checkStmts]
    exact (ends_checkStmt s stmt).bind (ends_checkStmts · stmts)

end

end Runs

section Frames

variable {s t u : State} {steps : List Step} {es fs : List (Entry Position)}

-- The scopes with the entries put last into the innermost one.
def grow (es : List (Entry Position)) : List Scope → List Scope
  | []      => []
  | m :: ms => m.insertAll es :: ms

-- From `s` to `t` the innermost scope has got the entries, and of the labels and the other scopes nothing has changed.
structure Grown (s t : State) (es : List (Entry Position)) : Prop where
  labels : t.labels = s.labels
  scopes : t.scopes = grow es s.scopes

theorem grow_nil (ms : List Scope) : grow [] ms = ms := by
  cases ms <;> rfl

theorem grow_append (es fs : List (Entry Position)) (ms : List Scope) : grow (es ++ fs) ms = grow fs (grow es ms) := by
  cases ms
  case nil => rfl
  case cons m ms => exact congrArg (· :: ms) (m.insertAll_append es fs)

namespace Grown

theorem refl (s : State) : Grown s s [] :=
  ⟨rfl, (grow_nil _).symm⟩

theorem trans (h : Grown s t es) (h' : Grown t u fs) : Grown s u (es ++ fs) where
  labels := h'.labels.trans h.labels
  scopes := by rw [h'.scopes, h.scopes, grow_append]

-- Behind a function, its scope is gone with all that has been put into it.
theorem behind {m labels : Scope} (h : Grown (s.within m labels) t es) (name : String) :
    Grown s (s.behind t name) [] := by
  obtain ⟨scopes, _, _⟩ := t
  obtain rfl : scopes = m.insertAll es :: s.scopes := h.scopes
  exact ⟨rfl, (grow_nil _).symm⟩

end Grown

-- However the step ends, what it leaves is what it found, with its entry put last into the innermost scope.
def Step.Frames (step : Step) : Prop :=
  ∀ s, Grown s (step.check s).2 step.entries

theorem Step.entries_of_error {step : Step} (h : step.check s = (.error d, t)) : step.entries = [] := by
  cases step
  case declare => cases h
  all_goals rfl

theorem Passes.grown (h : Passes s steps t) (hsteps : ∀ step ∈ steps, step.Frames) :
    Grown s t (steps.flatMap Step.entries) := by
  induction h
  case nil => exact .refl _
  case cons t _ _ s step hstep _ ih =>
    rw [List.forall_mem_cons] at hsteps
    have hfirst : Grown s t step.entries := by simpa only [hstep] using hsteps.1 s
    exact hfirst.trans (ih hsteps.2)

theorem Step.Frames.grown_of_error {step : Step} (hframes : step.Frames) (h : step.check s = (.error d, t)) :
    Grown s t [] := by
  have hgrown := hframes s
  rwa [h, Step.entries_of_error h] at hgrown

theorem Ends.exists_grown (h : Ends s steps outcome) (hsteps : ∀ step ∈ steps, step.Frames) :
    ∃ es, Grown s outcome.2 es := by
  cases h
  case passed h => exact ⟨_, h.grown hsteps⟩
  case failed hbefore hstep =>
    rw [List.forall_mem_append, List.forall_mem_cons] at hsteps
    exact ⟨_, (hbefore.grown hsteps.1).trans (hsteps.2.1.grown_of_error hstep)⟩

theorem frames_test (e : Expr) (p : Position) : (Step.test e p).Frames := by
  intro s
  rw [Step.check, run_checkExpr]
  cases exprFault? s.isVisible e <;> exact .refl s

theorem frames_declare (name : String) (p : Position) : (Step.declare name p).Frames := by
  rintro ⟨_ | ⟨m, ms⟩, labels, events⟩ <;> exact ⟨rfl, rfl⟩

theorem frames_record (name : String) (members : List TypedName) (p : Position) :
    (Step.record name members p).Frames := by
  intro s
  rw [Step.check, checkStmt, run_bind, run_declared]
  cases declareAll (namesOf members) <;> exact .refl s

theorem frames_goto (target : String) (p : Position) : (Step.goto target p).Frames := by
  intro s
  rw [Step.check, run_goto]
  split <;> exact .refl s

-- A function leaves nothing behind if the check of its body changes no scope but that of the function.
theorem frames_function {body : List Stmt} (hbody : ∀ s, ∃ es, Grown s (checkStmts body s).2 es) (name : String)
    (result : TypeSpec) (formals : List TypedName) (q p : Position) :
    (Step.function name result formals body q p).Frames := by
  intro s
  rw [Step.check, checkStmt, run_bind, run_declared]
  -- Before the scope is opened, a formal or a label that comes again ends the check.
  cases declareAll (namesOf formals)
  case error => exact .refl s
  case ok m =>
    dsimp only
    rw [run_bind, run_declared]
    cases declareAll (labelsOfAll body)
    case error => exact .refl s
    case ok labels =>
      obtain ⟨es, hes⟩ := hbody ((s.report (scopeEvent "labels" name labels)).within m labels)
      show Grown s (withinFunction name m labels (checkStmts body) (s.report (scopeEvent "labels" name labels))).2 []
      rw [run_withinFunction]
      exact ⟨(hes.behind name).labels, (hes.behind name).scopes⟩

mutual

theorem frames_of_mem_stepsOf : ∀ stmt : Stmt, ∀ step ∈ stepsOf stmt, step.Frames
  | .declare name _ none p => by
    simpa [stepsOf] using frames_declare name p
  | .declare name _ (some e) p => by
    simpa [stepsOf] using ⟨frames_test e p, frames_declare name p⟩
  | .record name members p => by
    simpa [stepsOf] using frames_record name members p
  | .function name result formals body q p => by
    have hbody s := (ends_checkStmts s body).exists_grown (frames_of_mem_stepsOfAll body)
    simpa [stepsOf] using frames_function hbody name result formals q p
  | .label _ _ => by
    simp [stepsOf]
  | .goto target p => by
    simpa [stepsOf] using frames_goto target p
  | .returning e p | .expression e p => by
    simpa [stepsOf] using frames_test e p
  | .branch test body none p => by
    simpa [stepsOf] using ⟨frames_test test p, frames_of_mem_stepsOf body⟩
  | .branch test body (some otherwise) p => by
    simp only [stepsOf, List.forall_mem_cons, List.forall_mem_append]
    exact ⟨frames_test test p, frames_of_mem_stepsOf body, frames_of_mem_stepsOf otherwise⟩
  | .loop test body p => by
    simpa [stepsOf] using ⟨frames_test test p, frames_of_mem_stepsOf body⟩
  | .block body _ => by
    rw [stepsOf]
    exact frames_of_mem_stepsOfAll body

theorem frames_of_mem_stepsOfAll : ∀ stmts : List Stmt, ∀ step ∈ stepsOfAll stmts, step.Frames
  | []            => by simp [stepsOfAll]
  | stmt :: stmts => by
    rw [stepsOfAll, List.forall_mem_append]
    exact ⟨frames_of_mem_stepsOf stmt, frames_of_mem_stepsOfAll stmts⟩

end

end Frames

-- A function leaves the scopes and the labels exactly as they were, whether it passes or has a fault at any depth. Any
-- statement leaves the labels, the number of scopes and all scopes but the innermost one. That one keeps what it has,
-- and behind it in each slot come the entries of the declarations passed, in order: all those of the statement, or
-- those before the step that fails.
theorem check_frames (s : State) :
    (∀ name result formals body q p,
      let t := (checkStmt (.function name result formals body q p) s).2
      t.scopes = s.scopes ∧ t.labels = s.labels) ∧
    ∀ stmt, let (outcome, t) := checkStmt stmt s
      t.labels = s.labels ∧ t.scopes.length = s.scopes.length ∧ t.scopes.tail = s.scopes.tail ∧
      ∃ passed rest u, stepsOf stmt = passed ++ rest ∧ Passes s passed u ∧
        (match outcome with
          | .ok _    => rest = [] ∧ t = u
          | .error d => ∃ step after, rest = step :: after ∧ step.check u = (.error d, t)) ∧
        ∀ m ∈ s.scopes.head?, ∃ m' ∈ t.scopes.head?,
          m'.size = m.size + (passed.flatMap Step.entries).length ∧
          ∀ i, m'.entriesAt i = m.entriesAt i ++ ChainedMap.inSlot i (passed.flatMap Step.entries) := by
  have hgrown {t : State} {es : List (Entry Position)} (h : Grown s t es) :
      t.labels = s.labels ∧ t.scopes.length = s.scopes.length ∧ t.scopes.tail = s.scopes.tail ∧
      ∀ m ∈ s.scopes.head?, ∃ m' ∈ t.scopes.head?, m'.size = m.size + es.length ∧
        ∀ i, m'.entriesAt i = m.entriesAt i ++ ChainedMap.inSlot i es := by
    refine ⟨h.labels, ?_⟩
    rw [h.scopes]
    cases s.scopes
    case nil => simp [grow]
    case cons m ms => simp [grow, ChainedMap.size_insertAll, ChainedMap.entriesAt_insertAll]
  constructor
  case left =>
    intro name result formals body q p
    have hsteps := frames_of_mem_stepsOf (.function name result formals body q p)
    rw [stepsOf, List.forall_mem_singleton] at hsteps
    exact ⟨(hsteps s).scopes.trans (grow_nil _), (hsteps s).labels⟩
  case right =>
    intro stmt
    have hends := ends_checkStmt s stmt
    have hsteps := frames_of_mem_stepsOf stmt
    generalize stepsOf stmt = steps at hends hsteps ⊢
    generalize checkStmt stmt s = outcome at hends ⊢
    cases hends
    case passed t hpasses =>
      obtain ⟨hlabels, hcount, houter, hinnermost⟩ := hgrown (hpasses.grown hsteps)
      exact ⟨hlabels, hcount, houter, steps, [], t, (List.append_nil steps).symm, hpasses, ⟨rfl, rfl⟩, hinnermost⟩
    case failed hbefore hstep =>
      rw [List.forall_mem_append, List.forall_mem_cons] at hsteps
      have hfailed := (hbefore.grown hsteps.1).trans (hsteps.2.1.grown_of_error hstep)
      rw [List.append_nil] at hfailed
      obtain ⟨hlabels, hcount, houter, hinnermost⟩ := hgrown hfailed
      exact ⟨hlabels, hcount, houter, _, _, _, rfl, hbefore, ⟨_, _, rfl, hstep⟩, hinnermost⟩

-- A function in a function, with a fault behind a declaration.
def nestedFault : List Stmt :=
  [.declare "a" ⟨.integer, none, 0⟩ none ⟨2, 1⟩,
    .function "g" ⟨.void, none, 0⟩ [] [.declare "b" ⟨.integer, none, 0⟩ none ⟨4, 1⟩, .goto "away" ⟨5, 1⟩] ⟨4, 1⟩ ⟨3, 1⟩]

theorem check_frames_nestedFault :
    let outcome := checkStmt (.function "f" ⟨.void, none, 0⟩ [] nestedFault ⟨2, 1⟩ ⟨1, 1⟩) .initial
    outcome.1.toOption = none ∧ outcome.2.scopes = State.initial.scopes ∧ outcome.2.labels = State.initial.labels :=
  ⟨by decide +kernel, (check_frames .initial).1 "f" ⟨.void, none, 0⟩ [] nestedFault ⟨2, 1⟩ ⟨1, 1⟩⟩

end BasicFrontEnd.Shape
