import BasicFrontEnd.Proofs.Grammar.Advances

/-!
Errors leave no trace in the levels of nesting or the result type. Main statement: `survives_errors`.
-/

namespace BasicFrontEnd.Grammar

open Rule State

section Levels

-- The limit is the one that is always set, and no more levels are open than it allows.
structure State.WithinLimit (s : State) : Prop where
  limit_eq : s.limit = some maxNesting
  depth_le : s.depth ≤ maxNesting

variable {s t u : State}

theorem State.WithinLimit.of_levels (h : s.WithinLimit) (ht : t.depth = s.depth ∧ t.limit = s.limit) :
    t.WithinLimit :=
  ⟨ht.2.trans h.limit_eq, ht.1 ▸ h.depth_le⟩

theorem State.WithinLimit.deeper (h : s.WithinLimit) (hroom : s.hasRoom = true) : s.deeper.WithinLimit := by
  refine ⟨h.limit_eq, ?_⟩
  have hlt : s.depth < maxNesting := by simpa [State.hasRoom, h.limit_eq] using hroom
  exact hlt

namespace Script

-- The states that a run of the script passes through, from the first to the last. The steps do not see the levels of
-- nesting, so these are the same all through a step.
def states : Script α → State → List State
  | done _, s                 => [s]
  | step rule _ next, s       => s :: after rule s (fun b => (next b).states) [(rule.outcome s).2]
  | deeper inner next, s      =>
    s :: (if s.hasRoom then inner.states s.deeper else []) ++
      after inner.rule.nested s (fun b => (next b).states) [(inner.rule.nested.outcome s).2]
  | within type inner next, s =>
    s :: inner.states (s.inFunction type) ++
      after (Grammar.withResultType type inner.rule) s (fun b => (next b).states)
        [((Grammar.withResultType type inner.rule).outcome s).2]

theorem mem_after {rule : Rule β} {next : β → State → List State}
    (h : u ∈ after rule s next [(rule.outcome s).2]) :
    (∃ b t, rule.Yields s b t ∧ u ∈ next b t) ∨ u = (rule.outcome s).2 := by
  unfold after at h
  split at h
  case h_1 b t heq => exact .inl ⟨b, t, heq, h⟩
  case h_2 => exact .inr (List.mem_singleton.mp h)

-- What follows a rule that keeps the levels stays within the limit if all that it goes on with does.
theorem withinLimit_after {rule : Rule β} {next : β → State → List State} (hs : s.WithinLimit)
    (hkeeps : rule.KeepsLevels) (hnext : ∀ b t, t.WithinLimit → ∀ u ∈ next b t, u.WithinLimit) :
    ∀ u ∈ after rule s next [(rule.outcome s).2], u.WithinLimit := by
  intro u hu
  have hlevels := hkeeps s
  obtain ⟨b, t, hyields, hu⟩ | rfl := mem_after hu
  case inl =>
    rw [show rule.outcome s = (.ok b, t) from hyields] at hlevels
    exact hnext b t (hs.of_levels hlevels) u hu
  case inr => exact hs.of_levels hlevels

theorem withinLimit_states (x : Script α) (hs : s.WithinLimit) : ∀ u ∈ x.states s, u.WithinLimit := by
  induction x generalizing s
  case done =>
    intro u hu
    exact List.mem_singleton.mp hu ▸ hs
  case step rule blind next ih =>
    refine List.forall_mem_cons.mpr ⟨hs, ?_⟩
    exact withinLimit_after hs blind.keepsLevels fun b _ ht => ih b ht
  case deeper inner next ihinner ih =>
    refine List.forall_mem_cons.mpr ⟨hs, List.forall_mem_append.mpr ⟨?_, ?_⟩⟩
    case refine_1 =>
      split
      case isTrue hroom => exact ihinner (hs.deeper hroom)
      case isFalse => exact List.forall_mem_nil _
    case refine_2 => exact withinLimit_after hs inner.keepsLevels.nested fun b _ ht => ih b ht
  case within type inner next ihinner ih =>
    refine List.forall_mem_cons.mpr ⟨hs, List.forall_mem_append.mpr ⟨?_, ?_⟩⟩
    case refine_1 => exact ihinner ⟨hs.limit_eq, hs.depth_le⟩
    case refine_2 => exact withinLimit_after hs (inner.keepsLevels.withResultType type) fun b _ ht => ih b ht

theorem getLast?_after {x : Rule β} {f : β → Rule α} {next : β → State → List State}
    (hnext : ∀ b t, (next b t).getLast? = some ((f b).outcome t).2) :
    (after x s next [(x.outcome s).2]).getLast? = some ((x >>= f).outcome s).2 := by
  rw [outcome_bind]
  unfold after
  rcases x.outcome s with ⟨_ | b, t⟩
  case error => rfl
  case ok => exact hnext b t

-- The last of the states is the one that the rule leaves.
theorem getLast?_states (x : Script α) (s : State) : (x.states s).getLast? = some (x.rule.outcome s).2 := by
  induction x generalizing s
  case done => rfl
  case step ih => simp only [states, rule, List.getLast?_cons, getLast?_after ih, Option.getD_some]
  case deeper ih | within ih =>
    simp only [states, rule, List.cons_append, List.getLast?_cons, List.getLast?_append, getLast?_after ih,
      Option.some_or, Option.getD_some]

end Script

end Levels

section ResultTypes

variable {s : State} {result : Option TypeSpec} {x : Rule α} {f : α → Rule β}

-- Run from the state, the rule leaves the result type in force.
def Rule.LeavesResult (rule : Rule α) (s : State) (result : Option TypeSpec) : Prop :=
  (rule.outcome s).2.resultType = result

class Rule.KeepsResult (rule : Rule α) : Prop where
  keeps : ∀ s, rule.LeavesResult s s.resultType

theorem Rule.leavesResult (rule : Rule α) [hrule : rule.KeepsResult] (s : State) :
    rule.LeavesResult s s.resultType :=
  hrule.keeps s

theorem Rule.LeavesResult.bind (hx : x.LeavesResult s result) (hf : ∀ a, (f a).KeepsResult) :
    (x >>= f).LeavesResult s result := by
  unfold LeavesResult at hx ⊢
  rw [outcome_bind]
  generalize x.outcome s = r at hx
  obtain ⟨_ | a, t⟩ := r
  case error => exact hx
  case ok => exact ((hf a).keeps t).trans hx

theorem Rule.LeavesResult.peekKind_bind {f : Kind → Rule β} (h : (f s.peek.kind).LeavesResult s result) :
    (peekKind >>= f).LeavesResult s result :=
  h

theorem State.Reads.resultType_eq {t : State} (h : Reads s ts t) : t.resultType = s.resultType := by
  induction h
  case nil => rfl
  case cons ih => exact ih

namespace Rule.KeepsResult

instance (priority := low) [hx : x.Advances] : x.KeepsResult where
  keeps s := by
    obtain ⟨ts, hts⟩ := hx.leads s
    exact hts.resultType_eq

instance : consume.KeepsResult :=
  ⟨fun _ => rfl⟩

instance : backup.KeepsResult :=
  ⟨fun _ => rfl⟩

instance [hx : x.KeepsResult] [hf : ∀ a, (f a).KeepsResult] : (x >>= f).KeepsResult :=
  ⟨fun s => (hx.keeps s).bind hf⟩

instance {c : Prop} [Decidable c] {x y : Rule α} [hx : x.KeepsResult] [hy : y.KeepsResult] :
    (if c then x else y).KeepsResult := by
  split
  case isTrue => exact hx
  case isFalse => exact hy

instance {rule : Rule α} [hrule : rule.KeepsResult] : rule.nested.KeepsResult where
  keeps s := by
    unfold LeavesResult
    rw [outcome_nested]
    split
    case isTrue => exact hrule.keeps s.deeper
    case isFalse => rfl

theorem composes : Composes KeepsResult where
  pure _ := inferInstance
  bind _ _ := inferInstance
  stops _ := inferInstance

end Rule.KeepsResult

-- The rule for bodies keeps the result type, whatever closes the body.
class BodyRule.KeepsResult (body : BodyRule) : Prop where
  keeps : ∀ close others, (body close others).KeepsResult

variable {body : BodyRule}

instance [hbody : body.KeepsResult] {close : Kind} {others : List Kind} : (body close others).KeepsResult :=
  hbody.keeps close others

instance [body.KeepsResult] : (ifStmt body).KeepsResult := by
  unfold ifStmt
  infer_instance

instance [body.KeepsResult] : (whileStmt body).KeepsResult := by
  unfold whileStmt
  infer_instance

instance : namedStmt.KeepsResult := by
  unfold namedStmt
  infer_instance

instance [body.KeepsResult] : (unended body).KeepsResult where
  keeps s := by
    refine .peekKind_bind ?_
    split
    case h_1 => exact namedStmt.leavesResult s
    all_goals exact Rule.leavesResult _ s

instance {rule : Rule α} [rule.KeepsResult] : (ended rule).KeepsResult := by
  unfold ended
  infer_instance

instance [body.KeepsResult] : (stmtWith body).KeepsResult := by
  rw [stmtWith_eq]
  infer_instance

theorem stmtWith_keepsResult (h : ∀ close others, (body close others).KeepsResult) : (stmtWith body).KeepsResult :=
  have : body.KeepsResult := ⟨h⟩
  inferInstance

instance : BodyRule.KeepsResult Grammar.body :=
  ⟨KeepsResult.composes.body inferInstance stmtWith_keepsResult⟩

instance : Grammar.stmt.KeepsResult := by
  unfold Grammar.stmt
  infer_instance

-- Whether the rule answers from the state.
def Rule.answers (rule : Rule α) (s : State) : Bool :=
  (rule.outcome s).1.isOk

-- Behind a signature no result type stays in force, whether the body and the word behind it are read or not.
theorem signedFunction_leavesResult (signature : Signature) (s : State) :
    (signedFunction signature).LeavesResult s none := by
  have hbody : (withResultType signature.result (Grammar.body (.keyword .endWord) [])).LeavesResult s none := rfl
  exact hbody.bind fun _ => inferInstance

theorem functionDecl_leavesResult (s : State) :
    functionDecl.LeavesResult s (if signature.answers s then none else s.resultType) := by
  have hkeeps := signature.leavesResult s
  unfold LeavesResult Rule.answers at *
  rw [functionDecl_eq, outcome_bind]
  generalize signature.outcome s = r at hkeeps
  obtain ⟨_ | a, t⟩ := r
  case error => exact hkeeps
  case ok => exact signedFunction_leavesResult a t

theorem answers_signature_eq_false (h : s.peek.kind ≠ .keyword .funcWord) : signature.answers s = false := by
  cases hr : (signature.outcome s).1
  case error => simp [Rule.answers, hr, Except.isOk, Except.toBool]
  case ok a => exact absurd (peek_of_signature_yields (Prod.ext hr rfl)) h

theorem unendedTop_leavesResult (s : State) :
    unendedTop.LeavesResult s (if signature.answers s then none else s.resultType) := by
  refine .peekKind_bind ?_
  split
  case h_1 => exact functionDecl_leavesResult s
  case h_4 hfunc _ _ =>
    rw [answers_signature_eq_false hfunc]
    exact Rule.leavesResult _ s
  all_goals
    rename_i hpeek
    rw [answers_signature_eq_false (by simp [hpeek])]
    exact Rule.leavesResult _ s

theorem topLevelStmt_leavesResult (s : State) :
    topLevelStmt.LeavesResult s (if signature.answers s then none else s.resultType) := by
  rw [topLevelStmt_eq]
  exact (unendedTop_leavesResult s).bind fun _ => inferInstance

end ResultTypes

/-- What may be called for, whatever came before. -/
inductive Call
  | expr
  | stmt
  | topLevelStmt
  | body (close : Kind) (others : List Kind)
  | functionDecl
  | recordDecl
  | typeSpec
  | dimensions

namespace Call

-- What the call answers.
abbrev Answer : Call → Type
  | expr         => Expr
  | stmt         => Stmt
  | topLevelStmt => Stmt
  | body _ _     => Body
  | functionDecl => Stmt
  | recordDecl   => Stmt
  | typeSpec     => TypeSpec
  | dimensions   => Nat

def rule : (call : Call) → Rule call.Answer
  | expr              => Grammar.expr
  | stmt              => Grammar.stmt
  | topLevelStmt      => Grammar.topLevelStmt
  | body close others => Grammar.body close others
  | functionDecl      => Grammar.functionDecl
  | recordDecl        => Grammar.recordDecl
  | typeSpec          => Grammar.typeSpec
  | dimensions        => Grammar.dimensions

def script : (call : Call) → Script call.Answer
  | expr              => .expr
  | stmt              => .stmt
  | topLevelStmt      => .ended .unendedTop
  | body close others => .body close others
  | functionDecl      => .functionDecl
  | recordDecl        => .ofRule Grammar.recordDecl
  | typeSpec          => .ofRule Grammar.typeSpec
  | dimensions        => .ofRule Grammar.dimensions

theorem rule_script (call : Call) : call.script.rule = call.rule := by
  cases call
  case expr => exact Script.rule_expr
  case stmt => exact Script.rule_stmt
  case topLevelStmt => simp [script, rule, topLevelStmt_eq]
  case body close others => exact congrFun (congrFun Script.rules_body close) others
  case functionDecl => exact Script.rule_functionDecl
  case recordDecl | typeSpec | dimensions => exact Script.rule_ofRule _

-- The state after the call, whether it fails or not.
def after (call : Call) (s : State) : State :=
  (call.rule.outcome s).2

-- Whether the call completes the signature of a function.
def signs : Call → State → Bool
  | functionDecl, s | topLevelStmt, s => signature.answers s
  | _, _                              => false

theorem resultType_after (call : Call) (s : State) :
    (call.after s).resultType = if call.signs s then none else s.resultType := by
  cases call
  case functionDecl => exact functionDecl_leavesResult s
  case topLevelStmt => exact topLevelStmt_leavesResult s
  case expr => exact Grammar.expr.leavesResult s
  case stmt => exact Grammar.stmt.leavesResult s
  case body close others => exact (Grammar.body close others).leavesResult s
  case recordDecl => exact Grammar.recordDecl.leavesResult s
  case typeSpec => exact Grammar.typeSpec.leavesResult s
  case dimensions => exact Grammar.dimensions.leavesResult s

theorem levels_after (call : Call) (s : State) : (call.after s).depth = s.depth ∧ (call.after s).limit = s.limit := by
  have hkeeps := call.script.keepsLevels s
  rwa [call.rule_script] at hkeeps

-- The state after the calls, one after another.
def afterAll (calls : List Call) (s : State) : State :=
  calls.foldl (fun s call => call.after s) s

-- The states that the calls pass through, one after another.
def states : List Call → State → List State
  | [], _            => []
  | call :: calls, s => call.script.states s ++ states calls (call.after s)

-- Whether one of the calls completes the signature of a function.
def signsAny : List Call → State → Bool
  | [], _            => false
  | call :: calls, s => call.signs s || signsAny calls (call.after s)

theorem levels_afterAll (calls : List Call) (s : State) :
    (afterAll calls s).depth = s.depth ∧ (afterAll calls s).limit = s.limit := by
  induction calls generalizing s
  case nil => exact ⟨rfl, rfl⟩
  case cons call calls ih =>
    obtain ⟨hdepth, hlimit⟩ := call.levels_after s
    exact ⟨(ih (call.after s)).1.trans hdepth, (ih (call.after s)).2.trans hlimit⟩

-- What the calls pass through ends with the state after them.
theorem getLast?_states (calls : List Call) (s : State) :
    (states calls s).getLast?.getD s = afterAll calls s := by
  induction calls generalizing s
  case nil => rfl
  case cons call calls ih =>
    have hcall : (call.script.states s).getLast? = some (call.after s) := by
      rw [call.script.getLast?_states, call.rule_script, after]
    have hcalls : (states calls (call.after s)).getLast?.getD (call.after s) = afterAll (call :: calls) s :=
      ih (call.after s)
    rw [states, List.getLast?_append, hcall, ← hcalls]
    cases (states calls (call.after s)).getLast? <;> rfl

theorem withinLimit_states {s : State} (hs : s.WithinLimit) (calls : List Call) :
    ∀ u ∈ states calls s, u.WithinLimit := by
  induction calls generalizing s
  case nil => exact List.forall_mem_nil _
  case cons call calls ih =>
    refine List.forall_mem_append.mpr ⟨call.script.withinLimit_states hs, ?_⟩
    exact ih (hs.of_levels (call.levels_after s))

theorem resultType_afterAll (calls : List Call) (s : State) :
    (afterAll calls s).resultType = if signsAny calls s then none else s.resultType := by
  induction calls generalizing s
  case nil => rfl
  case cons call calls ih =>
    have hcalls : (afterAll (call :: calls) s).resultType = _ := ih (call.after s)
    rw [hcalls, call.resultType_after, signsAny]
    cases call.signs s <;> simp

end Call

-- Whatever is called for, and whether it fails or not, the levels of nesting that are open after it are those before
-- it, and no more than the limit allows meanwhile; the result type after it is the one before it, but none once a
-- signature has been completed, whatever becomes of the body behind it.
theorem survives_errors {s : State} (hlimit : s.limit = some maxNesting) (hdepth : s.depth ≤ maxNesting)
    (calls : List Call) :
    (Call.afterAll calls s).depth = s.depth ∧ (Call.afterAll calls s).limit = some maxNesting ∧
      (Call.states calls s).getLast?.getD s = Call.afterAll calls s ∧
      (∀ u ∈ Call.states calls s, u.depth ≤ maxNesting) ∧
      (Call.afterAll calls s).resultType = if Call.signsAny calls s then none else s.resultType := by
  obtain ⟨hdepthAfter, hlimitAfter⟩ := Call.levels_afterAll calls s
  refine ⟨hdepthAfter, hlimitAfter.trans hlimit, Call.getLast?_states calls s, fun u hu => ?_,
    Call.resultType_afterAll calls s⟩
  exact (Call.withinLimit_states ⟨hlimit, hdepth⟩ calls u hu).depth_le

-- Before `func f() -> void 1 return 1`, with the body of a function around whose result is a number: the first `1` is
-- no statement.
def beforeFaultyBody : State :=
  let line := "func f() -> void 1 return 1"
  { State.ofStream <| .ofTokens ⟨.head, "", .start, line⟩
      [⟨.keyword .funcWord, "func", ⟨1, 1⟩, line⟩, ⟨.identifier, "f", ⟨1, 6⟩, line⟩,
       ⟨.symbol .openParen, "(", ⟨1, 7⟩, line⟩, ⟨.symbol .closeParen, ")", ⟨1, 8⟩, line⟩,
       ⟨.symbol .arrow, "->", ⟨1, 10⟩, line⟩, ⟨.keyword .voidWord, "void", ⟨1, 13⟩, line⟩,
       ⟨.integer, "1", ⟨1, 18⟩, line⟩, ⟨.keyword .returnWord, "return", ⟨1, 20⟩, line⟩,
       ⟨.integer, "1", ⟨1, 27⟩, line⟩, ⟨.eof, "", ⟨1, 28⟩, line⟩]
    with depth := maxNesting, resultType := some ⟨.integer, none, 0⟩ }

-- The word `return` behind the fault has its expression, as outside of functions.
theorem survives_errors_faultyBody :
    beforeFaultyBody.limit = some maxNesting ∧ beforeFaultyBody.depth ≤ maxNesting ∧
      signature.answers beforeFaultyBody = true ∧ functionDecl.answers beforeFaultyBody = false ∧
      stmt.answers (Call.functionDecl.after beforeFaultyBody) = true ∧
      (Call.afterAll [.functionDecl, .stmt] beforeFaultyBody).depth = maxNesting ∧
      (∀ u ∈ Call.states [.functionDecl, .stmt] beforeFaultyBody, u.depth ≤ maxNesting) ∧
      (Call.afterAll [.functionDecl, .stmt] beforeFaultyBody).resultType = none := by
  have hlimit : beforeFaultyBody.limit = some maxNesting := rfl
  have hdepth : beforeFaultyBody.depth ≤ maxNesting := Nat.le_refl _
  obtain ⟨hafter, -, -, hstates, hresult⟩ := survives_errors hlimit hdepth [.functionDecl, .stmt]
  exact ⟨hlimit, hdepth, rfl, rfl, rfl, hafter, hstates, hresult⟩

end BasicFrontEnd.Grammar
