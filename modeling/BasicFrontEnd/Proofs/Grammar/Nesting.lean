import BasicFrontEnd.Proofs.Grammar.Scripts

/-!
The limit on nesting shows only where it is exceeded: below it everything is read as if there were none.
-/

namespace BasicFrontEnd

open Grammar

namespace Stream

-- The state before the first rule where no limit is given.
def unlimited (stream : Stream) : State :=
  { State.ofStream stream with limit := none }

-- What reading answers without a limit.
def readUnlimited (stream : Stream) : Except Diagnostic Program :=
  (program.outcome stream.unlimited).1

-- The levels of nesting that reading enters without a limit, in order, each by its number and the token that is next.
def levels (stream : Stream) : List (Nat × Token) :=
  Script.program.entered stream.unlimited

theorem roomier_unlimited (stream : Stream) : stream.unlimited.Roomier 0 maxNesting :=
  ⟨.inl rfl, Nat.le_refl 0, Nat.zero_le maxNesting⟩

end Stream

namespace Grammar

-- Where the rule does not exceed the limit, it does the same with fewer levels open.
def Rule.Transparent (rule : Rule α) : Prop :=
  ∀ (s : State) (fewer depth : Nat), fewer ≤ depth → depth ≤ maxNesting →
    (∀ v, (rule.outcome (s.withLevels depth (some maxNesting))).1 ≠ .error (limitFault maxNesting v)) →
    (rule.outcome (s.withLevels fewer (some maxNesting))).1 = (rule.outcome (s.withLevels depth (some maxNesting))).1 ∧
      (rule.outcome (s.withLevels fewer (some maxNesting))).2 =
        (rule.outcome (s.withLevels depth (some maxNesting))).2.withLevels fewer (some maxNesting)

theorem Script.transparent (x : Script α) : x.rule.Transparent := by
  intro s fewer depth hfewer hdepth hwithin
  have hlimited := x.limited (s := s.withLevels fewer (some maxNesting)) ⟨.inr rfl, hfewer, hdepth⟩
  have hlevels := x.keepsLevels (s.withLevels fewer (some maxNesting))
  unfold Rule.Limited at hlimited
  split at hlimited
  case h_1 =>
    have hsame : x.rule.outcome (s.withLevels depth (some maxNesting)) = _ := hlimited
    rw [hsame]
    refine ⟨rfl, ?_⟩
    generalize (x.rule.outcome (s.withLevels fewer (some maxNesting))).2 = t at hlevels
    exact State.ext rfl rfl hlevels.1 hlevels.2 rfl rfl
  case h_2 number v _ => exact absurd hlimited.2 (hwithin v)

-- Without a limit no level is one too many, so a run either stays below it or meets it where it enters the first
-- level beyond.
theorem limit_transparent :
    (∀ stream : Stream,
      match stream.levels.find? (maxNesting < ·.1) with
      | none             => stream.read.1 = stream.readUnlimited
      | some (number, v) =>
        number = maxNesting + 1 ∧
          stream.read.1 = .error (v.fault (.badToken "at most 128 levels of nesting" v.value))) ∧
    expr.Transparent ∧ stmt.Transparent := by
  refine ⟨fun stream => ?_, ?_, ?_⟩
  case refine_1 =>
    have hlimited := Script.program.limited stream.roomier_unlimited
    have hfirst : firstBeyond stream.unlimited 0 maxNesting (Script.program.entered stream.unlimited) =
        stream.levels.find? (maxNesting < ·.1) := rfl
    unfold Rule.Limited at hlimited
    rw [hfirst, Script.rule_program] at hlimited
    rw [Stream.read_eq]
    cases hfind : stream.levels.find? (maxNesting < ·.1)
    case none =>
      rw [hfind] at hlimited
      have hsame : program.outcome (State.ofStream stream) = _ := hlimited
      show (program.outcome (State.ofStream stream)).1 = stream.readUnlimited
      rw [hsame]
      rfl
    case some level =>
      rw [hfind] at hlimited
      exact ⟨hlimited.1, hlimited.2⟩
  case refine_2 => exact Script.rule_expr ▸ Script.expr.transparent
  case refine_3 => exact Script.rule_stmt ▸ Script.stmt.transparent

-- Before a name in parentheses.
def beforeParenthesised : State :=
  .ofStream <| .ofTokens ⟨.head, "", .start, "(x)"⟩
    [⟨.symbol .openParen, "(", ⟨1, 1⟩, "(x)"⟩, ⟨.identifier, "x", ⟨1, 2⟩, "(x)"⟩,
      ⟨.symbol .closeParen, ")", ⟨1, 3⟩, "(x)"⟩, ⟨.eof, "EOF", ⟨1, 4⟩, "(x)"⟩]

theorem limit_transparent_parenthesised :
    (expr.outcome (beforeParenthesised.withLevels 127 (some maxNesting))).1 = .ok (.identifier "x") ∧
      (expr.outcome (beforeParenthesised.withLevels 0 (some maxNesting))).1 = .ok (.identifier "x") := by
  have hdeep : (expr.outcome (beforeParenthesised.withLevels 127 (some maxNesting))).1 = .ok (.identifier "x") := by
    rfl
  refine ⟨hdeep, ?_⟩
  rw [← hdeep]
  exact (limit_transparent.2.1 beforeParenthesised 0 127 (by decide) (by decide) (by simp [hdeep])).1

end Grammar
end BasicFrontEnd
