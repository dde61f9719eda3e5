import BasicFrontEnd.Proofs.Grammar.Scripts

/-!
When rules fail: `rule.Refuses s t` says that the rule, run in the state `s`, fails since the token that is next in `t`
is not one that it expects. Of scripts it says also that another level of nesting might be opened there.
-/

namespace BasicFrontEnd.Grammar

open Rule State

namespace Rule

def Refuses (rule : Rule α) (s t : State) : Prop :=
  ∃ d expected got, rule.outcome s = (.error d, t) ∧ d.cause = .badToken expected got

section Combinators

variable {s t : State}

theorem refuses_of_outcome_ok {rule : Rule α} (h : rule.outcome s = (.ok a, u)) : ¬rule.Refuses s t := by
  rintro ⟨d, _, _, herror, _⟩
  simp [h] at herror

@[simp]
theorem refuses_pure {a : α} : ¬(pure a : Rule α).Refuses s t :=
  refuses_of_outcome_ok (a := a) rfl

@[simp]
theorem refuses_get : ¬(get : Rule State).Refuses s t :=
  refuses_of_outcome_ok (a := s) rfl

@[simp]
theorem refuses_peek : ¬peek.Refuses s t :=
  refuses_of_outcome_ok (a := s.peek) rfl

@[simp]
theorem refuses_peekKind : ¬peekKind.Refuses s t :=
  refuses_of_outcome_ok (a := s.peek.kind) rfl

@[simp]
theorem refuses_consume : ¬consume.Refuses s t :=
  refuses_of_outcome_ok (a := s.next.stream.current) rfl

@[simp]
theorem refuses_backup : ¬backup.Refuses s t :=
  refuses_of_outcome_ok (a := ()) rfl

@[simp]
theorem refuses_unexpected {expected : String} : (unexpected expected : Rule α).Refuses s t ↔ t = s := by
  have : (unexpected expected : Rule α).outcome s = (.error (s.unexpected expected), s) := rfl
  simp only [Refuses, this, Prod.mk.injEq, Except.error.injEq]
  constructor
  case mp =>
    rintro ⟨_, _, _, ⟨-, rfl⟩, -⟩
    rfl
  case mpr =>
    rintro rfl
    exact ⟨_, expected, _, ⟨rfl, rfl⟩, rfl⟩

@[simp]
theorem refuses_bind {x : Rule α} {f : α → Rule β} :
    (x >>= f).Refuses s t ↔ x.Refuses s t ∨ ∃ a u, x.Yields s a u ∧ (f a).Refuses u t := by
  unfold Refuses Yields
  rw [outcome_bind]
  obtain ⟨_ | a, u⟩ := x.outcome s
  case error => simp
  case ok =>
    constructor
    case mp => exact fun h => .inr ⟨a, u, rfl, h⟩
    case mpr =>
      rintro (⟨_, _, _, ⟨⟩, _⟩ | ⟨_, _, ⟨⟩, h⟩)
      exact h

@[simp]
theorem refuses_map {x : Rule α} {f : α → β} : (f <$> x).Refuses s t ↔ x.Refuses s t := by
  rw [map_eq_pure_bind, refuses_bind]
  simp only [refuses_pure, and_false, exists_false, or_false]

@[simp]
theorem refuses_number {v : Token} {negative : Bool} : ¬(liftM (number v negative) : Rule Expr).Refuses s t := by
  have : (liftM (number v negative) : Rule Expr).outcome s = (number v negative, s) := rfl
  rintro ⟨d, _, _, herror, hcause⟩
  exact cause_of_number (Prod.mk.inj (this.symm.trans herror)).1 hcause

@[simp]
theorem refuses_accept {kind : Kind} : ¬(accept kind).Refuses s t := by
  simp only [accept, refuses_bind, yields_peekKind, refuses_peekKind, false_or, and_assoc, exists_and_left,
    exists_eq_left]
  split <;> simp

@[simp]
theorem refuses_expect {kind : Kind} : (expect kind).Refuses s t ↔ s.peek.kind ≠ kind ∧ t = s := by
  simp only [expect, refuses_bind, yields_peekKind, refuses_peekKind, false_or, and_assoc, exists_and_left,
    exists_eq_left]
  by_cases h : s.peek.kind = kind <;> simp [h]

variable {kind : Kind}

@[simp]
theorem refuses_peekKind_bind {f : Kind → Rule α} : (peekKind >>= f).Refuses s t ↔ (f s.peek.kind).Refuses s t := by
  simp [and_assoc]

@[simp]
theorem refuses_peek_bind {f : Token → Rule α} : (peek >>= f).Refuses s t ↔ (f s.peek).Refuses s t := by
  simp [and_assoc]

@[simp]
theorem refuses_consume_bind {f : Token → Rule α} : (consume >>= f).Refuses s t ↔ (f s.peek).Refuses s.next t := by
  simp [and_assoc]

@[simp]
theorem refuses_expect_bind {f : Token → Rule α} :
    (expect kind >>= f).Refuses s t ↔
      (s.peek.kind ≠ kind ∧ t = s) ∨ (s.peek.kind = kind ∧ (f s.peek).Refuses s.next t) := by
  simp [and_assoc]

theorem refuses_bind_pure {x : Rule α} {f : α → β} : (x >>= fun a => pure (f a)).Refuses s t ↔ x.Refuses s t := by
  rw [refuses_bind]
  simp only [refuses_pure, and_false, exists_false, or_false]

theorem refuses_if_accept {x y : Rule α} :
    (do if ← accept kind then x else y : Rule α).Refuses s t ↔
      (s.peek.kind = kind ∧ x.Refuses s.next t) ∨ (s.peek.kind ≠ kind ∧ y.Refuses s t) := by
  by_cases h : s.peek.kind = kind <;> simp [h]

end Combinators

-- What holds at the start, and is kept by every round that goes on, holds where a round refuses, or the loop itself.
theorem Refuses.repeatWithin {round : β → Rule (Round β γ)} {Invariant : β → State → Prop} {left : List Token}
    (keeps : ∀ {b s b' u}, Invariant b s → (round b).Yields s (.again b') u → Invariant b' u)
    (hs : Invariant b s) (h : (repeatWithin round left b).Refuses s t) :
    ∃ b' u, Invariant b' u ∧ ((round b').Refuses u t ∨ t = u) := by
  induction left generalizing b s
  case nil => exact ⟨b, s, hs, .inr <| refuses_unexpected.mp h⟩
  case cons left ih =>
    obtain hround | ⟨_ | c, u, hround, h⟩ := refuses_bind.mp h
    case inl => exact ⟨b, s, hs, .inl hround⟩
    case inr.again => exact ih (keeps hs hround) h
    case inr.done => exact absurd h refuses_pure

theorem Refuses.repeatFrom {round : β → Rule (Round β γ)} {Invariant : β → State → Prop}
    (keeps : ∀ {b s b' u}, Invariant b s → (round b).Yields s (.again b') u → Invariant b' u)
    (hs : Invariant b s) (h : (repeatFrom round b).Refuses s t) :
    ∃ b' u, Invariant b' u ∧ ((round b').Refuses u t ∨ t = u) := by
  obtain h | ⟨_, _, hget, h⟩ := refuses_bind.mp h
  case inl => exact absurd h refuses_get
  case inr =>
    obtain ⟨rfl, rfl⟩ := yields_get.mp hget
    exact Refuses.repeatWithin keeps hs h

end Rule

namespace Script

section Levels

variable {s : State}

theorem after_bind (x : Rule β) (f : β → Rule γ) (next : γ → State → δ) (inner : β → State → δ) (failed : δ) :
    after (x >>= f) s next (after x s inner failed) = after x s (fun b u => after (f b) u next (inner b u)) failed := by
  unfold after
  rw [outcome_bind]
  obtain ⟨_ | b, u⟩ := x.outcome s <;> rfl

theorem openLevels_bind (x : Script α) (f : α → Script β) :
    (x >>= f).openLevels s = after x.rule s (fun a => (f a).openLevels) (x.openLevels s) := by
  show (x.bind f).openLevels s = _
  induction x generalizing s
  case done => rfl
  case step ih | deeper ih | within ih =>
    simp only [bind, openLevels, rule, after_bind]
    congr
    funext b u
    exact ih b f

theorem depth_le_after {x : Rule β} {next : β → State → Nat} (hkeeps : x.KeepsLevels)
    (hnext : ∀ b u, u.depth ≤ next b u) (hfailed : s.depth ≤ failed) : s.depth ≤ after x s next failed := by
  have hlevels := hkeeps s
  unfold after
  split
  case h_1 b t h =>
    rw [h] at hlevels
    exact hlevels.1 ▸ hnext b t
  case h_2 => exact hfailed

-- Where the script stops, no fewer levels are open than where it begins.
theorem depth_le_openLevels (x : Script α) : s.depth ≤ x.openLevels s := by
  induction x generalizing s
  case done => exact Nat.le_refl _
  case step blind _ ih => exact depth_le_after blind.keepsLevels (fun b _ => ih b) (Nat.le_refl _)
  case deeper inner _ ihinner ih =>
    refine depth_le_after inner.keepsLevels.nested (fun b _ => ih b) ?_
    split
    case isTrue => exact Nat.le_of_succ_le (ihinner (s := s.deeper))
    case isFalse => exact Nat.le_refl _
  case within type inner _ ihinner ih =>
    exact depth_le_after (inner.keepsLevels.withResultType type) (fun b _ => ih b) (ihinner (s := s.inFunction type))

end Levels

-- The script fails where the limit would allow for more levels than are open.
def Refuses (x : Script α) (s t : State) : Prop :=
  x.rule.Refuses s t ∧ ∀ limit, s.limit = some limit → x.openLevels s < limit

section Combinators

variable {s t : State}

theorem Refuses.opens {x : Script α} (h : x.Refuses s t) : s.Opens 1 :=
  fun limit hlimit => Nat.lt_of_le_of_lt x.depth_le_openLevels (h.2 limit hlimit)

@[simp]
theorem refuses_pure {a : α} : ¬(pure a : Script α).Refuses s t :=
  fun h => Rule.refuses_pure h.1

theorem after_of_refuses {x : Rule β} {next : β → State → γ} (h : x.Refuses s t) : after x s next failed = failed := by
  obtain ⟨d, _, _, herror, _⟩ := h
  rw [after, herror]

theorem after_of_yields {x : Rule β} {next : β → State → γ} (h : x.Yields s b t) :
    after x s next failed = next b t := by
  rw [after, show x.outcome s = _ from h]

theorem limit_of_yields {x : Script α} (h : x.rule.Yields s a t) : t.limit = s.limit := by
  have := (x.keepsLevels s).2
  rwa [show x.rule.outcome s = _ from h] at this

@[simp]
theorem refuses_bind {x : Script α} {f : α → Script β} :
    (x >>= f).Refuses s t ↔ x.Refuses s t ∨ ∃ a u, x.rule.Yields s a u ∧ (f a).Refuses u t := by
  unfold Refuses
  rw [rule_bind, openLevels_bind, Rule.refuses_bind]
  constructor
  case mp =>
    rintro ⟨hx | ⟨a, u, hx, hf⟩, hroom⟩
    case inl =>
      rw [after_of_refuses hx] at hroom
      exact .inl ⟨hx, hroom⟩
    case inr =>
      rw [after_of_yields hx, ← limit_of_yields hx] at hroom
      exact .inr ⟨a, u, hx, hf, hroom⟩
  case mpr =>
    rintro (⟨hx, hroom⟩ | ⟨a, u, hx, hf, hroom⟩)
    case inl =>
      rw [after_of_refuses hx]
      exact ⟨.inl hx, hroom⟩
    case inr =>
      rw [after_of_yields hx, ← limit_of_yields hx]
      exact ⟨.inr ⟨a, u, hx, hf⟩, hroom⟩

@[simp]
theorem refuses_ofRule {rule : Rule α} [rule.Blind] : (ofRule rule).Refuses s t ↔ rule.Refuses s t ∧ s.Opens 1 := by
  unfold Refuses
  rw [rule_ofRule]
  refine and_congr_right fun h => ?_
  rw [ofRule, openLevels, after_of_refuses h]
  exact Iff.rfl

theorem Refuses.nested {x : Script α} (h : x.nested.Refuses s t) :
    s.hasRoom = true ∧ ∃ u, x.Refuses s.deeper u ∧ t = u.shallower := by
  obtain ⟨hrule, hlevels⟩ := h
  rw [Script.nested, openLevels, after_of_refuses (rule_nested x ▸ hrule)] at hlevels
  have hroom : s.hasRoom = true := by
    cases hroom : s.hasRoom
    case true => rfl
    case false =>
      simp only [hroom, Bool.false_eq_true, if_false] at hlevels
      unfold State.hasRoom at hroom
      split at hroom
      case h_1 => contradiction
      case h_2 limit hlimit => exact absurd (hlevels limit hlimit) (by simpa using hroom)
  obtain ⟨d, expected, got, houtcome, hcause⟩ := hrule
  rw [rule_nested, outcome_nested, if_pos hroom] at houtcome
  obtain ⟨herror, rfl⟩ := Prod.mk.inj houtcome
  refine ⟨hroom, _, ⟨⟨d, expected, got, Prod.ext herror rfl, hcause⟩, ?_⟩, rfl⟩
  rwa [if_pos hroom] at hlevels

theorem Refuses.withResultType {x : Script α} {type : TypeSpec} (h : (x.withResultType type).Refuses s t) :
    ∃ u, x.Refuses (s.inFunction type) u ∧ t = u.outside := by
  obtain ⟨hrule, hlevels⟩ := h
  rw [Script.withResultType, openLevels, after_of_refuses (rule_withResultType type x ▸ hrule)] at hlevels
  obtain ⟨d, expected, got, houtcome, hcause⟩ := hrule
  rw [rule_withResultType, outcome_withResultType] at houtcome
  obtain ⟨herror, rfl⟩ := Prod.mk.inj houtcome
  exact ⟨_, ⟨⟨d, expected, got, Prod.ext herror rfl, hcause⟩, hlevels⟩, rfl⟩

variable {kind : Kind}

theorem refuses_bind_pure {x : Script α} {f : α → β} : (x >>= fun a => pure (f a)).Refuses s t ↔ x.Refuses s t := by
  simp

-- What only asks answers at once, and leaves the state as it is.
theorem refuses_ask_bind {rule : Rule β} [rule.Blind] {f : β → Script α} {answer : β}
    (h : rule.outcome s = (.ok answer, s)) : (ofRule rule >>= f).Refuses s t ↔ (f answer).Refuses s t := by
  have hrefuses : ¬rule.Refuses s t := refuses_of_outcome_ok h
  have hyields (b : β) (u : State) : rule.Yields s b u ↔ b = answer ∧ u = s := by simp [Yields, h, eq_comm]
  simp [hrefuses, hyields, and_assoc]

@[simp]
theorem refuses_peekKind_bind {f : Kind → Script α} :
    (ofRule peekKind >>= f).Refuses s t ↔ (f s.peek.kind).Refuses s t :=
  refuses_ask_bind rfl

@[simp]
theorem refuses_peek_bind {f : Token → Script α} : (ofRule peek >>= f).Refuses s t ↔ (f s.peek).Refuses s t :=
  refuses_ask_bind rfl

@[simp]
theorem refuses_consume_bind {f : Token → Script α} :
    (ofRule consume >>= f).Refuses s t ↔ (f s.peek).Refuses s.next t := by
  simp [and_assoc]

@[simp]
theorem refuses_expect_bind {f : Token → Script α} :
    (ofRule (expect kind) >>= f).Refuses s t ↔
      (s.peek.kind ≠ kind ∧ t = s ∧ s.Opens 1) ∨ (s.peek.kind = kind ∧ (f s.peek).Refuses s.next t) := by
  simp [and_assoc]

theorem refuses_if_accept {x y : Script α} :
    (do if ← ofRule (accept kind) then x else y : Script α).Refuses s t ↔
      (s.peek.kind = kind ∧ x.Refuses s.next t) ∨ (s.peek.kind ≠ kind ∧ y.Refuses s t) := by
  by_cases h : s.peek.kind = kind <;> simp [h]

@[simp]
theorem refuses_rest_bind {f : List Token → Script α} :
    (ofRule rest >>= f).Refuses s t ↔ (f s.stream.rest).Refuses s t :=
  refuses_ask_bind rfl

@[simp]
theorem refuses_asksRecord_bind {v : String} {f : Bool → Script α} :
    (ofRule (asksRecord v) >>= f).Refuses s t ↔ (f (s.isRecord v)).Refuses s t :=
  refuses_ask_bind rfl

@[simp]
theorem refuses_asksVoid_bind {f : Bool → Script α} :
    (ofRule asksVoid >>= f).Refuses s t ↔ (f (s.resultType.any (·.isVoid))).Refuses s t :=
  refuses_ask_bind rfl

end Combinators

theorem Refuses.repeatWithin {round : β → Script (Round β γ)} {Invariant : β → State → Prop} {left : List Token}
    (keeps : ∀ {b s b' u}, Invariant b s → (round b).rule.Yields s (.again b') u → Invariant b' u)
    (hs : Invariant b s) (h : (repeatWithin round left b).Refuses s t) :
    ∃ b' u, Invariant b' u ∧ ((round b').Refuses u t ∨ t = u) := by
  induction left generalizing b s
  case nil =>
    obtain ⟨hunexpected, -⟩ := refuses_ofRule.mp h
    exact ⟨b, s, hs, .inr <| refuses_unexpected.mp hunexpected⟩
  case cons left ih =>
    obtain hround | ⟨_ | c, u, hround, h⟩ := refuses_bind.mp h
    case inl => exact ⟨b, s, hs, .inl hround⟩
    case inr.again => exact ih (keeps hs hround) h
    case inr.done => exact absurd h refuses_pure

theorem Refuses.repeatFrom {round : β → Script (Round β γ)} {Invariant : β → State → Prop}
    (keeps : ∀ {b s b' u}, Invariant b s → (round b).rule.Yields s (.again b') u → Invariant b' u)
    (hs : Invariant b s) (h : (repeatFrom round b).Refuses s t) :
    ∃ b' u, Invariant b' u ∧ ((round b').Refuses u t ∨ t = u) := by
  exact Refuses.repeatWithin keeps hs (refuses_rest_bind.mp h)

end Script
end BasicFrontEnd.Grammar
