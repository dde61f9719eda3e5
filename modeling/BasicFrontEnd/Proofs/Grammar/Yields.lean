import BasicFrontEnd.Proofs.Grammar.Reads

/-!
When rules succeed: `rule.Yields s a t` says that the rule, run in the state `s`, answers `a` and leaves `t`. There is
one equivalence for each of the combinators that rules are made of, and for loops an invariant to read them by and
steps to run them by.
-/

namespace BasicFrontEnd.Grammar

open State

-- The fault that no more levels of nesting may be opened than the limit says.
def limitFault (limit : Nat) (v : Token) : Diagnostic :=
  v.fault (.badToken ("at most " ++ toString limit ++ " levels of nesting") v.value)

namespace Rule

-- What the rule answers, and the state that it leaves.
def outcome (rule : Rule α) (s : State) : Except Diagnostic α × State :=
  rule s

def Yields (rule : Rule α) (s : State) (a : α) (t : State) : Prop :=
  rule.outcome s = (.ok a, t)

section Combinators

variable {s t : State}

theorem outcome_bind (x : Rule α) (f : α → Rule β) (s : State) :
    (x >>= f).outcome s =
      match x.outcome s with
      | (.ok a, u)    => (f a).outcome u
      | (.error d, u) => (.error d, u) := by
  have hbind : (x >>= f).outcome s = ExceptT.bindCont f (x.outcome s).1 (x.outcome s).2 := rfl
  rw [hbind]
  obtain ⟨_ | a, u⟩ := x.outcome s <;> rfl

@[simp]
theorem yields_pure {a b : α} : (pure a : Rule α).Yields s b t ↔ b = a ∧ t = s := by
  have : (pure a : Rule α).outcome s = (.ok a, s) := rfl
  simp [Yields, this, eq_comm]

@[simp]
theorem yields_bind {x : Rule α} {f : α → Rule β} {b : β} :
    (x >>= f).Yields s b t ↔ ∃ a u, x.Yields s a u ∧ (f a).Yields u b t := by
  unfold Yields
  rw [outcome_bind]
  obtain ⟨_ | a, u⟩ := x.outcome s
  case error => simp
  case ok =>
    constructor
    case mp => exact fun h => ⟨a, u, rfl, h⟩
    case mpr =>
      rintro ⟨_, _, ⟨⟩, h⟩
      exact h

@[simp]
theorem yields_map {x : Rule α} {f : α → β} {b : β} :
    (f <$> x).Yields s b t ↔ ∃ a, x.Yields s a t ∧ b = f a := by
  rw [map_eq_pure_bind]
  simp only [yields_bind, yields_pure]
  constructor
  case mp =>
    rintro ⟨a, u, hx, hb, rfl⟩
    exact ⟨a, hx, hb⟩
  case mpr =>
    rintro ⟨a, hx, hb⟩
    exact ⟨a, t, hx, hb, rfl⟩

@[simp]
theorem yields_get {u : State} : (get : Rule State).Yields s u t ↔ u = s ∧ t = s := by
  have : (get : Rule State).outcome s = (.ok s, s) := rfl
  simp [Yields, this, eq_comm]

@[simp]
theorem yields_lift {x : Except Diagnostic α} {a : α} : (liftM x : Rule α).Yields s a t ↔ x = .ok a ∧ t = s := by
  have : (liftM x : Rule α).outcome s = (x, s) := rfl
  simp [Yields, this, eq_comm]

@[simp]
theorem yields_unexpected {expected : String} {a : α} : ¬(unexpected expected : Rule α).Yields s a t := by
  have : (unexpected expected : Rule α).outcome s = (.error (s.unexpected expected), s) := rfl
  simp [Yields, this]

@[simp]
theorem yields_peek {u : Token} : peek.Yields s u t ↔ u = s.peek ∧ t = s := by
  have : peek.outcome s = (.ok s.peek, s) := rfl
  simp [Yields, this, eq_comm]

@[simp]
theorem yields_peekKind {k : Kind} : peekKind.Yields s k t ↔ k = s.peek.kind ∧ t = s := by
  have : peekKind.outcome s = (.ok s.peek.kind, s) := rfl
  simp [Yields, this, eq_comm]

@[simp]
theorem yields_consume {u : Token} : consume.Yields s u t ↔ u = s.peek ∧ t = s.next := by
  have hcurrent : s.next.stream.current = s.peek := Stream.current_consume s.stream
  have : consume.outcome s = (.ok s.next.stream.current, s.next) := rfl
  simp [Yields, this, hcurrent, eq_comm]

theorem outcome_get_bind (f : State → Rule β) (s : State) : (get >>= f).outcome s = (f s).outcome s :=
  rfl

theorem outcome_peekKind_bind (f : Kind → Rule β) (s : State) :
    (peekKind >>= f).outcome s = (f s.peek.kind).outcome s :=
  rfl

theorem outcome_consume (s : State) : consume.outcome s = (.ok s.peek, s.next) :=
  yields_consume.mpr ⟨rfl, rfl⟩

theorem outcome_consume_bind (f : Token → Rule β) (s : State) :
    (consume >>= f).outcome s = (f s.peek).outcome s.next := by
  rw [outcome_bind, outcome_consume]

@[simp]
theorem yields_accept {kind : Kind} {b : Bool} :
    (accept kind).Yields s b t ↔
      (s.peek.kind = kind ∧ b = true ∧ t = s.next) ∨ (s.peek.kind ≠ kind ∧ b = false ∧ t = s) := by
  simp only [accept, yields_bind, yields_peekKind, and_assoc]
  by_cases h : s.peek.kind = kind <;> simp [h, and_comm]

@[simp]
theorem yields_expect {kind : Kind} {u : Token} :
    (expect kind).Yields s u t ↔ s.peek.kind = kind ∧ u = s.peek ∧ t = s.next := by
  simp only [expect, yields_bind, yields_peekKind, and_assoc]
  by_cases h : s.peek.kind = kind <;> simp [h]

theorem outcome_nested (rule : Rule α) (s : State) :
    rule.nested.outcome s =
      if s.hasRoom then ((rule.outcome s.deeper).1, (rule.outcome s.deeper).2.shallower)
      else (.error (limitFault (s.limit.getD 0) s.peek), s) := by
  simp only [outcome, nested]
  split <;> rfl

theorem yields_nested {rule : Rule α} {a : α} :
    (nested rule).Yields s a t ↔ s.hasRoom = true ∧ ∃ u, rule.Yields s.deeper a u ∧ t = u.shallower := by
  unfold Yields
  rw [outcome_nested]
  split
  case isTrue h =>
    obtain ⟨r, u⟩ := rule.outcome s.deeper
    simp [h, eq_comm, and_assoc]
  case isFalse h => simp [h]

end Combinators

-- The tokens that remain bound the rounds.
theorem outcome_repeatFrom (round : β → Rule (Round β γ)) (b : β) (s : State) :
    (repeatFrom round b).outcome s = (repeatWithin round s.stream.rest b).outcome s :=
  outcome_get_bind (fun s => repeatWithin round s.stream.rest b) s

-- What holds at the start, and is kept by every round that goes on, holds when the round that stops begins.
theorem Yields.repeatWithin {round : β → Rule (Round β γ)} {Invariant : β → State → Prop} {left : List Token}
    (keeps : ∀ {b s b' u}, Invariant b s → (round b).Yields s (.again b') u → Invariant b' u)
    (hs : Invariant b s) (h : (repeatWithin round left b).Yields s c t) :
    ∃ b' u, Invariant b' u ∧ (round b').Yields u (.done c) t := by
  induction left generalizing b s
  case nil => simp [Rule.repeatWithin] at h
  case cons left ih =>
    simp only [Rule.repeatWithin, yields_bind] at h
    obtain ⟨_ | c', u, hround, h⟩ := h
    case again => exact ih (keeps hs hround) h
    case done =>
      obtain ⟨rfl, rfl⟩ : c = c' ∧ t = u := by simpa using h
      exact ⟨b, s, hs, hround⟩

theorem Yields.repeatFrom {round : β → Rule (Round β γ)} {Invariant : β → State → Prop}
    (keeps : ∀ {b s b' u}, Invariant b s → (round b).Yields s (.again b') u → Invariant b' u)
    (hs : Invariant b s) (h : (repeatFrom round b).Yields s c t) :
    ∃ b' u, Invariant b' u ∧ (round b').Yields u (.done c) t := by
  simp only [Rule.repeatFrom, yields_bind, yields_get, and_assoc, exists_and_left, exists_eq_left] at h
  exact Yields.repeatWithin keeps hs h

-- Rounds that go on, each of them past a token.
inductive Rounds (round : β → Rule (Round β γ)) : β → State → β → State → Prop
  | nil  : Rounds round b s b s
  | cons : (round b).Yields s (.again b') u → u.ahead.length < s.ahead.length → Rounds round b' u c t →
           Rounds round b s c t

namespace Rounds

variable {round : β → Rule (Round β γ)}

theorem snoc (h : Rounds round b s b' t) (hround : (round b').Yields t (.again c) u)
    (hu : u.ahead.length < t.ahead.length) : Rounds round b s c u := by
  induction h
  case nil => exact cons hround hu nil
  case cons hfirst hlt _ ih => exact cons hfirst hlt (ih hround hu)

theorem yields_repeatWithin {left : List Token} (h : Rounds round b s b' t) (hdone : (round b').Yields t (.done c) u)
    (hleft : s.ahead.length < left.length) : (repeatWithin round left b).Yields s c u := by
  induction h generalizing left
  case nil =>
    obtain ⟨_, left, rfl⟩ := List.exists_cons_of_length_pos (Nat.zero_lt_of_lt hleft)
    simp only [repeatWithin, yields_bind]
    exact ⟨_, _, hdone, by simp⟩
  case cons hfirst hlt _ ih =>
    obtain ⟨_, left, rfl⟩ := List.exists_cons_of_length_pos (Nat.zero_lt_of_lt hleft)
    simp only [repeatWithin, yields_bind]
    refine ⟨_, _, hfirst, ih hdone ?_⟩
    simp at hleft
    omega

theorem yields (h : Rounds round b s b' t) (hdone : (round b').Yields t (.done c) u) :
    (repeatFrom round b).Yields s c u := by
  simp only [repeatFrom, yields_bind, yields_get, and_assoc, exists_and_left, exists_eq_left]
  exact h.yields_repeatWithin hdone (Nat.lt_succ_self _)

end Rounds

end Rule
end BasicFrontEnd.Grammar
