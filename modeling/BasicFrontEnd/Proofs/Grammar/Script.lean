import BasicFrontEnd.Proofs.Grammar.Composes
import BasicFrontEnd.Proofs.Grammar.Formed

/-!
Rules as scripts, which tell where levels of nesting are opened. A script is made of rules that do not see the levels
and of scripts that are run one level further in, so that a run can be followed from level to level.
-/

namespace BasicFrontEnd.Grammar

open Rule State

-- The state with other levels of nesting.
def State.withLevels (s : State) (depth : Nat) (limit : Option Nat) : State :=
  { s with depth := depth, limit := limit }

-- A rule that neither depends on the levels of nesting nor changes them.
class Rule.Blind (rule : Rule α) : Prop where
  outcome_withLevels : ∀ s depth limit,
    rule.outcome (s.withLevels depth limit) = ((rule.outcome s).1, (rule.outcome s).2.withLevels depth limit)

namespace Rule.Blind

instance {a : α} : (pure a : Rule α).Blind :=
  ⟨fun _ _ _ => rfl⟩

instance {expected : String} : (unexpected expected : Rule α).Blind :=
  ⟨fun _ _ _ => rfl⟩

instance : peek.Blind :=
  ⟨fun _ _ _ => rfl⟩

instance : peekKind.Blind :=
  ⟨fun _ _ _ => rfl⟩

instance : consume.Blind :=
  ⟨fun _ _ _ => rfl⟩

instance : backup.Blind :=
  ⟨fun _ _ _ => rfl⟩

instance {x : Except Diagnostic α} : (liftM x : Rule α).Blind :=
  ⟨fun _ _ _ => rfl⟩

instance {x : Rule α} {f : α → Rule β} [hx : x.Blind] [hf : ∀ a, (f a).Blind] : (x >>= f).Blind where
  outcome_withLevels s depth limit := by
    rw [outcome_bind, outcome_bind, hx.outcome_withLevels]
    obtain ⟨_ | a, u⟩ := x.outcome s
    case error => rfl
    case ok => exact (hf a).outcome_withLevels u depth limit

instance {c : Prop} [Decidable c] {x y : Rule α} [hx : x.Blind] [hy : y.Blind] : (if c then x else y).Blind := by
  split
  case isTrue => exact hx
  case isFalse => exact hy

instance {kind : Kind} : (accept kind).Blind := by
  unfold accept
  infer_instance

instance {kind : Kind} : (expect kind).Blind := by
  unfold expect
  infer_instance

theorem composes : Composes Blind where
  pure _ := inferInstance
  bind _ _ := inferInstance
  stops _ := inferInstance

-- The tokens that remain, which bound the rounds, are the same whatever levels are open.
instance {round : β → Rule (Round β γ)} [hround : ∀ b, (round b).Blind] {b : β} : (repeatFrom round b).Blind where
  outcome_withLevels s := (composes.repeatWithin hround s.stream.rest b).outcome_withLevels s

end Rule.Blind

section Outcomes

variable {s : State}

theorem Rule.outcome_withResultType (type : TypeSpec) (rule : Rule α) (s : State) :
    (withResultType type rule).outcome s =
      ((rule.outcome (s.inFunction type)).1, (rule.outcome (s.inFunction type)).2.outside) :=
  rfl

-- The rule leaves as many levels of nesting open as it finds.
def Rule.KeepsLevels (rule : Rule α) : Prop :=
  ∀ s, (rule.outcome s).2.depth = s.depth ∧ (rule.outcome s).2.limit = s.limit

theorem Rule.Blind.keepsLevels {rule : Rule α} (h : rule.Blind) : rule.KeepsLevels := by
  intro s
  have : (rule.outcome s).2 = (rule.outcome s).2.withLevels s.depth s.limit :=
    congrArg Prod.snd (h.outcome_withLevels s s.depth s.limit)
  rw [this]
  exact ⟨rfl, rfl⟩

theorem Rule.KeepsLevels.bind {x : Rule α} {f : α → Rule β} (hx : x.KeepsLevels) (hf : ∀ a, (f a).KeepsLevels) :
    (x >>= f).KeepsLevels := by
  intro s
  have hx := hx s
  rw [outcome_bind]
  generalize x.outcome s = r at hx
  obtain ⟨_ | a, u⟩ := r
  case error => exact hx
  case ok => exact ⟨(hf a u).1.trans hx.1, (hf a u).2.trans hx.2⟩

theorem Rule.KeepsLevels.nested {rule : Rule α} (h : rule.KeepsLevels) : rule.nested.KeepsLevels := by
  intro s
  rw [outcome_nested]
  split
  case isTrue => exact ⟨congrArg (· - 1) (h s.deeper).1, (h s.deeper).2⟩
  case isFalse => exact ⟨rfl, rfl⟩

theorem Rule.KeepsLevels.withResultType {rule : Rule α} (h : rule.KeepsLevels) (type : TypeSpec) :
    (withResultType type rule).KeepsLevels :=
  fun s => h (s.inFunction type)

end Outcomes

-- A script answers as a rule does. Its steps are rules that do not see the levels of nesting.
inductive Script : Type → Type 1
  | done (a : α) : Script α
  | step (rule : Rule β) (blind : rule.Blind) (next : β → Script α) : Script α
  -- One level of nesting further in.
  | deeper (inner : Script β) (next : β → Script α) : Script α
  -- In the body of a function with the result type.
  | within (type : TypeSpec) (inner : Script β) (next : β → Script α) : Script α

namespace Script

def bind : Script α → (α → Script β) → Script β
  | done a, f                 => f a
  | step rule blind next, f   => step rule blind fun b => (next b).bind f
  | deeper inner next, f      => deeper inner fun b => (next b).bind f
  | within type inner next, f => within type inner fun b => (next b).bind f

instance : Monad Script where
  pure := done
  bind := bind

-- The script of a rule that is one step.
def ofRule (rule : Rule α) [blind : rule.Blind] : Script α :=
  step rule blind done

def nested (inner : Script α) : Script α :=
  deeper inner done

def withResultType (type : TypeSpec) (inner : Script α) : Script α :=
  within type inner done

-- The rule that the script is the script of.
def rule : Script α → Rule α
  | done a                 => pure a
  | step rule _ next       => rule >>= fun b => (next b).rule
  | deeper inner next      => inner.rule.nested >>= fun b => (next b).rule
  | within type inner next => Grammar.withResultType type inner.rule >>= fun b => (next b).rule

-- What `next` tells of the answer and the state that the rule leaves, if it answers.
def after (rule : Rule β) (s : State) (next : β → State → γ) (failed : γ) : γ :=
  match rule.outcome s with
  | (.ok b, t)    => next b t
  | (.error _, _) => failed

-- The levels of nesting that the script enters, each by its number, with the token that is next then.
def entered : Script α → State → List (Nat × Token)
  | done _, _                 => []
  | step rule _ next, s       => after rule s (fun b => (next b).entered) []
  | deeper inner next, s      =>
    (if s.hasRoom then (s.depth + 1, s.peek) :: inner.entered s.deeper else []) ++
      after inner.rule.nested s (fun b => (next b).entered) []
  | within type inner next, s =>
    inner.entered (s.inFunction type) ++
      after (Grammar.withResultType type inner.rule) s (fun b => (next b).entered) []

-- How many levels of nesting are open where the script stops: if it fails, those around the fault.
def openLevels : Script α → State → Nat
  | done _, s                 => s.depth
  | step rule _ next, s       => after rule s (fun b => (next b).openLevels) s.depth
  | deeper inner next, s      =>
    after inner.rule.nested s (fun b => (next b).openLevels)
      (if s.hasRoom then inner.openLevels s.deeper else s.depth)
  | within type inner next, s =>
    after (Grammar.withResultType type inner.rule) s (fun b => (next b).openLevels)
      (inner.openLevels (s.inFunction type))

section Rules

@[simp]
theorem rule_pure (a : α) : (pure a : Script α).rule = pure a :=
  rfl

@[simp]
theorem rule_bind (x : Script α) (f : α → Script β) : (x >>= f).rule = x.rule >>= fun a => (f a).rule := by
  show (x.bind f).rule = _
  induction x
  case done => simp only [bind, rule, pure_bind]
  case step ih | deeper ih | within ih => simp only [bind, rule, ih, bind_assoc]

@[simp]
theorem rule_ofRule (rule : Rule α) [rule.Blind] : (ofRule rule).rule = rule :=
  bind_pure rule

@[simp]
theorem rule_nested (x : Script α) : x.nested.rule = x.rule.nested :=
  bind_pure x.rule.nested

@[simp]
theorem rule_withResultType (type : TypeSpec) (x : Script α) :
    (x.withResultType type).rule = Grammar.withResultType type x.rule :=
  bind_pure (Grammar.withResultType type x.rule)

@[simp]
theorem rule_ite {c : Prop} [Decidable c] (x y : Script α) :
    (if c then x else y).rule = if c then x.rule else y.rule := by
  split <;> rfl

end Rules

section Levels

theorem keepsLevels (x : Script α) : x.rule.KeepsLevels := by
  induction x
  case done => exact fun _ => ⟨rfl, rfl⟩
  case step blind _ ih => exact blind.keepsLevels.bind ih
  case deeper ihinner ih => exact ihinner.nested.bind ih
  case within ihinner ih => exact (ihinner.withResultType _).bind ih

end Levels

end Script

section Limits

variable {s t : State} {depth limit : Nat}

-- The state has at least as much room as there is where `depth` levels are open and `limit` may be.
structure State.Roomier (s : State) (depth limit : Nat) : Prop where
  limit_eq : s.limit = none ∨ s.limit = some limit
  depth_le : s.depth ≤ depth
  le_limit : depth ≤ limit

theorem State.Roomier.of_levels (h : s.Roomier depth limit) (ht : t.depth = s.depth ∧ t.limit = s.limit) :
    t.Roomier depth limit :=
  ⟨ht.2 ▸ h.limit_eq, ht.1 ▸ h.depth_le, h.le_limit⟩

-- The levels entered from a state, up to the first that is one too many where `depth` levels are open already.
def firstBeyond (s : State) (depth limit : Nat) (levels : List (Nat × Token)) : Option (Nat × Token) :=
  levels.find? fun level => limit + s.depth < level.1 + depth

-- The rule, which enters the levels from `s`, does the same where `depth` levels are open and `limit` may be, unless it
-- enters one too many: then it fails at the token that is next when it enters the first of these.
def Rule.Limited (rule : Rule α) (levels : List (Nat × Token)) (s : State) (depth limit : Nat) : Prop :=
  match firstBeyond s depth limit levels with
  | none =>
    rule.outcome (s.withLevels depth (some limit)) =
      ((rule.outcome s).1, (rule.outcome s).2.withLevels depth (some limit))
  | some (number, v) =>
    number + depth = limit + s.depth + 1 ∧
      (rule.outcome (s.withLevels depth (some limit))).1 = .error (limitFault limit v)

theorem Rule.Blind.limited {rule : Rule α} (h : rule.Blind) : rule.Limited [] s depth limit :=
  h.outcome_withLevels s depth (some limit)

theorem Rule.Limited.bind {x : Rule α} {f : α → Rule β} {next : α → State → List (Nat × Token)}
    (hx : x.Limited levels s depth limit) (hkeeps : x.KeepsLevels)
    (hf : ∀ a t, t.depth = s.depth ∧ t.limit = s.limit → (f a).Limited (next a t) t depth limit) :
    (x >>= f).Limited (levels ++ Script.after x s next []) s depth limit := by
  have hlevels := hkeeps s
  unfold Rule.Limited firstBeyond at hx hf ⊢
  simp only [List.find?_append, outcome_bind]
  cases hfirst : levels.find? fun level => limit + s.depth < level.1 + depth
  case some level =>
    simp only [hfirst] at hx
    refine ⟨hx.1, ?_⟩
    have herror := hx.2
    generalize x.outcome (s.withLevels depth (some limit)) = r at herror
    obtain ⟨_ | a, u⟩ := r
    case error =>
      obtain rfl := Except.error.inj herror
      rfl
    case ok => contradiction
  case none =>
    simp only [hfirst] at hx
    rw [hx]
    cases hr : x.outcome s
    case mk r t =>
      rw [hr] at hlevels
      simp only [Script.after, hr]
      cases r
      case error => rfl
      case ok a =>
        have := hf a t hlevels
        rwa [hlevels.1] at this

theorem State.Roomier.hasRoom (h : s.Roomier depth limit) (hlt : depth < limit) : s.hasRoom = true := by
  have := h.depth_le
  obtain hlimit | hlimit := h.limit_eq
  case inl => simp [State.hasRoom, hlimit]
  case inr =>
    simp [State.hasRoom, hlimit]
    omega

-- A level one further in is one too many exactly if it is one too many from the level further in.
theorem firstBeyond_deeper (s : State) (depth limit : Nat) (levels : List (Nat × Token)) :
    firstBeyond s.deeper (depth + 1) limit levels = firstBeyond s depth limit levels := by
  unfold firstBeyond
  congr 1
  funext level
  have : (s.deeper.depth : Nat) = s.depth + 1 := rfl
  simp only [this, decide_eq_decide]
  omega

theorem Rule.Limited.nested {rule : Rule α} (hs : s.Roomier depth limit)
    (h : depth < limit → rule.Limited levels s.deeper (depth + 1) limit) :
    rule.nested.Limited (if s.hasRoom then (s.depth + 1, s.peek) :: levels else []) s depth limit := by
  have hle := hs.le_limit
  have hdepth := hs.depth_le
  by_cases hlt : depth < limit
  case pos =>
    have h := h hlt
    have hfirst : firstBeyond s depth limit ((s.depth + 1, s.peek) :: levels) = firstBeyond s depth limit levels :=
      List.find?_cons_of_neg (by simp; omega)
    have hroom : (s.withLevels depth (some limit)).hasRoom = true := decide_eq_true hlt
    unfold Rule.Limited at h ⊢
    rw [firstBeyond_deeper] at h
    rw [if_pos (hs.hasRoom hlt), hfirst, outcome_nested, if_pos hroom, outcome_nested, if_pos (hs.hasRoom hlt)]
    cases hbeyond : firstBeyond s depth limit levels
    case none =>
      simp only [hbeyond] at h
      have h : rule.outcome (s.withLevels depth (some limit)).deeper = _ := h
      rw [h]
      rfl
    case some =>
      simp only [hbeyond] at h
      refine ⟨?_, h.2⟩
      have : (s.deeper.depth : Nat) = s.depth + 1 := rfl
      omega
  case neg =>
    have hroom : (s.withLevels depth (some limit)).hasRoom = false := decide_eq_false hlt
    have hfails : rule.nested.outcome (s.withLevels depth (some limit)) =
        (.error (limitFault limit s.peek), s.withLevels depth (some limit)) := by
      rw [outcome_nested, hroom]
      rfl
    unfold Rule.Limited
    rw [hfails]
    cases hs' : s.hasRoom
    case true =>
      have hfirst : firstBeyond s depth limit ((s.depth + 1, s.peek) :: levels) = some (s.depth + 1, s.peek) :=
        List.find?_cons_of_pos (by simp; omega)
      rw [if_pos rfl, hfirst]
      exact ⟨by omega, rfl⟩
    case false =>
      -- Neither has room, and both say so in the same words.
      obtain hlimit | hlimit := hs.limit_eq
      case inl => simp [State.hasRoom, hlimit] at hs'
      case inr =>
        rw [outcome_nested, hs', hlimit]
        rfl

theorem Rule.Limited.withResultType {rule : Rule α} (type : TypeSpec)
    (h : rule.Limited levels (s.inFunction type) depth limit) :
    (withResultType type rule).Limited levels s depth limit := by
  have hfirst : firstBeyond (s.inFunction type) depth limit levels = firstBeyond s depth limit levels := rfl
  unfold Rule.Limited at h ⊢
  rw [hfirst] at h
  rw [outcome_withResultType, outcome_withResultType]
  cases hbeyond : firstBeyond s depth limit levels
  case none =>
    simp only [hbeyond] at h
    have h : rule.outcome ((s.withLevels depth (some limit)).inFunction type) = _ := h
    rw [h]
    rfl
  case some =>
    simp only [hbeyond] at h
    exact h

-- What the levels that a script enters tell of its rule.
theorem Script.limited (x : Script α) (hs : s.Roomier depth limit) :
    x.rule.Limited (x.entered s) s depth limit := by
  induction x generalizing s depth
  case done a => exact Rule.Blind.limited (inferInstanceAs (pure a : Rule _).Blind)
  case step rule blind next ih =>
    exact blind.limited.bind blind.keepsLevels fun b t ht => ih b (hs.of_levels ht)
  case deeper inner next ihinner ih =>
    have hinner := Rule.Limited.nested hs fun hlt =>
      ihinner ⟨hs.limit_eq, Nat.succ_le_succ hs.depth_le, hlt⟩
    exact hinner.bind inner.keepsLevels.nested fun b t ht => ih b (hs.of_levels ht)
  case within type inner next ihinner ih =>
    have hinner := ihinner (s := s.inFunction type) ⟨hs.limit_eq, hs.depth_le, hs.le_limit⟩
    exact (hinner.withResultType type).bind (inner.keepsLevels.withResultType type) fun b t ht => ih b (hs.of_levels ht)

end Limits

end BasicFrontEnd.Grammar
