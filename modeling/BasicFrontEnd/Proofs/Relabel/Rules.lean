import BasicFrontEnd.Proofs.Grammar.Script
import BasicFrontEnd.Proofs.Grammar.Statements
import BasicFrontEnd.Proofs.Relabel.Trees

/-!
What rules do with relabelled tokens: `rule.Relabels r f rule' s` says that the rule does in `s` what `rule'` does in
the relabelled state, where `f` relabels what is answered. A fault is told of the same token. In this module the rules
for types and expressions.
-/

namespace BasicFrontEnd.Grammar

open Rule State

variable {r : Relabelling} {s : State}

section States

def State.relabel (r : Relabelling) (s : State) : State :=
  { s with
    stream     := s.stream.relabel r
    records    := s.records.map r.name
    resultType := s.resultType.map (·.relabel r)
    consumed   := s.consumed.map (·.relabel r) }

namespace State

@[simp]
theorem peek_relabel (s : State) : (s.relabel r).peek = s.peek.relabel r :=
  s.stream.peek_relabel r

@[simp]
theorem next_relabel (s : State) : (s.relabel r).next = s.next.relabel r := by
  simp [next, relabel, peek]

@[simp]
theorem isRecord_relabel (s : State) (name : String) : (s.relabel r).isRecord (r.name name) = s.isRecord name := by
  simp [isRecord, relabel, r.injective.eq_iff]

-- Another name is a record's exactly if the name was, and other words are none.
theorem isRecord_value_relabel (s : State) (v : Token) :
    ((v.relabel r).kind == .identifier && (s.relabel r).isRecord (v.relabel r).value) =
      (v.kind == .identifier && s.isRecord v.value) := by
  by_cases h : v.kind = .identifier
  case pos => rw [v.value_relabel_of_name r h, isRecord_relabel, v.kind_relabel]
  case neg => rw [v.kind_relabel, beq_false_of_ne h, Bool.false_and, Bool.false_and]

end State

end States

section Combinators

def Rule.Round.map (f : β → β) (g : γ → γ) : Round β γ → Round β γ
  | .again b => .again (f b)
  | .done c  => .done (g c)

def Rule.Relabels (r : Relabelling) (f : α → α) (rule rule' : Rule α) (s : State) : Prop :=
  Relabelled r f (fun t t' => t' = t.relabel r) (rule.outcome s) (rule'.outcome (s.relabel r))

namespace Rule

variable {f : α → α} {g : β → β} {x x' y y' : Rule α} {k k' : α → Rule β}

theorem relabels_pure {a a' : α} (h : a' = f a) : (pure a : Rule α).Relabels r f (pure a') s :=
  h ▸ .ok rfl

theorem relabels_unexpected {expected : String} :
    (unexpected expected : Rule α).Relabels r f (unexpected expected) s := by
  have hfault : (s.relabel r).unexpected expected =
      (s.peek.relabel r).fault (.badToken expected (s.peek.relabel r).value) := by
    rw [State.unexpected, peek_relabel]
  have hd : Diagnostic.Relabels r (s.unexpected expected) ((s.relabel r).unexpected expected) :=
    hfault ▸ .unexpected s.peek expected
  exact .error hd rfl

theorem relabels_number {v : Token} {negative : Bool} (hv : v.kind ≠ .identifier) :
    (liftM (number v negative) : Rule Expr).Relabels r (·.relabel r) (liftM (number (v.relabel r) negative)) s := by
  have houtcome : ∀ (v : Token) (s : State), (liftM (number v negative) : Rule Expr).outcome s =
      (number v negative, s) := fun _ _ => rfl
  rw [Relabels, houtcome, houtcome, number, number, v.value_relabel_of_ne r hv, v.kind_relabel]
  split
  case h_1 literal h =>
    have hliteral : literal.relabel r = literal := by
      split at h
      all_goals
        obtain ⟨_, -, rfl⟩ := Option.map_eq_some_iff.mp h
        rw [Expr.relabel]
    have hok : Relabelled r (·.relabel r) (fun t t' => t' = t.relabel r) (.ok literal, s)
        (.ok (literal.relabel r), s.relabel r) := .ok rfl
    rwa [hliteral] at hok
  case h_2 => exact .error (.number v _) rfl

theorem Relabels.bind (hx : x.Relabels r f x' s) (hk : ∀ {a t}, x.Yields s a t → (k a).Relabels r g (k' (f a)) t) :
    (x >>= k).Relabels r g (x' >>= k') s := by
  unfold Relabels at hx
  rw [Relabels, outcome_bind, outcome_bind]
  generalize hr : x.outcome s = res at hx
  generalize x'.outcome (s.relabel r) = res' at hx
  cases hx
  case ok ht => exact ht ▸ hk hr
  case error hd ht => exact .error hd ht

theorem Relabels.map {h h' : α → β} (hx : x.Relabels r f x' s) (hcomm : ∀ a, h' (f a) = g (h a)) :
    (x >>= fun a => pure (h a)).Relabels r g (x' >>= fun a => pure (h' a)) s :=
  hx.bind fun _ => relabels_pure (hcomm _)

theorem Relabels.get_bind {k k' : State → Rule β} (hk : (k s).Relabels r g (k' (s.relabel r)) s) :
    (get >>= k).Relabels r g (get >>= k') s :=
  hk

theorem Relabels.peek_bind {k k' : Token → Rule β} (hk : (k s.peek).Relabels r g (k' (s.peek.relabel r)) s) :
    (peek >>= k).Relabels r g (peek >>= k') s := by
  rw [← peek_relabel] at hk
  exact hk

theorem Relabels.peekKind_bind {k k' : Kind → Rule β} (hk : (k s.peek.kind).Relabels r g (k' s.peek.kind) s) :
    (peekKind >>= k).Relabels r g (peekKind >>= k') s := by
  have houtcome : ∀ (k : Kind → Rule β) (s : State), (peekKind >>= k).outcome s = (k s.peek.kind).outcome s :=
    fun _ _ => rfl
  rw [Relabels, houtcome, houtcome, peek_relabel, Token.kind_relabel]
  exact hk

theorem relabels_consume : consume.Relabels r (·.relabel r) consume s := by
  have houtcome : ∀ s : State, consume.outcome s = (.ok s.peek, s.next) := fun s => yields_consume.mpr ⟨rfl, rfl⟩
  rw [Relabels, houtcome, houtcome, peek_relabel, next_relabel]
  exact .ok rfl

theorem Relabels.consume_bind {k k' : Token → Rule β} (hk : (k s.peek).Relabels r g (k' (s.peek.relabel r)) s.next) :
    (consume >>= k).Relabels r g (consume >>= k') s := by
  refine relabels_consume.bind fun h => ?_
  obtain ⟨rfl, rfl⟩ := yields_consume.mp h
  exact hk

theorem relabels_backup : backup.Relabels r id backup s := by
  have houtcome : ∀ s : State, backup.outcome s = (.ok (), { s with stream := s.stream.backup }) := fun _ => rfl
  have hstream : (s.relabel r).stream.backup = s.stream.backup.relabel r := s.stream.backup_relabel r
  rw [Relabels, houtcome, houtcome, hstream]
  exact .ok rfl

theorem relabels_accept {kind : Kind} : (accept kind).Relabels r id (accept kind) s := by
  refine .peekKind_bind ?_
  split
  case isTrue => exact .consume_bind (relabels_pure rfl)
  case isFalse => exact relabels_pure rfl

theorem Relabels.if_accept {kind : Kind} (hx : s.peek.kind = kind → x.Relabels r f x' s.next)
    (hy : s.peek.kind ≠ kind → y.Relabels r f y' s) :
    (do if ← accept kind then x else y : Rule α).Relabels r f (do if ← accept kind then x' else y') s := by
  refine relabels_accept.bind fun h => ?_
  obtain ⟨hkind, rfl, rfl⟩ | ⟨hkind, rfl, rfl⟩ := yields_accept.mp h
  case inl => exact hx hkind
  case inr => exact hy hkind

theorem relabels_expect {kind : Kind} : (expect kind).Relabels r (·.relabel r) (expect kind) s := by
  refine .peekKind_bind ?_
  split
  case isTrue => exact relabels_consume
  case isFalse => exact relabels_unexpected

theorem Relabels.expect_bind {kind : Kind} {k k' : Token → Rule β}
    (hk : s.peek.kind = kind → (k s.peek).Relabels r g (k' (s.peek.relabel r)) s.next) :
    (expect kind >>= k).Relabels r g (expect kind >>= k') s := by
  refine relabels_expect.bind fun h => ?_
  obtain ⟨hkind, rfl, rfl⟩ := yields_expect.mp h
  exact hk hkind

theorem Relabels.nested (h : x.Relabels r f x' s.deeper) : x.nested.Relabels r f x'.nested s := by
  have hroom : (s.relabel r).hasRoom = s.hasRoom := rfl
  unfold Relabels at h
  rw [Relabels, outcome_nested, outcome_nested, hroom]
  split
  case isFalse =>
    rw [peek_relabel]
    exact .error (.unexpected s.peek _) rfl
  case isTrue =>
    have hdeeper : (s.relabel r).deeper = s.deeper.relabel r := rfl
    rw [hdeeper]
    generalize x.outcome s.deeper = res at h
    generalize x'.outcome (s.deeper.relabel r) = res' at h
    cases h
    case ok ht => exact .ok (congrArg State.shallower ht)
    case error hd ht => exact .error hd (congrArg State.shallower ht)

theorem Relabels.repeatWithin {f : β → β} {g : γ → γ} {round round' : β → Rule (Round β γ)}
    (hround : ∀ b s, (round b).Relabels r (Round.map f g) (round' (f b)) s) (left : List Token) (b : β) :
    (repeatWithin round left b).Relabels r g (repeatWithin round' (left.map (·.relabel r)) (f b)) s := by
  induction left generalizing b s
  case nil => exact relabels_unexpected
  case cons left ih =>
    refine (hround b s).bind fun {res t} _ => ?_
    cases res
    case again => exact ih _
    case done => exact relabels_pure rfl

theorem Relabels.repeatFrom {f : β → β} {g : γ → γ} {round round' : β → Rule (Round β γ)} {b b' : β}
    (hround : ∀ b s, (round b).Relabels r (Round.map f g) (round' (f b)) s) (hb : b' = f b) :
    (repeatFrom round b).Relabels r g (repeatFrom round' b') s :=
  hb ▸ .get_bind (.repeatWithin hround s.stream.rest b)

theorem Relabels.separated {item item' : Rule α} (hitem : ∀ s, item.Relabels r f item' s) :
    (separated item).Relabels r (List.map f) (separated item') s := by
  rw [separated_eq, separated_eq]
  refine (hitem s).bind fun _ => .repeatFrom (f := List.map f) (fun items u => ?_) rfl
  exact .if_accept (fun _ => (hitem u.next).map fun _ => rfl) fun _ => relabels_pure <| by simp [Round.map]

end Rule

end Combinators

section Types

theorem dimensions_relabels : dimensions.Relabels r id dimensions s := by
  refine .repeatFrom (f := id) (fun n u => ?_) rfl
  exact .if_accept (fun _ => .expect_bind fun _ => relabels_pure rfl) fun _ => relabels_pure rfl

theorem typeSpec_relabels : typeSpec.Relabels r (·.relabel r) typeSpec s := by
  refine .peekKind_bind ?_
  split
  case isTrue => exact .consume_bind <| dimensions_relabels.map fun _ => rfl
  case isFalse =>
    split
    case isTrue hname =>
      refine .consume_bind <| dimensions_relabels.bind fun _ => relabels_pure ?_
      rw [s.peek.value_relabel_of_name r hname]
      rfl
    case isFalse => exact relabels_unexpected

end Types

section Exprs

-- The rules one level of nesting further in do the same with relabelled tokens.
structure Inner.Relabels (r : Relabelling) (inner inner' : Inner) : Prop where
  expr  : ∀ s, inner.expr.Relabels r (·.relabel r) inner'.expr s
  unary : ∀ s, inner.unary.Relabels r (·.relabel r) inner'.unary s

variable {item item' : Rule Expr} {inner inner' : Inner}

theorem arguments_relabels (hitem : ∀ s, item.Relabels r (·.relabel r) item' s) :
    (arguments item).Relabels r (List.map (·.relabel r)) (arguments item') s :=
  .if_accept (fun _ => relabels_pure rfl) fun _ =>
    (Rule.Relabels.separated hitem).bind fun _ => .expect_bind fun _ => relabels_pure rfl

-- A rule one level of nesting further in, and the token that closes the level.
theorem Rule.Relabels.closed {f : α → α} {g : β → β} {k k' : α → β} {rule rule' : Rule α} {close : Symbol}
    (h : ∀ s, rule.Relabels r f rule' s) (hcomm : ∀ a, k' (f a) = g (k a)) :
    (do
      let a ← rule.nested
      let _ ← expect (.symbol close)
      return k a : Rule β).Relabels r g (do
      let a ← rule'.nested
      let _ ← expect (.symbol close)
      return k' a) s :=
  (h s.deeper).nested.bind fun _ => .expect_bind fun _ => relabels_pure (hcomm _)

theorem addIndex_relabel (base index : Expr) :
    addIndex (base.relabel r) (index.relabel r) = (addIndex base index).relabel r := by
  cases base <;> simp [addIndex, Expr.relabel]

theorem suffixRound_relabels (h : inner.Relabels r inner') (e : Expr) :
    (suffixRound inner e).Relabels r (Round.map (·.relabel r) (·.relabel r)) (suffixRound inner' (e.relabel r)) s := by
  refine .peekKind_bind ?_
  split
  case h_1 =>
    cases e
    case identifier =>
      rw [Expr.relabel]
      refine .consume_bind <| .expect_bind fun hfield => relabels_pure ?_
      simp only [Token.value_relabel_of_name r hfield, Round.map, Expr.relabel]
    all_goals
      rw [Expr.relabel]
      exact relabels_unexpected
  case h_2 =>
    exact .consume_bind <| .closed h.expr fun _ => by simp only [Round.map, addIndex_relabel]
  case h_3 =>
    cases e
    case identifier =>
      rw [Expr.relabel]
      refine .consume_bind <| (arguments_relabels h.expr).nested.map fun es => ?_
      simp only [Round.map, Expr.relabel, Expr.relabels_eq_map]
    all_goals
      rw [Expr.relabel]
      exact relabels_unexpected
  case h_4 => exact relabels_pure rfl

theorem suffixes_relabels (h : inner.Relabels r inner') {base base' : Expr} (hbase : base' = base.relabel r) :
    (suffixes inner base).Relabels r (·.relabel r) (suffixes inner' base') s :=
  .repeatFrom (fun e _ => suffixRound_relabels h e) hbase

theorem primary_relabels (h : inner.Relabels r inner') :
    (primary inner).Relabels r (·.relabel r) (primary inner') s := by
  refine .peekKind_bind ?_
  split
  case h_1 hname => exact .consume_bind <| relabels_pure <| by rw [s.peek.value_relabel_of_name r hname, Expr.relabel]
  case h_2 hnumber | h_3 hnumber => exact .consume_bind <| relabels_number <| by simp [hnumber]
  case h_4 hstring =>
    refine .consume_bind <| relabels_pure ?_
    rw [s.peek.value_relabel_of_ne r (by simp [hstring]), Expr.relabel]
  case h_5 | h_6 | h_7 => exact .consume_bind <| relabels_pure <| by rw [Expr.relabel]
  case h_8 => exact .consume_bind <| .closed h.expr fun _ => rfl
  case h_9 =>
    have hitems : ∀ s, (separated inner.expr).Relabels r (List.map (·.relabel r)) (separated inner'.expr) s :=
      fun _ => .separated h.expr
    exact .consume_bind <| .closed hitems fun es => by rw [Expr.relabel, Expr.relabels_eq_map]
  case h_10 => exact relabels_unexpected

theorem operand_relabels (h : inner.Relabels r inner') :
    (operand inner).Relabels r (·.relabel r) (operand inner') s := by
  refine .peekKind_bind ?_
  split
  case h_1 =>
    refine .consume_bind <| .peekKind_bind ?_
    split
    case isTrue hnumber =>
      refine .consume_bind <| .bind (relabels_number ?_) fun _ => suffixes_relabels h rfl
      intro hname
      simp [hname, Kind.isNumber] at hnumber
    case isFalse => exact (h.unary _).nested.map fun _ => by rw [Expr.relabel]
  case h_2 => exact .consume_bind <| (h.unary _).nested.map fun _ => by rw [Expr.relabel]
  case h_3 => exact (primary_relabels h).bind fun _ => suffixes_relabels h rfl

theorem binaryLevel_relabels {operators : List Operator} (hitem : ∀ s, item.Relabels r (·.relabel r) item' s) :
    (binaryLevel operators item).Relabels r (·.relabel r) (binaryLevel operators item') s := by
  rw [binaryLevel_eq, binaryLevel_eq]
  refine (hitem s).bind fun _ => .repeatFrom (fun left u => .peekKind_bind ?_) rfl
  split
  case h_1 => exact relabels_pure rfl
  case h_2 => exact .consume_bind <| (hitem _).map fun _ => by simp only [Round.map, Expr.relabel]

theorem comparison_relabels (hitem : ∀ s, item.Relabels r (·.relabel r) item' s) :
    (comparison item).Relabels r (·.relabel r) (comparison item') s := by
  refine (hitem s).bind fun _ => .peekKind_bind ?_
  split
  case h_1 => exact relabels_pure rfl
  case h_2 =>
    refine .consume_bind <| (hitem _).bind fun _ => .peekKind_bind ?_
    split
    case isTrue => exact relabels_unexpected
    case isFalse => exact relabels_pure <| by rw [Expr.relabel]

theorem disjunction_relabels (h : inner.Relabels r inner') :
    (disjunction inner).Relabels r (·.relabel r) (disjunction inner') s :=
  binaryLevel_relabels fun _ => binaryLevel_relabels fun _ => comparison_relabels fun _ =>
    binaryLevel_relabels fun _ => binaryLevel_relabels fun _ => operand_relabels h

theorem inner_relabels (left : List Token) :
    (Grammar.inner left).Relabels r (Grammar.inner (left.map (·.relabel r))) := by
  induction left
  case nil => exact ⟨fun _ => relabels_unexpected, fun _ => relabels_unexpected⟩
  case cons ih => exact ⟨fun _ => disjunction_relabels ih, fun _ => operand_relabels ih⟩

theorem expr_relabels : expr.Relabels r (·.relabel r) expr s :=
  .get_bind <| (inner_relabels s.stream.rest).expr s

end Exprs

end BasicFrontEnd.Grammar
