import BasicFrontEnd.Proofs.Grammar.Script

/-!
What a rule does depends on the tokens that it moves past and on the one that is next where it stops, and on no other:
`rule.Echoes rule' s bound` says that the rule does in `s` what `rule'` does in each state that looks like `s` as far as
that, with less than `bound` tokens ahead. The two rules differ only in how many rounds or levels they allow for.
-/

namespace BasicFrontEnd.Grammar

open Rule State

-- The state `s'` looks like `s`, and the tokens are ahead of it.
structure State.Twin (s s' : State) (ts : List Token) : Prop where
  framed     : s'.Framed
  isRecord   : s'.isRecord = s.isRecord
  depth      : s'.depth = s.depth
  limit      : s'.limit = s.limit
  resultType : s'.resultType = s.resultType
  ahead      : ts <+: s'.ahead

namespace State

variable {s s' t t' : State} {ts us : List Token} {v : Token}

theorem Passes.unique (h : s.Passes ts t) (h' : s.Passes us t) : ts = us :=
  List.append_cancel_right <| h.ahead.symm.trans h'.ahead

theorem Passes.tail (h : s.Passes (v :: ts) t) (hs : s.Framed) : s.next.Passes ts t where
  along := ⟨h.framed, h.along.records, h.along.depth, h.along.limit, h.along.resultType⟩
  ahead := (List.cons.inj <| hs.ahead_eq_cons.symm.trans h.ahead).2

theorem Twin.shorten (h : s.Twin s' ts) (hus : us <+: ts) : s.Twin s' us :=
  ⟨h.framed, h.isRecord, h.depth, h.limit, h.resultType, hus.trans h.ahead⟩

theorem Twin.passes (h : s.Twin s' (ts ++ us)) (hst : s.Passes ts t) (hst' : s'.Passes ts t') : t.Twin t' us where
  framed     := hst'.framed
  isRecord   := by rw [hst'.along.isRecord, hst.along.isRecord, h.isRecord]
  depth      := by rw [hst'.along.depth, hst.along.depth, h.depth]
  limit      := by rw [hst'.along.limit, hst.along.limit, h.limit]
  resultType := by rw [hst'.along.resultType, hst.along.resultType, h.resultType]
  ahead      := by simpa [hst'.ahead] using h.ahead

theorem Twin.deeper (h : s.Twin s' ts) : s.deeper.Twin s'.deeper ts :=
  ⟨h.framed.deeper, h.isRecord, congrArg (· + 1) h.depth, h.limit, h.resultType, h.ahead⟩

theorem Twin.inFunction (h : s.Twin s' ts) (type : TypeSpec) : (s.inFunction type).Twin (s'.inFunction type) ts :=
  ⟨⟨h.framed.stream, h.framed.before⟩, h.isRecord, h.depth, h.limit, rfl, h.ahead⟩

theorem Twin.peek_eq (h : s.Twin s' (v :: ts)) : s'.peek = v := by
  obtain ⟨us, hus⟩ := h.ahead
  exact (h.framed.peek_eq hus.symm).1

-- The first of the tokens that are passed or next is the one that is next at the start.
theorem Passes.cons_of_append (h : s.Passes ts t) (hs : s.Framed) : ∃ us, ts ++ [t.peek] = s.peek :: us := by
  cases ts
  case nil => exact ⟨[], by simpa using h.headD hs⟩
  case cons v ts => exact ⟨ts ++ [t.peek], by rw [h.head hs]; rfl⟩

theorem Twin.peek_eq_of_passes (h : s.Twin s' (ts ++ [t.peek])) (hts : s.Passes ts t) (hs : s.Framed) :
    s'.peek = s.peek := by
  obtain ⟨us, hus⟩ := hts.cons_of_append hs
  exact (hus ▸ h).peek_eq

theorem Twin.refl (hs : s.Framed) : s.Twin s [s.peek] :=
  ⟨hs, rfl, rfl, rfl, rfl, by simp [hs.ahead_eq_cons]⟩

end State

structure Rule.Echoes (rule rule' : Rule α) (s : State) (bound : Nat) : Prop where
  passes  : ∃ ts, s.Passes ts (rule.outcome s).2
  -- A fault is told of the token that is next where the rule stops.
  located : ∀ {d expected got}, (rule.outcome s).1 = .error d → d.cause = .badToken expected got →
    d = (rule.outcome s).2.unexpected expected
  echo    : ∀ {ts s'}, s.Passes ts (rule.outcome s).2 → s.Twin s' (ts ++ [(rule.outcome s).2.peek]) →
    s'.ahead.length < bound → ∃ t', rule'.outcome s' = ((rule.outcome s).1, t') ∧ s'.Passes ts t'

section Combinators

variable {s t : State} {fuel bound bound' : Nat}

namespace Rule

theorem Echoes.of_outcome {rule rule' : Rule α} (h : rule.outcome s = (r, t)) (hts : s.Passes ts t)
    (hlocated : ∀ {d expected got}, r = .error d → d.cause = .badToken expected got → d = t.unexpected expected)
    (hecho : ∀ {s'}, s.Twin s' (ts ++ [t.peek]) → s'.ahead.length < bound →
      ∃ t', rule'.outcome s' = (r, t') ∧ s'.Passes ts t') : rule.Echoes rule' s bound where
  passes  := ⟨ts, h ▸ hts⟩
  located := h ▸ hlocated
  echo h' := by
    rw [h] at h' ⊢
    obtain rfl := h'.unique hts
    exact hecho

theorem Echoes.mono {rule rule' : Rule α} (h : rule.Echoes rule' s bound) (hle : bound' ≤ bound) :
    rule.Echoes rule' s bound' :=
  ⟨h.passes, h.located, fun hts htwin hlt => h.echo hts htwin (Nat.lt_of_lt_of_le hlt hle)⟩

-- Where no state has few enough tokens ahead, the other rule does not matter.
theorem Echoes.zero {rule rule' rule'' : Rule α} (h : rule.Echoes rule' s bound) : rule.Echoes rule'' s 0 :=
  ⟨h.passes, h.located, fun _ _ hlt => absurd hlt (Nat.not_lt_zero _)⟩

theorem echoes_pure {a : α} (hs : s.Framed) : (pure a : Rule α).Echoes (pure a) s bound :=
  .of_outcome rfl (.nil hs) (fun h => nomatch h) fun htwin _ => ⟨_, rfl, .nil htwin.framed⟩

theorem echoes_unexpected {expected : String} (hs : s.Framed) :
    (unexpected expected : Rule α).Echoes (unexpected expected) s bound := by
  refine .of_outcome rfl (.nil hs) ?_ fun {s'} htwin _ => ⟨s', ?_, .nil htwin.framed⟩
  case refine_1 =>
    rintro d expected' got ⟨⟩ ⟨⟩
    rfl
  case refine_2 =>
    have hpeek : s'.peek = s.peek := htwin.peek_eq
    have houtcome : (unexpected expected : Rule α).outcome s' = (.error (s'.unexpected expected), s') := rfl
    rw [houtcome, State.unexpected, hpeek]
    rfl

theorem echoes_number {v : Token} {negative : Bool} (hs : s.Framed) :
    (liftM (number v negative) : Rule Expr).Echoes (liftM (number v negative)) s bound := by
  refine .of_outcome rfl (.nil hs) ?_ fun htwin _ => ⟨_, rfl, .nil htwin.framed⟩
  exact fun herror hcause => absurd hcause <| cause_of_number herror

theorem Echoes.bind {x x' : Rule α} {f f' : α → Rule β} (hx : x.Echoes x' s bound)
    (hf : ∀ {a t ts}, x.Yields s a t → s.Passes ts t → (f a).Echoes (f' a) t (bound - ts.length)) :
    (x >>= f).Echoes (x' >>= f') s bound := by
  obtain ⟨ts, hts⟩ := hx.passes
  have hlocated := @hx.located
  have hecho := @hx.echo ts
  cases hr : x.outcome s
  case mk r t =>
    rw [hr] at hts hlocated hecho
    cases r
    case error d =>
      have houtcome : (x >>= f).outcome s = (.error d, t) := by rw [outcome_bind, hr]
      refine .of_outcome houtcome hts ?_ fun htwin hlt => ?_
      case refine_1 =>
        rintro _ expected got ⟨⟩ hcause
        exact hlocated rfl hcause
      case refine_2 =>
        obtain ⟨t', ht', hpasses⟩ := hecho hts htwin hlt
        exact ⟨t', by rw [outcome_bind, ht'], hpasses⟩
    case ok a =>
      have hf := hf hr hts
      obtain ⟨us, hus⟩ := hf.passes
      refine .of_outcome (by rw [outcome_bind, hr]) (hts.append hus) hf.located fun {s'} htwin hlt => ?_
      have hhead : ts ++ [t.peek] <+: ts ++ us ++ [((f a).outcome t).2.peek] := by
        obtain ⟨vs, hvs⟩ := hus.cons_of_append hts.framed
        rw [List.append_assoc, hvs]
        exact ⟨vs, by simp⟩
      obtain ⟨t', ht', hpasses⟩ := hecho hts (htwin.shorten hhead) hlt
      rw [List.append_assoc] at htwin
      have hlength : t'.ahead.length < bound - ts.length := by
        have := congrArg List.length hpasses.ahead
        rw [List.length_append] at this
        omega
      obtain ⟨u', hu', hpasses'⟩ := hf.echo hus (htwin.passes hts hpasses) hlength
      exact ⟨u', by rw [outcome_bind, ht']; exact hu', hpasses.append hpasses'⟩

-- Where the rule succeeds, and does so in each state with the same token next, the rest decides.
theorem Echoes.step {x : Rule α} {f f' : α → Rule β} {a : α} (hx : x.Yields s a t) (hts : s.Passes ts t)
    (hs : s.Framed)
    (hx' : ∀ {s'}, s'.Framed → s'.peek = s.peek → ∃ t', x.Yields s' a t' ∧ s'.Passes ts t')
    (hf : (f a).Echoes (f' a) t (bound - ts.length)) : (x >>= f).Echoes (x >>= f') s bound := by
  have hx : x.outcome s = (.ok a, t) := hx
  have hself : x.Echoes x s bound := .of_outcome hx hts (fun h => nomatch h) fun htwin _ =>
    hx' htwin.framed (htwin.peek_eq_of_passes hts hs)
  refine hself.bind fun {a' t' us} hyields hus => ?_
  obtain ⟨⟨⟩, rfl⟩ := Prod.mk.inj (hx.symm.trans hyields)
  obtain rfl := hus.unique hts
  exact hf

-- Where the rule is about to fail at the next token, and is so in each state with the same token next.
theorem Echoes.stop {rule rule' : Rule α} {expected : String} (hs : s.Framed)
    (h : ∀ {s'}, s'.peek = s.peek → rule.outcome s' = (unexpected expected : Rule α).outcome s')
    (h' : ∀ {s'}, s'.peek = s.peek → rule'.outcome s' = (unexpected expected : Rule α).outcome s') :
    rule.Echoes rule' s bound := by
  have hstop : (unexpected expected : Rule α).Echoes (unexpected expected) s bound := echoes_unexpected hs
  refine .of_outcome (h rfl) (.nil hs) hstop.located fun htwin hlt => ?_
  rw [h' htwin.peek_eq]
  exact hstop.echo (.nil hs) htwin hlt

theorem Echoes.peek_bind {f f' : Token → Rule α} (hs : s.Framed) (hf : (f s.peek).Echoes (f' s.peek) s bound) :
    (peek >>= f).Echoes (peek >>= f') s bound :=
  .step (yields_peek.mpr ⟨rfl, rfl⟩) (.nil hs) hs (fun hs' h => ⟨_, yields_peek.mpr ⟨h.symm, rfl⟩, .nil hs'⟩) hf

theorem Echoes.peekKind_bind {f f' : Kind → Rule α} (hs : s.Framed)
    (hf : (f s.peek.kind).Echoes (f' s.peek.kind) s bound) : (peekKind >>= f).Echoes (peekKind >>= f') s bound :=
  .step (yields_peekKind.mpr ⟨rfl, rfl⟩) (.nil hs) hs
    (fun hs' h => ⟨_, yields_peekKind.mpr ⟨congrArg Token.kind h.symm, rfl⟩, .nil hs'⟩) hf

-- Behind a token that both move past, fewer tokens are ahead.
theorem Echoes.consume_bind {f f' : Token → Rule α} (hs : s.Framed) (hpeek : s.peek.kind ≠ .eof)
    (hf : (f s.peek).Echoes (f' s.peek) s.next (bound - 1)) : (consume >>= f).Echoes (consume >>= f') s bound :=
  .step (yields_consume.mpr ⟨rfl, rfl⟩) (.next hs hpeek) hs
    (fun hs' h => ⟨_, yields_consume.mpr ⟨h.symm, rfl⟩, h ▸ .next hs' (h ▸ hpeek)⟩) hf

theorem Echoes.if_accept {x x' y y' : Rule α} {kind : Kind} (hs : s.Framed) (hkind : kind ≠ .eof)
    (hx : s.peek.kind = kind → x.Echoes x' s.next (bound - 1)) (hy : s.peek.kind ≠ kind → y.Echoes y' s bound) :
    (do if ← accept kind then x else y : Rule α).Echoes (do if ← accept kind then x' else y') s bound := by
  by_cases h : s.peek.kind = kind
  case pos =>
    refine .step (yields_accept.mpr <| .inl ⟨h, rfl, rfl⟩) (.next hs (h ▸ hkind)) hs (fun hs' h' => ?_) (hx h)
    exact ⟨_, yields_accept.mpr <| .inl ⟨h' ▸ h, rfl, rfl⟩, h' ▸ .next hs' (h' ▸ h ▸ hkind)⟩
  case neg =>
    refine .step (yields_accept.mpr <| .inr ⟨h, rfl, rfl⟩) (.nil hs) hs (fun hs' h' => ?_) (hy h)
    exact ⟨_, yields_accept.mpr <| .inr ⟨h' ▸ h, rfl, rfl⟩, .nil hs'⟩

theorem Echoes.expect_bind {f f' : Token → Rule α} {kind : Kind} (hs : s.Framed) (hkind : kind ≠ .eof)
    (hf : s.peek.kind = kind → (f s.peek).Echoes (f' s.peek) s.next (bound - 1)) :
    (expect kind >>= f).Echoes (expect kind >>= f') s bound := by
  by_cases h : s.peek.kind = kind
  case pos =>
    refine .step (yields_expect.mpr ⟨h, rfl, rfl⟩) (.next hs (h ▸ hkind)) hs (fun hs' h' => ?_) (hf h)
    exact ⟨_, yields_expect.mpr ⟨h' ▸ h, h'.symm, rfl⟩, h' ▸ .next hs' (h' ▸ h ▸ hkind)⟩
  case neg =>
    have hstop : ∀ {s' : State} (g : Token → Rule α), s'.peek = s.peek →
        (expect kind >>= g).outcome s' = (unexpected kind.describe : Rule α).outcome s' := by
      intro s' g h'
      have hkind : peekKind.outcome s' = (.ok s.peek.kind, s') := h' ▸ rfl
      simp only [expect, bind_assoc, outcome_bind, hkind, if_neg h]
      rfl
    exact .stop hs (hstop f) (hstop f')

theorem Echoes.nested {rule rule' : Rule α} (hs : s.Framed)
    (h : s.hasRoom = true → rule.Echoes rule' s.deeper bound) : rule.nested.Echoes rule'.nested s bound := by
  have hroom' : ∀ {s' ts}, s.Twin s' ts → s'.hasRoom = s.hasRoom := fun htwin => by
    rw [hasRoom, hasRoom, htwin.limit, htwin.depth]
  by_cases hroom : s.hasRoom = true
  case pos =>
    have h := h hroom
    obtain ⟨ts, hts⟩ := h.passes
    refine .of_outcome (by rw [outcome_nested, if_pos hroom]) hts.shallower h.located fun htwin hlt => ?_
    obtain ⟨t', ht', hpasses⟩ := h.echo hts htwin.deeper hlt
    exact ⟨t'.shallower, by rw [outcome_nested, hroom' htwin, if_pos hroom, ht'], hpasses.shallower⟩
  case neg =>
    refine .of_outcome (by rw [outcome_nested, if_neg hroom]) (.nil hs) ?_ fun htwin _ => ⟨_, ?_, .nil htwin.framed⟩
    case refine_1 =>
      rintro _ expected got ⟨⟩ ⟨⟩
      rfl
    case refine_2 => rw [outcome_nested, hroom' htwin, if_neg hroom, htwin.limit, htwin.peek_eq]

theorem Echoes.withResultType {rule rule' : Rule α} {type : TypeSpec} (hs : s.resultType = none)
    (h : rule.Echoes rule' (s.inFunction type) bound) :
    (withResultType type rule).Echoes (withResultType type rule') s bound := by
  obtain ⟨ts, hts⟩ := h.passes
  refine .of_outcome (outcome_withResultType type rule s) (hts.outside hs) h.located fun htwin hlt => ?_
  obtain ⟨t', ht', hpasses⟩ := h.echo hts (htwin.inFunction type) hlt
  exact ⟨t'.outside, by rw [outcome_withResultType, ht'], hpasses.outside (htwin.resultType.trans hs)⟩

-- The state that is asked for may be that of a twin, and so may the number of rounds or levels that it allows for.
theorem Echoes.get_bind {f f' : State → Rule α} (hs : s.Framed)
    (hf : ∀ {s'}, s.Twin s' [s.peek] → (f s).Echoes (f' s') s (min bound (s'.ahead.length + 1))) :
    (get >>= f).Echoes (get >>= f') s bound := by
  have hself := hf (.refl hs)
  obtain ⟨ts, hts⟩ := hself.passes
  have houtcome : ∀ (g : State → Rule α) (u : State), (get >>= g).outcome u = (g u).outcome u := fun _ _ => rfl
  refine .of_outcome (houtcome f s) hts hself.located fun {s'} htwin hlt => ?_
  have hhead : [s.peek] <+: ts ++ [((f s).outcome s).2.peek] := by
    obtain ⟨us, hus⟩ := hts.cons_of_append hs
    exact ⟨us, hus.symm⟩
  rw [houtcome]
  exact (hf (htwin.shorten hhead)).echo hts htwin (Nat.lt_min.mpr ⟨hlt, Nat.lt_succ_self _⟩)

-- Rounds that go on move past a token, so the tokens that remain allow for all of them.
theorem Echoes.repeatWithin {round round' : β → Rule (Round β γ)}
    (hround : ∀ {b u ts}, s.Passes ts u → (round b).Echoes (round' b) u bound)
    (hagain : ∀ {b u b' v ts}, s.Passes ts u → (round b).Yields u (.again b') v → ∃ w us, u.Passes (w :: us) v)
    (left left' : List Token) {b : β} {u : State} (hu : s.Passes ts u) (hleft : u.ahead.length < left.length) :
    (repeatWithin round left b).Echoes (repeatWithin round' left' b) u (min bound left'.length) := by
  induction left generalizing left' b ts u
  case nil => exact absurd hleft (Nat.not_lt_zero _)
  case cons w left ih =>
    have hcons : ∀ v left', (Rule.repeatWithin round (w :: left) b).Echoes (Rule.repeatWithin round' (v :: left') b) u
        (min bound (left'.length + 1)) := by
      intro v left'
      refine ((hround hu).mono (Nat.min_le_left _ _)).bind fun {r t us} hyields hus => ?_
      cases r
      case done => exact echoes_pure hus.framed
      case again =>
        obtain ⟨_, vs, hvs⟩ := hagain hu hyields
        obtain rfl := hus.unique hvs
        have hlength := congrArg List.length hvs.ahead
        simp only [List.length_append, List.length_cons] at hlength hleft ⊢
        exact (ih left' (hu.append hvs) (by omega)).mono (by omega)
    cases left'
    case nil => exact Nat.min_zero bound ▸ (hcons default []).zero
    case cons v left' => exact hcons v left'

theorem Echoes.repeatFrom {round round' : β → Rule (Round β γ)} {b : β} (hs : s.Framed)
    (hround : ∀ {b u ts}, s.Passes ts u → (round b).Echoes (round' b) u bound)
    (hagain : ∀ {b u b' v ts}, s.Passes ts u → (round b).Yields u (.again b') v → ∃ w us, u.Passes (w :: us) v) :
    (repeatFrom round b).Echoes (repeatFrom round' b) s bound :=
  .get_bind hs fun {s'} _ => .repeatWithin hround hagain s.stream.rest s'.stream.rest (.nil hs) (Nat.lt_succ_self _)

theorem Echoes.passes_of_yields {rule rule' : Rule α} (h : rule.Echoes rule' s bound) (hyields : rule.Yields s a t) :
    ∃ ts, s.Passes ts t := by
  obtain ⟨ts, hts⟩ := h.passes
  rw [show rule.outcome s = _ from hyields] at hts
  exact ⟨ts, hts⟩

theorem Echoes.map {x x' : Rule α} {f : α → β} (hx : x.Echoes x' s bound) :
    (x >>= fun a => pure (f a)).Echoes (x' >>= fun a => pure (f a)) s bound :=
  hx.bind fun _ hts => echoes_pure hts.framed

end Rule

-- Fewer than `fuel` tokens are ahead, and it is known how many levels of nesting may be opened.
structure State.Before (s : State) (fuel : Nat) : Prop where
  framed : s.Framed
  leaves : ∃ n, s.Leaves n
  length : s.ahead.length < fuel

namespace State.Before

theorem passes (h : s.Before fuel) (hst : s.Passes ts t) : t.Before fuel := by
  obtain ⟨n, hleaves⟩ := h.leaves
  refine ⟨hst.framed, ⟨n, hst.leaves hleaves⟩, ?_⟩
  have hlength := h.length
  rw [hst.ahead, List.length_append] at hlength
  omega

theorem next (h : s.Before (fuel + 1)) (hpeek : s.peek.kind ≠ .eof) : s.next.Before fuel :=
  ⟨h.framed.next hpeek, h.leaves, Nat.lt_of_lt_of_le h.framed.length_next_lt (Nat.le_of_lt_succ h.length)⟩

theorem deeper (h : s.Before fuel) (hroom : s.hasRoom = true) : s.deeper.Before fuel := by
  obtain ⟨n, hleaves⟩ := h.leaves
  obtain ⟨m, -, hdeeper⟩ := hleaves.deeper hroom
  exact ⟨h.framed.deeper, ⟨m, hdeeper⟩, h.length⟩

theorem mono (h : s.Before fuel) (hle : fuel ≤ fuel') : s.Before fuel' :=
  ⟨h.framed, h.leaves, Nat.lt_of_lt_of_le h.length hle⟩

end State.Before

-- Rules that do the same wherever fewer than `fuel` tokens are ahead of the one and fewer than `bound` of the other.
def Rule.EchoesWithin (rule rule' : Rule α) (fuel bound : Nat) : Prop :=
  ∀ s : State, s.Before fuel → rule.Echoes rule' s bound

namespace Rule.EchoesWithin

variable {rule rule' : Rule α} {f f' : α → Rule β}

theorem pure (a : α) : (Pure.pure a : Rule α).EchoesWithin (Pure.pure a) fuel bound :=
  fun _ hs => echoes_pure hs.framed

theorem zero (rule'' : Rule α) (h : rule.EchoesWithin rule' fuel bound) : rule.EchoesWithin rule'' fuel 0 :=
  fun s hs => (h s hs).zero

theorem next (h : rule.EchoesWithin rule' fuel bound) (hs : s.Before (fuel + 1)) (hpeek : s.peek.kind ≠ .eof) :
    rule.Echoes rule' s.next bound :=
  h _ (hs.next hpeek)

theorem next_of_before (h : rule.EchoesWithin rule' fuel bound) (hs : s.Before fuel) (hpeek : s.peek.kind ≠ .eof) :
    rule.Echoes rule' s.next (bound - 1) :=
  (h.next (hs.mono (Nat.le_succ _)) hpeek).mono (Nat.sub_le _ _)

theorem bind (h : rule.EchoesWithin rule' fuel bound) (hf : ∀ a, (f a).EchoesWithin (f' a) fuel bound) :
    (rule >>= f).EchoesWithin (rule' >>= f') fuel bound :=
  fun s hs => (h s hs).bind fun _ hts => (hf _ _ (hs.passes hts)).mono (Nat.sub_le _ _)

theorem map {f : α → β} (h : rule.EchoesWithin rule' fuel bound) :
    (rule >>= fun a => Pure.pure (f a)).EchoesWithin (rule' >>= fun a => Pure.pure (f a)) fuel bound :=
  h.bind fun a => .pure (f a)

theorem nested (h : rule.EchoesWithin rule' fuel bound) : rule.nested.EchoesWithin rule'.nested fuel bound :=
  fun _ hs => .nested hs.framed fun hroom => h _ (hs.deeper hroom)

theorem expect_bind {f f' : Token → Rule α} {kind : Kind} (hkind : kind ≠ .eof)
    (hf : ∀ v, (f v).EchoesWithin (f' v) fuel bound) :
    (expect kind >>= f).EchoesWithin (expect kind >>= f') fuel bound :=
  fun s hs => .expect_bind hs.framed hkind fun h => (hf s.peek).next_of_before hs (h ▸ hkind)

theorem if_accept {x x' y y' : Rule α} {kind : Kind} (hkind : kind ≠ .eof) (hx : x.EchoesWithin x' fuel bound)
    (hy : y.EchoesWithin y' fuel bound) :
    (do if ← accept kind then x else y : Rule α).EchoesWithin (do if ← accept kind then x' else y') fuel bound :=
  fun s hs => .if_accept hs.framed hkind (fun h => hx.next_of_before hs (h ▸ hkind)) fun _ => hy s hs

theorem repeatFrom {round round' : β → Rule (Round β γ)} {b : β}
    (hround : ∀ b, (round b).EchoesWithin (round' b) fuel bound)
    (hagain : ∀ {b u b' v}, u.Before fuel → (round b).Yields u (.again b') v → ∃ w us, u.Passes (w :: us) v) :
    (repeatFrom round b).EchoesWithin (repeatFrom round' b) fuel bound :=
  fun _ hs => .repeatFrom hs.framed (fun hts => hround _ _ (hs.passes hts)) (fun hts => hagain (hs.passes hts))

end Rule.EchoesWithin
end Combinators

section Exprs

variable {s t : State} {fuel bound : Nat}

namespace Rule.EchoesWithin

theorem separated {item item' : Rule α} (hitem : item.EchoesWithin item' fuel bound) :
    (separated item).EchoesWithin (separated item') fuel bound := by
  rw [separated_eq, separated_eq]
  refine hitem.bind fun first => .repeatFrom (fun items => .if_accept (by simp) hitem.map (.pure _)) ?_
  intro items u items' v hu hyields
  obtain ⟨hcomma, a, ha, -⟩ := commaRound_again.mp hyields
  have hpeek : u.peek.kind ≠ .eof := by simp [hcomma]
  obtain ⟨ts, hts⟩ := (hitem.next_of_before hu hpeek).passes_of_yields ha
  exact ⟨u.peek, ts, .cons hu.framed hpeek hts⟩

theorem arguments {item item' : Rule Expr} (hitem : item.EchoesWithin item' fuel bound) :
    (arguments item).EchoesWithin (arguments item') fuel bound :=
  .if_accept (by simp) (.pure _) <| hitem.separated.bind fun _ => .expect_bind (by simp) fun _ => .pure _

-- A rule one level of nesting further in, and the token that closes the level.
theorem closed {rule rule' : Rule α} {f : α → β} (h : rule.EchoesWithin rule' fuel bound) (close : Symbol) :
    (do
      let a ← Rule.nested rule
      let _ ← expect (.symbol close)
      return f a : Rule β).EchoesWithin (do
      let a ← Rule.nested rule'
      let _ ← expect (.symbol close)
      return f a) fuel bound :=
  h.nested.bind fun _ => .expect_bind (by simp) fun _ => .pure _

theorem suffixRound {inner inner' : Inner} (hexpr : inner.expr.EchoesWithin inner'.expr fuel bound) (e : Expr) :
    (suffixRound inner e).EchoesWithin (suffixRound inner' e) (fuel + 1) (bound + 1) := by
  intro s hs
  refine .peekKind_bind hs.framed ?_
  split
  case h_1 hdot =>
    have hpeek : s.peek.kind ≠ .eof := by simp [hdot]
    cases e
    case identifier =>
      have hname := hs.framed.next hpeek
      exact .consume_bind hs.framed hpeek <| .expect_bind hname (by simp) fun hkind =>
        echoes_pure <| hname.next (by simp [hkind])
    all_goals exact echoes_unexpected hs.framed
  case h_2 hopen =>
    have hpeek : s.peek.kind ≠ .eof := by simp [hopen]
    exact .consume_bind hs.framed hpeek <| (hexpr.closed .closeBracket).next hs hpeek
  case h_3 hopen =>
    have hpeek : s.peek.kind ≠ .eof := by simp [hopen]
    cases e
    case identifier => exact .consume_bind hs.framed hpeek <| hexpr.arguments.nested.map.next hs hpeek
    all_goals exact echoes_unexpected hs.framed
  case h_4 => exact echoes_pure hs.framed

theorem suffixes {inner inner' : Inner} (hexpr : inner.expr.EchoesWithin inner'.expr fuel bound) (base : Expr) :
    (suffixes inner base).EchoesWithin (suffixes inner' base) (fuel + 1) (bound + 1) := by
  refine EchoesWithin.repeatFrom (hexpr.suffixRound ·) fun {e u e' v} hu hyields => ?_
  obtain ⟨hdot, name, rfl, hfield, rfl, rfl⟩ | ⟨hopen, i, w, hi, hclose, rfl, rfl⟩ | ⟨hopen, name, es, rfl, hes, rfl⟩ :=
    suffixRound_again.mp hyields
  case inl =>
    have hpeek : u.peek.kind ≠ .eof := by simp [hdot]
    exact ⟨u.peek, [u.next.peek], .cons hu.framed hpeek <| .next (hu.framed.next hpeek) (by simp [hfield])⟩
  case inr.inl =>
    have hpeek : u.peek.kind ≠ .eof := by simp [hopen]
    obtain ⟨us, hus⟩ := (hexpr.nested.next hu hpeek).passes_of_yields hi
    exact ⟨u.peek, us ++ [w.peek], .cons hu.framed hpeek <| hus.snoc (by simp [hclose])⟩
  case inr.inr =>
    have hpeek : u.peek.kind ≠ .eof := by simp [hopen]
    obtain ⟨us, hus⟩ := (hexpr.arguments.nested.next hu hpeek).passes_of_yields hes
    exact ⟨u.peek, us, .cons hu.framed hpeek hus⟩

theorem primary {inner inner' : Inner} (hexpr : inner.expr.EchoesWithin inner'.expr fuel bound) :
    (primary inner).EchoesWithin (primary inner') (fuel + 1) (bound + 1) := by
  intro s hs
  refine .peekKind_bind hs.framed ?_
  split
  case h_10 => exact echoes_unexpected hs.framed
  case h_2 hkind | h_3 hkind =>
    exact .consume_bind hs.framed (by simp [hkind]) (echoes_number <| hs.framed.next (by simp [hkind]))
  case h_8 hopen =>
    have hpeek : s.peek.kind ≠ .eof := by simp [hopen]
    exact .consume_bind hs.framed hpeek <| (hexpr.closed .closeParen).next hs hpeek
  case h_9 hopen =>
    have hpeek : s.peek.kind ≠ .eof := by simp [hopen]
    exact .consume_bind hs.framed hpeek <| (hexpr.separated.closed .closeCurly).next hs hpeek
  all_goals
    rename_i hkind
    exact .consume_bind hs.framed (by simp [hkind]) (echoes_pure <| hs.framed.next (by simp [hkind]))

theorem operand {inner inner' : Inner} (hexpr : inner.expr.EchoesWithin inner'.expr fuel bound)
    (hunary : inner.unary.EchoesWithin inner'.unary fuel bound) :
    (operand inner).EchoesWithin (operand inner') (fuel + 1) (bound + 1) := by
  have hliteral : ∀ v, (liftM (number v true) >>= Grammar.suffixes inner : Rule Expr).EchoesWithin
      (liftM (number v true) >>= Grammar.suffixes inner') (fuel + 1) (bound + 1) := fun v =>
    EchoesWithin.bind (fun _ hu => echoes_number hu.framed) hexpr.suffixes
  intro s hs
  refine .peekKind_bind hs.framed ?_
  split
  case h_1 hminus =>
    have hpeek : s.peek.kind ≠ .eof := by simp [hminus]
    have hnext := hs.next hpeek
    refine .consume_bind hs.framed hpeek <| .peekKind_bind hnext.framed ?_
    split
    case isTrue hnumber =>
      have hpeek' : s.next.peek.kind ≠ .eof := by
        intro heof
        simp [heof, Kind.isNumber] at hnumber
      have hliteral := (hliteral s.next.peek).next ((hnext.mono (Nat.le_succ _)).mono (Nat.le_succ _)) hpeek'
      exact .consume_bind hnext.framed hpeek' <| hliteral.mono (by omega)
    case isFalse => exact hunary.nested.map.next hs hpeek
  case h_2 hbang =>
    have hpeek : s.peek.kind ≠ .eof := by simp [hbang]
    exact .consume_bind hs.framed hpeek <| hunary.nested.map.next hs hpeek
  case h_3 => exact (hexpr.primary.bind hexpr.suffixes) s hs

theorem binaryLevel {operators : List Operator} {operand operand' : Rule Expr}
    (hoperand : operand.EchoesWithin operand' fuel bound) :
    (binaryLevel operators operand).EchoesWithin (binaryLevel operators operand') fuel bound := by
  rw [binaryLevel_eq, binaryLevel_eq]
  refine hoperand.bind fun first => .repeatFrom ?_ ?_
  case refine_1 =>
    intro left u hu
    refine .peekKind_bind hu.framed ?_
    split
    case h_1 => exact echoes_pure hu.framed
    case h_2 o hsome =>
      have hpeek : u.peek.kind ≠ .eof := Operator.ne_eof_of_filter_ofKind? hsome
      exact .consume_bind hu.framed hpeek (hoperand.next_of_before hu hpeek).map
  case refine_2 =>
    intro left u left' v hu hyields
    obtain ⟨o, right, -, hkind, hright, -⟩ := binaryRound_again.mp hyields
    have hpeek : u.peek.kind ≠ .eof := hkind ▸ o.kind_ne_eof
    obtain ⟨ts, hts⟩ := (hoperand.next_of_before hu hpeek).passes_of_yields hright
    exact ⟨u.peek, ts, .cons hu.framed hpeek hts⟩

theorem comparison {operand operand' : Rule Expr} (hoperand : operand.EchoesWithin operand' fuel bound) :
    (comparison operand).EchoesWithin (comparison operand') fuel bound := by
  refine hoperand.bind fun left u hu => .peekKind_bind hu.framed ?_
  split
  case h_1 => exact echoes_pure hu.framed
  case h_2 o hsome =>
    have hpeek : u.peek.kind ≠ .eof := Operator.ne_eof_of_filter_ofKind? hsome
    refine .consume_bind hu.framed hpeek <| (hoperand.next_of_before hu hpeek).bind fun _ hts => ?_
    refine .peekKind_bind hts.framed ?_
    split
    case isTrue => exact echoes_unexpected hts.framed
    case isFalse => exact echoes_pure hts.framed

theorem disjunction {inner inner' : Inner} (hexpr : inner.expr.EchoesWithin inner'.expr fuel bound)
    (hunary : inner.unary.EchoesWithin inner'.unary fuel bound) :
    (disjunction inner).EchoesWithin (disjunction inner') (fuel + 1) (bound + 1) :=
  (hexpr.operand hunary).binaryLevel.binaryLevel.comparison.binaryLevel.binaryLevel

end Rule.EchoesWithin

-- The levels that there are no tokens for do not matter.
theorem inner_echoes (left left' : List Token) :
    (inner left).expr.EchoesWithin (inner left').expr left.length left'.length ∧
      (inner left).unary.EchoesWithin (inner left').unary left.length left'.length := by
  induction left generalizing left'
  case nil => exact ⟨fun _ hs => absurd hs.length (Nat.not_lt_zero _), fun _ hs => absurd hs.length (Nat.not_lt_zero _)⟩
  case cons v left ih =>
    have hcons : ∀ v' left', (inner (v :: left)).expr.EchoesWithin (inner (v' :: left')).expr (left.length + 1)
          (left'.length + 1) ∧
        (inner (v :: left)).unary.EchoesWithin (inner (v' :: left')).unary (left.length + 1) (left'.length + 1) :=
      fun _ left' => ⟨(ih left').1.disjunction (ih left').2, (ih left').1.operand (ih left').2⟩
    cases left'
    case nil => exact ⟨(hcons default []).1.zero _, (hcons default []).2.zero _⟩
    case cons v' left' => exact hcons v' left'

theorem expr_echoes (hs : s.Framed) (hleaves : s.Leaves n) : expr.Echoes expr s bound :=
  .get_bind hs fun {s'} _ =>
    ((inner_echoes s.stream.rest s'.stream.rest).1 s ⟨hs, ⟨n, hleaves⟩, Nat.lt_succ_self _⟩).mono (Nat.min_le_right _ _)

end Exprs
end BasicFrontEnd.Grammar
