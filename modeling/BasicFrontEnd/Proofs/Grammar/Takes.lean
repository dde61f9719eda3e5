import BasicFrontEnd.Proofs.Grammar.Complete
import BasicFrontEnd.Grammar.Program

/-!
Rules as they move along the tokens ahead: `rule.Takes s a rest` says that the rule, run in `s`, answers `a` and leaves
the tokens `rest` ahead. Nothing is said of the record of what was consumed, which differs where a token was taken
back.
-/

namespace BasicFrontEnd.Grammar

open Rule

namespace State

-- The state `t` is one that `s` may come to at the same level of nesting.
structure Along (s t : State) : Prop where
  framed     : t.Framed
  records    : t.records = s.records
  depth      : t.depth = s.depth
  limit      : t.limit = s.limit
  resultType : t.resultType = s.resultType

namespace Along

variable {s t u : State}

theorem refl (h : s.Framed) : s.Along s :=
  ⟨h, rfl, rfl, rfl, rfl⟩

theorem trans (h₁ : s.Along t) (h₂ : t.Along u) : s.Along u where
  framed     := h₂.framed
  records    := h₂.records.trans h₁.records
  depth      := h₂.depth.trans h₁.depth
  limit      := h₂.limit.trans h₁.limit
  resultType := h₂.resultType.trans h₁.resultType

theorem opens (h : s.Along t) (hs : s.Opens n) : t.Opens n := by
  intro limit hlimit
  rw [h.depth]
  exact hs limit <| h.limit ▸ hlimit

theorem shallower (h : s.deeper.Along t) : s.Along t.shallower where
  framed     := ⟨h.framed.stream, h.framed.before⟩
  records    := h.records
  depth      := by rw [State.shallower, h.depth, State.deeper, Nat.add_sub_cancel]
  limit      := h.limit
  resultType := h.resultType

end Along

theorem Framed.peek_ne_eof {s : State} (h : s.Framed) (hmore : s.next.ahead ≠ []) : s.peek.kind ≠ .eof := by
  obtain ⟨⟨behind, current, _ | ⟨t, ts⟩⟩, _⟩ := s
  case nil => exact absurd rfl hmore
  case cons =>
    obtain ⟨us, u, hlist, _, hother⟩ := h.stream
    obtain rfl | ⟨ts, last, rfl⟩ := ts.eq_nil_or_concat
    case inl => exact absurd rfl hmore
    case inr =>
      have : (behind.reverse ++ current :: t :: ts) ++ [last] = us ++ [u] := by simpa [Stream.toList] using hlist
      exact hother t <| (List.append_inj' this rfl).1 ▸ by simp

theorem Framed.exists_reads {s : State} {next : Token} (h : s.Framed) (hahead : s.ahead = ts ++ next :: rest) :
    ∃ t, s.Reads ts t ∧ t.ahead = next :: rest := by
  induction ts generalizing s
  case nil => exact ⟨s, .nil, hahead⟩
  case cons v ts ih =>
    obtain ⟨rfl, hnext⟩ : v = s.peek ∧ s.next.ahead = ts ++ next :: rest := by
      simpa [h.ahead_eq_cons, eq_comm] using hahead
    have hpeek := h.peek_ne_eof (by simp [hnext])
    obtain ⟨t, hread, ht⟩ := ih (h.next hpeek) hnext
    exact ⟨t, .cons hpeek hread, ht⟩

theorem Reads.along {s t : State} (h : s.Reads ts t) (hs : s.Framed) : s.Along t := by
  induction h
  case nil => exact .refl hs
  case cons hpeek _ ih => exact .trans ⟨hs.next hpeek, rfl, rfl, rfl, rfl⟩ (ih <| hs.next hpeek)

end State

open State

def Rule.Takes (rule : Rule α) (s : State) (a : α) (rest : List Token) : Prop :=
  ∃ t, rule.Yields s a t ∧ t.ahead = rest ∧ s.Along t

section Combinators

variable {s t : State} {kind : Kind} {next v : Token} {rest : List Token}

theorem Rule.Takes.unique {rule : Rule α} {a b : α} (h : rule.Takes s a rest) (h' : rule.Takes s b rest') : a = b := by
  obtain ⟨t, h, -, -⟩ := h
  obtain ⟨u, h', -, -⟩ := h'
  obtain ⟨hab, -⟩ := Prod.mk.inj (h.symm.trans h')
  exact Except.ok.inj hab

theorem Rule.Takes.bind {x : Rule α} {f : α → Rule β} {a : α} {b : β} (hx : x.Takes s a rest)
    (hf : ∀ t, t.ahead = rest → s.Along t → (f a).Takes t b rest') : (x >>= f).Takes s b rest' := by
  obtain ⟨t, hx, hrest, hst⟩ := hx
  obtain ⟨u, hf, hrest', htu⟩ := hf t hrest hst
  exact ⟨u, yields_bind.mpr ⟨a, t, hx, hf⟩, hrest', hst.trans htu⟩

theorem takes_pure {a : α} (hs : s.Framed) (h : s.ahead = rest) : (pure a : Rule α).Takes s a rest :=
  ⟨s, yields_pure.mpr ⟨rfl, rfl⟩, h, .refl hs⟩

theorem State.Framed.peek_eq (hs : s.Framed) (h : s.ahead = v :: rest) : s.peek = v ∧ s.next.ahead = rest := by
  simpa [hs.ahead_eq_cons] using h

theorem Rule.Takes.bind_pure {x : Rule α} {f : α → β} {a : α} (hx : x.Takes s a rest) :
    (x >>= fun a => pure (f a)).Takes s (f a) rest :=
  hx.bind fun _ ht hst => takes_pure hst.framed ht

-- To look at the state or at the next token is not to move.
theorem Rule.Takes.get_bind {f : State → Rule β} {b : β} (h : (f s).Takes s b rest) : (get >>= f).Takes s b rest :=
  h

theorem Rule.Takes.peek_bind {f : Token → Rule β} {b : β} (hs : s.Framed) (hahead : s.ahead = v :: rest)
    (h : (f v).Takes s b rest') : (peek >>= f).Takes s b rest' := by
  obtain ⟨rfl, -⟩ := hs.peek_eq hahead
  exact h

theorem Rule.Takes.peekKind_bind {f : Kind → Rule β} {b : β} (hs : s.Framed) (hahead : s.ahead = v :: rest)
    (h : (f v.kind).Takes s b rest') : (peekKind >>= f).Takes s b rest' := by
  obtain ⟨rfl, -⟩ := hs.peek_eq hahead
  exact h

theorem takes_consume (hs : s.Framed) (h : s.ahead = v :: rest) (hv : v.kind ≠ .eof) : consume.Takes s v rest := by
  obtain ⟨rfl, hrest⟩ := hs.peek_eq h
  exact ⟨s.next, yields_consume.mpr ⟨rfl, rfl⟩, hrest, hs.next hv, rfl, rfl, rfl, rfl⟩

theorem takes_expect (hs : s.Framed) (h : s.ahead = v :: rest) (hkind : v.kind = kind) (hne : kind ≠ .eof) :
    (expect kind).Takes s v rest := by
  obtain ⟨rfl, hrest⟩ := hs.peek_eq h
  exact ⟨s.next, yields_expect.mpr ⟨hkind, rfl, rfl⟩, hrest, hs.next (hkind ▸ hne), rfl, rfl, rfl, rfl⟩

theorem takes_accept (hs : s.Framed) (h : s.ahead = v :: rest) (hkind : v.kind = kind) (hne : kind ≠ .eof) :
    (accept kind).Takes s true rest := by
  obtain ⟨rfl, hrest⟩ := hs.peek_eq h
  exact ⟨s.next, yields_accept.mpr <| .inl ⟨hkind, rfl, rfl⟩, hrest, hs.next (hkind ▸ hne), rfl, rfl, rfl, rfl⟩

theorem Rule.Takes.accept_bind_other {f : Bool → Rule β} {b : β} (hs : s.Framed) (hahead : s.ahead = v :: rest)
    (hkind : v.kind ≠ kind) (h : (f false).Takes s b rest') : (accept kind >>= f).Takes s b rest' := by
  obtain ⟨rfl, -⟩ := hs.peek_eq hahead
  obtain ⟨t, hf, hrest, hst⟩ := h
  exact ⟨t, yields_bind.mpr ⟨false, s, yields_accept.mpr <| .inr ⟨hkind, rfl, rfl⟩, hf⟩, hrest, hst⟩

theorem Rule.Takes.nested {rule : Rule α} {a : α} (hopens : s.Opens (n + 1)) (h : rule.Takes s.deeper a rest) :
    (nested rule).Takes s a rest := by
  obtain ⟨t, hrule, hrest, hst⟩ := h
  exact ⟨t.shallower, yields_nested.mpr ⟨hopens.hasRoom, t, hrule, rfl⟩, hrest, hst.shallower⟩

theorem Rule.Rounds.takes {round : β → Rule (Round β γ)} (h : Rounds round b s b' t) (hst : s.Along t)
    (hdone : (round b').Takes t (.done c) rest) : (repeatFrom round b).Takes s c rest := by
  obtain ⟨u, hdone, hrest, htu⟩ := hdone
  exact ⟨u, h.yields hdone, hrest, hst.trans htu⟩

theorem Derives.takes (h : Derives .disjunction n ts e) (hs : s.Framed) (hopens : s.Opens n)
    (hahead : s.ahead = ts ++ next :: rest) (hstops : BindingLevel.disjunction.Stops next.kind) :
    expr.Takes s e (next :: rest) := by
  obtain ⟨t, hread, hrest⟩ := hs.exists_reads hahead
  have hst := hread.along hs
  obtain ⟨rfl, -⟩ := hst.framed.peek_eq hrest
  exact ⟨t, h.yields hs hopens hread hstops, hrest, hst⟩

end Combinators
end BasicFrontEnd.Grammar
