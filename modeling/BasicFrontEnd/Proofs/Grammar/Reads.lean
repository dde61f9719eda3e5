import BasicFrontEnd.Grammar.Rule

/-!
The path of the cursor: `Reads s ts t` says that moving past the tokens `ts`, none of which ends the stream, takes the
state `s` to the state `t`. Only the cursor and the record of what was consumed change on the way.
-/

namespace BasicFrontEnd

-- The end of the source is the last token of the stream, and no other.
def Stream.Framed (s : Stream) : Prop :=
  ∃ ts u, s.toList = ts ++ [u] ∧ u.kind = .eof ∧ ∀ t ∈ ts, t.kind ≠ .eof

namespace Grammar

namespace State

def ahead (s : State) : List Token :=
  s.stream.ahead

-- The state after the next token has been consumed.
def next (s : State) : State :=
  { s with stream := s.stream.consume, consumed := s.peek :: s.consumed }

-- The state one level of nesting further in.
def deeper (s : State) : State :=
  { s with depth := s.depth + 1 }

-- The state one level of nesting further out.
def shallower (s : State) : State :=
  { s with depth := s.depth - 1 }

@[simp]
theorem shallower_deeper (s : State) : s.deeper.shallower = s :=
  rfl

@[simp]
theorem peek_deeper (s : State) : s.deeper.peek = s.peek :=
  rfl

@[simp]
theorem ahead_deeper (s : State) : s.deeper.ahead = s.ahead :=
  rfl

@[simp]
theorem next_deeper (s : State) : s.deeper.next = s.next.deeper :=
  rfl

-- The cursor stands in a framed stream, before the token that ends it.
structure Framed (s : State) : Prop where
  stream : s.stream.Framed
  before : s.stream.current.kind ≠ .eof

-- At least `levels` more levels of nesting may be opened.
def Opens (s : State) (levels : Nat) : Prop :=
  ∀ limit, s.limit = some limit → s.depth + levels ≤ limit

theorem Opens.deeper {s : State} (h : s.Opens (levels + 1)) : s.deeper.Opens levels := by
  intro limit hlimit
  have : s.depth + (levels + 1) ≤ limit := h limit hlimit
  show s.depth + 1 + levels ≤ limit
  omega

theorem Opens.hasRoom {s : State} (h : s.Opens (levels + 1)) : s.hasRoom = true := by
  unfold State.hasRoom
  cases hlimit : s.limit
  case none => rfl
  case some limit =>
    have := h limit hlimit
    simp
    omega

-- Exactly `levels` more levels of nesting may be opened.
def Leaves (s : State) (levels : Nat) : Prop :=
  s.limit = some (s.depth + levels)

theorem Leaves.opens {s : State} (h : s.Leaves levels) : s.Opens levels := by
  intro limit hlimit
  have : limit = s.depth + levels := by simpa [Leaves, hlimit] using h
  exact Nat.le_of_eq this.symm

theorem Leaves.deeper {s : State} (h : s.Leaves levels) (hroom : s.hasRoom = true) :
    ∃ fewer, levels = fewer + 1 ∧ s.deeper.Leaves fewer := by
  obtain ⟨fewer, rfl⟩ : ∃ fewer, levels = fewer + 1 := by
    unfold State.hasRoom at hroom
    rw [h] at hroom
    exact Nat.exists_eq_add_one.mpr (by simpa using hroom)
  refine ⟨fewer, rfl, ?_⟩
  show s.limit = some (s.depth + 1 + fewer)
  rw [h]
  congr 1
  omega

namespace Framed

variable {s : State}

theorem ahead_eq_cons (h : s.Framed) : s.ahead = s.peek :: s.next.ahead := by
  obtain ⟨⟨behind, current, _ | ⟨t, ts⟩⟩, _⟩ := s
  case nil =>
    obtain ⟨ts, u, hlist, hu, _⟩ := h.stream
    have : current = u := by simpa [Stream.toList] using (List.append_inj' hlist rfl).2
    exact absurd (this ▸ hu) h.before
  case cons => rfl

theorem length_next_lt (h : s.Framed) : s.next.ahead.length < s.ahead.length := by
  rw [h.ahead_eq_cons]
  exact Nat.lt_succ_self _

theorem next (h : s.Framed) (hpeek : s.peek.kind ≠ .eof) : s.next.Framed where
  stream := by
    show (Stream.consume s.stream).Framed
    simpa [Stream.Framed] using h.stream
  before := by
    have : s.next.stream.current = s.peek := Stream.current_consume s.stream
    exact this ▸ hpeek

theorem deeper (h : s.Framed) : s.deeper.Framed :=
  ⟨h.stream, h.before⟩

end Framed

inductive Reads : State → List Token → State → Prop
  | nil : Reads s [] s
  | cons : s.peek.kind ≠ .eof → Reads s.next ts t → Reads s (s.peek :: ts) t

namespace Reads

variable {s t u : State} {ts us : List Token} {v : Token}

theorem single (h : s.peek.kind ≠ .eof) : Reads s [s.peek] s.next :=
  cons h nil

theorem append (h : Reads s ts t) (h' : Reads t us u) : Reads s (ts ++ us) u := by
  induction h
  case nil => exact h'
  case cons hpeek _ ih => exact cons hpeek (ih h')

@[simp]
theorem nil_iff : Reads s [] t ↔ t = s := by
  constructor
  case mp => rintro ⟨⟩; rfl
  case mpr => rintro rfl; exact nil

@[simp]
theorem cons_iff : Reads s (v :: ts) t ↔ s.peek = v ∧ v.kind ≠ .eof ∧ Reads s.next ts t := by
  constructor
  case mp => rintro ⟨⟩; exact ⟨rfl, ‹_›, ‹_›⟩
  case mpr => rintro ⟨rfl, hpeek, h⟩; exact cons hpeek h

@[simp]
theorem append_iff : Reads s (ts ++ us) u ↔ ∃ t, Reads s ts t ∧ Reads t us u := by
  constructor
  case mpr =>
    rintro ⟨t, h, h'⟩
    exact h.append h'
  case mp =>
    intro h
    induction ts generalizing s
    case nil => exact ⟨s, nil, h⟩
    case cons ih =>
      obtain ⟨rfl, hpeek, h⟩ := cons_iff.mp h
      obtain ⟨t, ht, hu⟩ := ih h
      exact ⟨t, cons hpeek ht, hu⟩

theorem framed (h : Reads s ts t) (hs : s.Framed) : t.Framed := by
  induction h
  case nil => exact hs
  case cons hpeek _ ih => exact ih (hs.next hpeek)

theorem ahead (h : Reads s ts t) (hs : s.Framed) : s.ahead = ts ++ t.ahead := by
  induction h
  case nil => rfl
  case cons hpeek _ ih => rw [hs.ahead_eq_cons, ih (hs.next hpeek)]; rfl

theorem length_le (h : Reads s ts t) (hs : s.Framed) : t.ahead.length ≤ s.ahead.length := by
  simp [h.ahead hs]

theorem deeper (h : Reads s ts t) : Reads s.deeper ts t.deeper := by
  induction h
  case nil => exact nil
  case cons hpeek _ ih => exact cons hpeek ih

theorem shallower (h : Reads s.deeper ts t) : Reads s ts t.shallower := by
  generalize hd : s.deeper = d at h
  induction h generalizing s
  case nil => subst hd; exact nil
  case cons hpeek _ ih => subst hd; exact cons hpeek (ih rfl)

theorem opens (h : Reads s ts t) (hs : s.Opens levels) : t.Opens levels := by
  induction h
  case nil => exact hs
  case cons ih => exact ih hs

theorem leaves (h : Reads s ts t) (hs : s.Leaves levels) : t.Leaves levels := by
  induction h
  case nil => exact hs
  case cons ih => exact ih hs

theorem snoc (h : Reads s ts t) (ht : t.peek.kind ≠ .eof) : Reads s (ts ++ [t.peek]) t.next :=
  h.append <| single ht

theorem snoc_iff : Reads s (ts ++ [v]) t ↔ ∃ u, Reads s ts u ∧ u.peek = v ∧ v.kind ≠ .eof ∧ t = u.next := by
  simp

-- The state before one of the tokens, and what is left behind that token.
theorem split (h : Reads s (ts ++ v :: us) t) (hs : s.Framed) (hopens : s.Opens levels) :
    ∃ u, Reads s ts u ∧ u.peek = v ∧ Reads u.next us t ∧ u.next.Framed ∧ u.next.Opens levels ∧
      u.next.ahead.length < u.ahead.length ∧ u.ahead.length ≤ s.ahead.length := by
  obtain ⟨u, hts, h⟩ := append_iff.mp h
  obtain ⟨rfl, hpeek, hus⟩ := cons_iff.mp h
  have hframed := hts.framed hs
  exact ⟨u, hts, rfl, hus, hframed.next hpeek, (hts.snoc hpeek).opens hopens, hframed.length_next_lt, hts.length_le hs⟩

theorem peek_mem_head (h : Reads s ts t) (hne : ts ≠ []) : s.peek ∈ ts.head? := by
  cases h
  case nil => contradiction
  case cons => rfl

theorem head (h : Reads s ts t) (hv : v ∈ ts.head?) : v = s.peek := by
  cases h <;> simp_all

end Reads

end State
end Grammar
end BasicFrontEnd
