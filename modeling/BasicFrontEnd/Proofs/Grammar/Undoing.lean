import BasicFrontEnd.Proofs.Grammar.Height
import BasicFrontEnd.Proofs.Grammar.Progress
import BasicFrontEnd.Proofs.Token.Placed

/-!
Moving on and taking back. Where every `backup` belongs to a `consume` before it, as a closing bracket to its opening
one, the cursor comes back to where it was, unless a `consume` was asked for at the end of the stream: it stays there,
and the `backup` that belongs to it moves all the same. Main statement: `Stream.run_of_matched`.
-/

namespace BasicFrontEnd

namespace Stream

/-- What a stream can be asked, and the parser that reads it. -/
inductive Step
  | peek
  | consume
  | backup
  deriving DecidableEq

namespace Step

-- Every `backup` belongs to a `consume` among the steps or to one of `n` that came before, and none is left over.
inductive Matched : Nat → List Step → Prop
  | nil     : Matched 0 []
  | peek    : Matched n steps → Matched n (.peek :: steps)
  | consume : Matched (n + 1) steps → Matched n (.consume :: steps)
  | backup  : Matched n steps → Matched (n + 1) (.backup :: steps)

-- How far beyond their beginning the steps come at most, where the stream is long enough.
def reach : List Step → Nat
  | []                => 0
  | .peek :: steps    => reach steps
  | .consume :: steps => reach steps + 1
  | .backup :: steps  => reach steps - 1

end Step

-- What the stream answers, if anything.
def answer (s : Stream) : Step → Option Token
  | .peek    => some s.peek
  | .consume => some s.consume.current
  | .backup  => none

def step (s : Stream) : Step → Stream
  | .peek    => s
  | .consume => s.consume
  | .backup  => s.backup

-- The stream after the steps, one after another.
def run (s : Stream) (steps : List Step) : Stream :=
  steps.foldl step s

def answers (s : Stream) : List Step → List (Option Token)
  | []            => []
  | step :: steps => s.answer step :: (s.step step).answers steps

-- No `consume` among the steps is asked for on the last token.
def Unhindered (s : Stream) (steps : List Step) : Prop :=
  ∀ before after, steps = before ++ .consume :: after → (s.run before).ahead ≠ []

section Steps

open Step

variable {s t : Stream} {steps : List Step} {n : Nat}

@[simp]
theorem toList_step (s : Stream) (step : Step) : (s.step step).toList = s.toList := by
  cases step <;> simp [Stream.step]

@[simp]
theorem size_step (s : Stream) (step : Step) : (s.step step).size = s.size := by
  rw [← length_toList, toList_step, length_toList]

theorem cursor_consume (s : Stream) : s.consume.cursor = min (s.cursor + 1) (s.size - 1) := by
  obtain ⟨behind, current, _ | ⟨u, us⟩⟩ := s <;> simp [consume, cursor, size]

theorem cursor_backup (s : Stream) : s.backup.cursor = s.cursor - 1 := by
  obtain ⟨_ | ⟨u, us⟩, current, ahead⟩ := s <;> simp [backup, cursor]

theorem cursor_add_ahead (s : Stream) : s.cursor + s.ahead.length = s.size - 1 := by
  simp only [cursor, size]
  omega

-- A stream is its tokens and where the cursor stands.
theorem eq_of_cursor (htokens : s.toList = t.toList) (hcursor : s.cursor = t.cursor) : s = t := by
  obtain ⟨hbehind, hrest⟩ := List.append_inj htokens (by simpa [cursor] using hcursor)
  obtain ⟨hcurrent, hahead⟩ := List.cons.inj hrest
  exact Stream.ext (List.reverse_injective hbehind) hcurrent hahead

@[simp]
theorem toList_run (s : Stream) (steps : List Step) : (s.run steps).toList = s.toList := by
  induction steps generalizing s
  case nil => rfl
  case cons step steps ih => exact (ih (s.step step)).trans (toList_step s step)

-- The `n` that are still to be taken back are taken back from where the steps would end without them. Both operations
-- stay at an end of the stream, and that is all that keeps this from being the cursor less `n`.
theorem cursor_run (h : Matched n steps) (s : Stream) :
    (s.run steps).cursor = min s.cursor (s.size - 1 - reach steps) - n := by
  induction h generalizing s
  case nil =>
    have hahead := s.cursor_add_ahead
    show s.cursor = min s.cursor (s.size - 1 - 0) - 0
    omega
  case peek ih => exact ih s
  case consume n steps _ ih =>
    have hrun := ih (s.step .consume)
    rw [size_step, show (s.step .consume).cursor = _ from s.cursor_consume] at hrun
    show ((s.step .consume).run steps).cursor = min s.cursor (s.size - 1 - (reach steps + 1)) - n
    omega
  case backup n steps _ ih =>
    have hrun := ih (s.step .backup)
    have hahead := s.cursor_add_ahead
    rw [size_step, show (s.step .backup).cursor = _ from s.cursor_backup] at hrun
    show ((s.step .backup).run steps).cursor = min s.cursor (s.size - 1 - (reach steps - 1)) - (n + 1)
    omega

theorem unhindered_cons (s : Stream) (step : Step) (steps : List Step) :
    s.Unhindered (step :: steps) ↔ (step = .consume → s.ahead ≠ []) ∧ (s.step step).Unhindered steps := by
  constructor
  case mp =>
    refine fun h => ⟨?_, fun before after hsteps => h (step :: before) after (by rw [hsteps, List.cons_append])⟩
    rintro rfl
    exact h [] steps rfl
  case mpr =>
    rintro ⟨hstep, hsteps⟩ (_ | ⟨_, before⟩) after heq
    case nil => exact hstep (List.cons.inj heq).1
    case cons =>
      obtain ⟨rfl, hafter⟩ := List.cons.inj heq
      exact hsteps before after hafter

-- As long as there is something to take back, it does not matter where the steps begin but only how far they come.
theorem unhindered_iff_reach_le (h : Matched n steps) (hn : n ≤ s.cursor) :
    s.Unhindered steps ↔ reach steps ≤ s.ahead.length := by
  induction h generalizing s
  case nil => exact ⟨fun _ => Nat.zero_le _, fun _ before after hsteps => by simp at hsteps⟩
  case peek steps _ ih =>
    rw [unhindered_cons]
    simpa [Stream.step, reach] using ih hn
  case consume n steps _ ih =>
    rw [unhindered_cons, reach]
    obtain ⟨behind, current, _ | ⟨u, us⟩⟩ := s
    case nil => simp
    case cons => simpa [Stream.step, consume] using ih (s := ⟨current :: behind, u, us⟩) (Nat.succ_le_succ hn)
  case backup n steps _ ih =>
    rw [unhindered_cons, reach]
    obtain ⟨_ | ⟨u, us⟩, current, ahead⟩ := s
    case nil => simp [cursor] at hn
    case cons =>
      have hback := ih (s := ⟨us, u, current :: ahead⟩) (Nat.le_of_succ_le_succ hn)
      simpa [Stream.step, backup, Nat.sub_le_iff_le_add] using hback

-- In a framed stream the last token is the end of the source.
theorem Framed.ahead_eq_nil_iff (hs : s.Framed) : s.ahead = [] ↔ s.current.kind = .eof := by
  refine ⟨fun hahead => ?_, Grammar.ahead_of_current_eof hs⟩
  by_contra hbefore
  have hframed : (Grammar.State.ofStream s).Framed := ⟨hs, hbefore⟩
  exact absurd (hframed.ahead_eq_cons.symm.trans hahead) (List.cons_ne_nil _ _)

theorem Framed.run (hs : s.Framed) (steps : List Step) : (s.run steps).Framed := by
  rwa [Framed, toList_run]

theorem Framed.unhindered_iff (hs : s.Framed) :
    s.Unhindered steps ↔
      ∀ before after, steps = before ++ .consume :: after → (s.run before).current.kind ≠ .eof :=
  forall₃_congr fun before _ _ => not_congr (hs.run before).ahead_eq_nil_iff

theorem getElem?_answers (s : Stream) (before after : List Step) (step : Step) :
    (s.answers (before ++ step :: after))[before.length]? = some ((s.run before).answer step) := by
  induction before generalizing s
  case nil => rfl
  case cons first before ih => exact ih (s.step first)

end Steps

end Stream

namespace Grammar.Rule

-- The step as the parser takes it.
def ofStep : Stream.Step → Rule (Option Token)
  | .peek    => some <$> peek
  | .consume => some <$> consume
  | .backup  => do
    backup
    return none

theorem exists_yields_ofStep (s : State) (step : Stream.Step) :
    ∃ t, (ofStep step).Yields s (s.stream.answer step) t ∧ t.stream = s.stream.step step := by
  cases step
  case peek => exact ⟨s, by simp [ofStep, Stream.answer, State.peek], rfl⟩
  case consume => exact ⟨s.next, by simp [ofStep, Stream.answer, State.peek, Stream.current_consume], rfl⟩
  case backup => exact ⟨_, yields_bind.mpr ⟨(), _, yields_backup.mpr rfl, yields_pure.mpr ⟨rfl, rfl⟩⟩, rfl⟩

-- The parser goes where the stream goes, and answers the same.
theorem exists_yields_mapM_ofStep (steps : List Stream.Step) (s : State) :
    ∃ t, (steps.mapM ofStep).Yields s (s.stream.answers steps) t ∧ t.stream = s.stream.run steps := by
  induction steps generalizing s
  case nil => exact ⟨s, by simp [Stream.answers], rfl⟩
  case cons step steps ih =>
    obtain ⟨u, hstep, hu⟩ := exists_yields_ofStep s step
    obtain ⟨t, hsteps, ht⟩ := ih u
    refine ⟨t, ?_, by rw [ht, hu]; rfl⟩
    simp only [List.mapM_cons, yields_bind, yields_pure]
    exact ⟨_, u, hstep, _, t, hsteps, by rw [hu]; rfl, rfl⟩

end Grammar.Rule

namespace Stream

open Step Grammar Lexical

-- However the steps are matched, the tokens stay as they are, and the cursor is in the end where it was, or as far
-- before the last token as the steps reach, whichever comes first. In a framed stream, then, it is back where it was
-- if that is the first token or no `consume` is asked for at the end of the source, and only then. A `peek` answers
-- what a `consume` would answer in its place, and the parser does all of this as the stream does.
theorem run_of_matched {steps : List Step} (h : Matched 0 steps) (s : Stream) :
    (s.run steps).toList = s.toList ∧
    (s.run steps).cursor = min s.cursor (s.size - 1 - reach steps) ∧
    (s.Framed → (s.run steps = s ↔ s.cursor = 0 ∨
      ∀ before after, steps = before ++ .consume :: after → (s.run before).current.kind ≠ .eof)) ∧
    (∀ before after, steps = before ++ .peek :: after →
      (s.answers steps)[before.length]? = some (some (s.run before).consume.current)) ∧
    ∀ state : State, state.stream = s →
      ∃ t, (steps.mapM Rule.ofStep).Yields state (s.answers steps) t ∧ t.stream = s.run steps := by
  have hcursor : (s.run steps).cursor = min s.cursor (s.size - 1 - reach steps) := cursor_run h s
  refine ⟨toList_run s steps, hcursor, fun hs => ?_, ?_, ?_⟩
  case refine_1 =>
    have hreturns : s.run steps = s ↔ min s.cursor (s.size - 1 - reach steps) = s.cursor :=
      ⟨fun heq => hcursor ▸ congrArg cursor heq, fun heq => eq_of_cursor (toList_run s steps) (hcursor.trans heq)⟩
    have hahead := s.cursor_add_ahead
    rw [← hs.unhindered_iff, unhindered_iff_reach_le h (Nat.zero_le _), hreturns]
    omega
  case refine_2 =>
    rintro before after rfl
    rw [getElem?_answers, current_consume]
    rfl
  case refine_3 =>
    rintro state rfl
    exact Rule.exists_yields_mapM_ofStep steps state

-- To the end of the source and back.
def toEnd : List Step :=
  [.consume, .peek, .consume, .backup, .backup]

theorem run_of_matched_toEnd :
    Matched 0 toEnd ∧ ∃ s, (Source.ofText "a b").tokens = .ok s ∧ s.Framed ∧
      (s.consume.run (toEnd.take 3)).current.kind = .eof ∧ s.consume.run toEnd = s.consume ∧
      (s.consume.answers toEnd)[1]? = some (some s.consume.consume.consume.current) := by
  have hmatched : Matched 0 toEnd := .consume <| .peek <| .consume <| .backup <| .backup .nil
  obtain ⟨s, hs⟩ := Source.exists_stream (s := Source.ofText "a b") (by decide +kernel)
  have hplaces : (Source.ofText "a b").tokens.toOption.any fun s =>
      s.consume.ahead.length = 2 ∧ (s.consume.run (toEnd.take 3)).current.kind = .eof := by
    decide +kernel
  obtain ⟨hahead, hend⟩ : s.consume.ahead.length = 2 ∧ (s.consume.run (toEnd.take 3)).current.kind = .eof := by
    simpa [hs, Except.toOption] using hplaces
  have hframed := (framed_of_tokens hs).1
  have hbefore := hframed.run [.consume]
  have hreach : reach toEnd ≤ s.consume.ahead.length := Nat.le_of_eq hahead.symm
  obtain ⟨-, -, hreturns, hpeeks, -⟩ := run_of_matched hmatched s.consume
  refine ⟨hmatched, s, hs, hframed, hend, (hreturns hbefore).mpr (.inr ?_), hpeeks [.consume] _ rfl⟩
  exact hbefore.unhindered_iff.mp <| (unhindered_iff_reach_le hmatched (Nat.zero_le _)).mpr hreach

-- At the end of the source nothing is moved past, and yet a token is taken back.
theorem run_consume_backup_at_eof :
    Matched 0 [.consume, .backup] ∧ ∃ s, (Source.ofText "a").tokens = .ok s ∧ s.Framed ∧
      s.consume.consume.current.kind = .eof ∧ s.consume.consume.run [.consume, .backup] = s.consume ∧
      s.consume ≠ s.consume.consume := by
  obtain ⟨s, hs⟩ := Source.exists_stream (s := Source.ofText "a") (by decide +kernel)
  have hrun : (Source.ofText "a").tokens.toOption.any fun s =>
      s.consume.consume.current.kind = .eof ∧ s.consume.consume.run [.consume, .backup] = s.consume ∧
        s.consume ≠ s.consume.consume := by
    decide +kernel
  refine ⟨.consume <| .backup .nil, s, hs, (framed_of_tokens hs).1, ?_⟩
  simpa [hs, Except.toOption] using hrun

end Stream

end BasicFrontEnd
