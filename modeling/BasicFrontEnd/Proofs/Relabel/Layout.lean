import BasicFrontEnd.Proofs.Relabel.Programs
import BasicFrontEnd.Proofs.Relabel.Shapes
import BasicFrontEnd.Proofs.Writing.Filling

/-!
How a source is laid out does not matter: blanks and comments in front of a token change none, and what compiling makes
of a source depends on the kinds and values of its tokens only. Main statement: `Source.layout_insignificant`.
-/

namespace BasicFrontEnd

theorem Agrees.bind {f : α → α'} {g : β → β'} {k : α → Except Diagnostic β} {k' : α' → Except Diagnostic β'}
    (h : Agrees r f x y) (hk : ∀ a, Agrees r g (k a) (k' (f a))) : Agrees r g (x >>= k) (y >>= k') := by
  cases h
  case ok => exact hk _
  case error hd => exact .error hd

theorem Agrees.eq_of_ok {f : α → β} (h : Agrees r f (.ok a) (.ok b)) : b = f a := by
  cases h
  rfl

theorem Agrees.of_error {f : α → β} (h : Agrees r f (.error d) (.error d')) : d.Relabels r d' := by
  cases h
  assumption

-- What remains of an outcome without places: the program, or the cause of the diagnostic.
def bareResult (result : Except Diagnostic Program) : Except Cause Program :=
  (result.map Program.bare).mapError (·.cause)

theorem Agrees.bareResult_eq (h : Agrees .bare (·.relabel .bare) x y) : bareResult x = y.mapError (·.cause) := by
  cases h
  case ok p => rw [p.relabel_bare]; rfl
  case error hd => exact congrArg Except.error hd.cause_eq.symm

-- The token of the word, without a place.
def Word.bare (w : Word) : Token :=
  ⟨w.kind, w.value, .nowhere, ""⟩

namespace Stream

-- What compiling makes of the tokens.
def result (stream : Stream) : Except Diagnostic Program := do
  let p ← stream.read.1
  p.check.1
  return p

theorem result_relabel (r : Relabelling) (stream : Stream) :
    Agrees r (·.relabel r) stream.result (stream.relabel r).result :=
  (stream.read_relabel r).bind fun p => (p.check_relabel r).bind fun _ => .ok

theorem relabel_bare_eq {first first' : Token} {rest rest' : List Token}
    (h : (ofTokens first rest).words = (ofTokens first' rest').words) :
    (ofTokens first rest).relabel .bare = (ofTokens first' rest').relabel .bare := by
  obtain ⟨hfirst, hrest⟩ : first.word = first'.word ∧ rest.map Token.word = rest'.map Token.word := by
    simpa [words, ofTokens, toList] using h
  have hbare : ∀ t : Token, t.relabel .bare = t.word.bare := Token.relabel_bare
  have hmap : ∀ ts : List Token, ts.map (·.relabel .bare) = (ts.map Token.word).map Word.bare := fun ts => by
    rw [List.map_map]
    exact List.map_congr_left fun t _ => hbare t
  have hcurrent : first.relabel .bare = first'.relabel .bare := by
    rw [hbare, hbare, hfirst]
  have hahead : rest.map (·.relabel .bare) = rest'.map (·.relabel .bare) := by
    rw [hmap, hmap, hrest]
  exact Stream.ext rfl hcurrent hahead

end Stream

namespace Source

theorem compile_result (s : Source) : s.compile.result = s.tokens >>= Stream.result := by
  unfold compile
  cases s.tokens
  case error => rfl
  case ok stream =>
    show _ = stream.result
    dsimp only [Stream.result]
    generalize stream.read = outcome
    obtain ⟨_ | p, events⟩ := outcome
    case error => rfl
    case ok =>
      show (p.check.1.map fun _ => p) = p.check.1 >>= fun _ => pure p
      cases p.check.1 <;> rfl

-- Only the kinds and values of the tokens decide.
theorem bareResult_compile_eq {s s' : Source} {stream stream' : Stream} (h : s.tokens = .ok stream)
    (h' : s'.tokens = .ok stream') (hwords : stream'.words = stream.words) :
    bareResult s'.compile.result = bareResult s.compile.result := by
  obtain ⟨row, -, -, -, rfl⟩ := Lexical.exists_row_of_tokens h
  obtain ⟨row', -, -, -, rfl⟩ := Lexical.exists_row_of_tokens h'
  rw [compile_result, compile_result, h, h']
  show bareResult (Stream.result _) = bareResult (Stream.result _)
  rw [(Stream.result_relabel .bare _).bareResult_eq, (Stream.result_relabel .bare _).bareResult_eq,
    Stream.relabel_bare_eq hwords]

-- In front of any token of a source, blanks or a comment can be put in without a change to the kinds and values of its
-- tokens. Sources that agree in these compile to the same, but for places: to one program, or to one cause.
theorem layout_insignificant {s : Source} {stream : Stream} (h : s.tokens = .ok stream) :
    (∀ t ∈ stream.toList, t.kind ≠ .head → t.kind ≠ .eof → ∀ offset ≤ s.bytes.length,
      t.position = Lexical.placeAt s.bytes offset → ∀ filler, Lexical.Filler (Text.latin1 filler) → ∀ s' : Source,
        s'.bytes = s.bytes.take offset ++ (filler ++ s.bytes.drop offset) →
          ∃ stream', s'.tokens = .ok stream' ∧ stream'.words = stream.words) ∧
    ∀ (s' : Source) stream', s'.tokens = .ok stream' → stream'.words = stream.words →
      bareResult s'.compile.result = bareResult s.compile.result := by
  constructor
  case left =>
    intro t ht hhead heof offset hoffset hposition filler hfiller s' hs'
    exact Lexical.words_tokens_of_filled h ht hhead heof hoffset hposition hfiller hs'
  case right => exact fun s' stream' h' hwords => bareResult_compile_eq h h' hwords

-- The bytes of the text x: and of the same text with a comment in front of the colon.
def label : Source :=
  .ofBytes "" [0x78, 0x3A]

def commentedLabel : Source :=
  .ofBytes "" [0x78, 0x27, 0x63, 0x0A, 0x3A]

open Lexical in
theorem exists_tokens_label : ∃ stream, label.tokens = .ok stream ∧
    ∃ t ∈ stream.toList, t.kind = .symbol .colon ∧ t.position = placeAt label.bytes 1 := by
  have hname : Lexeme .identifier ['x'] ['x'] := .identifier (by decide) (by simp) fun k => by cases k <;> decide
  have hrow : Row [⟨.lexeme .identifier ['x'], ['x']⟩, ⟨.lexeme (.symbol .colon) [':'], [':']⟩] [] := by
    refine .cons (hname.cut_of_stopsAt ?_) <| .cons (Lexeme.cut_of_stopsAt (.symbol .colon) ?_) .nil
    · rintro c ⟨⟩
      decide
    · rintro c ⟨⟩
  have hfits : ∀ p ∈ [Piece.mk (.lexeme .identifier ['x']) ['x'], ⟨.lexeme (.symbol .colon) [':'], [':']⟩], p.Fits := by
    simp only [Piece.Fits, List.forall_mem_cons, Segment.lexeme.injEq, and_imp, List.not_mem_nil, false_implies,
      implies_true, and_true]
    exact ⟨fun _ _ _ h => h ▸ by decide, fun _ _ _ h => h ▸ by decide⟩
  exact ⟨_, tokens_of_whole_row hrow hfits (by decide), _, .tail _ (.tail _ (.head _)), rfl, rfl⟩

theorem layout_insignificant_label :
    ∃ stream stream', label.tokens = .ok stream ∧ commentedLabel.tokens = .ok stream' ∧
      stream'.words = stream.words ∧ bareResult commentedLabel.compile.result = bareResult label.compile.result := by
  obtain ⟨stream, h, t, ht, hkind, hposition⟩ := exists_tokens_label
  obtain ⟨hfill, hcompile⟩ := layout_insignificant h
  have hcomment : Lexical.Filler (Text.latin1 [0x27, 0x63, 0x0A]) := @Lexical.Filler.comment ['c'] (by decide)
  obtain ⟨stream', h', hwords⟩ := hfill t ht (by simp [hkind]) (by simp [hkind]) 1 (by decide) hposition _ hcomment
    commentedLabel rfl
  exact ⟨stream, stream', h, h', hwords, hcompile _ _ h' hwords⟩

end Source

end BasicFrontEnd
