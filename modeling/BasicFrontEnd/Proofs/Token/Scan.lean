import BasicFrontEnd.Proofs.Token.Cut
import Mathlib.Data.List.Induction

/-!
Reading a whole source: it has tokens exactly if it is a row of segments, each as long as it can be, and otherwise
the fault is that of the first place where no segment can be cut off. Places are counted in bytes. Main statement:
`tokens_iff_row`.
-/

namespace BasicFrontEnd.Lexical

variable {segment : Segment}

-- The place of the byte that `offset` bytes stand before: the line feeds among these open lines, and the bytes after
-- the last of them fill columns.
def placeAt (bs : List UInt8) (offset : Nat) : Position :=
  ⟨1 + (bs.take offset).count 0x0A, 1 + ((bs.take offset).reverse.takeWhile (· != 0x0A)).length⟩

namespace Piece

-- The text of a lexeme must not be too long.
def Fits (p : Piece) : Prop :=
  ∀ kind value, p.segment = .lexeme kind value → (String.ofList value).utf8ByteSize ≤ Token.maxLength

-- The token that a lexeme at `offset` becomes. Other segments become none.
def token? (s : Source) (offset : Nat) (p : Piece) : Option Token :=
  match p.segment with
  | .lexeme kind value =>
    some ⟨kind, .ofList value, placeAt s.bytes offset, s.lines.get (placeAt s.bytes offset).line⟩
  | _ => none

end Piece

-- The tokens of a row whose first piece is at `offset`.
def tokensOf (s : Source) (offset : Nat) : List Piece → List Token
  | []       => []
  | p :: row => (p.token? s offset).toList ++ tokensOf s (offset + p.text.length) row

-- The source cannot be read on from `offset`, where `rest` stands, and the diagnostic tells why.
inductive Blocked (s : Source) (offset : Nat) : List Char → Diagnostic → Prop
  | stuck : Stuck rest cause n →
      Blocked s offset rest (Token.faultAt s.lines (placeAt s.bytes (offset + n)) cause)
  | tooLong : Cut (.lexeme kind value) text rest → Token.maxLength < (String.ofList value).utf8ByteSize →
      Blocked s offset (text ++ rest) (Token.faultAt s.lines (placeAt s.bytes offset) (.lexemeTooLong Token.maxLength))

section Places

theorem ofUInt8_eq_lineFeed {b : UInt8} : Char.ofUInt8 b = '\n' ↔ b = 0x0A := by
  have hval : (Char.ofUInt8 b).val = b.toUInt32 := rfl
  rw [Char.ext_iff, ← UInt32.toNat_inj, ← UInt8.toNat_inj, hval]
  simp

theorem advance_latin1 (bs : List UInt8) : Position.start.advance (Text.latin1 bs) = placeAt bs bs.length := by
  induction bs using List.reverseRecOn
  case nil => rfl
  case append_singleton bs b hi =>
    simp only [Text.latin1, placeAt, List.take_length, List.map_append, List.map_cons, List.map_nil,
      Position.advance_append] at hi ⊢
    simp only [hi, Position.advance_cons, Position.advance_nil, Position.after, ofUInt8_eq_lineFeed,
      List.count_append, List.reverse_append]
    split
    case isTrue h => simp [h, Nat.add_comm]
    case isFalse h => simp [h, Nat.add_comm]

theorem placeAt_eq {s : Source} {cs rest : List Char} (h : s.chars = cs ++ rest) :
    placeAt s.bytes cs.length = Position.start.advance cs := by
  have hcs : cs = Text.latin1 (s.bytes.take cs.length) := by
    rw [Text.latin1, List.map_take, ← Text.latin1, ← Source.chars, h, List.take_left']
    rfl
  have hlen : (s.bytes.take cs.length).length = cs.length := by
    conv_rhs => rw [hcs, Text.length_latin1]
  conv_rhs => rw [hcs, advance_latin1, hlen]
  simp [placeAt, List.take_take]

end Places

section Rows

variable {s : Source} {row : List Piece} {pre cs rest : List Char}

-- A source that is stuck a few characters further on is stuck in the same line.
theorem Stuck.split (h : Stuck rest cause n) : ∃ ds after, rest = ds ++ after ∧ ds.length = n ∧ '\n' ∉ ds := by
  have hdigits : ∀ {ds : List Char}, (∀ d ∈ ds, IsDigit d) → '\n' ∉ ds :=
    fun hd hn => absurd (hd _ hn) (by decide)
  cases h
  case string => exact ⟨[], _, rfl, rfl, by simp⟩
  case point ds _ hd => exact ⟨ds, _, rfl, rfl, hdigits hd⟩
  case fraction ds c after _ hd _ =>
    exact ⟨ds ++ ['.'], c :: after, by simp, by simp, by simpa using hdigits hd⟩
  case character => exact ⟨[], _, rfl, rfl, by simp⟩

theorem scan_stuck (h : Stuck rest cause n) (lines : Lines) (p : Position) :
    Token.scan lines p rest = .error (Token.faultAt lines (p.shift n) cause) := by
  obtain _ | ⟨c, cs⟩ := rest
  case nil =>
    generalize ht : ([] : List Char) = text at h
    cases h <;> simp at ht
  case cons => simp [Token.scan, h.first_eq]

-- Behind a segment that can be cut off, reading goes on at the place where it ends.
theorem scan_cut (h : Cut segment text rest) (lines : Lines) (p : Position) :
    Token.scan lines p (text ++ rest) =
      match segment with
      | .lexeme kind value => do
        let token ← Token.ofLexeme lines p kind value
        let tokens ← Token.scan lines (p.advance text) rest
        return token :: tokens
      | _ => Token.scan lines (p.advance text) rest := by
  obtain ⟨c, cs, rfl⟩ := List.exists_cons_of_ne_nil h.spells.ne_nil
  have hfirst : Segment.first c (cs ++ rest) = .ok (segment, cs.length) :=
    first_eq_ok_iff.mpr ⟨c :: cs, rest, rfl, rfl, h⟩
  rw [List.cons_append, Token.scan, hfirst]
  cases segment <;> simp

theorem scan_blocked (hs : s.chars = pre ++ rest) (h : Blocked s pre.length rest d) :
    Token.scan s.lines (.advance .start pre) rest = .error d := by
  cases h
  case stuck cause n h =>
    obtain ⟨ds, after, rfl, rfl, hn⟩ := h.split
    have hs' : s.chars = (pre ++ ds) ++ after := by simpa using hs
    have hp : placeAt s.bytes (pre.length + ds.length) = (Position.start.advance pre).shift ds.length := by
      rw [← List.length_append, placeAt_eq hs', Position.advance_append, Position.advance_eq_shift hn]
    rw [scan_stuck h, hp]
  case tooLong kind value text rest hcut hlen =>
    rw [scan_cut hcut, placeAt_eq hs]
    simp only [Token.ofLexeme, hlen, if_true]
    rfl

-- Reading the pieces of a row gives their tokens, and reading goes on behind them.
theorem scan_row (h : Row row rest) (hfit : ∀ p ∈ row, p.Fits) (hs : s.chars = pre ++ (textOf row ++ rest)) :
    Token.scan s.lines (.advance .start pre) (textOf row ++ rest) =
      (Token.scan s.lines (.advance .start (pre ++ textOf row)) rest).map (tokensOf s pre.length row ++ ·) := by
  induction h generalizing pre
  case nil rest =>
    cases hr : Token.scan s.lines (.advance .start pre) rest <;> simp [tokensOf, hr, Except.map]
  case cons row rest p hcut _ hi =>
    simp only [List.mem_cons, forall_eq_or_imp] at hfit
    have hs' : s.chars = (pre ++ p.text) ++ (textOf row ++ rest) := by simpa using hs
    have hi := hi hfit.right hs'
    have hplace := placeAt_eq hs
    rw [textOf_cons, List.append_assoc, scan_cut hcut, ← Position.advance_append, ← List.append_assoc, hi]
    obtain ⟨segment, text⟩ := p
    simp only [tokensOf, Piece.token?, List.length_append, hplace]
    cases segment
    case lexeme kind value =>
      have hlen := Nat.not_lt.mpr (hfit.left kind value rfl)
      simp only [Token.ofLexeme, hlen, if_false]
      cases Token.scan s.lines (.advance .start (pre ++ text ++ textOf row)) rest <;> rfl
    all_goals simp

-- Every source begins with a row of segments behind which it ends or is blocked.
theorem exists_row (s : Source) (pre cs : List Char) :
    ∃ row rest, cs = textOf row ++ rest ∧ Row row rest ∧ (∀ p ∈ row, p.Fits) ∧
      (rest = [] ∨ ∃ d, Blocked s (pre ++ textOf row).length rest d) := by
  obtain _ | ⟨c, cs⟩ := cs
  case nil => exact ⟨[], [], rfl, .nil, by simp, .inl rfl⟩
  case cons =>
    cases hr : Segment.first c cs
    case error fault =>
      exact ⟨[], c :: cs, rfl, .nil, by simp, .inr ⟨_, .stuck (first_eq_error_iff.mp hr)⟩⟩
    case ok result =>
      obtain ⟨text, rest, hcs, hlen, hcut⟩ := first_eq_ok_iff.mp hr
      have hterm : rest.length < (c :: cs).length := by simp [hcs, hlen]
      obtain ⟨row, rest', hrest, hrow, hfit, hend⟩ := exists_row s (pre ++ text) rest
      let p : Piece := ⟨result.1, text⟩
      by_cases hp : p.Fits
      case pos =>
        refine ⟨p :: row, rest', by simp [hcs, hrest, p], .cons (hrest ▸ hcut) hrow, ?_, by simpa [p] using hend⟩
        simpa using ⟨hp, hfit⟩
      case neg =>
        simp only [Piece.Fits, not_forall, Nat.not_le] at hp
        obtain ⟨kind, value, hs, hlong⟩ := hp
        have hcut : Cut (.lexeme kind value) text rest := hs ▸ hcut
        exact ⟨[], text ++ rest, hcs, .nil, by simp, .inr ⟨_, .tooLong hcut hlong⟩⟩
termination_by cs.length
decreasing_by exact hterm

-- A row that goes up to the end is read as its tokens, wherever it begins.
theorem scan_whole_row (h : Row row []) (hfit : ∀ p ∈ row, p.Fits) (hs : s.chars = pre ++ textOf row) :
    Token.scan s.lines (.advance .start pre) (textOf row) =
      .ok (tokensOf s pre.length row ++ [Token.eofOf s.lines (placeAt s.bytes s.bytes.length)]) := by
  have hend : Position.start.advance (pre ++ textOf row) = placeAt s.bytes s.bytes.length := by
    rw [← hs, Source.chars, advance_latin1]
  have hscan := scan_row h hfit (by simpa using hs)
  rwa [List.append_nil, Token.scan, hend] at hscan

theorem scan_blocked_row (h : Row row rest) (hfit : ∀ p ∈ row, p.Fits) (hs : s.chars = pre ++ (textOf row ++ rest))
    (hb : Blocked s (pre.length + (textOf row).length) rest d) :
    Token.scan s.lines (.advance .start pre) (textOf row ++ rest) = .error d := by
  have hs' : s.chars = (pre ++ textOf row) ++ rest := by rw [hs, List.append_assoc]
  rw [scan_row h hfit hs, scan_blocked hs' (List.length_append ▸ hb)]
  rfl

theorem tokens_of_whole_row (h : Row row []) (hfit : ∀ p ∈ row, p.Fits) (hs : s.chars = textOf row) :
    s.tokens = .ok (.ofTokens (Token.headOf s.lines)
      (tokensOf s 0 row ++ [Token.eofOf s.lines (placeAt s.bytes s.bytes.length)])) := by
  have hs' : s.chars = [] ++ textOf row := hs
  have hscan := scan_whole_row h hfit hs'
  rw [Source.tokens, Token.streamFrom, hs]
  exact congrArg (Except.map _) hscan

theorem tokens_of_blocked_row (h : Row row rest) (hfit : ∀ p ∈ row, p.Fits) (hs : s.chars = textOf row ++ rest)
    (hb : Blocked s (textOf row).length rest d) : s.tokens = .error d := by
  have hs' : s.chars = [] ++ (textOf row ++ rest) := hs
  have hscan := scan_blocked_row h hfit hs' (by simpa using hb)
  rw [Source.tokens, Token.streamFrom, hs]
  exact congrArg (Except.map _) hscan

-- Reading has tokens only of a row of segments.
theorem exists_row_of_tokens {stream : Stream} (h : s.tokens = .ok stream) :
    ∃ row, Row row [] ∧ s.chars = textOf row ∧ (∀ p ∈ row, p.Fits) ∧
      stream = .ofTokens (Token.headOf s.lines)
        (tokensOf s 0 row ++ [Token.eofOf s.lines (placeAt s.bytes s.bytes.length)]) := by
  obtain ⟨row, rest, hs, hrow, hfit, rfl | ⟨d, hb⟩⟩ := exists_row s [] s.chars
  case inl =>
    have hs : s.chars = textOf row := by simpa using hs
    exact ⟨row, hrow, hs, hfit, Except.ok.inj <| h.symm.trans <| tokens_of_whole_row hrow hfit hs⟩
  case inr => cases h.symm.trans <| tokens_of_blocked_row hrow hfit hs (by simpa using hb)

-- Where it has none, a row of segments leads to where the source is blocked.
theorem exists_blocked_of_tokens {d : Diagnostic} (h : s.tokens = .error d) :
    ∃ row rest, Row row rest ∧ s.chars = textOf row ++ rest ∧ Blocked s (textOf row).length rest d := by
  obtain ⟨row, rest, hs, hrow, hfit, rfl | ⟨d', hb⟩⟩ := exists_row s [] s.chars
  case inl => cases h.symm.trans <| tokens_of_whole_row hrow hfit (by simpa using hs)
  case inr =>
    cases h.symm.trans <| tokens_of_blocked_row hrow hfit hs (by simpa using hb)
    exact ⟨row, rest, hrow, hs, hb⟩

end Rows

-- A source has tokens exactly if it is a row of segments, each the longest at its place, with texts that fit: the
-- tokens are those of the lexemes, each at the place of its first byte, between a head and an end. Otherwise a row
-- of segments leads to where the source is blocked, and the diagnostic is the one of that place.
theorem tokens_iff_row (s : Source) :
    (∀ stream, s.tokens = .ok stream ↔
      ∃ row, Row row [] ∧ s.chars = textOf row ∧ (∀ p ∈ row, p.Fits) ∧
        stream = .ofTokens (Token.headOf s.lines)
          (tokensOf s 0 row ++ [Token.eofOf s.lines (placeAt s.bytes s.bytes.length)])) ∧
    (∀ d, s.tokens = .error d ↔
      ∃ row rest, Row row rest ∧ s.chars = textOf row ++ rest ∧ (∀ p ∈ row, p.Fits) ∧
        Blocked s (textOf row).length rest d) := by
  obtain ⟨row, rest, hs, hrow, hfit, rfl | ⟨d, hb⟩⟩ := exists_row s [] s.chars
  case inl =>
    have hs : s.chars = textOf row := by simpa using hs
    have hok := tokens_of_whole_row hrow hfit hs
    constructor
    case left =>
      refine fun stream => ⟨fun h => ⟨row, hrow, hs, hfit, Except.ok.inj (h.symm.trans hok)⟩, ?_⟩
      rintro ⟨row', hrow', hs', hfit', rfl⟩
      exact tokens_of_whole_row hrow' hfit' hs'
    case right =>
      refine fun d => ⟨fun h => ?_, ?_⟩
      · cases h.symm.trans hok
      · rintro ⟨row', rest', hrow', hs', hfit', hb⟩
        exact tokens_of_blocked_row hrow' hfit' hs' hb
  case inr =>
    have herror := tokens_of_blocked_row hrow hfit hs (by simpa using hb)
    constructor
    case left =>
      refine fun stream => ⟨fun h => ?_, ?_⟩
      · cases h.symm.trans herror
      · rintro ⟨row', hrow', hs', hfit', rfl⟩
        exact tokens_of_whole_row hrow' hfit' hs'
    case right =>
      refine fun d' => ⟨fun h => ?_, ?_⟩
      · cases h.symm.trans herror
        exact ⟨row, rest, hrow, hs, hfit, by simpa using hb⟩
      · rintro ⟨row', rest', hrow', hs', hfit', hb⟩
        exact tokens_of_blocked_row hrow' hfit' hs' hb

end BasicFrontEnd.Lexical
