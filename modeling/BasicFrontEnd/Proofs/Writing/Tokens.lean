import BasicFrontEnd.Proofs.Writing.Spelling

/-!
Tokens written out and read back. Blanks stand between the words, and strings between quotes, with escapes where they
need them. What can be written so is what reading answers. Main statement: `tokens_of_written`.
-/

namespace BasicFrontEnd

-- The kinds and values of the tokens, in order.
def Stream.words (s : Stream) : List Word :=
  s.toList.map Token.word

namespace Lexical

-- A word as it is written. Only strings differ from their values.
inductive Writes : Word → List Char → Prop
  | bare   : w.kind ≠ .string → Writes w w.value.toList
  | string : Escaped text value.toList → Writes ⟨.string, value⟩ ('"' :: (text ++ ['"']))

-- Words in a row, with a blank behind each but the last.
inductive Written : List Word → List Char → Prop
  | nil   : Written [] []
  | blank : c = ' ' ∨ c = '\t' ∨ c = '\r' ∨ c = '\n' → Written words cs → Written words (c :: cs)
  | word  : Writes w text → (∀ c, cs.head? = some c → c = ' ' ∨ c = '\t' ∨ c = '\r' ∨ c = '\n') → Written words cs →
            Written (w :: words) (text ++ cs)

-- The words that there are. A string is any text of characters that are bytes; all else is spelled as its kind asks.
structure Proper (w : Word) : Prop where
  string   : w.kind = .string → ∀ c ∈ w.value.toList, c.toNat ≤ 0xFF
  spelling : w.kind ≠ .string → Lexeme w.kind w.value.toList w.value.toList
  fits     : w.value.utf8ByteSize ≤ Token.maxLength

-- The words of a source between a head and an end.
def framed (words : List Word) : List Word :=
  ⟨.head, "HEAD"⟩ :: (words ++ [⟨.eof, "EOF"⟩])

variable {words : List Word} {w : Word} {s : Source}

section Writing

theorem Writes.lexeme (h : Writes w text) (hw : Proper w) : Lexeme w.kind text w.value.toList := by
  cases h
  case bare hkind => exact hw.spelling hkind
  case string h => exact .string h.quotes

theorem Written.spaced (h : Written words cs) (hwords : ∀ w ∈ words, Proper w) : Spaced words cs := by
  induction h
  case nil => exact .nil
  case blank hc _ ih => exact .blank hc (ih hwords)
  case word w text words cs hw hblank _ ih =>
    rw [List.forall_mem_cons] at hwords
    have hends : EndsBefore w.kind cs := by
      cases cs
      case nil => rintro c ⟨⟩
      case cons => exact endsBefore_gap (.inl (Front.of_isBlank (hblank _ rfl))) w.kind
    simpa using Spaced.word (hw.lexeme hwords.1) hends (ih hwords.2)

theorem Proper.exists_writes (h : Proper w) : ∃ text, Writes w text ∧ ∀ c ∈ text, c.toNat ≤ 0xFF := by
  by_cases hkind : w.kind = .string
  case neg => exact ⟨_, .bare hkind, (h.spelling hkind).toNat_le hkind⟩
  case pos =>
    obtain ⟨kind, value⟩ := w
    subst hkind
    refine ⟨_, .string (Word.escaped_quoteBody value.toList), ?_⟩
    have := Word.toNat_le_of_mem_quoteBody (h.string rfl)
    simpa [or_imp, forall_and] using this

theorem exists_written (h : ∀ w ∈ words, Proper w) : ∃ s : Source, Written words s.chars := by
  obtain ⟨cs, hcs, hbytes⟩ : ∃ cs, Written words cs ∧ ∀ c ∈ cs, c.toNat ≤ 0xFF := by
    induction words
    case nil => exact ⟨[], .nil, by simp⟩
    case cons w words ih =>
      rw [List.forall_mem_cons] at h
      obtain ⟨text, hw, htext⟩ := h.1.exists_writes
      obtain ⟨cs, hcs, hbytes⟩ := ih h.2
      refine ⟨text ++ ' ' :: cs, .word hw (by rintro c ⟨⟩; exact .inl rfl) (.blank (.inl rfl) hcs), ?_⟩
      exact List.forall_mem_append.mpr ⟨htext, List.forall_mem_cons.mpr ⟨by decide, hbytes⟩⟩
  obtain ⟨s, rfl⟩ := exists_chars_eq hbytes
  exact ⟨s, hcs⟩

end Writing

section Reading

theorem words_ofTokens (s : Source) (offset : Nat) (row : List Piece) (p : Position) :
    (Stream.ofTokens (Token.headOf s.lines) (tokensOf s offset row ++ [Token.eofOf s.lines p])).words =
      framed (row.filterMap Piece.word?) := by
  have hmap := map_word_tokensOf s offset row
  simp [Stream.words, Stream.toList, Stream.ofTokens, framed, hmap, Token.word, Token.headOf, Token.eofOf]

-- The tokens of a source that is the text of words are the words.
theorem Spaced.words_tokens (h : Spaced words s.chars)
    (hfits : ∀ w ∈ words, w.value.utf8ByteSize ≤ Token.maxLength) :
    ∃ stream, s.tokens = .ok stream ∧ stream.words = framed words := by
  obtain ⟨row, hrow, hs, rfl⟩ := h.exists_row
  have hfitsRow : ∀ p ∈ row, p.Fits := by
    intro p hp kind value hsegment
    refine hfits ⟨kind, .ofList value⟩ ?_
    exact List.mem_filterMap.mpr ⟨p, hp, by simp [Piece.word?, hsegment]⟩
  exact ⟨_, tokens_of_whole_row hrow hfitsRow hs.symm, words_ofTokens s 0 row _⟩

theorem toNat_le_of_mem_chars : ∀ c ∈ s.chars, c.toNat ≤ 0xFF := by
  intro c hc
  obtain ⟨b, -, rfl⟩ := List.mem_map.mp hc
  exact Nat.le_of_lt_succ b.toNat_lt

theorem Quotes.toNat_le (h : Quotes text value) (htext : ∀ c ∈ text, c.toNat ≤ 0xFF) :
    ∀ c ∈ value, c.toNat ≤ 0xFF := by
  induction h
  case nil => simp
  case plain ih =>
    rw [List.forall_mem_cons] at htext ⊢
    exact ⟨htext.1, ih htext.2⟩
  case escape he _ ih =>
    simp only [List.forall_mem_cons] at htext ⊢
    exact ⟨by cases he <;> decide, ih htext.2.2⟩
  case backslash ih =>
    rw [List.forall_mem_cons] at htext ⊢
    exact ⟨htext.1, ih htext.2⟩

theorem Lexeme.proper (h : Lexeme kind text value) (htext : ∀ c ∈ text, c.toNat ≤ 0xFF)
    (hfits : (String.ofList value).utf8ByteSize ≤ Token.maxLength) : Proper ⟨kind, .ofList value⟩ where
  string hkind := by
    obtain rfl : kind = .string := hkind
    obtain ⟨⟩ | ⟨⟩ | ⟨⟩ | ⟨⟩ | hquotes := h
    rw [String.toList_ofList]
    exact hquotes.toNat_le fun c hc => htext c (by simp [hc])
  spelling hkind := by
    rw [String.toList_ofList]
    cases id h
    case string => exact absurd rfl hkind
    all_goals exact h
  fits := hfits

theorem Row.spells (h : Row row rest) : ∀ p ∈ row, Spells p.segment p.text := by
  induction h
  case nil => simp
  case cons hcut _ ih => exact List.forall_mem_cons.mpr ⟨hcut.spells, ih⟩

-- Reading answers proper words.
theorem exists_proper_of_tokens {stream : Stream} (h : s.tokens = .ok stream) :
    ∃ words, stream.words = framed words ∧ ∀ w ∈ words, Proper w := by
  obtain ⟨row, hrow, hs, hfit, rfl⟩ := exists_row_of_tokens h
  refine ⟨_, words_ofTokens s 0 row _, fun w hw => ?_⟩
  obtain ⟨p, hp, hpiece⟩ := List.mem_filterMap.mp hw
  obtain ⟨segment, text⟩ := p
  have htext : ∀ c ∈ text, c.toNat ≤ 0xFF := by
    intro c hc
    refine toNat_le_of_mem_chars (s := s) c ?_
    rw [hs]
    exact List.mem_flatMap.mpr ⟨_, hp, hc⟩
  cases segment
  case lexeme kind value =>
    obtain rfl : ⟨kind, .ofList value⟩ = w := by simpa [Piece.word?] using hpiece
    obtain _ | _ | _ | hlexeme := hrow.spells _ hp
    exact hlexeme.proper htext (hfit _ hp kind value rfl)
  all_goals simp [Piece.word?] at hpiece

end Reading

-- All proper words can be written out, and whatever source they are written as, its tokens are the words between a head
-- and an end. The tokens of any source are such words, so that they are read again from what they are written as.
theorem tokens_of_written :
    (∀ words, (∀ w ∈ words, Proper w) →
      (∃ s : Source, Written words s.chars) ∧
        ∀ s : Source, Written words s.chars → ∃ stream, s.tokens = .ok stream ∧ stream.words = framed words) ∧
    ∀ (s : Source) stream, s.tokens = .ok stream →
      ∃ words, stream.words = framed words ∧ (∀ w ∈ words, Proper w) ∧
        ∀ s' : Source, Written words s'.chars → ∃ stream', s'.tokens = .ok stream' ∧ stream'.words = stream.words := by
  have hread : ∀ words, (∀ w ∈ words, Proper w) → ∀ s : Source, Written words s.chars →
      ∃ stream, s.tokens = .ok stream ∧ stream.words = framed words := fun _ hwords _ hs =>
    (hs.spaced hwords).words_tokens fun w hw => (hwords w hw).fits
  constructor
  case left => exact fun words hwords => ⟨exists_written hwords, hread words hwords⟩
  case right =>
    intro s stream h
    obtain ⟨words, hwords, hproper⟩ := exists_proper_of_tokens h
    exact ⟨words, hwords, hproper, hwords ▸ hread words hproper⟩

-- An assignment of a string with an accent, a quote, and two line feeds, of which one is escaped.
def assignedString : List Word :=
  [⟨.identifier, "x"⟩, ⟨.symbol .assign, ":="⟩, ⟨.string, "é\"\n\n"⟩]

-- The bytes of the text x := "é\"\n and a raw line feed behind it, up to the closing quote.
def assignedStringSource : Source :=
  .ofBytes "" [0x78, 0x20, 0x3A, 0x3D, 0x09, 0x22, 0xE9, 0x5C, 0x22, 0x5C, 0x6E, 0x0A, 0x22]

theorem proper_assignedString : ∀ w ∈ assignedString, Proper w := by
  refine List.forall_mem_cons.mpr ⟨?_, List.forall_mem_cons.mpr ⟨?_, List.forall_mem_singleton.mpr ?_⟩⟩
  case refine_1 =>
    have : Lexeme .identifier ['x'] ['x'] := .identifier (by decide) (by simp) fun k => by cases k <;> decide
    exact ⟨by simp, fun _ => this, by decide⟩
  case refine_2 => exact ⟨by simp, fun _ => .symbol .assign, by decide⟩
  case refine_3 => exact ⟨fun _ => by simp, by simp, by decide⟩

theorem written_assignedString : Written assignedString assignedStringSource.chars := by
  have hstring : Escaped ['é', '\\', '"', '\\', 'n', '\n'] ['é', '"', '\n', '\n'] :=
    .raw (by decide) (by decide) <| .escape .quote <| .escape .lineFeed <| .raw (by decide) (by decide) .nil
  have hchars : assignedStringSource.chars =
      ['x'] ++ ' ' :: ([':', '='] ++ '\t' :: ('"' :: (['é', '\\', '"', '\\', 'n', '\n'] ++ ['"']) ++ [])) := by
    decide
  rw [hchars]
  refine .word (.bare (by simp)) (by simp) <| .blank (.inl rfl) ?_
  refine .word (.bare (by simp)) (by simp) <| .blank (.inr (.inl rfl)) ?_
  exact .word (.string hstring) (by simp) .nil

theorem tokens_of_written_assignedString :
    (∀ w ∈ assignedString, Proper w) ∧ Written assignedString assignedStringSource.chars ∧
      ∃ stream, assignedStringSource.tokens = .ok stream ∧ stream.words = framed assignedString ∧
        ∃ words, stream.words = framed words ∧ ∀ w ∈ words, Proper w := by
  refine ⟨proper_assignedString, written_assignedString, ?_⟩
  obtain ⟨-, hread⟩ := tokens_of_written.1 assignedString proper_assignedString
  obtain ⟨stream, hstream, hwords⟩ := hread assignedStringSource written_assignedString
  obtain ⟨words, hframed, hproper, -⟩ := tokens_of_written.2 assignedStringSource stream hstream
  exact ⟨stream, hstream, hwords, words, hframed, hproper⟩

end Lexical
end BasicFrontEnd
