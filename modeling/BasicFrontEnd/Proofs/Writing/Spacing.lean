import BasicFrontEnd.Proofs.Grammar.Reads
import BasicFrontEnd.Proofs.Token.Scan
import BasicFrontEnd.Proofs.Writing.Layout

/-!
Words as text. Blanks and comments may stand anywhere between the words, and have to where two words would run
together. A source that is such a text has the words as its tokens.
-/

namespace BasicFrontEnd.Lexical

-- What stands right behind a lexeme of the kind does not go on with it.
def EndsBefore (kind : Kind) (rest : List Char) : Prop :=
  ∀ c, rest.head? = some c →
    match kind with
    | .keyword _ | .identifier => ¬(IsLetter c ∨ IsDigit c)
    | .integer | .float        => ¬IsDigit c ∧ c ≠ '.'
    | .symbol s                => ∀ s' : Symbol, s'.chars ≠ s.chars ++ [c]
    | _                        => True

theorem getLast?_chars (s : Symbol) (h : 2 ≤ s.chars.length) :
    s.chars.getLast? = some '=' ∨ s.chars.getLast? = some '>' := by
  cases s <;> revert h <;> decide

-- No lexeme goes on with what begins a blank or a comment.
theorem endsBefore_gap (h : front c = .blank ∨ front c = .comment) (kind : Kind) : EndsBefore kind (c :: cs) := by
  have hletter : ¬IsLetter c := fun hc => by simp [Front.of_isLetter hc] at h
  have hdigit : ¬IsDigit c := fun hc => by simp [Front.of_isDigit hc] at h
  have hother : front c ≠ .other := fun hc => by simp [hc] at h
  rintro _ ⟨⟩
  cases kind
  case keyword | identifier => exact not_or.mpr ⟨hletter, hdigit⟩
  case integer | float => exact ⟨hdigit, fun hc => hother (by rw [hc]; decide)⟩
  case symbol s =>
    intro s' hs'
    have hlength := List.length_pos_iff.mpr (Lexeme.symbol s).ne_nil
    obtain hc | hc := getLast?_chars s' (by simp [hs']; omega)
    all_goals
      obtain rfl : c = _ := by simpa [hs'] using hc
      exact hother (by decide)
  all_goals trivial

-- The texts of words in a row.
inductive Spaced : List Word → List Char → Prop
  | nil : Spaced [] []
  | blank : c = ' ' ∨ c = '\t' ∨ c = '\r' ∨ c = '\n' → Spaced words cs → Spaced words (c :: cs)
  | comment : '\n' ∉ text → Spaced words cs → Spaced words ('\'' :: (text ++ '\n' :: cs))
  -- Only the last comment may end with the source.
  | lastComment : '\n' ∉ text → Spaced [] ('\'' :: text)
  | word : Lexeme kind text value → EndsBefore kind cs → Spaced words cs →
           Spaced (⟨kind, .ofList value⟩ :: words) (text ++ cs)

section Cut

variable {p : Char → Bool} {cs ds rest : List Char}

theorem length_le_of_prefix_append (h : ds <+: cs ++ rest) (hds : ∀ d ∈ ds, p d = true) (hcs : ∀ c ∈ cs, p c = true)
    (hrest : ∀ c, rest.head? = some c → p c = false) : ds.length ≤ cs.length := by
  have hle := length_le_takeWhile h hds
  rw [List.takeWhile_append_of_pos hcs] at hle
  cases rest
  case nil => simpa using hle
  case cons c rest => simpa [hrest c rfl] using hle

theorem Cut.of_word (hc : IsLetter c) (hcs : ∀ d ∈ cs, IsLetter d ∨ IsDigit d)
    (hrest : ∀ d, rest.head? = some d → ¬(IsLetter d ∨ IsDigit d)) (h : Lexeme kind (c :: cs) value)
    (hkind : kind ≠ .integer) : Cut (.lexeme kind value) (c :: cs) rest := by
  refine .of_follows (.lexeme h) (fun other ds hf hp => ?_) (by simp [hkind])
  simp only [Follows, Front.of_isLetter hc] at hf
  exact length_le_of_prefix_append hp (fun d hd => isWordPart_iff.mpr (hf.2 d hd))
    (fun d hd => isWordPart_iff.mpr (hcs d hd)) fun d hd => Bool.eq_false_iff.mpr (mt isWordPart_iff.mp (hrest d hd))

theorem Cut.of_integer (hne : ds ≠ []) (hds : ∀ d ∈ ds, IsDigit d) (hrest : EndsBefore .integer rest) :
    Cut (.lexeme .integer ds) ds rest := by
  have hpoint : rest.head? ≠ some '.' := fun h => (hrest '.' h).2 rfl
  obtain ⟨d, whole, rfl⟩ := List.exists_cons_of_ne_nil hne
  refine .of_follows (.lexeme (.integer hne hds)) (fun other es hf hp => ?_) (fun _ _ => hpoint)
  rw [List.forall_mem_cons] at hds
  obtain hle | ⟨_, _, rfl, _⟩ := number_follows hds.1 hds.2 (fun c hc => (hrest c hc).1) hf hp
  case inl => exact hle
  case inr => exact absurd rfl hpoint

theorem Cut.of_float (hne : ds ≠ []) (hes : es ≠ []) (hds : ∀ d ∈ ds, IsDigit d) (hfraction : ∀ e ∈ es, IsDigit e)
    (hrest : ∀ c, rest.head? = some c → ¬IsDigit c) :
    Cut (.lexeme .float (ds ++ '.' :: es)) (ds ++ '.' :: es) rest := by
  have hlexeme := Lexeme.float hne hes hds hfraction
  obtain ⟨d, whole, rfl⟩ := List.exists_cons_of_ne_nil hne
  rw [List.cons_append] at hlexeme ⊢
  refine .of_follows (.lexeme hlexeme) (fun other gs hf hp => ?_) (by simp)
  rw [List.forall_mem_cons] at hds
  rw [List.append_assoc] at hp
  obtain hle | ⟨fs, after, hpoint, _, hfs, rfl⟩ := number_follows hds.1 hds.2 (by rintro c ⟨⟩; decide) hf hp
  case inl => exact Nat.le_trans hle (by simp)
  case inr =>
    have hp : fs <+: es ++ rest := ⟨after, (List.cons.inj hpoint).2.symm⟩
    have := length_le_of_prefix_append hp (fun f hf => isDigit_iff.mpr (hfs f hf))
      (fun e he => isDigit_iff.mpr (hfraction e he))
      fun c hc => Bool.eq_false_iff.mpr (mt isDigit_iff.mp (hrest c hc))
    simpa using this

theorem Cut.of_string (h : Quotes body value) : Cut (.lexeme .string value) ('"' :: (body ++ ['"'])) rest := by
  refine .of_follows (.lexeme (.string h)) (fun other ds hf hp => ?_) (by simp)
  simp only [Follows, show front '"' = .quote from by decide] at hf
  obtain ⟨body', value', _, rfl, h'⟩ := hf
  obtain ⟨after, hp⟩ := hp
  have hbody := stringBody?_of_quotes h rest
  have hbody' := stringBody?_of_quotes h' after
  simp only [List.append_assoc, List.singleton_append] at hp
  rw [hp, hbody] at hbody'
  simp only [Option.some.injEq, Prod.mk.injEq] at hbody'
  simp only [List.length_append]
  omega

theorem Cut.of_symbol (s : Symbol) (hrest : EndsBefore (.symbol s) rest) :
    Cut (.lexeme (.symbol s) s.chars) s.chars rest := by
  have hlexeme := Lexeme.symbol s
  obtain ⟨c, cs, hcs⟩ := List.exists_cons_of_ne_nil hlexeme.ne_nil
  unfold EndsBefore at hrest
  simp only [hcs] at hrest hlexeme ⊢
  refine .of_follows (.lexeme hlexeme) (fun other ds hf hp => ?_) (by simp)
  simp only [Follows, Front.of_symbol hcs] at hf
  obtain ⟨s', _, hs'⟩ := hf
  cases ds
  case nil => simp
  case cons d ds =>
    obtain rfl : ds = [] := by
      obtain ⟨_, h | ⟨_, h⟩⟩ := chars_eq s' <;> simp_all
    cases cs
    case nil =>
      obtain ⟨after, rfl⟩ := hp
      exact absurd hs' (hrest d rfl s')
    case cons => simp

theorem Lexeme.cut (h : Lexeme kind text value) (hrest : EndsBefore kind rest) :
    Cut (.lexeme kind value) text rest := by
  cases h
  case keyword k =>
    obtain ⟨c, cs, hcs⟩ := List.exists_cons_of_ne_nil (Lexeme.keyword k).ne_nil
    obtain ⟨hc, hd⟩ := Front.of_keyword hcs
    have hlexeme := Lexeme.keyword k
    rw [hcs] at hlexeme ⊢
    exact .of_word hc hd hrest hlexeme (by simp)
  case identifier hc hcs hk => exact .of_word hc hcs hrest (.identifier hc hcs hk) (by simp)
  case integer hne hds => exact .of_integer hne hds hrest
  case float hne hes hds hfraction => exact .of_float hne hes hds hfraction fun c hc => (hrest c hc).1
  case string h => exact .of_string h
  case symbol s => exact .of_symbol s hrest

theorem Cut.of_blank (h : c = ' ' ∨ c = '\t' ∨ c = '\r' ∨ c = '\n') : Cut .blank [c] rest := by
  refine .of_follows (.blank h) (fun other ds hf _ => ?_) (by simp)
  simp only [Follows, Front.of_isBlank h] at hf
  simp [hf.2]

theorem Cut.of_comment (h : '\n' ∉ text) : Cut .comment ('\'' :: (text ++ ['\n'])) rest := by
  refine .of_follows (.closedComment h) (fun other ds hf hp => ?_) (by simp)
  simp only [Follows, show front '\'' = .comment from by decide] at hf
  rw [List.append_assoc] at hp
  have hle : ∀ es, '\n' ∉ es → es <+: text ++ '\n' :: rest → es.length ≤ text.length := fun es hes hp =>
    length_le_of_prefix_append (p := (· != '\n')) hp (fun e he => bne_iff_ne.mpr (ne_of_mem_of_not_mem he hes))
      (fun c hc => bne_iff_ne.mpr (ne_of_mem_of_not_mem hc h)) (by rintro c ⟨⟩; rfl)
  obtain ⟨_, hds | ⟨es, hes, rfl⟩⟩ := hf
  case inl => exact Nat.le_trans (hle ds hds hp) (by simp)
  case inr => simpa using hle es hes ((List.prefix_append ..).trans hp)

theorem Cut.of_lastComment (h : '\n' ∉ text) : Cut .comment ('\'' :: text) [] := by
  refine .of_follows (.comment h) (fun other ds _ hp => ?_) (by simp)
  simpa using hp.length_le

end Cut

-- The word that a piece of a row becomes. Blanks and comments become none.
def Piece.word? (p : Piece) : Option Word :=
  match p.segment with
  | .lexeme kind value => some ⟨kind, .ofList value⟩
  | _                  => none

-- The text is cut into the words and what stands between them.
theorem Spaced.exists_row (h : Spaced words cs) :
    ∃ row, Row row [] ∧ textOf row = cs ∧ row.filterMap Piece.word? = words := by
  induction h
  case nil => exact ⟨[], .nil, rfl, rfl⟩
  case blank hc _ ih =>
    obtain ⟨row, hrow, rfl, hwords⟩ := ih
    exact ⟨⟨.blank, [_]⟩ :: row, .cons (.of_blank hc) hrow, rfl, (List.filterMap_cons_none rfl).trans hwords⟩
  case comment text _ _ htext _ ih =>
    obtain ⟨row, hrow, rfl, hwords⟩ := ih
    refine ⟨⟨.comment, '\'' :: (text ++ ['\n'])⟩ :: row, .cons (.of_comment htext) hrow, by simp, ?_⟩
    exact (List.filterMap_cons_none rfl).trans hwords
  case lastComment text htext =>
    exact ⟨[⟨.comment, '\'' :: text⟩], .cons (.of_lastComment htext) .nil, by simp, rfl⟩
  case word hlexeme hends _ ih =>
    obtain ⟨row, hrow, rfl, hwords⟩ := ih
    have hcut := hlexeme.cut hends
    rw [← List.append_nil (textOf row)] at hcut
    exact ⟨⟨_, _⟩ :: row, .cons hcut hrow, rfl, by simp [Piece.word?, hwords]⟩

theorem Spaced.kind_ne_eof (h : Spaced words cs) : ∀ w ∈ words, w.kind ≠ .eof := by
  induction h
  case nil | lastComment => simp
  case blank ih | comment ih => exact ih
  case word hlexeme _ _ ih => exact List.forall_mem_cons.mpr ⟨by cases hlexeme <;> simp, ih⟩

theorem map_word_tokensOf (s : Source) (offset : Nat) (row : List Piece) :
    (tokensOf s offset row).map Token.word = row.filterMap Piece.word? := by
  induction row generalizing offset
  case nil => rfl
  case cons p row ih =>
    rw [tokensOf, List.map_append, ih, List.filterMap_cons]
    cases hp : p.segment <;> simp [Piece.token?, Piece.word?, hp, Token.word]

-- The tokens of a source that is the text of words are the words, between a head and an end.
theorem Spaced.tokens {s : Source} (h : Spaced words s.chars)
    (hfits : ∀ w ∈ words, w.value.utf8ByteSize ≤ Token.maxLength) :
    ∃ stream ts eof, s.tokens = .ok stream ∧ stream.Framed ∧ stream.current.kind ≠ .eof ∧ eof.kind = .eof ∧
      stream.ahead = ts ++ [eof] ∧ ts.map Token.word = words := by
  obtain ⟨row, hrow, hs, hwords⟩ := h.exists_row
  have hfitsRow : ∀ p ∈ row, p.Fits := by
    intro p hp kind value hsegment
    refine hfits ⟨kind, .ofList value⟩ ?_
    rw [← hwords]
    exact List.mem_filterMap.mpr ⟨p, hp, by simp [Piece.word?, hsegment]⟩
  have htokens := tokens_of_whole_row hrow hfitsRow hs.symm
  have hmap := (map_word_tokensOf s 0 row).trans hwords
  have hkinds : ∀ t ∈ tokensOf s 0 row, t.kind ≠ .eof := fun t ht =>
    h.kind_ne_eof t.word (hmap ▸ List.mem_map_of_mem ht)
  refine ⟨_, _, _, htokens, ⟨Token.headOf s.lines :: tokensOf s 0 row, _, rfl, rfl, ?_⟩, ?_, rfl, rfl, hmap⟩
  · exact List.forall_mem_cons.mpr ⟨by simp [Token.headOf], hkinds⟩
  · simp [Stream.ofTokens, Token.headOf]

end BasicFrontEnd.Lexical
