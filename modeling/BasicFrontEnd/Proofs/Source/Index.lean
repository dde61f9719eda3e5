import BasicFrontEnd.Proofs.Report.Faults
import BasicFrontEnd.Proofs.Token.Lines
import BasicFrontEnd.Proofs.Writing.Filling

/-!
Tokens and faults are where the lines of the source show them. Main statement: `Source.tokens_agree_with_lines`.
-/

namespace BasicFrontEnd

open Text

-- What a token can be told by at its place: its text, or the quote that begins a string.
def Token.mark (t : Token) : String :=
  if t.kind = .string then "\"" else t.value

-- The place is in a line of the source, and this line is the text.
structure Lines.Shows (lines : Lines) (p : Position) (lineText : String) : Prop where
  first : 1 ≤ p.line
  last  : p.line ≤ lines.size
  line  : lines.get? p.line = some lineText

theorem Lines.shows_get {lines : Lines} (hfirst : 1 ≤ p.line) (hlast : p.line ≤ lines.size) :
    lines.Shows p (lines.get p.line) := by
  refine ⟨hfirst, hlast, ?_⟩
  obtain ⟨n, hn⟩ := Nat.exists_eq_add_of_lt hfirst
  rw [get, get?, hn, Nat.zero_add, Sequence.nth?_succ]
  have hlength : n < lines.texts.toList.length := by
    rw [Sequence.length_toList]
    exact Nat.lt_of_succ_le (by omega : n + 1 ≤ lines.size)
  rw [List.getElem?_eq_getElem hlength, Option.getD_some]

namespace Lexical

variable {s : Source}

section Marks

-- The token of a lexeme, with the lexeme's offset.
theorem exists_lexeme_of_mem_tokensOf (h : t ∈ tokensOf s offset row) :
    ∃ before text after value, row = before ++ ⟨.lexeme t.kind value, text⟩ :: after ∧
      let p := placeAt s.bytes (offset + (textOf before).length)
      t = ⟨t.kind, .ofList value, p, s.lines.get p.line⟩ := by
  induction row generalizing offset
  case nil => cases h
  case cons p row ih =>
    rw [tokensOf, List.mem_append] at h
    obtain h | h := h
    case inl =>
      obtain ⟨_ | _ | ⟨kind, value⟩, text⟩ := p
      case lexeme =>
        obtain rfl := Option.some.inj <| Option.mem_toList.mp h
        exact ⟨[], text, row, value, rfl, rfl⟩
      all_goals cases h
    case inr =>
      obtain ⟨before, text, after, value, rfl, ht⟩ := ih h
      exact ⟨p :: before, text, after, value, rfl, by simpa [Nat.add_assoc] using ht⟩

-- The mark of a token is visible, and its lexeme begins with it.
theorem Lexeme.mark_prefix {t : Token} (h : Lexeme t.kind text value) (ht : t.value = .ofList value) :
    t.mark.toList ≠ [] ∧ t.mark.toList <+: text ∧ ∀ c ∈ t.mark.toList, IsVisible c := by
  unfold Token.mark
  split
  case isTrue hkind =>
    rw [hkind] at h
    cases h
    exact ⟨by decide, ⟨_, rfl⟩, forall_isVisible_of_all (by decide)⟩
  case isFalse hkind =>
    rw [ht, String.toList_ofList, h.value_eq hkind]
    exact ⟨h.ne_nil, List.prefix_rfl, h.isVisible hkind⟩

end Marks

section Places

-- The token begins with the byte at `offset`.
structure BeginsAt (s : Source) (t : Token) (offset : Nat) : Prop where
  inside   : offset < s.bytes.length
  position : t.position = placeAt s.bytes offset
  lineText : t.lineText = s.lines.get t.position.line
  nonempty : t.mark.toList ≠ []
  visible  : ∀ c ∈ t.mark.toList, IsVisible c
  mark     : t.mark.toList <+: s.chars.drop offset

theorem exists_beginsAt (hrow : Row row rest) (hs : s.chars = textOf row ++ rest) (ht : t ∈ tokensOf s 0 row) :
    ∃ offset, BeginsAt s t offset := by
  obtain ⟨before, text, after, value, rfl, hvalue⟩ := exists_lexeme_of_mem_tokensOf ht
  have hlexeme : Lexeme t.kind text value := by
    have hspells := hrow.spells _ (List.mem_append_cons_self)
    cases hspells
    assumption
  obtain ⟨hne, hmark, hvisible⟩ := hlexeme.mark_prefix (congrArg Token.value hvalue)
  rw [textOf_append, textOf_cons, List.append_assoc] at hs
  have hlength := congrArg List.length hs
  simp only [Source.chars, length_latin1, List.length_append] at hlength
  have htext : 0 < text.length := List.length_pos_iff.mpr hlexeme.ne_nil
  rw [Nat.zero_add] at hvalue
  have hbegins : BeginsAt s t (textOf before).length := {
    inside   := by omega
    position := congrArg Token.position hvalue
    lineText := by rw [hvalue]
    nonempty := hne
    visible  := hvisible
    mark     := by
      rw [hs, List.drop_left, List.append_assoc]
      exact hmark.trans (List.prefix_append _ _) }
  exact ⟨_, hbegins⟩

variable {t : Token} {offset : Nat}

-- A byte that is no blank stands at the place, or right before it.
structure Beside (s : Source) (p : Position) (offset : Nat) : Prop where
  byte  : ∃ c, s.chars[offset]? = some c ∧ Segment.isBlank c = false
  place : p = placeAt s.bytes offset ∨ p = (placeAt s.bytes offset).shift 1

theorem Beside.inside (h : Beside s p offset) : offset < s.bytes.length := by
  obtain ⟨c, hc, -⟩ := h.byte
  obtain ⟨hoffset, -⟩ := List.getElem?_eq_some_iff.mp hc
  rwa [Source.chars, length_latin1] at hoffset

theorem Beside.line_eq (h : Beside s p offset) : p.line = (placeAt s.bytes offset).line := by
  obtain rfl | rfl := h.place <;> rfl

theorem Beside.shows (h : Beside s p offset) (hs : s.Indexed) : s.lines.Shows p (s.lines.get p.line) := by
  obtain ⟨before, rest, hline⟩ := exists_inLine h.inside
  obtain ⟨hfirst, hlast⟩ := Lines.le_size_of_get? (hs.get?_line hline)
  exact Lines.shows_get (h.line_eq ▸ hfirst) (h.line_eq ▸ hlast)

theorem IsVisible.isBlank_eq_false {c : Char} (h : IsVisible c) : Segment.isBlank c = false := by
  by_contra hc
  obtain rfl | rfl | rfl | rfl := isBlank_iff.mp (eq_true_of_ne_false hc)
  all_goals exact absurd h (by decide)

theorem BeginsAt.exists_char (h : BeginsAt s t offset) :
    ∃ c, t.mark.toList.head? = some c ∧ IsVisible c ∧ s.chars[offset]? = some c := by
  obtain ⟨c, cs, hmark⟩ := List.exists_cons_of_ne_nil h.nonempty
  obtain ⟨after, hafter⟩ := h.mark
  refine ⟨c, hmark ▸ rfl, h.visible c (hmark ▸ List.mem_cons_self), ?_⟩
  rw [← List.head?_drop, ← hafter, hmark]
  rfl

theorem BeginsAt.beside (h : BeginsAt s t offset) : Beside s t.position offset := by
  obtain ⟨c, -, hvisible, hc⟩ := h.exists_char
  exact ⟨⟨c, hc, hvisible.isBlank_eq_false⟩, .inl h.position⟩

-- From its column on, the line begins with the mark.
theorem BeginsAt.exists_spelled (h : BeginsAt s t offset) (hs : s.Exact) :
    ∃ before rest, encode t.lineText.toList = before ++ encode t.mark.toList ++ rest ∧
      t.position.column = before.length + 1 := by
  obtain ⟨before, rest, hline⟩ := exists_inLine h.inside
  have hmark : ∀ b ∈ encode t.mark.toList, (b == 0x0A) = false := by
    intro b hb
    obtain ⟨c, hc, hbyte⟩ := List.mem_flatMap.mp hb
    have hc : c ≠ '\n' := fun heq => absurd (heq ▸ h.visible c hc) (by decide)
    exact beq_false_of_ne fun heq => lineFeed_not_mem_utf8EncodeChar hc (heq ▸ hbyte)
  have hprefix : encode t.mark.toList <+: s.bytes.drop offset := by
    have hvisible := h.mark
    rw [Source.chars, latin1, ← List.map_drop, ← latin1] at hvisible
    exact encode_prefix_of_prefix_latin1 hvisible fun c hc => (h.visible c hc).2.trans (by decide)
  obtain ⟨after, rfl⟩ := prefix_of_head?_splitAfter hmark hprefix hline.rest
  refine ⟨before, after, ?_, h.position ▸ hline.column⟩
  rw [h.lineText, h.position, hs.encode_line hline, List.append_assoc]

-- It comes before the end of the line, and so before that of the source.
theorem BeginsAt.column_le (h : BeginsAt s t offset) (hs : s.Exact) :
    t.position.column ≤ (withoutLineEnd t.lineText).utf8ByteSize := by
  obtain ⟨before, rest, hline, hcolumn⟩ := h.exists_spelled hs
  obtain ⟨c, cs, hmark⟩ := List.exists_cons_of_ne_nil h.nonempty
  have hc : IsVisible c := h.visible c (hmark ▸ List.mem_cons_self)
  have hbyte : (encode t.lineText.toList)[before.length]? = some (UInt8.ofNat c.toNat) := by
    rw [hline, hmark, encode_cons, utf8EncodeChar_of_le (hc.2.trans (by decide))]
    simp
  have hvalue : (UInt8.ofNat c.toNat).toNat = c.toNat := by
    rw [UInt8.toNat_ofNat', Nat.mod_eq_of_lt (hc.2.trans_lt (by decide))]
  rw [hcolumn]
  refine lt_utf8ByteSize_withoutLineEnd hbyte ⟨fun heq => ?_, fun heq => ?_⟩
  all_goals
    rw [heq] at hvalue
    exact absurd (hvalue ▸ hc.1) (by decide)

theorem BeginsAt.lt_endPosition (h : BeginsAt s t offset) (hs : s.Exact) :
    t.position < Token.endPosition s.lines (placeAt s.bytes s.bytes.length) := by
  obtain ⟨whole, line, hbytes, hwhole, hline⟩ := exists_ended_append (· == 0x0A) s.bytes
  by_cases hne : line = []
  case neg =>
    obtain ⟨-, hend, -⟩ := hs.indexed.endPosition_of_not_ended hbytes hwhole hline hne
    rw [hend, h.position]
    exact placeAt_lt h.inside (Nat.le_refl _)
  case pos =>
    rw [hne, List.append_nil] at hbytes
    have hended : Ended (· == 0x0A) s.bytes := hbytes ▸ hwhole
    have hdrop : s.bytes.drop offset ≠ [] := mt List.drop_eq_nil_iff.mp (Nat.not_le.mpr h.inside)
    -- A line feed is still to come, so the token is not behind the last line.
    have hcount : t.position.line ≤ s.bytes.count 0x0A := by
      have hlast : Ended (· == 0x0A) (s.bytes.drop offset) := by
        rwa [← List.take_append_drop offset s.bytes, ended_append hdrop] at hended
      have hsplit := congrArg (List.count 0x0A) (List.take_append_drop offset s.bytes)
      rw [List.count_append] at hsplit
      have := count_pos_of_ended hlast hdrop
      rw [h.position, placeAt]
      dsimp only
      omega
    obtain ⟨-, hend⟩ := hs.indexed.endPosition_of_ended hended (List.ne_nil_of_length_pos (Nat.zero_lt_of_lt h.inside))
    rw [hend, Position.lt_def]
    obtain hlt | heq := Nat.lt_or_eq_of_le hcount
    case inl => exact .inl hlt
    case inr => exact .inr ⟨heq, heq ▸ h.lineText ▸ Nat.lt_succ_of_le (h.column_le hs)⟩

theorem shows_endPosition (hs : s.Indexed) (hne : s.bytes ≠ []) :
    let p := Token.endPosition s.lines (placeAt s.bytes s.bytes.length)
    s.lines.Shows p (s.lines.get p.line) := by
  obtain ⟨whole, line, hbytes, hwhole, hline⟩ := exists_ended_append (· == 0x0A) s.bytes
  by_cases hline' : line = []
  case neg =>
    obtain ⟨hsize, hend, hplace⟩ := hs.endPosition_of_not_ended hbytes hwhole hline hline'
    rw [hend]
    refine Lines.shows_get ?_ ?_
    all_goals
      rw [hplace]
      dsimp only
      omega
  case pos =>
    rw [hline', List.append_nil] at hbytes
    have hended : Ended (· == 0x0A) s.bytes := hbytes ▸ hwhole
    obtain ⟨hsize, hend⟩ := hs.endPosition_of_ended hended hne
    rw [hend]
    exact Lines.shows_get (count_pos_of_ended hended hne) hsize.ge

-- The tokens of a source, each with a first byte, and its end.
theorem exists_tokens {stream : Stream} (h : s.tokens = .ok stream) :
    ∃ tokens, stream.ahead = tokens ++ [Token.eofOf s.lines (placeAt s.bytes s.bytes.length)] ∧
      tokens.Pairwise (·.position < ·.position) ∧ ∀ t ∈ tokens, ∃ offset, BeginsAt s t offset := by
  have hascending := ascending_tokens h
  obtain ⟨row, hrow, hs, -, rfl⟩ := exists_row_of_tokens h
  replace hascending : (tokensOf s 0 row ++ [_]).dropLast.Pairwise _ := hascending
  rw [List.dropLast_concat] at hascending
  exact ⟨tokensOf s 0 row, rfl, hascending, fun t ht => exists_beginsAt hrow (hs.trans (List.append_nil _).symm) ht⟩

theorem ascending_ahead {stream : Stream} (hs : s.Exact) (h : s.tokens = .ok stream) :
    stream.ahead.Pairwise (·.position < ·.position) := by
  obtain ⟨tokens, hahead, hascending, hbegins⟩ := exists_tokens h
  rw [hahead]
  refine List.pairwise_append.mpr ⟨hascending, List.pairwise_singleton _ _, fun t ht u hu => ?_⟩
  obtain rfl := List.mem_singleton.mp hu
  obtain ⟨offset, ht⟩ := hbegins t ht
  exact ht.lt_endPosition hs

theorem beginsAt_or_eq_eofOf {stream : Stream} (h : s.tokens = .ok stream) (ht : t ∈ stream.ahead) :
    (∃ offset, BeginsAt s t offset) ∨ t = Token.eofOf s.lines (placeAt s.bytes s.bytes.length) := by
  obtain ⟨tokens, hahead, -, hbegins⟩ := exists_tokens h
  rw [hahead, List.mem_append, List.mem_singleton] at ht
  exact ht.imp_left (hbegins t)

theorem exists_beginsAt_of_kind_ne_eof {stream : Stream} (h : s.tokens = .ok stream) (ht : t ∈ stream.ahead)
    (hkind : t.kind ≠ .eof) : ∃ offset, BeginsAt s t offset :=
  (beginsAt_or_eq_eofOf h ht).resolve_right fun heof => hkind (heof ▸ rfl)

theorem lineText_of_mem_ahead {stream : Stream} (h : s.tokens = .ok stream) (ht : t ∈ stream.ahead) :
    t.lineText = s.lines.get t.position.line := by
  obtain ⟨offset, ht⟩ | rfl := beginsAt_or_eq_eofOf h ht
  case inl => exact ht.lineText
  case inr => rfl

theorem shows_of_mem_ahead {stream : Stream} (hs : s.Indexed) (hne : s.bytes ≠ []) (h : s.tokens = .ok stream)
    (ht : t ∈ stream.ahead) : s.lines.Shows t.position (s.lines.get t.position.line) := by
  obtain ⟨offset, ht⟩ | rfl := beginsAt_or_eq_eofOf h ht
  case inl => exact ht.beside.shows hs
  case inr => exact shows_endPosition hs hne

end Places

section Faults

theorem Stuck.exists_beside (h : Stuck rest cause n) :
    ∃ i c, rest[i]? = some c ∧ Segment.isBlank c = false ∧ (n = i ∨ n = i + 1) := by
  cases h
  case string => exact ⟨0, '"', rfl, rfl, .inl rfl⟩
  case point ds _ _ => exact ⟨ds.length, '.', by simp, rfl, .inl rfl⟩
  case fraction ds _ _ _ _ _ => exact ⟨ds.length, '.', by simp, rfl, .inr rfl⟩
  case character c cs _ hspells =>
    refine ⟨0, c, rfl, ?_, .inl rfl⟩
    by_contra hblank
    exact hspells _ [c] (.blank (isBlank_iff.mp (eq_true_of_ne_false hblank))) ⟨cs, rfl⟩

theorem placeAt_succ {bs : List UInt8} {b : UInt8} (h : bs[n]? = some b) (hb : b ≠ 0x0A) :
    placeAt bs (n + 1) = (placeAt bs n).shift 1 := by
  rw [placeAt, placeAt, List.take_add_one, h]
  simp [Position.shift, hb, Nat.add_comm]

theorem Lexeme.exists_head (h : Lexeme kind text value) :
    ∃ c cs, text = c :: cs ∧ Segment.isBlank c = false := by
  obtain ⟨c, cs, rfl⟩ := List.exists_cons_of_ne_nil h.ne_nil
  refine ⟨c, cs, rfl, ?_⟩
  by_cases hkind : kind = .string
  case pos =>
    subst hkind
    cases h
    rfl
  case neg => exact (h.isVisible hkind c List.mem_cons_self).isBlank_eq_false

theorem Blocked.exists_beside (hs : s.chars = pre ++ rest) (h : Blocked s pre.length rest d) :
    d.lineText = some (s.lines.get d.position.line) ∧ ∃ offset, Beside s d.position offset := by
  have hchar (i : Nat) : s.chars[pre.length + i]? = rest[i]? := by
    rw [hs, List.getElem?_append_right (Nat.le_add_right _ _), Nat.add_sub_cancel_left]
  cases h
  case stuck cause n hstuck =>
    obtain ⟨i, c, hc, hblank, hn⟩ := hstuck.exists_beside
    refine ⟨rfl, pre.length + i, ⟨c, (hchar i).trans hc, hblank⟩, ?_⟩
    obtain rfl | rfl := hn
    case inl => exact .inl rfl
    case inr =>
      have hbyte := (hchar i).trans hc
      rw [Source.chars, latin1, List.getElem?_map, Option.map_eq_some_iff] at hbyte
      obtain ⟨b, hb, rfl⟩ := hbyte
      have hline : b ≠ 0x0A := by
        rintro rfl
        cases hblank
      exact .inr <| placeAt_succ hb hline
  case tooLong text rest hcut hlong =>
    cases hcut.spells
    case lexeme hlexeme =>
      obtain ⟨c, cs, rfl, hblank⟩ := hlexeme.exists_head
      exact ⟨rfl, pre.length, ⟨c, hchar 0, hblank⟩, .inl rfl⟩

-- A source that cannot be read fails beside one of its bytes, or at a token.
theorem exists_place_of_parse (h : s.parse = .error d) :
    d.lineText = some (s.lines.get d.position.line) ∧
    ((s.tokens = .error d ∧ ∃ offset, Beside s d.position offset) ∨
      ∃ stream, s.tokens = .ok stream ∧ ∃ t ∈ stream.ahead, d.position = t.position) := by
  unfold Source.parse at h
  cases htokens : s.tokens
  case error d' =>
    rw [htokens] at h
    obtain rfl : d' = d := Except.error.inj h
    obtain ⟨row, rest, -, hs, hblocked⟩ := exists_blocked_of_tokens htokens
    obtain ⟨hline, hbeside⟩ := hblocked.exists_beside hs
    exact ⟨hline, .inl ⟨rfl, hbeside⟩⟩
  case ok stream =>
    rw [htokens] at h
    have hread : stream.read.1 = .error d := h
    obtain ⟨v, hv, hposition, hline⟩ : ∃ v ∈ stream.ahead, d.position = v.position ∧ d.lineText = some v.lineText := by
      cases Stream.told_of_read htokens hread
      case token v hv _ => exact ⟨v, hv, rfl, rfl⟩
      case number v hv => exact ⟨v, hv, rfl, rfl⟩
    have hv' := lineText_of_mem_ahead htokens hv
    exact ⟨hposition ▸ hv' ▸ hline, .inr ⟨stream, rfl, v, hv, hposition⟩⟩

end Faults

end Lexical

namespace Source

open Lexical

-- The places of tokens ascend, and each token is where its line shows it: the line is the one with that number, and
-- from the column on it begins with the token. Where the source cannot be read, the fault too is in such a line.
theorem tokens_agree_with_lines (text : String) :
    (∀ stream, (ofText text).tokens = .ok stream →
      stream.ahead.Pairwise (·.position < ·.position) ∧
      ∀ t ∈ stream.ahead,
        t.lineText = (ofText text).lines.get t.position.line ∧
        (text ≠ "" → (ofText text).lines.Shows t.position t.lineText) ∧
        (t.kind ≠ .eof → ∃ before rest, encode t.lineText.toList = before ++ encode t.mark.toList ++ rest ∧
          t.position.column = before.length + 1)) ∧
    ∀ d, (ofText text).parse = .error d → ∃ lineText, d.lineText = some lineText ∧
      lineText = (ofText text).lines.get d.position.line ∧
      (text ≠ "" → (ofText text).lines.Shows d.position lineText) := by
  have hexact := exact_ofText text
  have hne : text ≠ "" → (ofText text).bytes ≠ [] :=
    fun htext hbytes => htext <| String.toList_eq_nil_iff.mp <| encode_eq_nil_iff.mp hbytes
  refine ⟨fun stream hstream => ⟨ascending_ahead hexact hstream, fun t ht => ?token⟩, fun d hd => ?fault⟩
  case token =>
    have hline := lineText_of_mem_ahead hstream ht
    refine ⟨hline, fun htext => hline ▸ shows_of_mem_ahead hexact.indexed (hne htext) hstream ht, fun hkind => ?_⟩
    obtain ⟨offset, ht⟩ := exists_beginsAt_of_kind_ne_eof hstream ht hkind
    exact ht.exists_spelled hexact
  case fault =>
    obtain ⟨hline, hplace⟩ := exists_place_of_parse hd
    refine ⟨_, hline, rfl, fun htext => ?_⟩
    obtain ⟨-, offset, hbeside⟩ | ⟨stream, hstream, t, ht, hposition⟩ := hplace
    case inl => exact hbeside.shows hexact.indexed
    case inr =>
      rw [hposition]
      exact shows_of_mem_ahead hexact.indexed (hne htext) hstream ht

-- A string that begins in the first line and ends in the second, where a type is missing.
def spreadString : String :=
  "x : \"a\nb\"\r\n"

theorem tokens_agree_with_lines_spreadString :
    spreadString ≠ "" ∧ ∃ stream d, (ofText spreadString).tokens = .ok stream ∧
      (ofText spreadString).parse = .error d ∧
      stream.ahead.Pairwise (·.position < ·.position) ∧
      (∀ t ∈ stream.ahead, (ofText spreadString).lines.Shows t.position t.lineText) ∧
      ∃ lineText, d.lineText = some lineText ∧ (ofText spreadString).lines.Shows d.position lineText := by
  have hne : spreadString ≠ "" := by decide
  obtain ⟨htokens, hfault⟩ := tokens_agree_with_lines spreadString
  have hparse : (ofText spreadString).parse.toOption.isSome = false := by decide +kernel
  have hlex : (ofText spreadString).tokens.toOption.isSome = true := by decide +kernel
  cases hs : (ofText spreadString).tokens
  case error => simp [hs, Except.toOption] at hlex
  case ok stream =>
    cases hd : (ofText spreadString).parse
    case ok => simp [hd, Except.toOption] at hparse
    case error d =>
      obtain ⟨hascending, hlines⟩ := htokens stream hs
      obtain ⟨lineText, hline, -, hshows⟩ := hfault d hd
      exact ⟨hne, stream, d, rfl, rfl, hascending, fun t ht => (hlines t ht).2.1 hne, lineText, hline, hshows hne⟩

end Source

end BasicFrontEnd
