import BasicFrontEnd.Proofs.Source.Index

/-!
The caret of a rendering. In a source of ASCII bytes it stands below the character at the column of the fault, or
behind the line where the column is. It has no padding to spare: where that would be too wide, there is no rendering.
Main statement: `Source.caret_at_column`.
-/

namespace BasicFrontEnd

open Text

section Ascii

variable {s : Source} {bs : List UInt8}

theorem decode_of_ascii (h : ∀ b ∈ bs, b.toNat < 0x80) : decode bs = latin1 bs := by
  induction bs
  case nil => rfl
  case cons b bs ih =>
    rw [List.forall_mem_cons] at h
    have hchar : Char.ofNat b.toNat = Char.ofUInt8 b := by rw [← toNat_ofUInt8, Char.ofNat_toNat]
    have hdecode : decode (UInt8.ofNat b.toNat :: bs) = _ := decode_ascii (Nat.le_of_lt_succ h.1)
    rw [UInt8.ofNat_toNat, ih h.2, hchar] at hdecode
    exact hdecode

theorem toList_of_mem_lines (hs : s.Indexed) (hascii : ∀ b ∈ s.bytes, b.toNat < 0x80)
    (hpiece : (splitAfter (· == 0x0A) s.bytes)[n]? = some piece) :
    (s.lines.get (1 + n)).toList = latin1 piece ∧ ∀ b ∈ piece, b.toNat < 0x80 := by
  have hmem : ∀ b ∈ piece, b.toNat < 0x80 := by
    intro b hb
    refine hascii b ?_
    rw [← flatten_splitAfter (· == 0x0A) s.bytes]
    exact List.mem_flatten.mpr ⟨piece, List.mem_of_getElem? hpiece, hb⟩
  refine ⟨?_, hmem⟩
  rw [hs, Lines.get, Lines.get?_ofBytes, hpiece]
  exact String.toList_ofList.trans (decode_of_ascii hmem)

-- The lines too have characters of one byte each only.
theorem toNat_le_of_mem_line (hs : s.Indexed) (hascii : ∀ b ∈ s.bytes, b.toNat < 0x80) (n : Nat) :
    ∀ c ∈ (s.lines.get n).toList, c.toNat ≤ 0x7F := by
  cases n
  case zero => rintro c ⟨⟩
  case succ n =>
    rw [Nat.add_comm]
    cases hpiece : (splitAfter (· == 0x0A) s.bytes)[n]?
    case none =>
      rw [hs, Lines.get, Lines.get?_ofBytes, hpiece]
      rintro c ⟨⟩
    case some piece =>
      obtain ⟨hline, hbytes⟩ := toList_of_mem_lines hs hascii hpiece
      rw [hline]
      intro c hc
      obtain ⟨b, hb, rfl⟩ := List.mem_map.mp hc
      exact toNat_ofUInt8 b ▸ Nat.le_of_lt_succ (hbytes b hb)

theorem utf8ByteSize_of_ascii {text : String} (h : ∀ c ∈ text.toList, c.toNat ≤ 0x7F) :
    text.utf8ByteSize = text.toList.length := by
  rw [← String.ofList_toList (s := text), ← length_encode, String.toList_ofList]
  generalize text.toList = cs at h
  induction cs
  case nil => rfl
  case cons c cs ih =>
    rw [List.forall_mem_cons] at h
    rw [encode_cons, List.length_append, utf8EncodeChar_of_le h.1, ih h.2, List.length_cons, Nat.add_comm]
    rfl

end Ascii

namespace Diagnostic

section Rendering

variable {p : Position} {line : String}

-- The blanks that a rendering takes off the front of the line.
def indentOf (line : String) : List Char :=
  line.toList.takeWhile fun c => c == ' ' || c == '\t'

theorem indentOf_append (line : String) :
    indentOf line ++ (line.toList.dropWhile fun c => c == ' ' || c == '\t') = line.toList :=
  List.takeWhile_append_dropWhile

-- What it shows of the line.
def shownOf (line : String) : List Char :=
  dropEndWhile isBlank (line.toList.dropWhile fun c => c == ' ' || c == '\t')

-- What stands before the line, and before the caret.
def gutterOf (p : Position) : List Char :=
  (toString p.line).toList ++ [' ', '|', ' ']

def paddingOf (p : Position) (line : String) : List Char :=
  List.replicate ((toString p.line).length + 1) ' ' ++ '|' :: ' ' :: List.replicate (caretPadding p line - 1) '-'

theorem toList_padLeft (width : Nat) (fill : Char) (s : String) :
    (padLeft width fill s).toList = List.replicate (width - s.toList.length) fill ++ s.toList :=
  String.toList_ofList

theorem excerpt_eq (p : Position) (line : String) :
    excerpt p line = [padLeft ((toString p.line).length + 2) ' ' "|", .ofList (gutterOf p ++ shownOf line),
      .ofList (paddingOf p line ++ ['^'])] := by
  have hsource : toString p.line ++ " | " ++
        withoutBlankEnd (.ofList (line.toList.dropWhile fun c => c == ' ' || c == '\t')) =
      .ofList (gutterOf p ++ shownOf line) := by
    apply String.toList_inj.mp
    simp only [withoutBlankEnd, String.toList_append, String.toList_ofList]
    rfl
  have hcaret : padLeft ((toString p.line).length + 2) ' ' "|" ++ " " ++ padLeft (caretPadding p line) '-' "^" =
      .ofList (paddingOf p line ++ ['^']) := by
    apply String.toList_inj.mp
    simp [toList_padLeft, paddingOf]
  rw [← hsource, ← hcaret]
  rfl

-- What ends in members that stay is cut off as it is.
theorem dropEndWhile_append {α : Type} (p : α → Bool) (xs ys : List α) :
    dropEndWhile p (xs ++ ys) = if dropEndWhile p ys = [] then dropEndWhile p xs else xs ++ dropEndWhile p ys := by
  simp only [dropEndWhile, List.reverse_append, List.dropWhile_append, List.reverse_eq_nil_iff, List.isEmpty_iff]
  split <;> simp

-- A character that is no blank is before the blanks at the end.
theorem lt_length_withoutBlankEnd (h : line.toList[i]? = some c) (hc : isBlank c = false) :
    i < (withoutBlankEnd line).toList.length := by
  obtain ⟨dropped, happend, hdropped⟩ := exists_dropEndWhile_append isBlank line.toList
  rw [withoutBlankEnd, String.toList_ofList]
  by_contra hi
  rw [← happend, List.getElem?_append_right (Nat.le_of_not_lt hi)] at h
  exact Bool.false_ne_true (hc.symm.trans (hdropped c (List.mem_of_getElem? h)))

-- The line without the blanks at its end is the indent and what is shown of it, unless nothing is.
theorem toList_withoutBlankEnd (line : String) :
    (withoutBlankEnd line).toList = if shownOf line = [] then [] else indentOf line ++ shownOf line := by
  have hindent : dropEndWhile isBlank (indentOf line) = [] := by
    have hblank : ∀ c ∈ (indentOf line).reverse, isBlank c = true := by
      intro c hc
      have hc := List.mem_takeWhile_imp (List.mem_reverse.mp hc)
      obtain rfl | rfl : c = ' ' ∨ c = '\t' := by simpa using hc
      all_goals decide
    rw [dropEndWhile, List.dropWhile_eq_nil_iff.mpr hblank, List.reverse_nil]
  rw [withoutBlankEnd, String.toList_ofList, ← indentOf_append line, dropEndWhile_append, hindent]
  rfl

-- The character at a column behind the indent, if it is shown, and what is shown is no longer otherwise.
theorem getElem?_shownOf (h : (indentOf line).length < column) :
    (column ≤ (withoutBlankEnd line).toList.length →
      (shownOf line)[column - 1 - (indentOf line).length]? = line.toList[column - 1]?) ∧
    ((withoutBlankEnd line).toList.length < column →
      (shownOf line).length ≤ column - 1 - (indentOf line).length) := by
  rw [toList_withoutBlankEnd]
  split
  case isTrue hnil =>
    simp only [hnil, List.length_nil]
    exact ⟨fun hle => absurd h (by omega), fun _ => Nat.zero_le _⟩
  case isFalse =>
    obtain ⟨tail, htail, -⟩ :=
      exists_dropEndWhile_append isBlank (line.toList.dropWhile fun c => c == ' ' || c == '\t')
    have hline : line.toList = indentOf line ++ (shownOf line ++ tail) := by
      rw [shownOf, htail, indentOf_append]
    rw [List.length_append]
    refine ⟨fun hle => ?_, fun hlt => by omega⟩
    rw [hline, List.getElem?_append_right (by omega), List.getElem?_append_left (by omega)]

theorem caretPadding_eq (h : (indentOf line).length < p.column) :
    caretPadding p line = p.column - (indentOf line).length :=
  Nat.max_eq_left (Nat.le_sub_of_add_le (Nat.add_comm _ _ ▸ h))

-- The caret comes after as many characters as the one at the column, where that is one of those that are shown.
theorem length_paddingOf (h : (indentOf line).length < p.column) :
    (paddingOf p line).length = (gutterOf p).length + (p.column - 1 - (indentOf line).length) := by
  simp only [paddingOf, gutterOf, caretPadding_eq h, List.length_append, List.length_replicate, List.length_cons,
    List.length_nil, String.length_toList]
  omega

theorem caret_not_mem_paddingOf : '^' ∉ paddingOf p line := by
  simp [paddingOf]

-- The rendering ends in the line and in the caret below it, at the column.
structure Points (d : Diagnostic) (file line : String) (source padding : List Char) : Prop where
  lines  : ∃ above, d.rendering file = above ++ [.ofList source, .ofList (padding ++ ['^'])]
  only   : '^' ∉ padding
  -- The column is not in the indent, and no further on than right behind the line with the blanks at its end.
  indent : (indentOf line).length < d.position.column
  last   : d.position.column ≤ line.toList.length + 1
  width  : caretPadding d.position line = d.position.column - (indentOf line).length
  -- The caret comes after what stands before the line, and as many characters as come after the indent.
  offset : padding.length = (gutterOf d.position).length + (d.position.column - 1 - (indentOf line).length)
  shown  : d.position.column ≤ (withoutBlankEnd line).toList.length →
    source[padding.length]? = line.toList[d.position.column - 1]?
  behind : (withoutBlankEnd line).toList.length < d.position.column → source.length ≤ padding.length

variable {d : Diagnostic}

theorem points (hline : d.lineText = some line) (hindent : (indentOf line).length < d.position.column)
    (hlast : d.position.column ≤ line.toList.length + 1) (file : String) :
    d.Points file line (gutterOf d.position ++ shownOf line) (paddingOf d.position line) where
  lines  := by
    refine ⟨[d.heading, "-> " ++ file, padLeft ((toString d.position.line).length + 2) ' ' "|"], ?_⟩
    rw [rendering, hline, Option.map_some, Option.getD_some, excerpt_eq]
    rfl
  only   := caret_not_mem_paddingOf
  indent := hindent
  last   := hlast
  width  := caretPadding_eq hindent
  offset := length_paddingOf hindent
  shown  := by
    intro hle
    rw [length_paddingOf hindent, List.getElem?_append_right (Nat.le_add_right _ _), Nat.add_sub_cancel_left]
    exact (getElem?_shownOf hindent).1 hle
  behind := by
    intro hlt
    rw [length_paddingOf hindent, List.length_append]
    exact Nat.add_le_add_left ((getElem?_shownOf hindent).2 hlt) _

end Rendering

end Diagnostic

namespace Lexical

open Diagnostic

section Columns

variable {s : Source}

theorem isBlank_of_isVisible {c : Char} (h : IsVisible c) : Text.isBlank c = false := by
  obtain ⟨hfirst, hlast⟩ := h
  simp only [Text.isBlank, Bool.or_eq_false_iff, Bool.and_eq_false_iff, decide_eq_false_iff_not, beq_eq_false_iff_ne]
  omega

-- The column is behind the indent of the line, and no further on than right behind its last character.
structure InReach (line : String) (column : Nat) : Prop where
  indent : (indentOf line).length < column
  last   : column ≤ line.toList.length + 1

theorem length_indentOf_le {line : String} (h : line.toList[i]? = some c) (hc : c ≠ ' ' ∧ c ≠ '\t') :
    (indentOf line).length ≤ i := by
  by_contra hlt
  rw [← indentOf_append line, List.getElem?_append_left (Nat.lt_of_not_le hlt)] at h
  have hindent := List.mem_takeWhile_imp (List.mem_of_getElem? h)
  simp [hc] at hindent

-- Where a byte has a line, the line has the byte's character.
theorem getElem?_line (hs : s.Indexed) (hascii : ∀ b ∈ s.bytes, b.toNat < 0x80)
    (hin : InLine s.bytes offset before rest) :
    (s.lines.get (placeAt s.bytes offset).line).toList[before.length]? = s.chars[offset]? := by
  obtain ⟨hline, -⟩ := toList_of_mem_lines hs hascii hin.line
  have hrest := head?_of_head?_splitAfter hin.rest
  have hchar : (before ++ rest)[before.length]? = s.bytes[offset]? := by
    rw [List.getElem?_append_right (Nat.le_refl _), Nat.sub_self, ← List.head?_eq_getElem?, hrest, List.head?_drop]
  rw [placeAt, hline, latin1, List.getElem?_map, hchar, ← List.getElem?_map]
  rfl

theorem Beside.inReach (h : Beside s p offset) (hs : s.Indexed) (hascii : ∀ b ∈ s.bytes, b.toNat < 0x80) :
    InReach (s.lines.get p.line) p.column := by
  obtain ⟨before, rest, hin⟩ := exists_inLine h.inside
  obtain ⟨c, hc, hblank⟩ := h.byte
  rw [← getElem?_line hs hascii hin, ← h.line_eq] at hc
  obtain ⟨hlength, -⟩ := List.getElem?_eq_some_iff.mp hc
  have hindent : (indentOf (s.lines.get p.line)).length ≤ before.length := by
    refine length_indentOf_le hc ⟨?_, ?_⟩
    all_goals
      rintro rfl
      cases hblank
  have hcolumn : p.column = before.length + 1 ∨ p.column = before.length + 1 + 1 :=
    h.place.imp (fun hp => (congrArg Position.column hp).trans hin.column) fun hp => by
      rw [hp, Position.shift, hin.column]
  exact ⟨by omega, by omega⟩

-- The end of a line is not in the indent.
theorem length_indentOf_le_withoutLineEnd (line : String) :
    (indentOf line).length ≤ (withoutLineEnd line).toList.length ∧
      (withoutLineEnd line).toList.length ≤ line.toList.length := by
  obtain ⟨dropped, happend, hdropped⟩ := exists_dropEndWhile_append (fun c => c == '\r' || c == '\n') line.toList
  have hlength := congrArg List.length happend
  have hindent : (indentOf line).length ≤ line.toList.length := (List.takeWhile_sublist _).length_le
  rw [List.length_append] at hlength
  rw [withoutLineEnd, String.toList_ofList]
  generalize dropEndWhile (fun c => c == '\r' || c == '\n') line.toList = kept at happend hlength
  refine ⟨?_, by omega⟩
  cases dropped
  case nil =>
    rw [List.length_nil, Nat.add_zero] at hlength
    exact hlength ▸ hindent
  case cons c dropped =>
    have hc : line.toList[kept.length]? = some c := by simp [← happend]
    refine length_indentOf_le hc ⟨?_, ?_⟩
    all_goals
      rintro rfl
      exact absurd (hdropped _ List.mem_cons_self) (by decide)

theorem inReach_endPosition (hs : s.Indexed) (hascii : ∀ b ∈ s.bytes, b.toNat < 0x80) :
    let p := Token.endPosition s.lines (placeAt s.bytes s.bytes.length)
    InReach (s.lines.get p.line) p.column := by
  obtain ⟨whole, line, hbytes, hwhole, hline⟩ := exists_ended_append (· == 0x0A) s.bytes
  by_cases hne : line = []
  case neg =>
    obtain ⟨-, hend, hplace⟩ := hs.endPosition_of_not_ended hbytes hwhole hline hne
    have hpiece : (splitAfter (· == 0x0A) s.bytes)[s.bytes.count 0x0A]? = some line := by
      have hcount : s.bytes.count 0x0A = (splitAfter (· == 0x0A) whole).length := by
        rw [hbytes, List.count_append, count_eq_zero_of_forall hline, length_splitAfter_of_ended hwhole, Nat.add_zero]
      rw [hcount, hbytes, splitAfter_append_line hwhole hline hne]
      simp
    obtain ⟨hlast, -⟩ := toList_of_mem_lines hs hascii hpiece
    have hlength := congrArg List.length hlast
    have hindent : (indentOf (s.lines.get (1 + s.bytes.count 0x0A))).length ≤ _ := (List.takeWhile_sublist _).length_le
    rw [length_latin1] at hlength
    rw [hend, hplace]
    exact ⟨by dsimp only; omega, by dsimp only; omega⟩
  case pos =>
    rw [hne, List.append_nil] at hbytes
    have hended : Ended (· == 0x0A) s.bytes := hbytes ▸ hwhole
    by_cases hempty : s.bytes = []
    case pos =>
      have hlines : s.lines = .ofBytes [] := hempty ▸ hs
      rw [hlines, hempty]
      exact ⟨by decide, by decide⟩
    case neg =>
      obtain ⟨-, hend⟩ := hs.endPosition_of_ended hended hempty
      obtain ⟨hindent, hlast⟩ := length_indentOf_le_withoutLineEnd (s.lines.get (s.bytes.count 0x0A))
      have hsize : (withoutLineEnd (s.lines.get (s.bytes.count 0x0A))).utf8ByteSize =
          (withoutLineEnd (s.lines.get (s.bytes.count 0x0A))).toList.length := by
        refine utf8ByteSize_of_ascii fun c hc => toNat_le_of_mem_line hs hascii (s.bytes.count 0x0A) c ?_
        obtain ⟨dropped, happend, -⟩ :=
          exists_dropEndWhile_append (fun c => c == '\r' || c == '\n') (s.lines.get (s.bytes.count 0x0A)).toList
        rw [withoutLineEnd, String.toList_ofList] at hc
        exact happend ▸ List.mem_append_left _ hc
      rw [hend, hsize]
      exact ⟨by dsimp only; omega, by dsimp only; omega⟩

-- The character of a token's line at the token's column is the first of the token.
theorem BeginsAt.exists_char_of_line {t : Token} (h : BeginsAt s t offset) (hs : s.Indexed)
    (hascii : ∀ b ∈ s.bytes, b.toNat < 0x80) :
    ∃ c, t.mark.toList.head? = some c ∧ IsVisible c ∧
      (s.lines.get t.position.line).toList[t.position.column - 1]? = some c := by
  obtain ⟨before, rest, hin⟩ := exists_inLine h.inside
  obtain ⟨c, hmark, hvisible, hc⟩ := h.exists_char
  refine ⟨c, hmark, hvisible, ?_⟩
  rw [h.position, hin.column, Nat.add_sub_cancel, getElem?_line hs hascii hin, hc]

theorem inReach_of_mem_ahead {stream : Stream} {t : Token} (hs : s.Indexed) (hascii : ∀ b ∈ s.bytes, b.toNat < 0x80)
    (h : s.tokens = .ok stream) (ht : t ∈ stream.ahead) :
    InReach (s.lines.get t.position.line) t.position.column := by
  obtain ⟨offset, ht⟩ | rfl := beginsAt_or_eq_eofOf h ht
  case inl => exact ht.beside.inReach hs hascii
  case inr => exact inReach_endPosition hs hascii

theorem exists_char_of_mem_ahead {stream : Stream} {t : Token} (hs : s.Indexed) (hascii : ∀ b ∈ s.bytes, b.toNat < 0x80)
    (h : s.tokens = .ok stream) (ht : t ∈ stream.ahead) (hkind : t.kind ≠ .eof) :
    ∃ c, t.mark.toList.head? = some c ∧ IsVisible c ∧
      (s.lines.get t.position.line).toList[t.position.column - 1]? = some c := by
  obtain ⟨offset, ht⟩ := exists_beginsAt_of_kind_ne_eof h ht hkind
  exact ht.exists_char_of_line hs hascii

end Columns

end Lexical

namespace Source

open Diagnostic Lexical

variable {s : Source} {d : Diagnostic}

-- Where a source of ASCII bytes cannot be read, the caret stands at the column of the fault: below the character there
-- if it is shown, and behind the line otherwise. The end of the line is that of the source line before the blanks there
-- are removed for the rendering, so such blanks put the caret further behind what is shown of the line. Of a fault at a
-- token the character is the token's first. Only the width of a padding sets a limit: there is no rendering with a
-- caret further to the right.
theorem caret_at_column (hs : s.Indexed) (hascii : ∀ b ∈ s.bytes, b.toNat < 0x80) (h : s.parse = .error d)
    (file : String) :
    ∃ line source padding, d.lineText = some line ∧ line = s.lines.get d.position.line ∧
      d.Points file line source padding ∧
      (d.render? file =
        if d.position.column - (indentOf line).length ≤ maxPadding then
          some (String.join ((d.rendering file).map (· ++ "\n")))
        else none) ∧
      ∀ stream, s.tokens = .ok stream → ∃ v ∈ stream.ahead, d.position = v.position ∧
        (v.kind ≠ .eof → source[padding.length]? = v.mark.toList.head?) := by
  obtain ⟨hline, hplace⟩ := exists_place_of_parse h
  have hreach : InReach (s.lines.get d.position.line) d.position.column := by
    obtain ⟨-, offset, hbeside⟩ | ⟨stream, hstream, t, ht, hposition⟩ := hplace
    case inl => exact hbeside.inReach hs hascii
    case inr => exact hposition ▸ inReach_of_mem_ahead hs hascii hstream ht
  have hpoints := points hline hreach.indent hreach.last file
  refine ⟨_, _, _, hline, rfl, hpoints, ?render, fun stream hstream => ?token⟩
  case render =>
    rw [← hpoints.width, render?, fits, hline, Option.all_some]
    exact if_congr decide_eq_true_iff rfl rfl
  case token =>
    obtain ⟨hfault, -⟩ | ⟨stream', hstream', t, ht, hposition⟩ := hplace
    case inl => cases hfault.symm.trans hstream
    case inr =>
      obtain rfl := Except.ok.inj (hstream'.symm.trans hstream)
      refine ⟨t, ht, hposition, fun hkind => ?_⟩
      obtain ⟨c, hmark, hvisible, hc⟩ := exists_char_of_mem_ahead hs hascii hstream ht hkind
      rw [← hposition] at hc
      rw [hmark, ← hc]
      refine hpoints.shown ?_
      have := lt_length_withoutBlankEnd hc (isBlank_of_isVisible hvisible)
      omega

-- Two blanks, a number where a declaration should be, and the end of the line.
def indentedNumber : Source :=
  ofText "  1\n"

theorem caret_at_column_indentedNumber :
    indentedNumber.Indexed ∧ (∀ b ∈ indentedNumber.bytes, b.toNat < 0x80) ∧
      ∃ d source padding, indentedNumber.parse = .error d ∧
        d.Points "main.bas" (indentedNumber.lines.get d.position.line) source padding := by
  have hs : indentedNumber.Indexed := indexed_ofText _
  have hascii : ∀ b ∈ indentedNumber.bytes, b.toNat < 0x80 := by
    have hall : indentedNumber.bytes.all (·.toNat < 0x80) = true := by decide
    simpa using hall
  have hparse : indentedNumber.parse.toOption.isSome = false := by decide +kernel
  refine ⟨hs, hascii, ?_⟩
  cases hd : indentedNumber.parse
  case ok => simp [hd, Except.toOption] at hparse
  case error d =>
    obtain ⟨line, source, padding, -, rfl, hpoints, -⟩ := caret_at_column hs hascii hd "main.bas"
    exact ⟨d, source, padding, rfl, hpoints⟩

-- A character that begins nothing, behind a semicolon and `n` blanks.
def farCharacter (n : Nat) : List UInt8 :=
  0x3B :: List.replicate n 0x20 ++ [0x40]

theorem tokens_farCharacter (path : String) (n : Nat) :
    (ofBytes path (farCharacter n)).tokens = .error (Token.faultAt (.ofBytes (farCharacter n))
      (placeAt (farCharacter n) (n + 1)) (.unknownCharacter '@')) := by
  obtain ⟨blanks, htext, hwords, hblanks⟩ :=
    (Filler.blanks fun c hc => .inl (List.eq_of_mem_replicate hc) : Filler (List.replicate n ' ')).exists_row
  let semicolon : Piece := ⟨.lexeme (.symbol .semicolon) [';'], [';']⟩
  have hrow : Row (semicolon :: blanks) ['@'] := by
    refine .cons (.of_symbol .semicolon fun c hc s => ?_) (hblanks _)
    have hc : c = ' ' ∨ c = '@' := by
      rw [htext] at hc
      cases n
      case zero => exact .inr (Option.some.inj hc).symm
      case succ => exact .inl (Option.some.inj hc).symm
    obtain rfl | rfl := hc
    all_goals cases s <;> decide
  have hfit : ∀ p ∈ semicolon :: blanks, p.Fits := by
    refine List.forall_mem_cons.mpr ⟨?_, fun p hp => fits_of_word?_eq_none (hwords p hp)⟩
    rintro kind value ⟨⟩
    decide
  have htextOf : textOf (semicolon :: blanks) = ';' :: List.replicate n ' ' := congrArg (';' :: ·) htext
  have hchars : (ofBytes path (farCharacter n)).chars = textOf (semicolon :: blanks) ++ ['@'] := by
    rw [htextOf, chars, ofBytes, farCharacter, latin1, List.map_append, List.map_cons, List.map_replicate]
    rfl
  have hstuck : Stuck ['@'] (.unknownCharacter '@') 0 :=
    first_eq_error_iff.mp (show Segment.first '@' [] = .error ⟨.unknownCharacter '@', 0⟩ by decide)
  have hfault := tokens_of_blocked_row hrow hfit hchars (.stuck hstuck)
  rwa [htextOf, List.length_cons, List.length_replicate] at hfault

-- The caret cannot be shown as far to the right as a line may go.
theorem render?_farCharacter (path file : String) (n : Nat) :
    ∃ d, (ofBytes path (farCharacter n)).parse = .error d ∧ d.position = ⟨1, n + 2⟩ ∧
      (d.render? file = none ↔ maxPadding < n + 2) := by
  have hbytes : ∀ b ∈ farCharacter n, b = 0x3B ∨ b = 0x20 ∨ b = 0x40 := by
    intro b hb
    rw [farCharacter, List.cons_append, List.mem_cons, List.mem_append, List.mem_singleton] at hb
    exact hb.imp_right (.imp_left List.eq_of_mem_replicate)
  have hline : ∀ b ∈ farCharacter n, (b == 0x0A) = false := by
    intro b hb
    obtain rfl | rfl | rfl := hbytes b hb <;> rfl
  have hplace : placeAt (farCharacter n) (n + 1) = ⟨1, n + 2⟩ := by
    have hnone : Ended (· == 0x0A) ([] : List UInt8) := by simp [Ended]
    have hplace := placeAt_append hnone (List.forall_mem_append.mp hline).1 [0x40]
    rw [List.nil_append, List.length_cons, List.length_replicate] at hplace
    rw [farCharacter, hplace, Nat.add_comm 1 (n + 1)]
    rfl
  have hpadding : caretPadding ⟨1, n + 2⟩ ((Lines.ofBytes (farCharacter n)).get 1) = n + 2 := by
    have hpiece : (splitAfter (· == 0x0A) (farCharacter n))[0]? = some (farCharacter n) := by
      rw [splitAfter_of_forall hline (List.cons_ne_nil _ _)]
      rfl
    have hascii : ∀ b ∈ farCharacter n, b.toNat < 0x80 := by
      intro b hb
      obtain rfl | rfl | rfl := hbytes b hb <;> decide
    obtain ⟨htext, -⟩ := toList_of_mem_lines (indexed_ofBytes path (farCharacter n)) hascii hpiece
    have hindent : indentOf ((Lines.ofBytes (farCharacter n)).get 1) = [] := by
      rw [indentOf, show ((Lines.ofBytes (farCharacter n)).get 1).toList = _ from htext]
      rfl
    rw [caretPadding_eq (by rw [hindent]; exact Nat.succ_pos _), hindent]
    rfl
  refine ⟨_, by rw [parse, tokens_farCharacter]; rfl, hplace, ?_⟩
  rw [render?_eq_none_iff, hplace]
  refine ⟨?_, fun hwide => ⟨_, rfl, hpadding.symm ▸ hwide⟩⟩
  rintro ⟨lineText, ⟨⟩, hwide⟩
  exact hpadding ▸ hwide

theorem no_caret_farCharacter :
    ∃ d, (ofBytes "main.bas" (farCharacter 65534)).parse = .error d ∧ d.position = ⟨1, 65536⟩ ∧
      d.render? "main.bas" = none := by
  obtain ⟨d, hparse, hposition, hnone⟩ := render?_farCharacter "main.bas" "main.bas" 65534
  exact ⟨d, hparse, hposition, hnone.mpr (by decide)⟩

end Source

end BasicFrontEnd
