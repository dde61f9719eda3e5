import BasicFrontEnd.Token.Cursor.Basic
import BasicFrontEnd.Token.Lexer

/-!
Segments, read character by character. Where a lexeme ends shows only when the character behind it has been read; this
one is then stepped back over. What is read is what stands at the front of the characters ahead, as `Segment.first`
has it. Main statement: `agrees_segment`.
-/

namespace BasicFrontEnd

-- The second character of a symbol that begins with `c` and has two.
def Symbol.second? : Char → Option Char
  | ':' | '=' | '<' | '>' | '!' => some '='
  | '-' => some '>'
  | _   => none

namespace Symbol

variable {c d : Char}

theorem second?_of_ofChars? {s : Symbol} (h : ofChars? [c, d] = some s) : second? c = some d := by
  have hchars := chars_of_ofChars? h
  cases s <;> cases hchars <;> rfl

theorem longest?_of_second? (h : second? c = some d) :
    ∃ s, ofChars? [c, d] = some s ∧ longest? c (some d) = some s := by
  have hsymbol : (ofChars? [c, d]).isSome = true := by
    unfold second? at h
    split at h <;> cases h <;> decide
  obtain ⟨s, hs⟩ := Option.isSome_iff_exists.mp hsymbol
  exact ⟨s, hs, by simp [longest?, hs]⟩

-- What is not the second character of a symbol leaves the symbol that `c` is alone.
theorem longest?_of_ne {next? : Option Char} (h : ∀ d, next? = some d → second? c ≠ some d) :
    longest? c next? = ofChars? [c] := by
  cases next?
  case none => rfl
  case some d =>
    have hnone : ofChars? [c, d] = none :=
      Option.eq_none_iff_forall_ne_some.mpr fun s hs => h d rfl (second?_of_ofChars? hs)
    simp [longest?, hnone]

end Symbol

namespace Cursor

open Segment (isBlank isWordStart isWordPart unescape? stringBody? commentLength)

-- Reads what is left of a line, and the line feed that ends it.
def skipLine (k : Cursor) : Cursor :=
  match _h : k.get with
  | (none, k')   => k'
  | (some c, k') => if c = '\n' then k' else k'.skipLine
termination_by k.ahead.length
decreasing_by exact (passes_get ‹_›).length_lt

-- Reads the rest of a string up to its closing quote, if there is one. A backslash that escapes nothing stands for
-- itself: what has been read behind it is to be read again.
def string? (k : Cursor) : Option (List Char × Cursor) :=
  match _h : k.get with
  | (none, _)    => none
  | (some c, k') =>
    if c = '"' then some ([], k')
    else if c = '\\' then
      match h' : k'.get with
      | (none, k'')   => k''.string?.map (Prod.map ('\\' :: ·) id)
      | (some d, k'') =>
        match unescape? d with
        | some e => k''.string?.map (Prod.map (e :: ·) id)
        | none   => (undo h').string?.map (Prod.map ('\\' :: ·) id)
    else k'.string?.map (Prod.map (c :: ·) id)
termination_by k.ahead.length
decreasing_by
  · obtain ⟨-, rfl⟩ := get_eq_none h'
    exact (passes_get ‹_›).length_lt
  · exact Nat.lt_trans (passes_get h').length_lt (passes_get ‹_›).length_lt
  · exact Nat.lt_of_le_of_lt (passes_undo h').length_le (passes_get ‹_›).length_lt
  · exact (passes_get ‹_›).length_lt

-- Reads a word.
def word (k : Cursor) : Segment × Cursor :=
  let (cs, k') := k.takeWhile isWordPart
  let kind := match Keyword.ofSpelling? (String.ofList cs) with
    | some w => .keyword w
    | none   => .identifier
  (.lexeme kind cs, k')

-- Reads a number. Behind a point there have to be digits.
def number (lines : Lines) (k : Cursor) : Except Diagnostic (Segment × Cursor) :=
  let (whole, k₁) := k.takeWhile Char.isDigit
  match k₁.takeIf '.' with
  | (false, k₂) => .ok (.lexeme .integer whole, k₂)
  | (true, k₂)  =>
    match k₂.ahead.head? with
    | none   => .error (Token.faultAt lines k₁.position (.unknownCharacter '.'))
    | some d =>
      if d.isDigit then
        let (fraction, k₃) := k₂.takeWhile Char.isDigit
        .ok (.lexeme .float (whole ++ '.' :: fraction), k₃)
      else .error (Token.faultAt lines k₂.position (.unknownCharacter d))

-- Reads the rest of the symbol that `c` begins, if there is one.
def symbol? (k : Cursor) (c : Char) : Option (Symbol × Cursor) :=
  match Symbol.second? c with
  | none   => (Symbol.ofChars? [c]).map (·, k)
  | some d =>
    let (found, k') := k.takeIf d
    (Symbol.ofChars? (if found then [c, d] else [c])).map (·, k')

-- Reads the segment that begins with the character that has just been read.
def segment {k k' : Cursor} {c : Char} (lines : Lines) (h : k.get = (some c, k')) :
    Except Diagnostic (Segment × Cursor) :=
  if isBlank c then .ok (.blank, k')
  else if c = '\'' then .ok (.comment, k'.skipLine)
  else if c = '"' then
    match k'.string? with
    | some (value, k'') => .ok (.lexeme .string value, k'')
    | none              => .error (Token.faultAt lines k.position .unterminatedString)
  else if isWordStart c then .ok (undo h).word
  else if c.isDigit then (undo h).number lines
  else
    match k'.symbol? c with
    | some (s, k'') => .ok (.lexeme (.symbol s) s.chars, k'')
    | none          => .error (Token.faultAt lines k.position (.unknownCharacter c))

section Bodies

variable {k k' : Cursor} {c : Char} {cs : List Char}

theorem commentLength_cons (h : c ≠ '\n') (cs : List Char) : commentLength (c :: cs) = commentLength cs + 1 := by
  have hc : (c != '\n') = true := by simpa using h
  simp only [commentLength, List.takeWhile_cons, hc, if_true, List.length_cons, Nat.add_lt_add_iff_right]
  split <;> rfl

theorem exists_passes_skipLine (k : Cursor) : ∃ cs, k.Passes cs k.skipLine ∧ cs.length = commentLength k.ahead := by
  unfold skipLine
  split
  case h_1 k' h =>
    obtain ⟨hnil, hsame⟩ := get_eq_none h
    rw [hsame, hnil]
    exact ⟨[], .refl k, rfl⟩
  case h_2 c k' h =>
    have hfirst := passes_get h
    rw [hfirst.ahead, List.singleton_append]
    split
    case isTrue hc => exact ⟨[c], hfirst, by simp [hc, commentLength]⟩
    case isFalse hc =>
      obtain ⟨cs, hcs, hlength⟩ := exists_passes_skipLine k'
      exact ⟨c :: cs, hfirst.trans hcs, by rw [commentLength_cons hc, List.length_cons, hlength]⟩
termination_by k.ahead.length
decreasing_by exact hfirst.length_lt

-- The value has been read, and as many characters have been passed.
def Took (k : Cursor) (expected : α × Nat) (read : α × Cursor) : Prop :=
  read.1 = expected.1 ∧ ∃ cs, k.Passes cs read.2 ∧ cs.length = expected.2

theorem Passes.took_cons {expected : Option (List Char × Nat)} {read : Option (List Char × Cursor)}
    (h : k.Passes cs k') (d : Char) (hrel : Option.Rel k'.Took expected read) :
    Option.Rel k.Took (expected.map fun e => (d :: e.1, e.2 + cs.length)) (read.map (Prod.map (d :: ·) id)) := by
  cases hrel
  case none => exact .none
  case some expected read hread =>
    obtain ⟨hvalue, ds, hds, hlength⟩ := hread
    exact .some ⟨congrArg (d :: ·) hvalue, cs ++ ds, h.trans hds, by simp [hlength, Nat.add_comm]⟩

-- What is read of a string is its body.
theorem string?_rel (k : Cursor) : Option.Rel k.Took (stringBody? k.ahead) k.string? := by
  unfold string?
  split
  case h_1 h =>
    rw [(get_eq_none h).1]
    exact .none
  case h_2 c k' h =>
    have hfirst := passes_get h
    have hlt := hfirst.length_lt
    rw [hfirst.ahead, List.singleton_append]
    split
    case isTrue hc =>
      subst hc
      exact .some ⟨rfl, _, hfirst, rfl⟩
    case isFalse hquote =>
      split
      case isFalse hbackslash =>
        have hbody : stringBody? (c :: k'.ahead) = (stringBody? k'.ahead).map fun e => (c :: e.1, e.2 + 1) := by
          simp [stringBody?, hbackslash]
        rw [hbody]
        exact hfirst.took_cons c (string?_rel k')
      case isTrue hc =>
        subst hc
        split
        case h_1 k'' h' =>
          obtain ⟨hnil, rfl⟩ := get_eq_none h'
          have hrel := string?_rel k''
          rw [hnil] at hrel ⊢
          exact hfirst.took_cons '\\' hrel
        case h_2 d k'' h' =>
          have hsecond := passes_get h'
          have hlt' := hsecond.length_lt
          rw [hsecond.ahead, List.singleton_append, stringBody?]
          cases he : unescape? d
          case some e => exact (hfirst.trans hsecond).took_cons e (string?_rel k'')
          case none =>
            have hback := passes_undo h'
            have hle := hback.length_le
            have hahead : (undo h').ahead = d :: k''.ahead := hback.ahead.symm.trans hsecond.ahead
            have hrel := string?_rel (undo h')
            rw [hahead] at hrel
            exact (hfirst.trans hback).took_cons '\\' hrel
termination_by k.ahead.length
decreasing_by all_goals omega

-- What is read of a symbol is the rest of the longest one.
theorem symbol?_rel (k : Cursor) (c : Char) :
    Option.Rel k.Took ((Symbol.longest? c k.ahead.head?).map fun s => (s, s.chars.length - 1)) (k.symbol? c) := by
  have halone {k' : Cursor} (hpasses : k.Passes [] k')
      (hne : ∀ d, k.ahead.head? = some d → Symbol.second? c ≠ some d) :
      Option.Rel k.Took ((Symbol.longest? c k.ahead.head?).map fun s => (s, s.chars.length - 1))
        ((Symbol.ofChars? [c]).map (·, k')) := by
    rw [Symbol.longest?_of_ne hne]
    cases hsymbol : Symbol.ofChars? [c]
    case none => exact .none
    case some s => exact .some ⟨rfl, _, hpasses, by simp [Symbol.chars_of_ofChars? hsymbol]⟩
  unfold symbol?
  split
  case h_1 hnone => exact halone (.refl k) (by simp [hnone])
  case h_2 d hsecond =>
    obtain ⟨k', hread, hpasses⟩ | ⟨⟨k', hread, hpasses⟩, hhead⟩ := takeIf_cases k d
    case inl =>
      obtain ⟨s, hsymbol, hlongest⟩ := Symbol.longest?_of_second? hsecond
      have hhead : k.ahead.head? = some d := by simp [hpasses.ahead]
      rw [hhead, hlongest, hread]
      simp only [if_true, hsymbol]
      exact .some ⟨rfl, _, hpasses, by simp [Symbol.chars_of_ofChars? hsymbol]⟩
    case inr =>
      rw [hread]
      refine halone hpasses fun e he hsecond' => hhead ?_
      rw [he, ← hsecond, hsecond']

end Bodies

/-- What a cursor reads of a segment, against what stands ahead of it: the segment, with its characters passed, or the
fault at its place. -/
inductive Agrees (lines : Lines) (k : Cursor) : Segment.Result → Except Diagnostic (Segment × Cursor) → Prop
  | segment : k.Passes cs k' → cs.length = n + 1 → Agrees lines k (.ok (s, n)) (.ok (s, k'))
  | fault (f : Segment.Fault) :
    Agrees lines k (.error f) (.error (Token.faultAt lines (k.position.shift f.offset) f.cause))

section Segments

variable {k k' k'' : Cursor} {c : Char} {cs : List Char} {lines : Lines} {expected : Segment.Result}
  {read : Except Diagnostic (Segment × Cursor)}

-- It makes no difference to have read a character and stepped back over it.
theorem Agrees.of_undo (h : k.get = (some c, k')) (hagrees : Agrees lines (undo h) expected read) :
    Agrees lines k expected read := by
  have hback := passes_undo h
  cases hagrees
  case segment hcs hlength => exact .segment (hback.trans hcs) hlength
  case fault f =>
    rw [show (undo h).position = k.position from hback.position]
    exact .fault f

theorem ahead_undo (h : k.get = (some c, k')) : (undo h).ahead = c :: k'.ahead :=
  (passes_undo h).ahead.symm.trans (passes_get h).ahead

theorem Passes.agrees_fault (h : k.Passes cs k') (hline : '\n' ∉ cs) (cause : Cause) :
    Agrees lines k (.error ⟨cause, cs.length⟩) (.error (Token.faultAt lines k'.position cause)) := by
  rw [h.position, Position.advance_eq_shift hline]
  exact .fault ⟨cause, cs.length⟩

theorem agrees_word (hahead : k.ahead = c :: cs) (hc : isWordPart c = true) :
    Agrees lines k (Segment.word c cs) (.ok k.word) := by
  obtain ⟨k', hword, hpasses, -⟩ := takeWhile_of_ahead hahead hc
  rw [word, hword]
  exact .segment hpasses rfl

theorem agrees_number (hahead : k.ahead = c :: cs) (hc : c.isDigit = true) :
    Agrees lines k (Segment.number c cs) (k.number lines) := by
  obtain ⟨k₁, hwhole, hpasses, hrest⟩ := takeWhile_of_ahead hahead hc
  have hline : '\n' ∉ c :: cs.takeWhile Char.isDigit := by
    have hdigits : (c :: cs.takeWhile Char.isDigit).all Char.isDigit = true := by simp [hc]
    exact fun hmem => absurd (List.all_eq_true.mp hdigits _ hmem) (by decide)
  unfold number Segment.number
  simp only [hwhole, ← hrest]
  obtain ⟨k₂, hpoint, hpasses'⟩ | ⟨⟨k₂, hpoint, hpasses'⟩, hhead⟩ := takeIf_cases k₁ '.'
  case inr =>
    simp only [hpoint]
    split
    case h_1 hahead => simp [hahead] at hhead
    case h_2 hahead => simp [hahead] at hhead
    case h_3 => exact .segment (hpasses.trans hpasses') (by simp)
  case inl =>
    have hboth := hpasses.trans hpasses'
    have hline' : '\n' ∉ c :: cs.takeWhile Char.isDigit ++ ['.'] := by simpa using hline
    rw [hpasses'.ahead, List.singleton_append]
    simp only [hpoint]
    cases hfraction : k₂.ahead
    case nil => exact hpasses.agrees_fault hline _
    case cons d rest =>
      simp only [List.head?_cons]
      split
      case isTrue hd =>
        obtain ⟨k₃, hread, hpasses'', -⟩ := takeWhile_of_ahead hfraction hd
        rw [hread]
        refine .segment (hboth.trans hpasses'') ?_
        simp only [List.length_append, List.length_cons, List.length_nil]
        omega
      case isFalse hd =>
        have hoffset : (c :: cs.takeWhile Char.isDigit ++ ['.']).length = (cs.takeWhile Char.isDigit).length + 2 := by
          simp
        exact hoffset ▸ hboth.agrees_fault hline' _

-- What is read of a segment is what stands there, and a fault shows at the same place.
theorem agrees_segment (lines : Lines) (h : k.get = (some c, k')) :
    Agrees lines k (Segment.first c k'.ahead) (segment lines h) := by
  have hfirst := passes_get h
  have hahead := ahead_undo h
  unfold Segment.first segment
  split
  case isTrue => exact .segment hfirst rfl
  split
  case isTrue =>
    obtain ⟨cs, hcs, hlength⟩ := exists_passes_skipLine k'
    exact .segment (hfirst.trans hcs) (by simp [hlength])
  split
  case isTrue =>
    have hrel := string?_rel k'
    unfold Segment.string
    generalize stringBody? k'.ahead = expected, k'.string? = read at hrel ⊢
    cases hrel
    case none => exact .fault _
    case some expected read hread =>
      obtain ⟨value, n⟩ := expected
      obtain ⟨value', k''⟩ := read
      obtain ⟨rfl, cs, hcs, hlength⟩ := hread
      exact .segment (hfirst.trans hcs) (by simp [hlength])
  split
  case isTrue hword =>
    have hpart : isWordPart c = true := by
      simp only [isWordStart, isWordPart, Bool.or_eq_true] at hword ⊢
      exact hword.imp_left .inl
    exact .of_undo h (agrees_word hahead hpart)
  split
  case isTrue hdigit => exact .of_undo h (agrees_number hahead hdigit)
  case isFalse =>
    have hrel := symbol?_rel k' c
    unfold Segment.symbol
    generalize Symbol.longest? c k'.ahead.head? = expected, k'.symbol? c = read at hrel ⊢
    cases expected <;> cases hrel
    case none => exact .fault _
    case some s read hread =>
      obtain ⟨s', k''⟩ := read
      obtain ⟨rfl, cs, hcs, hlength⟩ := hread
      exact .segment (hfirst.trans hcs) (by simp [hlength])

theorem exists_of_segment_eq_ok {s : Segment} (h : k.get = (some c, k')) (hs : segment lines h = .ok (s, k'')) :
    ∃ n, Segment.first c k'.ahead = .ok (s, n) ∧ k.Passes (c :: k'.ahead.take n) k'' ∧
      k''.ahead = k'.ahead.drop n := by
  have hagrees := agrees_segment lines h
  rw [hs] at hagrees
  generalize Segment.first c k'.ahead = expected at hagrees ⊢
  cases hagrees
  case segment cs n hlength hcs =>
    have hsplit : c :: k'.ahead = cs ++ k''.ahead := (passes_get h).ahead.symm.trans hcs.ahead
    obtain ⟨rfl, -⟩ | ⟨ds, rfl, (hahead : k'.ahead = ds ++ k''.ahead)⟩ := List.cons_eq_append_iff.mp hsplit
    case inl => cases hlength
    case inr =>
      obtain rfl : ds.length = n := Nat.succ.inj hlength
      exact ⟨_, rfl, by simpa [hahead] using hcs, by simp [hahead]⟩

theorem exists_of_segment_eq_error {d : Diagnostic} (h : k.get = (some c, k')) (hs : segment lines h = .error d) :
    ∃ f, Segment.first c k'.ahead = .error f ∧ d = Token.faultAt lines (k.position.shift f.offset) f.cause := by
  have hagrees := agrees_segment lines h
  rw [hs] at hagrees
  generalize Segment.first c k'.ahead = expected at hagrees ⊢
  cases hagrees
  case fault f => exact ⟨f, rfl, rfl⟩

end Segments

end Cursor
end BasicFrontEnd
