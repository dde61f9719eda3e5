import BasicFrontEnd.Proofs.Source.Index
import BasicFrontEnd.Proofs.Source.Restarts

/-!
How far lines and columns are counted. Whatever steps a cursor takes, none of its counters gets past the number of bytes
by more than one, and so it is with the places of tokens and faults. Only the end of a source can be further to the
right, behind a last line that is no text and takes up more bytes when it is read. So in a source of fewer than
`2 ^ 32 - 1` bytes the counters fit in 32 bits. Main statements: `Source.countersFit` and `Source.Exact.countersFit`.
-/

namespace BasicFrontEnd

open Text

namespace Position

-- Neither the line nor the column is greater than `n`.
structure Within (n : Nat) (p : Position) : Prop where
  line   : p.line ≤ n
  column : p.column ≤ n

variable {p : Position}

theorem Within.mono (h : p.Within m) (hle : m ≤ n) : p.Within n :=
  ⟨h.line.trans hle, h.column.trans hle⟩

end Position

namespace Cursor

variable {k k' : Cursor}

/-- The counters of a cursor over `n` characters. The column leaves room for what is left of the line, so that reading
on to its end takes the column no further than `n + 1`; that much the cursor may remember of a line feed, and return to
when it steps back. -/
structure CountsWithin (n : Nat) (k : Cursor) : Prop where
  size       : k.behind.length + k.ahead.length = n
  line       : k.line = 1 + k.behind.count '\n'
  column     : k.column + (k.ahead.takeWhile (· != '\n')).length ≤ n + 1
  lastColumn : k.lastColumn ≤ n + 1

theorem countsWithin_ofChars (cs : List Char) : (ofChars cs).CountsWithin cs.length where
  size       := Nat.zero_add _
  line       := rfl
  column     := by
    have hline : (cs.takeWhile (· != '\n')).length ≤ cs.length := (List.takeWhile_sublist _).length_le
    simp only [ofChars]
    omega
  lastColumn := Nat.le_add_left _ _

theorem CountsWithin.get (h : k.CountsWithin n) : k.get.2.CountsWithin n := by
  obtain ⟨behind, _ | ⟨c, cs⟩, line, column, lastColumn⟩ := k
  case nil => exact h
  case cons =>
    obtain ⟨hsize, hline, hcolumn, hlast⟩ := h
    dsimp only [List.length_cons] at hsize hline hcolumn hlast
    unfold Cursor.get
    dsimp only
    split
    case isTrue hc =>
      -- The line that begins here has no more characters than are left.
      have hnext : (cs.takeWhile (· != '\n')).length ≤ cs.length := (List.takeWhile_sublist _).length_le
      exact {
        size       := by simp only [List.length_cons]; omega
        line       := by simp only [hc, List.count_cons_self]; omega
        column     := by dsimp only; omega
        lastColumn := (Nat.le_add_right _ _).trans hcolumn }
    case isFalse hc =>
      rw [List.takeWhile_cons_of_pos (p := (· != '\n')) (bne_iff_ne.mpr hc), List.length_cons] at hcolumn
      exact {
        size       := by simp only [List.length_cons]; omega
        line       := by rw [List.count_cons_of_ne hc, hline]
        column     := by dsimp only; omega
        lastColumn := hlast }

theorem CountsWithin.unget? (h : k.CountsWithin n) (hk : k.unget? = some k') : k'.CountsWithin n := by
  obtain ⟨_ | ⟨c, cs⟩, ahead, line, column, lastColumn⟩ := k
  case nil => exact Option.some.inj hk ▸ h
  case cons =>
    obtain ⟨hsize, hline, hcolumn, hlast⟩ := h
    dsimp only [List.length_cons] at hsize hline hcolumn hlast
    unfold Cursor.unget? at hk
    dsimp only at hk
    split at hk
    case isTrue hc =>
      obtain rfl := Option.some.inj hk
      rw [hc, List.count_cons_self] at hline
      exact {
        size       := by simp only [List.length_cons]; omega
        line       := by dsimp only; omega
        column     := by simpa [hc] using hlast
        lastColumn := hlast }
    case isFalse hc =>
      split at hk
      case isTrue => cases hk
      case isFalse hzero =>
        obtain rfl := Option.some.inj hk
        exact {
          size       := by simp only [List.length_cons]; omega
          line       := by rwa [List.count_cons_of_ne hc] at hline
          column     := by
            simp only [List.takeWhile_cons_of_pos (p := (· != '\n')) (bne_iff_ne.mpr hc), List.length_cons]
            omega
          lastColumn := hlast }

theorem CountsWithin.step? (h : k.CountsWithin n) {step : Step} (hk : k.step? step = some k') : k'.CountsWithin n := by
  cases step
  case get => exact Option.some.inj hk ▸ h.get
  case unget => exact h.unget? hk

theorem CountsWithin.run? (h : k.CountsWithin n) {steps : List Step} (hk : k.run? steps = some k') :
    k'.CountsWithin n := by
  induction steps generalizing k
  case nil => exact Option.some.inj hk ▸ h
  case cons step steps ih =>
    rw [Cursor.run?, List.foldlM_cons] at hk
    obtain ⟨next, hnext, hrest⟩ := Option.bind_eq_some_iff.mp hk
    exact ih (h.step? hnext) hrest

theorem CountsWithin.counters_le (h : k.CountsWithin n) : k.position.Within (n + 1) ∧ k.lastColumn ≤ n + 1 := by
  have hcount : k.behind.count '\n' ≤ k.behind.length := List.count_le_length
  obtain ⟨hsize, hline, hcolumn, hlast⟩ := h
  exact ⟨⟨by simp only [position]; omega, by simp only [position]; omega⟩, hlast⟩

end Cursor

namespace Lexical

variable {s : Source} {t : Token} {d : Diagnostic}

section Places

theorem placeAt_within (bs : List UInt8) (offset : Nat) : (placeAt bs offset).Within (offset + 1) := by
  have htaken : (bs.take offset).length ≤ offset := List.length_take_le _ _
  have hlines : (bs.take offset).count 0x0A ≤ (bs.take offset).length := List.count_le_length
  have hcolumns : ((bs.take offset).reverse.takeWhile (· != 0x0A)).length ≤ (bs.take offset).reverse.length :=
    (List.takeWhile_sublist _).length_le
  rw [List.length_reverse] at hcolumns
  exact ⟨by simp only [placeAt]; omega, by simp only [placeAt]; omega⟩

theorem BeginsAt.within (h : BeginsAt s t offset) : t.position.Within (s.bytes.length + 1) :=
  h.position ▸ (placeAt_within _ _).mono (Nat.succ_le_succ h.inside.le)

-- Right behind a byte there is still as much room as the byte takes.
theorem Beside.within (h : Beside s p offset) : p.Within (s.bytes.length + 1) := by
  have hinside := h.inside
  obtain ⟨hline, hcolumn⟩ := placeAt_within s.bytes offset
  obtain rfl | rfl := h.place
  case inl => exact ⟨by omega, by omega⟩
  case inr => exact ⟨by simp only [Position.shift]; omega, by simp only [Position.shift]; omega⟩

end Places

section Ends

-- The size of what the last line reads as.
def lastLineSize (s : Source) : Nat :=
  (s.lines.get s.lines.size).utf8ByteSize

theorem utf8ByteSize_withoutLineEnd_le (line : String) : (withoutLineEnd line).utf8ByteSize ≤ line.utf8ByteSize := by
  obtain ⟨dropped, happend, -⟩ := exists_dropEndWhile_append (fun c => c == '\r' || c == '\n') line.toList
  have hline := congrArg encode happend
  rw [encode_append] at hline
  calc (withoutLineEnd line).utf8ByteSize
    _ = (encode (dropEndWhile (fun c => c == '\r' || c == '\n') line.toList)).length := (length_encode _).symm
    _ ≤ (encode line.toList).length := by
      rw [← hline, List.length_append]
      exact Nat.le_add_right _ _
    _ = line.utf8ByteSize := by rw [length_encode, String.ofList_toList]

-- A line that is text takes up no more than it does in the source.
theorem utf8ByteSize_line_le (hs : s.Exact) (n : Nat) : (s.lines.get n).utf8ByteSize ≤ s.bytes.length := by
  cases n
  case zero => exact Nat.zero_le _
  case succ n =>
    rw [Nat.add_comm, hs.indexed, Lines.get, Lines.get?_ofBytes]
    cases hpiece : (splitAfter (· == 0x0A) s.bytes)[n]?
    case none => exact Nat.zero_le _
    case some piece =>
      have hmem := List.mem_of_getElem? hpiece
      have hlength := (List.sublist_flatten_of_mem hmem).length_le
      rw [flatten_splitAfter] at hlength
      rw [Option.map_some, Option.getD_some, ← length_encode, hs.pieces piece hmem]
      exact hlength

theorem endPosition_within (s : Source) : s.endPosition.Within (max s.bytes.length (lastLineSize s) + 1) := by
  have hplace := placeAt_within s.bytes s.bytes.length
  unfold Source.endPosition Token.endPosition
  split
  case isTrue hend =>
    have hsize := utf8ByteSize_withoutLineEnd_le (s.lines.get s.lines.size)
    rw [← lastLineSize] at hsize
    have hline := hplace.line
    exact ⟨by dsimp only; omega, by dsimp only; omega⟩
  case isFalse => exact hplace.mono (Nat.succ_le_succ (Nat.le_max_left _ _))

end Ends

theorem within_of_mem_ahead {stream : Stream} (h : s.tokens = .ok stream) (ht : t ∈ stream.ahead) :
    t.position.Within (max s.bytes.length (lastLineSize s) + 1) := by
  obtain ⟨offset, ht⟩ | rfl := beginsAt_or_eq_eofOf h ht
  case inl => exact ht.within.mono (Nat.succ_le_succ (Nat.le_max_left _ _))
  case inr => exact endPosition_within s

theorem within_of_parse (h : s.parse = .error d) : d.position.Within (max s.bytes.length (lastLineSize s) + 1) := by
  obtain ⟨-, ⟨-, offset, hbeside⟩ | ⟨stream, hstream, t, ht, hposition⟩⟩ := exists_place_of_parse h
  case inl => exact hbeside.within.mono (Nat.succ_le_succ (Nat.le_max_left _ _))
  case inr => exact hposition ▸ within_of_mem_ahead hstream ht

end Lexical

namespace Source

open Lexical

variable {s : Source}

/-- Lines and columns fit in 32 bits: those of a cursor after any steps, with the column that it remembers, those of
tokens, and those of the fault of a source that cannot be read. -/
structure CountersFit (s : Source) : Prop where
  cursor : ∀ steps k, (Cursor.ofChars s.chars).run? steps = some k →
    k.position.Within (UInt32.size - 1) ∧ k.lastColumn ≤ UInt32.size - 1
  token  : ∀ stream, s.tokens = .ok stream → ∀ t ∈ stream.ahead, t.position.Within (UInt32.size - 1)
  fault  : ∀ d, s.parse = .error d → d.position.Within (UInt32.size - 1)

-- The counters fit if a source has fewer than `2 ^ 32 - 1` bytes and its last line reads as no more than these.
theorem countersFit (hsize : s.bytes.length + 1 < UInt32.size) (hlast : lastLineSize s + 1 < UInt32.size) :
    s.CountersFit := by
  have hmost : max s.bytes.length (lastLineSize s) + 1 ≤ UInt32.size - 1 := by omega
  refine ⟨fun steps k hrun => ?cursor, fun stream hstream t ht => ?token, fun d hd => ?fault⟩
  case cursor =>
    have hlength : s.chars.length = s.bytes.length := length_latin1 _
    obtain ⟨hposition, hcolumn⟩ := ((Cursor.countsWithin_ofChars s.chars).run? hrun).counters_le
    exact ⟨hposition.mono (by omega), by omega⟩
  case token => exact (within_of_mem_ahead hstream ht).mono hmost
  case fault => exact (within_of_parse hd).mono hmost

-- For a text its size is enough.
theorem Exact.countersFit (hs : s.Exact) (hsize : s.bytes.length + 1 < UInt32.size) : s.CountersFit :=
  Source.countersFit hsize <| Nat.lt_of_le_of_lt (Nat.succ_le_succ (utf8ByteSize_line_le hs _)) hsize

end Source

end BasicFrontEnd
