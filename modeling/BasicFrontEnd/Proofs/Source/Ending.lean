import BasicFrontEnd.Proofs.Source.Index
import BasicFrontEnd.Proofs.Text.Lossy

/-!
Where a loaded file ends. Behind a last line that no line feed ends, the end is behind the last byte. Otherwise it is
behind what the last line reads as, which takes up more bytes than the line where this is no text. Main statement:
`Source.position_eof`.
-/

namespace BasicFrontEnd

open Text

namespace Lexical

-- The bytes behind the last line feed.
def openLine (bs : List UInt8) : List UInt8 :=
  (bs.reverse.takeWhile (· != 0x0A)).reverse

-- The last line without the carriage returns and line feeds at its end.
def closedLine (bs : List UInt8) : List UInt8 :=
  dropEndWhile isLineEnd ((splitAfter (· == 0x0A) bs).getLast?.getD [])

-- By how many bytes a line grows when it is read as text.
def growth (line : List UInt8) : Nat :=
  (encode (decode line)).length - line.length

variable {s : Source} {bs whole line : List UInt8}

theorem length_add_growth (line : List UInt8) : line.length + growth line = (encode (decode line)).length :=
  Nat.add_sub_of_le (length_le_encode_decode line)

-- Text does not grow.
theorem growth_encode (cs : List Char) : growth (encode cs) = 0 := by
  rw [growth, decode_encode, Nat.sub_self]

theorem ended_iff_getLast? (hne : bs ≠ []) : Ended (· == 0x0A) bs ↔ bs.getLast? = some 0x0A := by
  obtain ⟨bs, b, rfl⟩ := bs.eq_nil_or_concat'.resolve_left hne
  rw [ended_concat, List.getLast?_concat, beq_iff_eq, Option.some_inj]

-- The last line that a line feed ends is what the line that the source shows for it is read from.
theorem withoutLineEnd_last (h : s.Indexed) (hended : Ended (· == 0x0A) s.bytes) (hne : s.bytes ≠ []) :
    withoutLineEnd (s.lines.get (s.bytes.count 0x0A)) = .ofList (decode (closedLine s.bytes)) := by
  obtain ⟨n, hn⟩ := Nat.exists_eq_add_of_lt (count_pos_of_ended hended hne)
  have hcount : s.bytes.count 0x0A = 1 + n := by omega
  have hlast : (splitAfter (· == 0x0A) s.bytes)[n]? = (splitAfter (· == 0x0A) s.bytes).getLast? := by
    rw [List.getLast?_eq_getElem?, length_splitAfter_of_ended hended, hcount, Nat.add_sub_cancel_left]
  have hline : (s.lines.get (1 + n)).toList = decode ((splitAfter (· == 0x0A) s.bytes).getLast?.getD []) := by
    rw [h, Lines.get, Lines.get?_ofBytes, hlast]
    cases (splitAfter (· == 0x0A) s.bytes).getLast?
    case none => rfl
    case some => exact String.toList_ofList
  rw [hcount, withoutLineEnd, hline, dropEndWhile_decode, closedLine]

-- Where the end of the source is.
theorem position_eofOf (h : s.Indexed) (hne : s.bytes ≠ []) :
    (s.bytes.getLast? ≠ some 0x0A → (Token.eofOf s.lines (placeAt s.bytes s.bytes.length)).position =
      ⟨1 + s.bytes.count 0x0A, 1 + (openLine s.bytes).length⟩) ∧
    (s.bytes.getLast? = some 0x0A → (Token.eofOf s.lines (placeAt s.bytes s.bytes.length)).position =
      ⟨s.bytes.count 0x0A, 1 + (closedLine s.bytes).length + growth (closedLine s.bytes)⟩) := by
  rw [ne_eq, ← ended_iff_getLast? hne]
  refine ⟨fun hopen => ?_, fun hended => ?_⟩
  case refine_1 =>
    obtain ⟨whole, line, hbytes, hwhole, hline⟩ := exists_ended_append (· == 0x0A) s.bytes
    have hline' : line ≠ [] := by
      rintro rfl
      rw [List.append_nil] at hbytes
      exact hopen (hbytes ▸ hwhole)
    obtain ⟨-, hend, -⟩ := h.endPosition_of_not_ended hbytes hwhole hline hline'
    refine hend.trans ?_
    rw [placeAt, List.take_length, openLine, List.length_reverse]
  case refine_2 =>
    obtain ⟨-, hend⟩ := h.endPosition_of_ended hended hne
    refine hend.trans ?_
    rw [withoutLineEnd_last h hended hne, ← length_encode, ← length_add_growth, Nat.add_comm, Nat.add_assoc]

theorem closedLine_of_ended (hwhole : Ended (· == 0x0A) whole) (hline : ∀ b ∈ line, (b == 0x0A) = false) :
    closedLine (whole ++ line ++ [0x0A]) = dropEndWhile isLineEnd line := by
  obtain ⟨happend, -⟩ := hwhole.splitAfter_append (line ++ [0x0A])
  rw [closedLine, List.append_assoc, happend, splitAfter_append_cons hline (beq_self_eq_true _), splitAfter,
    List.getLast?_concat, Option.getD_some, dropEndWhile_concat]
  rfl

-- The line that the last line feed opens is closed by one more.
theorem closedLine_append (hne : bs ≠ []) (hcr : bs.getLast? ≠ some 0x0D) (hlf : bs.getLast? ≠ some 0x0A) :
    closedLine (bs ++ [0x0A]) = openLine bs := by
  obtain ⟨whole, line, rfl, hwhole, hline⟩ := exists_ended_append (· == 0x0A) bs
  have hopen : openLine (whole ++ line) = line := by
    rw [openLine, takeWhile_reverse_append hwhole hline, List.reverse_reverse]
  have hline' : line ≠ [] := by
    rintro rfl
    rw [List.append_nil] at hlf hne
    exact hlf <| (ended_iff_getLast? hne).mp hwhole
  have hend : ∀ b ∈ line.getLast?, isLineEnd b = false := by
    intro b hb
    rw [List.getLast?_append_of_ne_nil _ hline'] at hcr hlf
    have hb' : b ≠ 0x0D ∧ b ≠ 0x0A := ⟨fun h => hcr (h ▸ hb), fun h => hlf (h ▸ hb)⟩
    simp [isLineEnd, hb']
  rw [hopen, closedLine_of_ended hwhole hline, dropEndWhile_eq_self hend]

end Lexical

namespace Source

open Lexical

-- The last token of a loaded file is its end. Behind an open last line it is behind the last byte. Behind a closed one
-- it is behind what the line has before its end, and further on by what the line grows when it is read; text does not
-- grow. So a line feed that closes the last line moves the end to the right where this line is no text.
theorem position_eof (path : String) {bytes : List UInt8} {stream : Stream} (hne : bytes ≠ [])
    (h : (ofBytes path bytes).tokens = .ok stream) :
    ∃ eof, stream.ahead.getLast? = some eof ∧ eof.kind = .eof ∧
      (bytes.getLast? ≠ some 0x0A → eof.position = ⟨1 + bytes.count 0x0A, 1 + (openLine bytes).length⟩) ∧
      (bytes.getLast? = some 0x0A →
        eof.position = ⟨bytes.count 0x0A, 1 + (closedLine bytes).length + growth (closedLine bytes)⟩) ∧
      (∀ cs, closedLine bytes = encode cs → growth (closedLine bytes) = 0) ∧
      ∀ closed, bytes.getLast? ≠ some 0x0D → bytes.getLast? ≠ some 0x0A →
        (ofBytes path (bytes ++ [0x0A])).tokens = .ok closed →
        ∃ eof', closed.ahead.getLast? = some eof' ∧ eof'.position = eof.position.shift (growth (openLine bytes)) := by
  have hlast {bytes : List UInt8} {stream : Stream} (h : (ofBytes path bytes).tokens = .ok stream) :
      stream.ahead.getLast? = some (Token.eofOf (.ofBytes bytes) (placeAt bytes bytes.length)) := by
    obtain ⟨tokens, hahead, -, -⟩ := exists_tokens h
    rw [hahead, List.getLast?_concat]
    rfl
  obtain ⟨hopen, hclosed⟩ := position_eofOf (indexed_ofBytes path bytes) hne
  refine ⟨_, hlast h, rfl, hopen, hclosed, fun cs hcs => hcs ▸ growth_encode cs, fun closed hcr hlf hread => ?_⟩
  refine ⟨_, hlast hread, ?_⟩
  obtain ⟨-, happended⟩ :=
    position_eofOf (indexed_ofBytes path (bytes ++ [0x0A])) (List.append_ne_nil_of_right_ne_nil _ (by simp))
  have hplace := happended List.getLast?_concat
  have hcount : (bytes ++ [0x0A]).count 0x0A = 1 + bytes.count 0x0A := by simp [Nat.add_comm]
  have hbytes : (ofBytes path (bytes ++ [0x0A])).bytes = bytes ++ [0x0A] := rfl
  rw [hbytes, closedLine_append hne hcr hlf, hcount] at hplace
  refine hplace.trans ?_
  have hbefore := hopen hlf
  rw [show (Token.eofOf (.ofBytes bytes) (placeAt bytes bytes.length)).position = _ from hbefore]
  rfl

-- A comment of one byte that is no text, and the line feed that closes it: the end is two columns behind the line.
theorem position_eof_lossy :
    ∃ stream, (ofBytes "f" [0x27, 0xFF, 0x0A]).tokens = .ok stream ∧
      ∃ eof, stream.ahead.getLast? = some eof ∧ eof.kind = .eof ∧ eof.position = ⟨1, 5⟩ ∧
        closedLine [0x27, 0xFF, 0x0A] = [0x27, 0xFF] := by
  have hline : closedLine [0x27, 0xFF, 0x0A] = [0x27, 0xFF] := by decide
  have hlex : (ofBytes "f" [0x27, 0xFF, 0x0A]).tokens.toOption.isSome = true := by decide +kernel
  cases hs : (ofBytes "f" [0x27, 0xFF, 0x0A]).tokens
  case error => simp [hs, Except.toOption] at hlex
  case ok stream =>
    obtain ⟨eof, hlast, hkind, -, hclosed, -⟩ := position_eof "f" (by decide) hs
    have hgrowth : growth [0x27, 0xFF] = 2 := by decide
    have hplace := hclosed (by decide)
    rw [hline, hgrowth] at hplace
    exact ⟨stream, rfl, eof, hlast, hkind, hplace, hline⟩

end Source

end BasicFrontEnd
