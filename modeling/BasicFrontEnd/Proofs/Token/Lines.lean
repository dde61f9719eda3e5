import BasicFrontEnd.Proofs.Source.Loading
import BasicFrontEnd.Proofs.Text.Pieces
import BasicFrontEnd.Proofs.Token.Ascending

/-!
Places and lines. The place of a byte is counted while the source is read, and its lines are cut before. Both agree:
the line with the number of the place is the one that the byte is in, and what stands before the byte in this line fills
the columns before that of the place. Main statement: `exists_inLine`.
-/

namespace BasicFrontEnd

open Text

section Indices

-- The lines are those of the bytes.
def Source.Indexed (s : Source) : Prop :=
  s.lines = .ofBytes s.bytes

variable {s : Source} {bs : List UInt8}

-- The lines show the bytes as they are.
structure Source.Exact (s : Source) : Prop where
  indexed : s.Indexed
  pieces  : ∀ piece ∈ splitAfter (· == 0x0A) s.bytes, encode (decode piece) = piece

theorem Source.indexed_ofText (text : String) : (ofText text).Indexed := by
  rw [Indexed, Lines.ofBytes_eq_ofText]
  exact congrArg Lines.ofText (decode_encode _).symm

theorem Source.exact_ofText (text : String) : (ofText text).Exact :=
  ⟨indexed_ofText text, fun _ => encode_decode_of_mem⟩

theorem Source.indexed_ofBytes (path : String) (bytes : List UInt8) : (ofBytes path bytes).Indexed :=
  rfl

theorem Lines.get?_ofBytes (bs : List UInt8) (n : Nat) :
    (ofBytes bs).get? (1 + n) = (splitAfter (· == 0x0A) bs)[n]?.map fun piece => .ofList (decode piece) := by
  rw [get?, Nat.add_comm, Sequence.nth?_succ]
  exact List.getElem?_map

theorem Lines.size_ofBytes (bs : List UInt8) : (ofBytes bs).size = (splitAfter (· == 0x0A) bs).length := by
  rw [size, ← Sequence.length_toList]
  exact List.length_map _

theorem Lines.get_eq_of_get? {lines : Lines} {line : String} (h : lines.get? n = some line) : lines.get n = line := by
  rw [get, h, Option.getD_some]

theorem Lines.le_size_of_get? {lines : Lines} {line : String} (h : lines.get? n = some line) :
    1 ≤ n ∧ n ≤ lines.size := by
  cases n
  case zero => cases h
  case succ n =>
    rw [get?, Sequence.nth?_succ] at h
    obtain ⟨hn, -⟩ := List.getElem?_eq_some_iff.mp h
    rw [Sequence.length_toList] at hn
    exact ⟨n.succ_pos, hn⟩

end Indices

namespace Lexical

section Places

variable {bs whole line before rest piece : List UInt8}

theorem count_eq_zero_of_forall (h : ∀ b ∈ line, (b == 0x0A) = false) : line.count 0x0A = 0 :=
  List.countP_eq_zero.mpr fun b hb => by simp [h b hb]

theorem count_pos_of_ended (h : Ended (· == 0x0A) bs) (hne : bs ≠ []) : 0 < bs.count 0x0A := by
  obtain ⟨bs, b, rfl⟩ := bs.eq_nil_or_concat'.resolve_left hne
  have hb : b = 0x0A := by simpa using ended_concat.mp h
  simp [hb]

-- Behind whole lines, what no line feed is in comes after the last of them.
theorem takeWhile_reverse_append (hwhole : Ended (· == 0x0A) whole) (hline : ∀ b ∈ line, (b == 0x0A) = false) :
    (whole ++ line).reverse.takeWhile (· != 0x0A) = line.reverse := by
  have hcolumn : ∀ b ∈ line.reverse, (b != 0x0A) = true := fun b hb => by simp [bne, hline b (List.mem_reverse.mp hb)]
  have hbefore : whole.reverse.takeWhile (· != 0x0A) = [] := by
    obtain rfl | ⟨whole, b, rfl⟩ := whole.eq_nil_or_concat'
    case inl => rfl
    case inr => simpa using ended_concat.mp hwhole
  rw [List.reverse_append, List.takeWhile_append_of_pos hcolumn, hbefore, List.append_nil]

-- The place behind whole lines and the front of one more.
theorem placeAt_append (hwhole : Ended (· == 0x0A) whole) (hline : ∀ b ∈ line, (b == 0x0A) = false)
    (rest : List UInt8) :
    placeAt (whole ++ line ++ rest) (whole ++ line).length = ⟨1 + whole.count 0x0A, 1 + line.length⟩ := by
  rw [placeAt, List.take_left, List.count_append, count_eq_zero_of_forall hline, takeWhile_reverse_append hwhole hline,
    List.length_reverse, Nat.add_zero]

-- The byte at `offset` stands in the line with the number of its place: `before` comes before it in this line, and
-- `rest` is what the line goes on with.
structure InLine (bs : List UInt8) (offset : Nat) (before rest : List UInt8) : Prop where
  line   : (splitAfter (· == 0x0A) bs)[(bs.take offset).count 0x0A]? = some (before ++ rest)
  column : (placeAt bs offset).column = before.length + 1
  rest   : (splitAfter (· == 0x0A) (bs.drop offset)).head? = some rest

theorem exists_inLine (h : offset < bs.length) : ∃ before rest, InLine bs offset before rest := by
  obtain ⟨whole, before, hfront, hwhole, hbefore⟩ := exists_ended_append (· == 0x0A) (bs.take offset)
  have hoffset : (whole ++ before).length = offset := by
    rw [← hfront, List.length_take, Nat.min_eq_left h.le]
  have hbs : bs = whole ++ before ++ bs.drop offset := by
    rw [← hfront, List.take_append_drop]
  have hmore : bs.drop offset ≠ [] := mt List.drop_eq_nil_iff.mp (Nat.not_le.mpr h)
  have hpieces : splitAfter (· == 0x0A) (bs.drop offset) ≠ [] := mt splitAfter_eq_nil_iff.mp hmore
  obtain ⟨rest, pieces, hrest⟩ := List.exists_cons_of_ne_nil hpieces
  refine ⟨before, rest, ?_, ?_, by rw [hrest, List.head?_cons]⟩
  case refine_1 =>
    obtain ⟨happend, hlength⟩ := hwhole.splitAfter_append (before ++ bs.drop offset)
    rw [hfront, List.count_append, count_eq_zero_of_forall hbefore, Nat.add_zero, List.count, ← hlength]
    conv_lhs => rw [hbs, List.append_assoc, happend, splitAfter_append_of_forall hbefore hrest]
    simp
  case refine_2 =>
    have hplace := placeAt_append hwhole hbefore (bs.drop offset)
    rw [← hbs, hoffset] at hplace
    exact (congrArg Position.column hplace).trans (Nat.add_comm _ _)

-- Where a line feed ends the bytes, it ends their last line.
theorem length_splitAfter_of_ended (h : Ended (· == 0x0A) bs) :
    (splitAfter (· == 0x0A) bs).length = bs.count 0x0A := by
  obtain ⟨-, hlength⟩ := h.splitAfter_append []
  exact hlength

-- Otherwise the last line is what comes behind the last line feed.
theorem splitAfter_append_line (hwhole : Ended (· == 0x0A) whole) (hline : ∀ b ∈ line, (b == 0x0A) = false)
    (hne : line ≠ []) :
    splitAfter (· == 0x0A) (whole ++ line) = splitAfter (· == 0x0A) whole ++ [line] := by
  obtain ⟨happend, -⟩ := hwhole.splitAfter_append line
  rw [happend, splitAfter_of_forall hline hne]

end Places

end Lexical

namespace Source

variable {s : Source}

open Lexical

theorem Indexed.get?_line (h : s.Indexed) (hin : InLine s.bytes offset before rest) :
    s.lines.get? (placeAt s.bytes offset).line = some (.ofList (decode (before ++ rest))) := by
  rw [h, placeAt, Lines.get?_ofBytes, hin.line]
  rfl

theorem Exact.encode_line (h : s.Exact) (hin : InLine s.bytes offset before rest) :
    encode (s.lines.get (placeAt s.bytes offset).line).toList = before ++ rest := by
  rw [Lines.get_eq_of_get? (h.indexed.get?_line hin), String.toList_ofList]
  exact h.pieces _ (List.mem_of_getElem? hin.line)

-- The end of a source whose last line a line feed ends is in this line, behind what it has before its end.
theorem Indexed.endPosition_of_ended (h : s.Indexed) (hended : Ended (· == 0x0A) s.bytes) (hne : s.bytes ≠ []) :
    s.lines.size = s.bytes.count 0x0A ∧
    Token.endPosition s.lines (placeAt s.bytes s.bytes.length) =
      ⟨s.bytes.count 0x0A, (withoutLineEnd (s.lines.get (s.bytes.count 0x0A))).utf8ByteSize + 1⟩ := by
  have hsize : s.lines.size = s.bytes.count 0x0A := by
    rw [h, Lines.size_ofBytes, length_splitAfter_of_ended hended]
  refine ⟨hsize, ?_⟩
  have hend : 0 < s.lines.size ∧ s.lines.size < (placeAt s.bytes s.bytes.length).line := by
    rw [hsize, placeAt, List.take_length]
    exact ⟨count_pos_of_ended hended hne, Nat.lt_add_of_pos_left Nat.one_pos⟩
  rw [Token.endPosition, if_pos hend, hsize]

-- Elsewhere the end is where the bytes end.
theorem Indexed.endPosition_of_not_ended (h : s.Indexed) (hbytes : s.bytes = whole ++ line)
    (hwhole : Ended (· == 0x0A) whole) (hline : ∀ b ∈ line, (b == 0x0A) = false) (hne : line ≠ []) :
    s.lines.size = 1 + s.bytes.count 0x0A ∧
    Token.endPosition s.lines (placeAt s.bytes s.bytes.length) = placeAt s.bytes s.bytes.length ∧
    placeAt s.bytes s.bytes.length = ⟨1 + s.bytes.count 0x0A, 1 + line.length⟩ := by
  have hcount : s.bytes.count 0x0A = whole.count 0x0A := by
    rw [hbytes, List.count_append, count_eq_zero_of_forall hline, Nat.add_zero]
  have hsize : s.lines.size = 1 + s.bytes.count 0x0A := by
    rw [h, Lines.size_ofBytes, hcount, hbytes, splitAfter_append_line hwhole hline hne, List.length_append,
      length_splitAfter_of_ended hwhole, Nat.add_comm]
    rfl
  have hplace : placeAt s.bytes s.bytes.length = ⟨1 + s.bytes.count 0x0A, 1 + line.length⟩ := by
    have := placeAt_append hwhole hline []
    rw [List.append_nil, ← hbytes] at this
    rw [this, hcount]
  refine ⟨hsize, if_neg ?_, hplace⟩
  rw [hsize, hplace]
  exact fun hend => Nat.lt_irrefl _ hend.2

end Source

end BasicFrontEnd
