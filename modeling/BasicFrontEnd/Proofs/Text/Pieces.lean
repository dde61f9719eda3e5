import BasicFrontEnd.Proofs.Text.Decode
import Mathlib.Data.List.Induction
import Mathlib.Data.List.TakeWhile
import Mathlib.Data.String.Basic

/-!
The pieces of a text that is cut after its line feeds, and their bytes. A piece is found by what stands before it: as
many pieces as line feeds, and then what no line feed ends. Cutting and writing as bytes commute. Main statements:
`splitAfter_append` and `splitAfter_encode`.
-/

namespace BasicFrontEnd.Text

section Pieces

variable {α : Type} {cut : α → Bool} {x : α} {xs ys : List α}

-- The list is empty, or a cut ends it.
def Ended (cut : α → Bool) (xs : List α) : Prop :=
  ∀ x ∈ xs.getLast?, cut x = true

theorem ended_append (hne : ys ≠ []) : Ended cut (xs ++ ys) ↔ Ended cut ys := by
  rw [Ended, Ended, List.getLast?_append_of_ne_nil xs hne]

theorem ended_concat : Ended cut (xs ++ [x]) ↔ cut x = true := by
  simp [Ended]

theorem splitAfter_cons (x : α) (xs : List α) :
    splitAfter cut (x :: xs) =
      if cut x then [x] :: splitAfter cut xs
      else match splitAfter cut xs with
        | []              => [[x]]
        | piece :: pieces => (x :: piece) :: pieces :=
  rfl

theorem splitAfter_eq_nil_iff : splitAfter cut xs = [] ↔ xs = [] where
  mp h  := by rw [← flatten_splitAfter cut xs, h, List.flatten_nil]
  mpr h := h ▸ rfl

-- What no cut ends belongs to the first piece behind it.
theorem splitAfter_append_of_forall (h : ∀ x ∈ xs, cut x = false) (hys : splitAfter cut ys = piece :: pieces) :
    splitAfter cut (xs ++ ys) = (xs ++ piece) :: pieces := by
  induction xs
  case nil => exact hys
  case cons x xs ih =>
    rw [List.forall_mem_cons] at h
    rw [List.cons_append, splitAfter_cons, if_neg (by simp [h.1]), ih h.2, List.cons_append]

-- Behind a cut, cutting starts anew, and there has been a piece for each cut.
theorem Ended.splitAfter_append (h : Ended cut xs) (ys : List α) :
    splitAfter cut (xs ++ ys) = splitAfter cut xs ++ splitAfter cut ys ∧
      (splitAfter cut xs).length = xs.countP cut := by
  induction xs
  case nil => exact ⟨rfl, rfl⟩
  case cons x xs ih =>
    cases hpieces : splitAfter cut xs
    case nil =>
      obtain rfl := splitAfter_eq_nil_iff.mp hpieces
      have hx : cut x = true := h x rfl
      rw [List.singleton_append, splitAfter_cons, splitAfter_cons, if_pos hx, if_pos hx]
      exact ⟨rfl, by simp [splitAfter, hx]⟩
    case cons piece pieces =>
      have hne : xs ≠ [] := by
        rintro rfl
        cases hpieces
      rw [← List.singleton_append, ended_append hne] at h
      obtain ⟨happend, hlength⟩ := ih h
      rw [List.cons_append, splitAfter_cons, happend, splitAfter_cons, hpieces, List.countP_cons, ← hlength, hpieces]
      split <;> simp [*]

-- The first piece begins as the list does.
theorem head?_of_head?_splitAfter (h : (splitAfter cut xs).head? = some piece) : piece.head? = xs.head? := by
  cases xs
  case nil => cases h
  case cons x xs =>
    rw [splitAfter_cons] at h
    split at h
    case isTrue => exact Option.some.inj h ▸ rfl
    case isFalse => split at h <;> exact Option.some.inj h ▸ rfl

-- What no cut ends, at the front of a list, is at the front of its first piece.
theorem prefix_of_head?_splitAfter (hxs : ∀ x ∈ xs, cut x = false) (hpre : xs <+: ys)
    (hpiece : (splitAfter cut ys).head? = some piece) : xs <+: piece := by
  obtain ⟨zs, rfl⟩ := hpre
  by_cases hne : xs = []
  case pos => exact hne ▸ List.nil_prefix
  case neg =>
    cases hzs : splitAfter cut zs
    case nil =>
      obtain rfl := splitAfter_eq_nil_iff.mp hzs
      rw [List.append_nil, splitAfter_of_forall hxs hne] at hpiece
      exact Option.some.inj hpiece ▸ List.prefix_rfl
    case cons piece' pieces =>
      rw [splitAfter_append_of_forall hxs hzs] at hpiece
      exact Option.some.inj hpiece ▸ List.prefix_append _ _

-- Every list is one that a cut ends, and then one without a cut.
theorem exists_ended_append (cut : α → Bool) (xs : List α) :
    ∃ whole line, xs = whole ++ line ∧ Ended cut whole ∧ ∀ x ∈ line, cut x = false := by
  induction xs using List.reverseRecOn
  case nil => exact ⟨[], [], rfl, by simp [Ended], by simp⟩
  case append_singleton xs x ih =>
    obtain ⟨whole, line, rfl, hwhole, hline⟩ := ih
    cases hx : cut x
    case true => exact ⟨whole ++ line ++ [x], [], by simp, ended_concat.mpr hx, by simp⟩
    case false =>
      exact ⟨whole, line ++ [x], by simp, hwhole, List.forall_mem_append.mpr ⟨hline, by simpa using hx⟩⟩

end Pieces

section Encoding

theorem encode_append (cs ds : List Char) : encode (cs ++ ds) = encode cs ++ encode ds :=
  List.flatMap_append

theorem length_encode (cs : List Char) : (encode cs).length = (String.ofList cs).utf8ByteSize := by
  rw [String.utf8ByteSize_ofList]
  induction cs
  case nil => rfl
  case cons c cs ih =>
    rw [encode, List.flatMap_cons, List.length_append, ← encode, ih, String.length_utf8EncodeChar,
      String.utf8Len_cons, Nat.add_comm]

theorem utf8EncodeChar_of_le {c : Char} (h : c.toNat ≤ 0x7F) : String.utf8EncodeChar c = [UInt8.ofNat c.toNat] :=
  if_pos h

theorem le_toNat_of_mem_utf8EncodeChar {c : Char} (h : 0x7F < c.toNat) :
    ∀ b ∈ String.utf8EncodeChar c, 0x80 ≤ b.toNat := by
  have hc : c.toNat = c.val.toNat := rfl
  rw [hc] at h
  unfold String.utf8EncodeChar
  dsimp only
  generalize c.val.toNat = v at h ⊢
  rw [if_neg (Nat.not_le.mpr h)]
  repeat' split
  all_goals
    simp only [List.forall_mem_cons, UInt8.toNat_ofNat']
    simp
    omega

-- A byte that can stand for a character is no part of another one.
theorem utf8EncodeChar_of_mem {b : UInt8} {c : Char} (h : b ∈ String.utf8EncodeChar c) (hb : b.toNat < 0x80) :
    String.utf8EncodeChar c = [b] ∧ c = Char.ofUInt8 b := by
  have hc : c.toNat ≤ 0x7F := by
    by_contra hc
    have := le_toNat_of_mem_utf8EncodeChar (Nat.lt_of_not_le hc) b h
    omega
  rw [utf8EncodeChar_of_le hc] at h ⊢
  obtain rfl := List.mem_singleton.mp h
  have hval : (Char.ofUInt8 (UInt8.ofNat c.toNat)).val = (UInt8.ofNat c.toNat).toUInt32 := rfl
  refine ⟨rfl, Char.ext <| UInt32.toNat_inj.mp ?_⟩
  rw [hval, UInt8.toNat_toUInt32, UInt8.toNat_ofNat', Nat.mod_eq_of_lt (by omega)]
  rfl

theorem lineFeed_not_mem_utf8EncodeChar {c : Char} (h : c ≠ '\n') : 0x0A ∉ String.utf8EncodeChar c :=
  fun hmem => h (utf8EncodeChar_of_mem hmem (by decide)).2

theorem encode_cons (c : Char) (cs : List Char) : encode (c :: cs) = String.utf8EncodeChar c ++ encode cs :=
  List.flatMap_cons

theorem toNat_ofUInt8 (b : UInt8) : (Char.ofUInt8 b).toNat = b.toNat :=
  UInt8.toNat_toUInt32 b

theorem utf8EncodeChar_ofUInt8 {b : UInt8} (hb : b.toNat < 0x80) : String.utf8EncodeChar (Char.ofUInt8 b) = [b] := by
  rw [utf8EncodeChar_of_le (toNat_ofUInt8 b ▸ Nat.le_of_lt_succ hb), toNat_ofUInt8, UInt8.ofNat_toNat]

-- Characters of one byte each are their bytes.
theorem encode_prefix_of_prefix_latin1 {cs : List Char} {bs : List UInt8} (h : cs <+: latin1 bs)
    (hcs : ∀ c ∈ cs, c.toNat ≤ 0x7F) : encode cs <+: bs := by
  induction cs generalizing bs
  case nil => exact List.nil_prefix
  case cons c cs ih =>
    rw [List.forall_mem_cons] at hcs
    cases bs
    case nil => exact absurd (List.prefix_nil.mp h) (List.cons_ne_nil c cs)
    case cons b bs =>
      obtain ⟨rfl, htail⟩ := List.cons_prefix_cons.mp h
      rw [encode_cons, utf8EncodeChar_ofUInt8 (toNat_ofUInt8 b ▸ Nat.lt_succ_of_le hcs.1)]
      exact List.cons_prefix_cons.mpr ⟨rfl, ih htail hcs.2⟩

theorem encode_eq_nil_iff {cs : List Char} : encode cs = [] ↔ cs = [] where
  mp h  := by rw [← decode_encode cs, h]; rfl
  mpr h := h ▸ rfl

-- Cut and written as bytes, or written and cut.
theorem splitAfter_encode (cs : List Char) :
    splitAfter (· == 0x0A) (encode cs) = (splitAfter (· == '\n') cs).map encode := by
  induction cs
  case nil => rfl
  case cons c cs ih =>
    by_cases hc : c = '\n'
    case pos =>
      subst hc
      have hline : String.utf8EncodeChar '\n' = [0x0A] := by decide
      rw [encode_cons, hline, List.singleton_append, splitAfter_cons, if_pos (beq_self_eq_true _), splitAfter_cons,
        if_pos (beq_self_eq_true _), ih]
      rfl
    case neg =>
      have hchar := forall_beq_eq_false (lineFeed_not_mem_utf8EncodeChar hc)
      rw [encode_cons, splitAfter_cons, if_neg (by simpa using hc)]
      cases hpieces : splitAfter (· == '\n') cs
      case nil =>
        obtain rfl := splitAfter_eq_nil_iff.mp hpieces
        have hne : String.utf8EncodeChar c ≠ [] :=
          List.length_pos_iff.mp (String.length_utf8EncodeChar c ▸ c.utf8Size_pos)
        rw [encode, List.flatMap_nil, List.append_nil, splitAfter_of_forall hchar hne]
        simp [encode]
      case cons piece pieces =>
        rw [hpieces, List.map_cons] at ih
        rw [splitAfter_append_of_forall hchar ih, List.map_cons, encode_cons]

-- A piece of a text is the text of a piece.
theorem encode_decode_of_mem {cs : List Char} {piece : List UInt8}
    (h : piece ∈ splitAfter (· == 0x0A) (encode cs)) : encode (decode piece) = piece := by
  rw [splitAfter_encode] at h
  obtain ⟨piece, -, rfl⟩ := List.mem_map.mp h
  rw [decode_encode]

end Encoding

section Ends

theorem exists_dropEndWhile_append (p : α → Bool) (xs : List α) :
    ∃ dropped, dropEndWhile p xs ++ dropped = xs ∧ ∀ x ∈ dropped, p x = true := by
  refine ⟨(xs.reverse.takeWhile p).reverse, ?_, fun x hx => ?_⟩
  case refine_1 =>
    rw [dropEndWhile, ← List.reverse_append, List.takeWhile_append_dropWhile, List.reverse_reverse]
  case refine_2 => exact List.mem_takeWhile_imp <| List.mem_reverse.mp hx

-- A byte of the line that is neither a carriage return nor a line feed is one of the line without its end.
theorem lt_utf8ByteSize_withoutLineEnd {line : String} {b : UInt8} (h : (encode line.toList)[i]? = some b)
    (hb : b ≠ 0x0D ∧ b ≠ 0x0A) : i < (withoutLineEnd line).utf8ByteSize := by
  obtain ⟨dropped, happend, hdropped⟩ := exists_dropEndWhile_append (fun c => c == '\r' || c == '\n') line.toList
  rw [withoutLineEnd, ← length_encode]
  by_contra hi
  rw [← happend, encode_append, List.getElem?_append_right (Nat.le_of_not_lt hi)] at h
  obtain ⟨c, hc, hbyte⟩ := List.mem_flatMap.mp <| List.mem_of_getElem? h
  obtain rfl | rfl : c = '\r' ∨ c = '\n' := by simpa using hdropped c hc
  case inl => exact hb.1 <| List.mem_singleton.mp hbyte
  case inr => exact hb.2 <| List.mem_singleton.mp hbyte

end Ends

end BasicFrontEnd.Text
