import BasicFrontEnd.Proofs.Text.Pieces

/-!
What reading bytes as text does to a line: the end of the line is read as it is, and what is no text is read as
characters that take up at least as many bytes. Main statements: `dropEndWhile_decode` and `length_le_encode_decode`.
-/

namespace BasicFrontEnd.Text

variable {p : Option Partial} {q : Partial} {b : UInt8} {c : Char} {bs line rest : List UInt8}

section Ends

theorem dropEndWhile_concat {α : Type} (p : α → Bool) (xs : List α) (x : α) :
    dropEndWhile p (xs ++ [x]) = if p x then dropEndWhile p xs else xs ++ [x] := by
  simp only [dropEndWhile, List.reverse_append, List.reverse_singleton, List.singleton_append, List.dropWhile_cons]
  split <;> simp

theorem dropEndWhile_eq_self {α : Type} {p : α → Bool} {xs : List α} (h : ∀ x ∈ xs.getLast?, p x = false) :
    dropEndWhile p xs = xs := by
  obtain rfl | ⟨xs, x, rfl⟩ := xs.eq_nil_or_concat'
  case inl => rfl
  case inr =>
    have hx : p x = false := h x (by simp)
    rw [dropEndWhile_concat, hx]
    rfl

-- The bytes that end a line.
def isLineEnd (b : UInt8) : Bool :=
  b == 0x0D || b == 0x0A

-- The last character of a text is one of the last byte, or it stands for what the end has cut off.
theorem IsControl.getLast?_decodeFrom_ne (hc : IsControl c) (hp : ∀ q ∈ p, q.Proper) (hb : b.toNat ≠ c.toNat) :
    (decodeFrom p (line ++ [b])).getLast? ≠ some c := by
  induction line generalizing p
  case nil =>
    rw [List.nil_append, decodeFrom_cons]
    cases hnext : (decodeByte p b).2
    case none =>
      intro hlast
      rw [decodeFrom, List.append_nil] at hlast
      exact hc.not_mem_decodeByte hp hb (List.mem_of_getLast? hlast)
    case some =>
      rw [decodeFrom, List.getLast?_concat]
      exact fun heq => hc.ne_replacement (Option.some.inj heq).symm
  case cons b' line ih =>
    have hne : decodeFrom (decodeByte p b').2 (line ++ [b]) ≠ [] := fun hnil => by
      simpa using (decodeFrom_eq_nil hnil).2
    rw [List.cons_append, decodeFrom_cons, List.getLast?_append_of_ne_nil _ hne]
    exact ih (proper_decodeByte hp)

-- A line is cut off before its end, and then read, or read first.
theorem dropEndWhile_decode (line : List UInt8) :
    dropEndWhile (fun c => c == '\r' || c == '\n') (decode line) = decode (dropEndWhile isLineEnd line) := by
  have hnone : ∀ q ∈ (none : Option Partial), q.Proper := by simp
  induction line using List.reverseRecOn
  case nil => rfl
  case append_singleton line b ih =>
    rw [dropEndWhile_concat]
    split
    case isTrue hend =>
      have hdecode {b : UInt8} (hb : b.toNat < 0x80) : decode (line ++ [b]) = decode line ++ decode [b] :=
        decodeFrom_append_cons hnone hb []
      obtain rfl | rfl : b = 0x0D ∨ b = 0x0A := by simpa [isLineEnd] using hend
      case inl =>
        have hbyte : decode [0x0D] = ['\r'] := by decide
        rw [hdecode (by decide), hbyte, dropEndWhile_concat, ih]
        rfl
      case inr =>
        have hbyte : decode [0x0A] = ['\n'] := by decide
        rw [hdecode (by decide), hbyte, dropEndWhile_concat, ih]
        rfl
    case isFalse hend =>
      have hb : b ≠ 0x0D ∧ b ≠ 0x0A := by simpa [isLineEnd] using hend
      refine dropEndWhile_eq_self fun c hlast => ?_
      have hcr : c ≠ '\r' := by
        rintro rfl
        exact isControl_carriageReturn.getLast?_decodeFrom_ne hnone (fun heq => hb.1 (UInt8.toNat_inj.mp heq)) hlast
      have hlf : c ≠ '\n' := by
        rintro rfl
        exact isControl_lineFeed.getLast?_decodeFrom_ne hnone (fun heq => hb.2 (UInt8.toNat_inj.mp heq)) hlast
      simp [hcr, hlf]

end Ends

section Sizes

-- The numbers of the characters that are written with so many bytes.
def InWidth (width least most : Nat) : Prop :=
  (width = 2 ∧ 0x80 ≤ least ∧ most ≤ 0x7FF) ∨
  (width = 3 ∧ 0x800 ≤ least ∧ (most < 0xD800 ∨ 0xDFFF < least ∧ most ≤ 0xFFFF)) ∨
  (width = 4 ∧ 0x10000 ≤ least ∧ most ≤ 0x10FFFF)

-- After `n` bytes, the least and the greatest number that the character may still get are in the range of its width.
structure Partial.Spans (q : Partial) (n : Nat) : Prop where
  proper : q.Proper
  pos    : 1 ≤ n
  bounds : InWidth (n + q.more + 1) ((q.payload * 64 + q.low.toNat % 64) * 64 ^ q.more)
    ((q.payload * 64 + q.high.toNat % 64 + 1) * 64 ^ q.more - 1)

-- How many bytes have been read of what is begun.
inductive Pending : Option Partial → Nat → Prop
  | none : Pending none 0
  | some {q : Partial} : q.Spans n → Pending (some q) n

theorem Partial.spans_of_lead (h : Partial.ofLead? b = some q) : q.Spans 1 := by
  refine ⟨proper_of_lead h, le_refl 1, ?_⟩
  simp only [Partial.ofLead?, UInt8.le_iff_toNat_le, ← UInt8.toNat_inj, UInt8.reduceToNat] at h
  repeat' split at h
  all_goals try contradiction
  all_goals
    obtain rfl := Option.some.inj h
    simp [InWidth] <;> omega

theorem utf8Size_ofNat {n : Nat} (h : n.isValidChar) :
    (Char.ofNat n).utf8Size = if n ≤ 0x7F then 1 else if n ≤ 0x7FF then 2 else if n ≤ 0xFFFF then 3 else 4 := by
  have hchar : Char.ofNat n = Char.ofNatAux n h := dif_pos h
  have hval : (Char.ofNat n).val.toNat = n := by rw [hchar]; rfl
  simp only [Char.utf8Size, UInt32.le_iff_toNat_le, hval]
  rfl

theorem length_encode_singleton (c : Char) : (encode [c]).length = c.utf8Size := by
  rw [encode_cons, List.length_append, String.length_utf8EncodeChar]
  rfl

-- One more byte of what is begun makes a character of as many bytes, or one of the numbers that it may get is out.
theorem Partial.Spans.next (h : q.Spans n) (hlow : q.low ≤ b) (hhigh : b ≤ q.high) :
    let bits := q.payload * 64 + b.toNat % 64
    (q.more = 0 → n + 1 ≤ (encode [Char.ofNat bits]).length) ∧
    ∀ more, q.more = more + 1 → (⟨bits, 0x80, 0xBF, more⟩ : Partial).Spans (n + 1) := by
  obtain ⟨hproper, hpos, hbounds⟩ := h
  have hbits := hproper.next hlow hhigh
  have hfirst := hproper.low
  have hlast := hproper.high
  rw [UInt8.le_iff_toNat_le] at hlow hhigh
  refine ⟨fun hmore => ?last, fun more hmore => ⟨⟨by simp, by simp, ?bits⟩, Nat.le_add_left _ _, ?more⟩⟩
  case last =>
    rw [hmore] at hbounds
    simp only [InWidth, Nat.pow_zero, Nat.mul_one] at hbounds
    rw [length_encode_singleton, utf8Size_ofNat (by simp only [Nat.isValidChar]; omega)]
    repeat' split
    all_goals omega
  case more =>
    have hle : more ≤ 1 := by
      unfold InWidth at hbounds
      omega
    rw [hmore] at hbounds
    obtain rfl | rfl := Nat.le_one_iff_eq_zero_or_eq_one.mp hle
    all_goals
      simp [InWidth] at hbounds ⊢
      omega
  case bits =>
    dsimp only
    omega

theorem decodeFirst_pending (b : UInt8) :
    ∃ n, Pending (decodeFirst b).2 n ∧ 1 ≤ (encode (decodeFirst b).1).length + n := by
  unfold decodeFirst
  split
  case isTrue =>
    refine ⟨0, .none, ?_⟩
    rw [length_encode_singleton]
    exact Char.utf8Size_pos _
  case isFalse =>
    split
    case h_1 hlead => exact ⟨1, .some (Partial.spans_of_lead hlead), by simp⟩
    case h_2 => exact ⟨0, .none, by decide⟩

theorem decodeByte_pending (h : Pending p n) (b : UInt8) :
    ∃ m, Pending (decodeByte p b).2 m ∧ n + 1 ≤ (encode (decodeByte p b).1).length + m := by
  cases h
  case none => exact decodeFirst_pending b
  case some q h =>
    by_cases hrange : q.low ≤ b ∧ b ≤ q.high
    case pos =>
      obtain ⟨hlast, hmore⟩ := h.next hrange.1 hrange.2
      rw [decodeByte_of_mem hrange]
      split
      case h_1 hzero => exact ⟨0, .none, hlast hzero⟩
      case h_2 hsucc => exact ⟨n + 1, .some (hmore _ hsucc), Nat.le_add_left _ _⟩
    case neg =>
      obtain ⟨m, hnext, hlength⟩ := decodeFirst_pending b
      have hread : n ≤ 3 := by
        have := h.bounds
        unfold InWidth at this
        omega
      have hreplacement : (encode [replacement]).length = 3 := by decide
      rw [decodeByte_of_not_mem hrange]
      refine ⟨m, hnext, ?_⟩
      rw [← List.singleton_append, encode_append, List.length_append]
      omega

-- What is read takes up no less than its bytes.
theorem length_le_encode_decodeFrom (h : Pending p n) : bs.length + n ≤ (encode (decodeFrom p bs)).length := by
  induction bs generalizing p n
  case nil =>
    cases h
    case none => exact Nat.zero_le _
    case some q h =>
      have hreplacement : (encode (decodeFrom (some q) [])).length = 3 := rfl
      have := h.bounds
      unfold InWidth at this
      rw [hreplacement, List.length_nil]
      omega
  case cons b bs ih =>
    obtain ⟨m, hnext, hlength⟩ := decodeByte_pending h b
    have := ih hnext
    rw [decodeFrom_cons, encode_append, List.length_append, List.length_cons]
    omega

theorem length_le_encode_decode (bs : List UInt8) : bs.length ≤ (encode (decode bs)).length :=
  length_le_encode_decodeFrom .none

end Sizes

end BasicFrontEnd.Text
