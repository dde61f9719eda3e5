import BasicFrontEnd.Text.Blank
import BasicFrontEnd.Text.Utf8
import Mathlib.Data.List.Basic

/-!
Reading bytes as text, line by line or at once: a line feed neither belongs to a character of more bytes nor is made
from one, and nothing is pending behind it. What has been written as bytes is read back. Main statements:
`map_decode_splitAfter` and `decode_encode`.
-/

namespace BasicFrontEnd.Text

variable {p : Option Partial} {q : Partial} {b : UInt8} {c : Char} {bs line rest : List UInt8}

section Splits

variable {α : Type} {cut : α → Bool} {xs ys : List α} {x : α}

theorem splitAfter_of_forall (h : ∀ x ∈ xs, cut x = false) (hne : xs ≠ []) : splitAfter cut xs = [xs] := by
  induction xs
  case nil => exact absurd rfl hne
  case cons x xs ih =>
    rw [List.forall_mem_cons] at h
    rw [splitAfter, if_neg (by simp [h.1])]
    cases xs
    case nil => rfl
    case cons => rw [ih h.2 (List.cons_ne_nil _ _)]

theorem splitAfter_append_cons (h : ∀ x ∈ xs, cut x = false) (hx : cut x = true) :
    splitAfter cut (xs ++ x :: ys) = (xs ++ [x]) :: splitAfter cut ys := by
  induction xs
  case nil => rw [List.nil_append, splitAfter, if_pos hx, List.nil_append]
  case cons y xs ih =>
    rw [List.forall_mem_cons] at h
    rw [List.cons_append, splitAfter, if_neg (by simp [h.1]), ih h.2, List.cons_append]

theorem forall_beq_eq_false [BEq α] [LawfulBEq α] (h : x ∉ xs) : ∀ y ∈ xs, (y == x) = false :=
  fun _ hy => beq_false_of_ne (ne_of_mem_of_not_mem hy h)

end Splits

section Pending

-- What is begun goes on with bytes that begin no character, and makes no character of one byte.
structure Partial.Proper (q : Partial) : Prop where
  low  : 0x80 ≤ q.low.toNat
  high : q.high.toNat ≤ 0xBF
  bits : 0x10 ≤ q.payload * 64 + q.low.toNat % 64

theorem Partial.proper_of_lead (h : Partial.ofLead? b = some q) : q.Proper := by
  simp only [Partial.ofLead?, UInt8.le_iff_toNat_le, UInt8.reduceToNat] at h
  repeat' split at h
  all_goals try contradiction
  all_goals
    obtain rfl := Option.some.inj h
    constructor <;> simp <;> omega

theorem Partial.Proper.next (h : q.Proper) (hlow : q.low ≤ b) (hhigh : b ≤ q.high) :
    0x10 ≤ q.payload * 64 + b.toNat % 64 := by
  have := h.low
  have := h.high
  have := h.bits
  rw [UInt8.le_iff_toNat_le] at hlow hhigh
  omega

theorem proper_decodeFirst : ∀ q ∈ (decodeFirst b).2, q.Proper := by
  unfold decodeFirst
  split
  case isTrue => simp
  case isFalse =>
    split
    case h_1 hlead => exact fun _ hq => Option.some.inj hq ▸ Partial.proper_of_lead hlead
    case h_2 => simp

theorem decodeByte_of_mem (h : q.low ≤ b ∧ b ≤ q.high) :
    decodeByte (some q) b = match q.more with
      | 0     => ([Char.ofNat (q.payload * 64 + b.toNat % 64)], none)
      | n + 1 => ([], some ⟨q.payload * 64 + b.toNat % 64, 0x80, 0xBF, n⟩) :=
  if_pos h

theorem decodeByte_of_not_mem (h : ¬(q.low ≤ b ∧ b ≤ q.high)) :
    decodeByte (some q) b = (replacement :: (decodeFirst b).1, (decodeFirst b).2) :=
  if_neg h

theorem proper_decodeByte (hp : ∀ q ∈ p, q.Proper) : ∀ q ∈ (decodeByte p b).2, q.Proper := by
  cases p
  case none => exact proper_decodeFirst
  case some q =>
    by_cases hrange : q.low ≤ b ∧ b ≤ q.high
    case neg =>
      rw [decodeByte_of_not_mem hrange]
      exact proper_decodeFirst
    case pos =>
      have hbits := (hp q rfl).next hrange.1 hrange.2
      rw [decodeByte_of_mem hrange]
      split
      case h_1 => simp
      case h_2 =>
        refine fun _ hq => Option.some.inj hq ▸ ⟨by simp, by simp, ?_⟩
        dsimp only
        omega

-- A character that only one byte stands for, whatever comes before it.
def IsControl (c : Char) : Prop :=
  0 < c.toNat ∧ c.toNat < 0x10

theorem isControl_lineFeed : IsControl '\n' :=
  ⟨by decide, by decide⟩

theorem isControl_carriageReturn : IsControl '\r' :=
  ⟨by decide, by decide⟩

theorem IsControl.ofNat_ne (hc : IsControl c) {n : Nat} (h : n ≠ c.toNat) : Char.ofNat n ≠ c := by
  intro heq
  by_cases hvalid : n.isValidChar
  case pos =>
    have hchar : Char.ofNat n = Char.ofNatAux n hvalid := dif_pos hvalid
    exact h (congrArg Char.toNat (hchar.symm.trans heq))
  case neg =>
    have hchar : Char.ofNat n = Char.ofNat 0 := dif_neg hvalid
    exact Nat.ne_of_gt hc.1 (congrArg Char.toNat (heq.symm.trans hchar))

theorem IsControl.ne_replacement (hc : IsControl c) : c ≠ replacement := by
  rintro rfl
  exact absurd hc.2 (by decide)

theorem IsControl.not_mem_decodeFirst (hc : IsControl c) (hb : b.toNat ≠ c.toNat) : c ∉ (decodeFirst b).1 := by
  unfold decodeFirst
  split
  case isTrue => simpa using (hc.ofNat_ne hb).symm
  case isFalse =>
    split
    case h_1 => simp
    case h_2 => simpa using hc.ne_replacement

-- One more byte that is not the character's does not make it.
theorem IsControl.not_mem_decodeByte (hc : IsControl c) (hp : ∀ q ∈ p, q.Proper) (hb : b.toNat ≠ c.toNat) :
    c ∉ (decodeByte p b).1 := by
  cases p
  case none => exact hc.not_mem_decodeFirst hb
  case some q =>
    by_cases hrange : q.low ≤ b ∧ b ≤ q.high
    case neg =>
      rw [decodeByte_of_not_mem hrange, List.mem_cons, not_or]
      exact ⟨hc.ne_replacement, hc.not_mem_decodeFirst hb⟩
    case pos =>
      have hbits := (hp q rfl).next hrange.1 hrange.2
      have hsmall := hc.2
      rw [decodeByte_of_mem hrange]
      split
      case h_1 => simpa using (hc.ofNat_ne (by omega)).symm
      case h_2 => simp

-- Each byte completes a character or leaves one begun.
theorem decodeByte_ne_nil (h : (decodeByte p b).2 = none) : (decodeByte p b).1 ≠ [] := by
  cases p
  case none =>
    have hfirst : (decodeFirst b).2 = none → (decodeFirst b).1 ≠ [] := by
      unfold decodeFirst
      repeat' split
      all_goals simp
    exact hfirst h
  case some q =>
    by_cases hrange : q.low ≤ b ∧ b ≤ q.high
    case neg =>
      rw [decodeByte_of_not_mem hrange]
      exact List.cons_ne_nil _ _
    case pos =>
      rw [decodeByte_of_mem hrange] at h ⊢
      cases hmore : q.more <;> simp [hmore] at h ⊢

end Pending

section Lines

theorem decodeFrom_cons (p : Option Partial) (b : UInt8) (bs : List UInt8) :
    decodeFrom p (b :: bs) = (decodeByte p b).1 ++ decodeFrom (decodeByte p b).2 bs := by
  cases p <;> rfl

theorem IsControl.not_mem_decodeFrom (hc : IsControl c) (hp : ∀ q ∈ p, q.Proper)
    (hline : ∀ b ∈ line, b.toNat ≠ c.toNat) : c ∉ decodeFrom p line := by
  induction line generalizing p
  case nil =>
    cases p
    case none => exact List.not_mem_nil
    case some => simpa [decodeFrom] using hc.ne_replacement
  case cons b line ih =>
    rw [List.forall_mem_cons] at hline
    rw [decodeFrom_cons, List.mem_append, not_or]
    exact ⟨hc.not_mem_decodeByte hp hline.1, ih (proper_decodeByte hp) hline.2⟩

-- At a byte of its own, what is begun is given up, and reading starts anew.
theorem decodeFrom_append_cons (hp : ∀ q ∈ p, q.Proper) (hb : b.toNat < 0x80) (rest : List UInt8) :
    decodeFrom p (line ++ b :: rest) = decodeFrom p line ++ decode (b :: rest) := by
  induction line generalizing p
  case nil =>
    cases p
    case none => rfl
    case some q =>
      have hrange : ¬(q.low ≤ b ∧ b ≤ q.high) := by
        have hlow := (hp q rfl).low
        rw [UInt8.le_iff_toNat_le]
        omega
      rw [List.nil_append, decodeFrom_cons, decodeByte_of_not_mem hrange]
      rfl
  case cons b' line ih =>
    rw [List.cons_append, decodeFrom_cons, ih (proper_decodeByte hp), decodeFrom_cons, List.append_assoc]

theorem decodeFrom_eq_nil (h : decodeFrom p bs = []) : p = none ∧ bs = [] := by
  induction bs generalizing p
  case nil => cases p <;> simp_all [decodeFrom]
  case cons b bs ih =>
    rw [decodeFrom_cons, List.append_eq_nil_iff] at h
    exact absurd h.1 (decodeByte_ne_nil (ih h.2).1)

theorem toNat_ne_of_not_mem (h : b ∉ bs) : ∀ b' ∈ bs, b'.toNat ≠ b.toNat :=
  fun _ hb' heq => h (UInt8.toNat_inj.mp heq ▸ hb')

-- The lines of the text are the texts of the lines.
theorem map_decode_splitAfter (bs : List UInt8) :
    (splitAfter (· == 0x0A) bs).map decode = splitAfter (· == '\n') (decode bs) := by
  induction hlength : bs.length using Nat.strongRecOn generalizing bs
  case ind n ih =>
    have hnone : ∀ q ∈ (none : Option Partial), q.Proper := by simp
    by_cases hmem : 0x0A ∈ bs
    case pos =>
      obtain ⟨line, rest, rfl, hline⟩ := List.eq_append_cons_of_mem hmem
      have hdecode (rest : List UInt8) : decode (line ++ 0x0A :: rest) = decode line ++ '\n' :: decode rest :=
        decodeFrom_append_cons hnone (by decide) rest
      have hchars : '\n' ∉ decode line := isControl_lineFeed.not_mem_decodeFrom hnone (toNat_ne_of_not_mem hline)
      have hrest := ih rest.length (by simp [← hlength]; omega) rest rfl
      have hpiece : decode (line ++ [0x0A]) = decode line ++ ['\n'] := hdecode []
      rw [splitAfter_append_cons (forall_beq_eq_false hline) rfl, List.map_cons, hpiece, hdecode,
        splitAfter_append_cons (forall_beq_eq_false hchars) rfl, hrest]
    case neg =>
      by_cases hnil : bs = []
      case pos => rw [hnil]; rfl
      case neg =>
        have hchars : '\n' ∉ decode bs := isControl_lineFeed.not_mem_decodeFrom hnone (toNat_ne_of_not_mem hmem)
        have hne : decode bs ≠ [] := fun h => hnil (decodeFrom_eq_nil h).2
        rw [splitAfter_of_forall (forall_beq_eq_false hmem) hnil,
          splitAfter_of_forall (forall_beq_eq_false hchars) hne, List.map_singleton]

-- What a line feed cuts off is one character, and so is what would have gone on with it.
example : decode [0xE2, 0x82, 0x0A, 0x82] = [replacement, '\n', replacement] := by decide

end Lines

section Encoding

variable {payload more v n : Nat} {low high : UInt8}

theorem toNat_continuation (n : Nat) : (UInt8.ofNat (n % 64 + 128)).toNat = n % 64 + 128 := by
  simp
  omega

theorem decodeByte_continuation (hlow : low.toNat ≤ n % 64 + 128) (hhigh : n % 64 + 128 ≤ high.toNat) :
    decodeByte (some ⟨payload, low, high, more⟩) (UInt8.ofNat (n % 64 + 128)) = match more with
      | 0        => ([Char.ofNat (payload * 64 + n % 64)], none)
      | more + 1 => ([], some ⟨payload * 64 + n % 64, 0x80, 0xBF, more⟩) := by
  have hbits : (n % 64 + 128) % 64 = n % 64 := by omega
  have hrange : low ≤ UInt8.ofNat (n % 64 + 128) ∧ UInt8.ofNat (n % 64 + 128) ≤ high := by
    simp only [UInt8.le_iff_toNat_le, toNat_continuation]
    exact ⟨hlow, hhigh⟩
  rw [decodeByte_of_mem hrange, toNat_continuation, hbits]

theorem decodeFrom_last (hlow : low.toNat ≤ n % 64 + 128) (hhigh : n % 64 + 128 ≤ high.toNat) :
    decodeFrom (some ⟨payload, low, high, 0⟩) (UInt8.ofNat (n % 64 + 128) :: rest) =
      Char.ofNat (payload * 64 + n % 64) :: decode rest := by
  rw [decodeFrom_cons, decodeByte_continuation hlow hhigh]
  rfl

theorem decodeFrom_more (hlow : low.toNat ≤ n % 64 + 128) (hhigh : n % 64 + 128 ≤ high.toNat) :
    decodeFrom (some ⟨payload, low, high, more + 1⟩) (UInt8.ofNat (n % 64 + 128) :: rest) =
      decodeFrom (some ⟨payload * 64 + n % 64, 0x80, 0xBF, more⟩) rest := by
  rw [decodeFrom_cons, decodeByte_continuation hlow hhigh]
  rfl

theorem decodeFrom_lead {b : UInt8} (h : Partial.ofLead? b = some q) (hb : 0x80 ≤ b.toNat) :
    decode (b :: rest) = decodeFrom (some q) rest := by
  have hlarge : ¬b < 0x80 := by
    simp only [UInt8.lt_iff_toNat_lt, UInt8.reduceToNat]
    omega
  rw [decode, decodeFrom_cons, decodeByte, decodeFirst, if_neg hlarge, h]
  rfl

-- The range of the byte behind one that announces three.
theorem exists_ofLead?_three (hlow : 0x7FF < v) (hhigh : v ≤ 0xFFFF) (hvalid : v.isValidChar) :
    ∃ low high, Partial.ofLead? (UInt8.ofNat (v / 4096 % 16 + 224)) = some ⟨v / 4096, low, high, 1⟩ ∧
      low.toNat ≤ v / 64 % 64 + 128 ∧ v / 64 % 64 + 128 ≤ high.toNat := by
  have hbyte : (UInt8.ofNat (v / 4096 % 16 + 224)).toNat = v / 4096 + 224 := by simp; omega
  have hpayload : (v / 4096 + 224) % 16 = v / 4096 := by omega
  simp only [Nat.isValidChar] at hvalid
  simp only [Partial.ofLead?, UInt8.le_iff_toNat_le, ← UInt8.toNat_inj, hbyte, hpayload, UInt8.reduceToNat]
  by_cases hzero : v / 4096 = 0
  case pos => exact ⟨0xA0, 0xBF, by simp [hzero], by simp only [UInt8.reduceToNat]; omega, by simp; omega⟩
  case neg =>
    by_cases hsurrogate : v / 4096 = 13
    case pos => exact ⟨0x80, 0x9F, by simp [hsurrogate], by simp, by simp only [UInt8.reduceToNat]; omega⟩
    case neg =>
      refine ⟨0x80, 0xBF, ?_, by simp, by simp; omega⟩
      rw [if_neg (by omega), if_neg (by omega), if_neg (by omega), if_pos (by omega)]

-- The range of the byte behind one that announces four.
theorem exists_ofLead?_four (hlow : 0xFFFF < v) (hvalid : v.isValidChar) :
    ∃ low high, Partial.ofLead? (UInt8.ofNat (v / 262144 % 8 + 240)) = some ⟨v / 262144, low, high, 2⟩ ∧
      low.toNat ≤ v / 4096 % 64 + 128 ∧ v / 4096 % 64 + 128 ≤ high.toNat := by
  simp only [Nat.isValidChar] at hvalid
  have hbyte : (UInt8.ofNat (v / 262144 % 8 + 240)).toNat = v / 262144 + 240 := by simp; omega
  have hpayload : (v / 262144 + 240) % 8 = v / 262144 := by omega
  simp only [Partial.ofLead?, UInt8.le_iff_toNat_le, ← UInt8.toNat_inj, hbyte, hpayload, UInt8.reduceToNat]
  by_cases hzero : v / 262144 = 0
  case pos => exact ⟨0x90, 0xBF, by simp [hzero], by simp only [UInt8.reduceToNat]; omega, by simp; omega⟩
  case neg =>
    by_cases hlast : v / 262144 = 4
    case pos => exact ⟨0x80, 0x8F, by simp [hlast], by simp, by simp only [UInt8.reduceToNat]; omega⟩
    case neg =>
      refine ⟨0x80, 0xBF, ?_, by simp, by simp; omega⟩
      rw [if_neg (by omega), if_neg (by omega), if_neg (by omega), if_neg (by omega), if_neg (by omega),
        if_pos (by omega)]

theorem ofLead?_two (hlow : 0x7F < v) (hhigh : v ≤ 0x7FF) :
    Partial.ofLead? (UInt8.ofNat (v / 64 % 32 + 192)) = some ⟨v / 64, 0x80, 0xBF, 0⟩ := by
  have hbyte : (UInt8.ofNat (v / 64 % 32 + 192)).toNat = v / 64 + 192 := by simp; omega
  have hpayload : (v / 64 + 192) % 32 = v / 64 := by omega
  simp only [Partial.ofLead?, UInt8.le_iff_toNat_le, hbyte, hpayload, UInt8.reduceToNat]
  exact if_pos (by omega)

theorem decode_ascii (h : v ≤ 0x7F) : decode (UInt8.ofNat v :: rest) = Char.ofNat v :: decode rest := by
  have hbyte : (UInt8.ofNat v).toNat = v := by simp; omega
  have hsmall : UInt8.ofNat v < 0x80 := by
    simp only [UInt8.lt_iff_toNat_lt, hbyte, UInt8.reduceToNat]
    omega
  rw [decode, decodeFrom_cons, decodeByte, decodeFirst, if_pos hsmall, hbyte]
  rfl

-- The cases are those of the number of bytes.
theorem decode_encodeChar_append (c : Char) (rest : List UInt8) :
    decode (String.utf8EncodeChar c ++ rest) = c :: decode rest := by
  have hvalid : c.val.toNat.isValidChar := c.valid
  have hchar : ∀ {n : Nat}, n = c.val.toNat → Char.ofNat n = c := fun h => h ▸ c.ofNat_toNat
  unfold String.utf8EncodeChar
  dsimp only
  generalize c.val.toNat = v at hvalid hchar ⊢
  split
  case isTrue h => rw [List.singleton_append, decode_ascii h, hchar rfl]
  case isFalse h =>
    split
    case isTrue h' =>
      rw [List.cons_append, List.singleton_append, decodeFrom_lead (ofLead?_two (by omega) h') (by simp; omega),
        decodeFrom_last (by simp) (by simp; omega), hchar (by omega)]
    case isFalse h' =>
      split
      case isTrue h'' =>
        obtain ⟨low, high, hlead, hlow, hhigh⟩ := exists_ofLead?_three (by omega) h'' hvalid
        rw [List.cons_append, List.cons_append, List.singleton_append, decodeFrom_lead hlead (by simp; omega),
          decodeFrom_more hlow hhigh, decodeFrom_last (by simp) (by simp; omega), hchar (by omega)]
      case isFalse h'' =>
        obtain ⟨low, high, hlead, hlow, hhigh⟩ := exists_ofLead?_four (by omega) hvalid
        rw [List.cons_append, List.cons_append, List.cons_append, List.singleton_append,
          decodeFrom_lead hlead (by simp; omega), decodeFrom_more hlow hhigh,
          decodeFrom_more (by simp) (by simp; omega), decodeFrom_last (by simp) (by simp; omega), hchar (by omega)]

theorem decode_encode (cs : List Char) : decode (encode cs) = cs := by
  induction cs
  case nil => rfl
  case cons c cs ih => rw [encode, List.flatMap_cons, decode_encodeChar_append, ← encode, ih]

end Encoding

end BasicFrontEnd.Text
