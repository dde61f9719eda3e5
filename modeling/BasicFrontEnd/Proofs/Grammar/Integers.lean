import BasicFrontEnd.Grammar.Number
import Mathlib.Logic.Basic

/-!
The integers that tokens write. Digits, however many they are, write an integer literal if the number fits in 64 bits
together with its sign; otherwise the token is at fault. A token that comes from no source may have the sign in its
text.
-/

namespace BasicFrontEnd

namespace Token

-- The token consists of digits.
structure WritesInteger (t : Token) : Prop where
  kind   : t.kind = .integer
  nonnil : t.value.toList ≠ []
  digits : ∀ c ∈ t.value.toList, c.isDigit = true

-- The number that the digits of the token write.
def magnitude (t : Token) : Nat :=
  Nat.ofDigitChars 10 t.value.toList 0

end Token

namespace Grammar

-- The least integer, whose magnitude is the 63rd power of 2, has a magnitude greater by one than the greatest.
def greatestMagnitude (negative : Bool) : Nat :=
  if negative then 0x8000000000000000 else 0x7FFFFFFFFFFFFFFF

def signed (negative : Bool) (magnitude : Nat) : Int :=
  if negative then -magnitude else magnitude

def signedText (negative : Bool) (digits : String) : String :=
  if negative then "-" ++ digits else digits

variable {magnitude : Nat} {negative : Bool} {t : Token}

theorem digitsValue_eq (ds : List Char) : Binary64.digitsValue ds = Nat.ofDigitChars 10 ds 0 := by
  rw [Nat.ofDigitChars_eq_foldl, Binary64.digitsValue]
  simp only [Nat.mul_comm]

theorem le_signed_and_signed_le_iff :
    Int64.minValue.toInt ≤ signed negative magnitude ∧ signed negative magnitude ≤ Int64.maxValue.toInt ↔
      magnitude ≤ greatestMagnitude negative := by
  have hleast : Int64.minValue.toInt = -0x8000000000000000 := rfl
  have hgreatest : Int64.maxValue.toInt = 0x7FFFFFFFFFFFFFFF := rfl
  cases negative <;> simp only [signed, greatestMagnitude, hleast, hgreatest, if_true, Bool.false_eq_true, if_false] <;>
    omega

theorem toInt_signed (h : magnitude ≤ greatestMagnitude negative) :
    (Int64.ofInt (signed negative magnitude)).toInt = signed negative magnitude := by
  obtain ⟨hle, hge⟩ := le_signed_and_signed_le_iff.mpr h
  exact Int64.toInt_ofInt_of_le hle (Int.lt_of_le_sub_one hge)

-- Digits have no sign of their own.
theorem splitSign_of_isDigit {digits : List Char} (hdigits : ∀ c ∈ digits, c.isDigit = true) :
    Binary64.splitSign digits = (false, digits) := by
  unfold Binary64.splitSign
  split
  case h_1 | h_2 => exact absurd (hdigits _ List.mem_cons_self) (by decide)
  case h_3 => rfl

/-- The text is digits with at most one sign: a minus that comes before the text, a sign at its front, or none. -/
inductive SignedDigits : (behindMinus : Bool) → (text : List Char) → (negative : Bool) → (digits : List Char) → Prop
  | behind : SignedDigits true digits true digits
  | minus  : SignedDigits false ('-' :: digits) true digits
  | plus   : SignedDigits false ('+' :: digits) false digits
  | bare   : SignedDigits false digits false digits

section Signs

variable {behindMinus : Bool} {text digits : List Char}

theorem integer?_of_signedDigits (h : SignedDigits behindMinus text negative digits) (hne : digits ≠ [])
    (hdigits : ∀ c ∈ digits, c.isDigit = true) :
    integer? behindMinus text =
      if Nat.ofDigitChars 10 digits 0 ≤ greatestMagnitude negative then
        some (Int64.ofInt (signed negative (Nat.ofDigitChars 10 digits 0)))
      else none := by
  have hsplit : (if behindMinus then (true, text) else Binary64.splitSign text) = (negative, digits) := by
    cases h
    case bare => exact splitSign_of_isDigit hdigits
    all_goals rfl
  have hnumber : ¬(digits.isEmpty || !digits.all Char.isDigit) = true := by
    rw [List.all_eq_true.mpr hdigits, List.isEmpty_eq_false_iff.mpr hne]
    decide
  unfold integer?
  rw [hsplit]
  dsimp only
  rw [digitsValue_eq]
  exact (if_neg hnumber).trans <| if_congr le_signed_and_signed_le_iff rfl rfl

theorem exists_signedDigits_of_integer? (h : integer? behindMinus text = some n) :
    ∃ negative digits, SignedDigits behindMinus text negative digits ∧ digits ≠ [] ∧
      ∀ c ∈ digits, c.isDigit = true := by
  have hsigned : SignedDigits behindMinus text
      (if behindMinus then (true, text) else Binary64.splitSign text).1
      (if behindMinus then (true, text) else Binary64.splitSign text).2 := by
    cases behindMinus
    case true => exact .behind
    case false =>
      simp only [Bool.false_eq_true, if_false]
      unfold Binary64.splitSign
      split
      case h_1 => exact .minus
      case h_2 => exact .plus
      case h_3 => exact .bare
  refine ⟨_, _, hsigned, ?_⟩
  unfold integer? at h
  generalize (if behindMinus then (true, text) else Binary64.splitSign text) = split at h
  dsimp only at h
  by_cases hnumber : (split.2.isEmpty || !split.2.all Char.isDigit) = true
  case pos => cases (if_pos hnumber).symm.trans h
  case neg => simpa using hnumber

-- The integers that are read are those that fit in 64 bits, written in digits with at most one sign.
theorem integer?_eq_some_iff :
    integer? behindMinus text = some n ↔ ∃ negative digits, SignedDigits behindMinus text negative digits ∧
      digits ≠ [] ∧ (∀ c ∈ digits, c.isDigit = true) ∧ n.toInt = signed negative (Nat.ofDigitChars 10 digits 0) := by
  refine ⟨fun h => ?read, ?written⟩
  case read =>
    obtain ⟨negative, digits, hsigned, hne, hdigits⟩ := exists_signedDigits_of_integer? h
    refine ⟨negative, digits, hsigned, hne, hdigits, ?_⟩
    rw [integer?_of_signedDigits hsigned hne hdigits] at h
    obtain ⟨hfits, hn⟩ := Option.ite_none_right_eq_some.mp h
    rw [← Option.some.inj hn, toInt_signed hfits]
  case written =>
    rintro ⟨negative, digits, hsigned, hne, hdigits, hn⟩
    have hfits : Nat.ofDigitChars 10 digits 0 ≤ greatestMagnitude negative :=
      le_signed_and_signed_le_iff.mp (hn ▸ ⟨n.minValue_le_toInt, n.toInt_le⟩)
    rw [integer?_of_signedDigits hsigned hne hdigits, if_pos hfits, ← hn, Int64.ofInt_toInt]

example : integer? false ['+', '5'] = some 5 ∧ integer? true ['+', '5'] = none := by decide

end Signs

theorem integer?_of_writesInteger (h : t.WritesInteger) (negative : Bool) :
    integer? negative t.value.toList =
      if t.magnitude ≤ greatestMagnitude negative then some (Int64.ofInt (signed negative t.magnitude)) else none := by
  refine integer?_of_signedDigits ?_ h.nonnil h.digits
  cases negative
  case false => exact .bare
  case true => exact .behind

theorem number_of_writesInteger (h : t.WritesInteger) (negative : Bool) :
    number t negative =
      if t.magnitude ≤ greatestMagnitude negative then .ok (.integer (Int64.ofInt (signed negative t.magnitude)))
      else .error (t.fault (.badNumber (signedText negative t.value))) := by
  have hinteger := integer?_of_writesInteger h negative
  by_cases hle : t.magnitude ≤ greatestMagnitude negative
  case pos =>
    rw [if_pos hle] at hinteger ⊢
    simp only [number, h.kind, hinteger, reduceCtorEq, if_false, Option.map_some]
  case neg =>
    rw [if_neg hle] at hinteger ⊢
    simp only [number, h.kind, hinteger, reduceCtorEq, if_false, Option.map_none]
    rfl

end Grammar
end BasicFrontEnd
