import BasicFrontEnd.Text.Quoted
import Mathlib.Data.List.Basic

/-!
A quoted text tells its characters: what writes a character ends by itself, and no two characters are written the
same. Nor do characters stand within the quotes that are not graphic. Main statements: `quoted_inj` and
`not_mem_quoted`.
-/

namespace BasicFrontEnd.Text

section Digits

variable {c : Char} {n m : Nat}

theorem digitChar_mem : ∀ n < 16, n.digitChar ∈ "0123456789abcdef".toList := by
  decide

theorem digitChar_inj : ∀ n < 16, ∀ m < 16, n.digitChar = m.digitChar → n = m := by
  decide

theorem hexDigits_of_lt (h : n < 16) : hexDigits n = [n.digitChar] := by
  rw [hexDigits, Nat.toDigits_eq_if (by decide), if_pos h]

theorem hexDigits_of_le (h : 16 ≤ n) : hexDigits n = hexDigits (n / 16) ++ [(n % 16).digitChar] := by
  rw [hexDigits, Nat.toDigits_eq_if (by decide), if_neg (by omega), hexDigits]

theorem hexDigits_ne_nil : hexDigits n ≠ [] :=
  Nat.toDigits_ne_nil

theorem mem_hexDigits (h : c ∈ hexDigits n) : c ∈ "0123456789abcdef".toList := by
  induction n using Nat.strongRecOn
  case ind n ih =>
    obtain hn | hn := Nat.lt_or_ge n 16
    case inl =>
      rw [hexDigits_of_lt hn, List.mem_singleton] at h
      exact h ▸ digitChar_mem n hn
    case inr =>
      rw [hexDigits_of_le hn, List.mem_append, List.mem_singleton] at h
      obtain h | rfl := h
      case inl => exact ih (n / 16) (by omega) h
      case inr => exact digitChar_mem _ (Nat.mod_lt _ (by decide))

theorem hexDigits_ne (hn : n < 16) (hm : 16 ≤ m) : hexDigits n ≠ hexDigits m := fun h => by
  rw [hexDigits_of_lt hn, hexDigits_of_le hm] at h
  have hlength := congrArg List.length h
  have hpos := List.length_pos_iff.mpr (hexDigits_ne_nil (n := m / 16))
  simp only [List.length_append, List.length_singleton] at hlength
  omega

-- The last digit is told by the remainder, and the digits before it by the quotient.
theorem hexDigits_inj (h : hexDigits n = hexDigits m) : n = m := by
  induction n using Nat.strongRecOn generalizing m
  case ind n ih =>
    obtain hn | hn := Nat.lt_or_ge n 16 <;> obtain hm | hm := Nat.lt_or_ge m 16
    case inl.inl =>
      rw [hexDigits_of_lt hn, hexDigits_of_lt hm] at h
      exact digitChar_inj n hn m hm (List.singleton_inj.mp h)
    case inl.inr => exact absurd h (hexDigits_ne hn hm)
    case inr.inl => exact absurd h.symm (hexDigits_ne hm hn)
    case inr.inr =>
      rw [hexDigits_of_le hn, hexDigits_of_le hm] at h
      obtain ⟨hdiv, hmod⟩ := List.append_inj' h rfl
      have hdiv := ih (n / 16) (by omega) hdiv
      have hmod := digitChar_inj _ (Nat.mod_lt _ (by decide)) _ (Nat.mod_lt _ (by decide)) (List.singleton_inj.mp hmod)
      omega

end Digits

section Lists

variable {α : Type} {x : α} {us vs xs ys : List α}

-- What stands in front of the first `x` is told, and so is what stands behind it.
theorem append_cons_inj (hus : x ∉ us) (hvs : x ∉ vs) (h : us ++ x :: xs = vs ++ x :: ys) : us = vs ∧ xs = ys := by
  induction us generalizing vs
  case nil =>
    cases vs
    case nil => exact ⟨rfl, List.tail_eq_of_cons_eq h⟩
    case cons v vs => exact absurd (List.head_eq_of_cons_eq h) (List.ne_of_not_mem_cons hvs)
  case cons u us ih =>
    cases vs
    case nil => exact absurd (List.head_eq_of_cons_eq h).symm (List.ne_of_not_mem_cons hus)
    case cons v vs =>
      obtain ⟨rfl, htail⟩ := List.cons_eq_cons.mp h
      obtain ⟨rfl, rfl⟩ := ih (List.not_mem_of_not_mem_cons hus) (List.not_mem_of_not_mem_cons hvs) htail
      exact ⟨rfl, rfl⟩

end Lists

section Escapes

variable {quote d : Char} {us vs xs ys : List Char}

-- The characters that are written as a backslash and a letter, with their letters.
def letters (quote : Char) : List (Char × Char) :=
  [('\x00', '0'), ('\t', 't'), ('\r', 'r'), ('\n', 'n'), ('\\', '\\'), (quote, quote)]

-- The ways a character may be written.
inductive Escapes (quote : Char) : Char → List Char → Prop
  | letter (c l : Char) : (c, l) ∈ letters quote → Escapes quote c ['\\', l]
  | itself (c : Char) : c ≠ '\\' → c ≠ '\n' → Escapes quote c [c]
  | number (c : Char) : Escapes quote c ('\\' :: 'u' :: '\x7b' :: (hexDigits c.toNat ++ ['\x7d']))

theorem escapes_escape (quote c : Char) : Escapes quote c (escape quote c) := by
  fun_cases escape
  case case1 h => exact .letter c '0' (by simp [letters, h])
  case case2 h => exact .letter c 't' (by simp [letters, h])
  case case3 h => exact .letter c 'r' (by simp [letters, h])
  case case4 h => exact .letter c 'n' (by simp [letters, h])
  case case5 h => exact .letter c c (by obtain rfl | rfl := h <;> simp [letters])
  case case6 hlineFeed h _ => exact .itself c (fun hc => h (.inl hc)) hlineFeed
  case case7 => exact .number c

-- The letters tell the characters, and none of them begins a number.
theorem letters_inj : ∀ p ∈ letters '"', p.2 ≠ 'u' ∧ ∀ q ∈ letters '"', p.2 = q.2 → p.1 = q.1 := by
  decide

theorem Escapes.append_inj (h : Escapes '"' c us) (h' : Escapes '"' d vs) (heq : us ++ xs = vs ++ ys) :
    c = d ∧ xs = ys := by
  have hbrace {n : Nat} : '\x7d' ∉ hexDigits n := fun h => absurd (mem_hexDigits h) (by decide)
  cases h <;> cases h' <;>
    simp only [List.cons_append, List.nil_append, List.append_assoc, List.cons_eq_cons, true_and] at heq
  case letter.letter hc _ hd =>
    obtain ⟨hl, rfl⟩ := heq
    exact ⟨(letters_inj _ hc).2 _ hd hl, rfl⟩
  case letter.number hc => exact absurd heq.1 (letters_inj _ hc).1
  case number.letter hd => exact absurd heq.1.symm (letters_inj _ hd).1
  case letter.itself hne _ => exact absurd heq.1.symm hne
  case itself.letter hne _ _ _ => exact absurd heq.1 hne
  case itself.itself => exact heq
  case itself.number hne _ => exact absurd heq.1 hne
  case number.itself hne _ => exact absurd heq.1.symm hne
  case number.number =>
    obtain ⟨hdigits, hrest⟩ := append_cons_inj hbrace hbrace heq
    exact ⟨Char.toNat_inj.mp (hexDigits_inj hdigits), hrest⟩

theorem isGraphic_of_mem_escape (hquote : isGraphic quote = true) : ∀ d ∈ escape quote c, isGraphic d = true := by
  have hbackslash : isGraphic '\\' = true := by decide
  rw [← List.all_eq_true]
  fun_cases escape
  case case5 h => obtain rfl | rfl := h <;> simp [*]
  case case6 h => simpa using h
  case case7 =>
    have htable : "0123456789abcdef".toList.all isGraphic = true := by decide
    have hdigits : (hexDigits c.toNat).all isGraphic = true :=
      List.all_eq_true.mpr fun d hd => List.all_eq_true.mp htable d (mem_hexDigits hd)
    rw [List.all_append, List.all_append, hdigits]
    decide
  all_goals decide

theorem escape_ne_nil (quote c : Char) : escape quote c ≠ [] := fun h => by
  have hescapes := escapes_escape quote c
  rw [h] at hescapes
  cases hescapes

theorem flatMap_escape_inj (h : us.flatMap (escape '"') = vs.flatMap (escape '"')) : us = vs := by
  induction us generalizing vs
  case nil =>
    cases vs
    case nil => rfl
    case cons c vs => exact absurd (List.flatMap_eq_nil_iff.mp h.symm c List.mem_cons_self) (escape_ne_nil _ c)
  case cons c us ih =>
    cases vs
    case nil => exact absurd (List.flatMap_eq_nil_iff.mp h c List.mem_cons_self) (escape_ne_nil _ c)
    case cons d vs =>
      obtain ⟨rfl, htail⟩ := (escapes_escape '"' c).append_inj (escapes_escape '"' d) h
      rw [ih htail]

end Escapes

section Quoted

variable {s t : String}

theorem quoted_inj (h : quoted s = quoted t) : s = t := by
  have hchars := (List.cons_eq_cons.mp (String.ofList_injective h)).2
  exact String.toList_injective (flatMap_escape_inj (List.append_cancel_right hchars))

theorem not_mem_quoteChars (hquote : isGraphic quote = true) (hd : isGraphic d = false) (cs : List Char) :
    d ∉ quoteChars quote cs := by
  have hne : d ≠ quote := by
    rintro rfl
    simp [hd] at hquote
  have hchars : d ∉ cs.flatMap (escape quote) := fun h => by
    obtain ⟨c, -, hc⟩ := List.mem_flatMap.mp h
    simp [isGraphic_of_mem_escape hquote d hc] at hd
  simpa [quoteChars, hne] using hchars

theorem not_mem_quoted (hd : isGraphic d = false) (s : String) : d ∉ (quoted s).toList := by
  simpa [quoted] using not_mem_quoteChars (by decide) hd s.toList

end Quoted

end BasicFrontEnd.Text
