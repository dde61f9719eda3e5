import BasicFrontEnd.Proofs.Token.Lexical

/-!
What the first character of a segment tells of the segment. The six classes of first characters are those by which
`Segment.first` chooses what to read.
-/

namespace BasicFrontEnd.Lexical

variable {segment : Segment}

section Classes

theorem isDigit_iff {c : Char} : c.isDigit = true ↔ IsDigit c := by
  simp [Char.isDigit, IsDigit, Char.le_def]

theorem isWordStart_iff {c : Char} : Segment.isWordStart c = true ↔ IsLetter c := by
  have hupper : c.isUpper = true ↔ 'A' ≤ c ∧ c ≤ 'Z' := decide_eq_true_iff
  have hlower : c.isLower = (decide ('a' ≤ c) && decide (c ≤ 'z')) := rfl
  have halpha : c.isAlpha = (c.isUpper || c.isLower) := rfl
  rw [Segment.isWordStart, halpha, Bool.or_eq_true, Bool.or_eq_true, hupper, hlower, Bool.and_eq_true,
    decide_eq_true_iff, decide_eq_true_iff, beq_iff_eq, or_comm (a := 'A' ≤ c ∧ _), or_assoc, IsLetter]

theorem isWordPart_iff {c : Char} : Segment.isWordPart c = true ↔ IsLetter c ∨ IsDigit c := by
  rw [← isWordStart_iff, ← isDigit_iff]
  simp only [Segment.isWordPart, Segment.isWordStart, Bool.or_eq_true]
  exact or_right_comm

theorem forall_isWordPart_iff {cs : List Char} :
    cs.all Segment.isWordPart = true ↔ ∀ c ∈ cs, IsLetter c ∨ IsDigit c := by
  simp only [List.all_eq_true, isWordPart_iff]

theorem isBlank_iff {c : Char} : Segment.isBlank c = true ↔ c = ' ' ∨ c = '\t' ∨ c = '\r' ∨ c = '\n' := by
  simp [Segment.isBlank, or_assoc]

theorem IsDigit.not_isLetter {c : Char} (h : IsDigit c) : ¬IsLetter c := by
  intro hl
  simp only [IsDigit, IsLetter, Char.le_def, UInt32.le_iff_toNat_le, Char.ext_iff, ← UInt32.toNat_inj] at h hl
  have : ('9' : Char).val.toNat = 57 := rfl
  have : ('a' : Char).val.toNat = 97 := rfl
  have : ('A' : Char).val.toNat = 65 := rfl
  have : ('_' : Char).val.toNat = 95 := rfl
  omega

-- The characters of ASCII that leave a mark.
def IsVisible (c : Char) : Prop :=
  0x21 ≤ c.toNat ∧ c.toNat ≤ 0x7E

instance (c : Char) : Decidable (IsVisible c) :=
  inferInstanceAs (Decidable (_ ∧ _))

theorem forall_isVisible_of_all {cs : List Char} (h : cs.all (decide <| IsVisible ·) = true) :
    ∀ c ∈ cs, IsVisible c := by
  simpa using h

theorem isVisible_of_isLetter_or_isDigit {c : Char} (h : IsLetter c ∨ IsDigit c) : IsVisible c := by
  simp only [IsDigit, IsLetter, Char.le_def, UInt32.le_iff_toNat_le] at h
  have : c.toNat = c.val.toNat := rfl
  have : ('A' : Char).val.toNat = 65 := rfl
  have : ('Z' : Char).val.toNat = 90 := rfl
  have : ('a' : Char).val.toNat = 97 := rfl
  have : ('z' : Char).val.toNat = 122 := rfl
  have : ('0' : Char).val.toNat = 48 := rfl
  have : ('9' : Char).val.toNat = 57 := rfl
  unfold IsVisible
  obtain (h | h | rfl) | h := h
  case inl.inr.inr => decide
  all_goals omega

theorem unescape?_eq_some_iff {c d : Char} : Segment.unescape? c = some d ↔ Escape c d := by
  constructor
  case mp =>
    unfold Segment.unescape?
    split <;> intro h <;> cases h <;> constructor
  case mpr =>
    rintro (_ | _) <;> rfl

theorem unescape?_eq_none_iff {c : Char} : Segment.unescape? c = none ↔ ∀ d, ¬Escape c d := by
  simp [← unescape?_eq_some_iff, Option.eq_none_iff_forall_ne_some]

end Classes

-- What the first character of a segment tells of it.
inductive Front
  | blank
  | comment
  | quote
  | letter
  | digit
  | other
  deriving DecidableEq

def front (c : Char) : Front :=
  if Segment.isBlank c then .blank
  else if c = '\'' then .comment
  else if c = '"' then .quote
  else if Segment.isWordStart c then .letter
  else if c.isDigit then .digit
  else .other

namespace Front

theorem of_isBlank {c : Char} (h : c = ' ' ∨ c = '\t' ∨ c = '\r' ∨ c = '\n') : front c = .blank := by
  simp [front, isBlank_iff, h]

theorem of_isLetter {c : Char} (h : IsLetter c) : front c = .letter := by
  have h₁ : ¬(c = ' ' ∨ c = '\t' ∨ c = '\r' ∨ c = '\n') := by
    rintro (rfl | rfl | rfl | rfl) <;> exact absurd h (by decide)
  have h₂ : c ≠ '\'' := by rintro rfl; exact absurd h (by decide)
  have h₃ : c ≠ '"' := by rintro rfl; exact absurd h (by decide)
  simp [front, isBlank_iff, isWordStart_iff, h, h₁, h₂, h₃]

theorem of_isDigit {c : Char} (h : IsDigit c) : front c = .digit := by
  have h₁ : ¬(c = ' ' ∨ c = '\t' ∨ c = '\r' ∨ c = '\n') := by
    rintro (rfl | rfl | rfl | rfl) <;> exact absurd h (by decide)
  have h₂ : c ≠ '\'' := by rintro rfl; exact absurd h (by decide)
  have h₃ : c ≠ '"' := by rintro rfl; exact absurd h (by decide)
  simp [front, isBlank_iff, isWordStart_iff, isDigit_iff, h, h.not_isLetter, h₁, h₂, h₃]

theorem of_symbol {s : Symbol} (h : s.chars = c :: cs) : front c = .other := by
  cases s <;> cases h <;> decide

theorem of_keyword {k : Keyword} (h : k.spelling.toList = c :: cs) :
    IsLetter c ∧ ∀ d ∈ cs, IsLetter d ∨ IsDigit d := by
  have hword : Segment.isWordStart c = true ∧ cs.all Segment.isWordPart = true := by
    cases k <;> cases h <;> decide
  exact ⟨isWordStart_iff.mp hword.left, forall_isWordPart_iff.mp hword.right⟩

end Front

-- The kind of a word.
def wordKind (cs : List Char) : Kind :=
  match Keyword.ofSpelling? (String.ofList cs) with
  | some k => .keyword k
  | none   => .identifier

-- What a segment that begins with `c` and goes on with `cs` has to be.
def Follows (segment : Segment) (c : Char) (cs : List Char) : Prop :=
  match front c with
  | .blank   => segment = .blank ∧ cs = []
  | .comment => segment = .comment ∧ ('\n' ∉ cs ∨ ∃ ds, '\n' ∉ ds ∧ cs = ds ++ ['\n'])
  | .quote   => ∃ body value, segment = .lexeme .string value ∧ cs = body ++ ['"'] ∧ Quotes body value
  | .letter  => segment = .lexeme (wordKind (c :: cs)) (c :: cs) ∧ ∀ d ∈ cs, IsLetter d ∨ IsDigit d
  | .digit   =>
    (segment = .lexeme .integer (c :: cs) ∧ ∀ d ∈ cs, IsDigit d) ∨
    (segment = .lexeme .float (c :: cs) ∧
      ∃ ds es, cs = ds ++ '.' :: es ∧ es ≠ [] ∧ (∀ d ∈ ds, IsDigit d) ∧ ∀ e ∈ es, IsDigit e)
  | .other   => ∃ s : Symbol, segment = .lexeme (.symbol s) s.chars ∧ s.chars = c :: cs

theorem wordKind_keyword (k : Keyword) : wordKind k.spelling.toList = .keyword k := by
  simp [wordKind, Keyword.ofSpelling?_spelling]

theorem wordKind_identifier (h : ∀ k : Keyword, k.spelling.toList ≠ cs) : wordKind cs = .identifier := by
  unfold wordKind
  split
  case h_1 k hk =>
    have hs : k.spelling = String.ofList cs := by simpa using List.find?_some hk
    exact absurd (by simp [hs]) (h k)
  case h_2 => rfl

theorem Lexeme.follows (h : Lexeme kind (c :: cs) value) : Follows (.lexeme kind value) c cs := by
  generalize ht : c :: cs = text at h
  cases h
  case keyword k =>
    obtain ⟨hc, hcs⟩ := Front.of_keyword ht.symm
    simp only [Follows, Front.of_isLetter hc, ← wordKind_keyword, ← ht, true_and]
    exact hcs
  case identifier hc hcs hk =>
    obtain ⟨rfl, rfl⟩ := List.cons.inj ht
    simp only [Follows, Front.of_isLetter hc, wordKind_identifier hk, true_and]
    exact hcs
  case integer hne hd =>
    subst ht
    simp only [List.mem_cons, forall_eq_or_imp] at hd
    simp only [Follows, Front.of_isDigit hd.left]
    exact .inl ⟨trivial, hd.right⟩
  case float ds es hne he hd hes =>
    obtain _ | ⟨d, ds⟩ := ds
    case nil => exact absurd rfl hne
    case cons =>
      simp only [List.cons_append] at ht
      obtain ⟨rfl, rfl⟩ := List.cons.inj ht
      simp only [List.mem_cons, forall_eq_or_imp] at hd
      simp only [Follows, Front.of_isDigit hd.left]
      exact .inr ⟨rfl, ds, es, rfl, he, hd.right, hes⟩
  case string body hq =>
    obtain ⟨rfl, rfl⟩ := List.cons.inj ht
    have hf : front '"' = .quote := by decide
    simp only [Follows, hf]
    exact ⟨body, value, rfl, rfl, hq⟩
  case symbol s =>
    simp only [Follows, Front.of_symbol ht.symm]
    exact ⟨s, rfl, ht.symm⟩

theorem Spells.follows (h : Spells segment (c :: cs)) : Follows segment c cs := by
  generalize ht : c :: cs = text at h
  cases h
  case blank hc =>
    obtain ⟨rfl, rfl⟩ := List.cons.inj ht
    simp [Follows, Front.of_isBlank hc]
  case comment hc =>
    obtain ⟨rfl, rfl⟩ := List.cons.inj ht
    have hf : front '\'' = .comment := by decide
    simp [Follows, hf, hc]
  case closedComment ds hc =>
    obtain ⟨rfl, rfl⟩ := List.cons.inj ht
    have hf : front '\'' = .comment := by decide
    simp [Follows, hf, hc]
  case lexeme hl => exact (ht ▸ hl).follows

theorem Lexeme.ne_nil (h : Lexeme kind text value) : text ≠ [] := by
  cases h <;> try simp
  case keyword k => cases k <;> decide
  case integer h _ => exact h
  case symbol s => cases s <;> decide

-- All but strings stand for themselves.
theorem Lexeme.value_eq (h : Lexeme kind text value) (hkind : kind ≠ .string) : value = text := by
  cases h <;> first | rfl | exact absurd rfl hkind

theorem Lexeme.isVisible (h : Lexeme kind text value) (hkind : kind ≠ .string) : ∀ c ∈ text, IsVisible c := by
  cases h
  case keyword k => exact forall_isVisible_of_all (by cases k <;> decide)
  case symbol s => exact forall_isVisible_of_all (by cases s <;> decide)
  case identifier hc hcs _ =>
    exact fun c hc' => isVisible_of_isLetter_or_isDigit (List.forall_mem_cons.mpr ⟨.inl hc, hcs⟩ c hc')
  case integer hds => exact fun d hd => isVisible_of_isLetter_or_isDigit (.inr (hds d hd))
  case float hds hes =>
    refine List.forall_mem_append.mpr ⟨fun d hd => isVisible_of_isLetter_or_isDigit (.inr (hds d hd)), ?_⟩
    exact List.forall_mem_cons.mpr ⟨by decide, fun e he => isVisible_of_isLetter_or_isDigit (.inr (hes e he))⟩
  case string => contradiction

theorem Spells.ne_nil (h : Spells segment text) : text ≠ [] := by
  cases h <;> try simp
  case lexeme h => exact h.ne_nil

-- To see that a segment is longest it suffices to look at those that its first character allows.
theorem Cut.of_follows {c : Char} {cs rest : List Char} (hs : Spells segment (c :: cs))
    (hl : ∀ other ds, Follows other c ds → ds <+: cs ++ rest → ds.length ≤ cs.length)
    (hp : ∀ value, segment = .lexeme .integer value → rest.head? ≠ some '.') : Cut segment (c :: cs) rest where
  spells := hs
  longest other longer ho hpre := by
    obtain _ | ⟨d, ds⟩ := longer
    case nil => exact absurd rfl ho.ne_nil
    case cons =>
      obtain ⟨hd, hds⟩ := List.cons_prefix_cons.mp hpre
      subst hd
      exact Nat.succ_le_succ (hl other ds ho.follows hds)
  point := hp

end BasicFrontEnd.Lexical
