import BasicFrontEnd.Proofs.Writing.Exprs
import BasicFrontEnd.Proofs.Writing.Spacing
import Mathlib.Data.String.Basic

/-!
The words of plain programs can be spelled, each with characters that are bytes, and so there are sources that write
the programs.
-/

namespace BasicFrontEnd

open Lexical

-- Some bytes are a lexeme that becomes the word, and its text fits a token.
structure Word.Spelled (w : Word) : Prop where
  text : ∃ text, Lexeme w.kind text w.value.toList ∧ ∀ c ∈ text, c.toNat ≤ 0xFF
  fits : w.value.utf8ByteSize ≤ Token.maxLength

def Layout.Spelled (x : Layout) : Prop :=
  ∀ w ∈ x.words, w.Spelled

namespace Lexical

theorem Lexeme.toNat_le (h : Lexeme kind text value) (hkind : kind ≠ .string) : ∀ c ∈ text, c.toNat ≤ 0xFF :=
  fun c hc => (h.isVisible hkind c hc).2.trans (by decide)

-- What stands between the quotes of a string, and the value that it writes. Quotes and backslashes are escaped. The
-- other characters that can be may be.
inductive Escaped : List Char → List Char → Prop
  | nil    : Escaped [] []
  | raw    : c ≠ '"' → c ≠ '\\' → Escaped text value → Escaped (c :: text) (c :: value)
  | escape : Escape e c → Escaped text value → Escaped ('\\' :: e :: text) (c :: value)

theorem Escaped.quotes (h : Escaped text value) : Quotes text value := by
  induction h
  case nil => exact .nil
  case raw hq hb _ ih => exact .plain hq hb ih
  case escape he _ ih => exact .escape he ih

end Lexical

section Sources

theorem latin1_ofNat {cs : List Char} (h : ∀ c ∈ cs, c.toNat ≤ 0xFF) :
    Text.latin1 (cs.map fun c => UInt8.ofNat c.toNat) = cs := by
  simp only [Text.latin1, List.map_map]
  refine (List.map_congr_left fun c hc => ?_).trans (List.map_id cs)
  have hval : (Char.ofUInt8 (UInt8.ofNat c.toNat)).val = (UInt8.ofNat c.toNat).toUInt32 := rfl
  rw [Function.comp, id, Char.ext_iff, ← UInt32.toNat_inj, hval]
  simpa using Nat.lt_succ_of_le (h c hc)

-- Any characters that are bytes are those of a source.
theorem exists_chars_eq {cs : List Char} (h : ∀ c ∈ cs, c.toNat ≤ 0xFF) : ∃ s : Source, s.chars = cs :=
  ⟨.ofBytes "" (cs.map fun c : Char => UInt8.ofNat c.toNat), latin1_ofNat h⟩

-- With a space behind each word, words are a text.
theorem exists_spaced (h : ∀ w ∈ words, Word.Spelled w) : ∃ cs, Spaced words cs ∧ ∀ c ∈ cs, c.toNat ≤ 0xFF := by
  induction words
  case nil => exact ⟨[], .nil, by simp⟩
  case cons w words ih =>
    rw [List.forall_mem_cons] at h
    obtain ⟨cs, hcs, hbytes⟩ := ih h.2
    obtain ⟨text, hlexeme, htext⟩ := h.1.text
    refine ⟨text ++ ' ' :: cs, ?_, ?_⟩
    · simpa using Spaced.word hlexeme (endsBefore_gap (.inl (by decide)) w.kind) (.blank (.inl rfl) hcs)
    · simpa [or_imp, forall_and] using ⟨htext, hbytes⟩

end Sources

namespace Word

theorem spelled_symbol (s : Symbol) : Spelled ⟨.symbol s, s.spelling⟩ where
  text := ⟨s.chars, by simpa [Symbol.spelling] using Lexeme.symbol s, (Lexeme.symbol s).toNat_le (by simp)⟩
  fits := by cases s <;> decide

theorem spelled_keyword (k : Keyword) : Spelled ⟨.keyword k, k.spelling⟩ where
  text := ⟨k.spelling.toList, .keyword k, (Lexeme.keyword k).toNat_le (by simp)⟩
  fits := by cases k <;> decide

theorem spelled_operator (o : Operator) : Spelled ⟨o.kind, o.write⟩ := by
  cases o
  case and => exact spelled_keyword .andWord
  case or => exact spelled_keyword .orWord
  all_goals exact spelled_symbol _

theorem spelled_name (h : IsName name) : Spelled ⟨.identifier, name⟩ where
  text := ⟨name.toList, h.identifier, h.identifier.toNat_le (by simp)⟩
  fits := h.fits

theorem utf8ByteSize_ofList_le (cs : List Char) : (String.ofList cs).utf8ByteSize ≤ 4 * cs.length := by
  rw [String.utf8ByteSize_ofList]
  induction cs
  case nil => simp
  case cons c cs ih =>
    have := c.utf8Size_le_four
    simp only [String.utf8Len_cons, List.length_cons]
    omega

theorem spelled_integer (n : Nat) (hn : n < 10 ^ 20) : Spelled ⟨.integer, toString n⟩ where
  text := by
    have hdigits : ∀ d ∈ Nat.toDigits 10 n, IsDigit d := fun d hd =>
      isDigit_iff.mp (Nat.isDigit_of_mem_toDigits (by decide) (by decide) hd)
    have hlexeme := Lexeme.integer Nat.toDigits_ne_nil hdigits
    refine ⟨Nat.toDigits 10 n, ?_, hlexeme.toNat_le (by simp)⟩
    simpa [Nat.toString_eq_ofList_toDigits] using hlexeme
  fits := by
    have hlength := (Nat.length_toDigits_le_iff (b := 10) (by decide) (by decide)).mpr hn
    have hsize := utf8ByteSize_ofList_le (Nat.toDigits 10 n)
    rw [← Nat.toString_eq_ofList_toDigits] at hsize
    have : Token.maxLength = 1024 := rfl
    exact Nat.le_trans hsize (by omega)

-- How the value of a string is written: a backslash stands in front of quotes and backslashes.
def quoteBody (value : List Char) : List Char :=
  value.flatMap fun c => if c = '"' ∨ c = '\\' then ['\\', c] else [c]

theorem escaped_quoteBody (value : List Char) : Escaped (Word.quoteBody value) value := by
  induction value
  case nil => exact .nil
  case cons c value ih =>
    rw [Word.quoteBody, List.flatMap_cons]
    split
    case isTrue h =>
      obtain rfl | rfl := h
      case inl => exact .escape .quote ih
      case inr => exact .escape .backslash ih
    case isFalse h =>
      rw [not_or] at h
      exact .raw h.1 h.2 ih

theorem toNat_le_of_mem_quoteBody {cs : List Char} (h : ∀ c ∈ cs, c.toNat ≤ 0xFF) :
    ∀ c ∈ quoteBody cs, c.toNat ≤ 0xFF := by
  intro c hc
  obtain ⟨d, hd, hc⟩ := List.mem_flatMap.mp hc
  split at hc
  case isTrue =>
    obtain rfl | rfl : c = '\\' ∨ c = d := by simpa using hc
    case inl => decide
    case inr => exact h c hd
  case isFalse => exact List.mem_singleton.mp hc ▸ h d hd

theorem spelled_string {value : String} (h : IsStringValue value) : Spelled ⟨.string, value⟩ where
  text := by
    refine ⟨_, .string (escaped_quoteBody value.toList).quotes, ?_⟩
    have hbody := toNat_le_of_mem_quoteBody h.bytes
    simpa [or_imp, forall_and] using hbody
  fits := h.fits

end Word

namespace Layout

variable {x y : Layout}

@[simp]
theorem spelled_empty : empty.Spelled := by
  simp [Spelled, empty]

@[simp]
theorem spelled_word {kind : Kind} {value : String} : (word kind value).Spelled ↔ Word.Spelled ⟨kind, value⟩ := by
  simp [Spelled, word]

@[simp]
theorem spelled_append : (x ++ y).Spelled ↔ x.Spelled ∧ y.Spelled :=
  List.forall_mem_append

@[simp]
theorem spelled_nested : x.nested.Spelled ↔ x.Spelled :=
  .rfl

@[simp]
theorem spelled_symbol (s : Symbol) : (symbol s).Spelled :=
  spelled_word.mpr (Word.spelled_symbol s)

@[simp]
theorem spelled_keyword (k : Keyword) : (keyword k).Spelled :=
  spelled_word.mpr (Word.spelled_keyword k)

@[simp]
theorem spelled_operator (o : Operator) : (operator o).Spelled :=
  spelled_word.mpr (Word.spelled_operator o)

theorem spelled_name {name : String} (h : IsName name) : (Layout.name name).Spelled :=
  spelled_word.mpr (Word.spelled_name h)

@[simp]
theorem spelled_join {xs : List Layout} : (join xs).Spelled ↔ ∀ x ∈ xs, x.Spelled := by
  induction xs
  case nil => exact iff_of_true spelled_empty (by simp)
  case cons x xs ih => rw [List.forall_mem_cons, ← ih, ← spelled_append]; rfl

@[simp]
theorem spelled_separated {xs : List Layout} : (separated xs).Spelled ↔ ∀ x ∈ xs, x.Spelled := by
  induction xs using separated.induct
  case case1 => simp [separated]
  case case2 => simp [separated]
  case case3 ih => simp [separated, ih]

@[simp]
theorem spelled_enclosed {opening closing : Symbol} : (x.enclosed opening closing).Spelled ↔ x.Spelled := by
  simp [enclosed]

@[simp]
theorem spelled_within {wanted : Bool} {level own : Grammar.BindingLevel} :
    (within wanted level own x).Spelled ↔ x.Spelled := by
  unfold within
  split <;> simp [parens]

@[simp]
theorem spelled_behindMinus : x.behindMinus.Spelled ↔ x.Spelled := by
  unfold behindMinus
  split <;> simp [parens]

@[simp]
theorem spelled_ended {closed : Bool} : (x.ended closed).Spelled ↔ x.Spelled := by
  unfold ended
  split <;> simp

end Layout

theorem Expr.spelled_wholeLayout {e : Expr} {style : Style} :
    (e.wholeLayout style).Spelled ↔ (e.layout style).Spelled :=
  Layout.spelled_within

theorem Expr.Plain.spelled {e : Expr} {style : Style} (h : e.Plain) : (e.layout style).Spelled := by
  induction h
  all_goals simp only [Expr.layout, Expr.layouts_eq_map]
  case call hname _ ih => simpa [spelled_wholeLayout] using ⟨Layout.spelled_name hname, ih⟩
  case binary ihl ihr => simpa using ⟨ihl, ihr⟩
  case negate ih | not ih => simpa using ih
  case member hrecord hfield => simpa using ⟨Layout.spelled_name hrecord, Layout.spelled_name hfield⟩
  case array ih => simpa [spelled_wholeLayout] using ih
  case index ih ihindices => simpa [spelled_wholeLayout] using ⟨ih, ihindices⟩
  case identifier hname => exact Layout.spelled_name hname
  case integer value =>
    have hlow := value.le_toInt
    have hhigh := value.toInt_lt
    have hdigits := Word.spelled_integer value.toInt.natAbs (by omega)
    split <;> simpa using hdigits
  case string h => simpa using Word.spelled_string h
  case boolean | nil => simp

theorem TypeSpec.Plain.spelled {type : TypeSpec} (h : type.Plain) : type.layout.Spelled := by
  cases h
  case base b n hb =>
    simp only [List.mem_cons, List.not_mem_nil, or_false] at hb
    obtain rfl | rfl | rfl | rfl | rfl := hb <;> simp [TypeSpec.layout, TypeSpec.baseLayout]
  case record hname => simpa [TypeSpec.layout, TypeSpec.baseLayout] using Layout.spelled_name hname

namespace Stmt

variable {records : List String} {isVoid : Bool} {s : Stmt} {style : Style}

theorem spelled_bodyLayout {ss : List Stmt} :
    (bodyLayout style ss).Spelled ↔ ∀ s ∈ ss, (s.layout style).Spelled := by
  simp [bodyLayout_eq]

theorem PlainDeclaration.spelled (h : s.PlainDeclaration records) : (s.layout style).Spelled := by
  cases h
  all_goals rw [layout]
  case label hname => simpa using Layout.spelled_name hname
  case declare initial _ _ hname htype _ hinitial =>
    cases initial
    case none => simpa using ⟨Layout.spelled_name hname, htype.spelled⟩
    case some e =>
      simpa [Expr.spelled_wholeLayout] using ⟨⟨Layout.spelled_name hname, htype.spelled⟩, (hinitial e rfl).spelled⟩

theorem Plain.spelled (h : s.Plain records isVoid) : (s.layout style).Spelled := by
  induction h
  case declaration h => exact h.spelled
  all_goals simp only [layout, Expr.layout]
  case goto htarget => simpa using Layout.spelled_name htarget
  case returning he => simpa [he.returnedLayout_eq, Expr.spelled_wholeLayout] using he.spelled
  case returningNone => simp [Expr.returnedLayout]
  case branch htest _ ih => simpa [Expr.spelled_wholeLayout, spelled_bodyLayout] using ⟨htest.spelled, ih⟩
  case branchElse htest _ _ ihyes ihno =>
    simpa [Expr.spelled_wholeLayout, spelled_bodyLayout] using ⟨⟨htest.spelled, ihyes⟩, ihno⟩
  case loop htest _ ih => simpa [Expr.spelled_wholeLayout, spelled_bodyLayout] using ⟨htest.spelled, ih⟩
  case call he _ => exact he.spelled
  case assign htarget _ he => simpa [Expr.spelled_wholeLayout] using ⟨htarget.spelled, he.spelled⟩

theorem PlainTop.spelled (h : s.PlainTop records) : (s.layout style).Spelled := by
  cases h
  case declaration h => exact h.spelled
  case function formals body _ _ _ hname hresult hformals hbody =>
    have hformals : ∀ f ∈ formals, (formalLayout f).Spelled := fun f hf => by
      simpa [formalLayout] using ⟨(hformals f hf).type.spelled, Layout.spelled_name (hformals f hf).name⟩
    have hbody : ∀ s ∈ body, (s.layout style).Spelled := fun s hs => (hbody s hs).spelled
    simpa [layout, spelled_bodyLayout] using ⟨⟨⟨Layout.spelled_name hname, hformals⟩, hresult.spelled⟩, hbody⟩
  case record members _ hname hmembers =>
    have hmembers : ∀ m ∈ members, (memberLayout m).Spelled := fun m hm => by
      simpa [memberLayout] using ⟨Layout.spelled_name (hmembers m hm).name, (hmembers m hm).type.spelled⟩
    simpa [layout] using ⟨Layout.spelled_name hname, hmembers⟩

end Stmt

theorem Program.Plain.spelled {p : Program} {style : Style} (h : p.Plain) : (p.layout style).Spelled :=
  Stmt.spelled_bodyLayout.mpr fun s hs => (h s hs).spelled

end BasicFrontEnd
