import BasicFrontEnd.Proofs.Grammar.Integers
import BasicFrontEnd.Proofs.Writing.Layout
import BasicFrontEnd.Proofs.Writing.Plain

/-!
Plain expressions derive: whatever tokens have the words of a plain expression write it at its level.
-/

namespace BasicFrontEnd

open Grammar

namespace Layout

-- The tokens have the words of the layout, and `n` levels of nesting are enough for it.
def Of (x : Layout) (n : Nat) (ts : List Token) : Prop :=
  ts.map Token.word = x.words ∧ x.nesting ≤ n

variable {x y : Layout} {n : Nat} {ts : List Token}

@[simp]
theorem of_empty : empty.Of n ts ↔ ts = [] := by
  simp [Of, empty]

@[simp]
theorem of_word {kind : Kind} {value : String} :
    (word kind value).Of n ts ↔ ∃ t, ts = [t] ∧ t.kind = kind ∧ t.value = value := by
  simp [Of, word, List.map_eq_singleton_iff, Token.word]

@[simp]
theorem of_append : (x ++ y).Of n ts ↔ ∃ us vs, ts = us ++ vs ∧ x.Of n us ∧ y.Of n vs := by
  have happend : x ++ y = ⟨x.words ++ y.words, max x.nesting y.nesting⟩ := rfl
  simp only [Of, happend, List.map_eq_append_iff, Nat.max_le]
  constructor
  case mp =>
    rintro ⟨⟨us, vs, hts, hus, hvs⟩, hx, hy⟩
    exact ⟨us, vs, hts, ⟨hus, hx⟩, hvs, hy⟩
  case mpr =>
    rintro ⟨us, vs, hts, ⟨hus, hx⟩, hvs, hy⟩
    exact ⟨⟨us, vs, hts, hus, hvs⟩, hx, hy⟩

theorem append_assoc (x y z : Layout) : x ++ y ++ z = x ++ (y ++ z) := by
  have happend : ∀ x y : Layout, x ++ y = ⟨x.words ++ y.words, max x.nesting y.nesting⟩ := fun _ _ => rfl
  simp only [happend, List.append_assoc, Nat.max_assoc]

@[simp]
theorem of_nested : x.nested.Of n ts ↔ ∃ m, n = m + 1 ∧ x.Of m ts := by
  simp only [Of, nested]
  constructor
  case mp =>
    rintro ⟨hts, hn⟩
    exact ⟨n - 1, by omega, hts, by omega⟩
  case mpr =>
    rintro ⟨m, rfl, hts, hn⟩
    exact ⟨hts, Nat.succ_le_succ hn⟩

theorem Of.enclosed {opening closing : Symbol} (h : (x.enclosed opening closing).Of n ts) :
    ∃ t us u m, ts = t :: (us ++ [u]) ∧ n = m + 1 ∧ t.kind = .symbol opening ∧ x.Of m us ∧
      u.kind = .symbol closing := by
  simp only [Layout.enclosed, symbol, append_assoc, of_append, of_word, of_nested] at h
  obtain ⟨_, _, rfl, ⟨t, rfl, ht, _⟩, us, _, rfl, ⟨m, rfl, hus⟩, u, rfl, hu, _⟩ := h
  exact ⟨t, us, u, m, rfl, rfl, ht, hus, hu⟩

-- Layouts with commas between them are written by pieces with commas between them.
theorem Of.separated {α : Type} {layout : α → Layout} {as : List α} (h : (separated (as.map layout)).Of n ts) :
    ∃ parts : List (List Token × α), parts.map Prod.snd = as ∧ (∀ part ∈ parts, (layout part.2).Of n part.1) ∧
      Separated (parts.map Prod.fst) ts := by
  induction as generalizing ts
  case nil =>
    obtain rfl : ts = [] := by simpa [Layout.separated] using h
    exact ⟨[], rfl, by simp, .none⟩
  case cons a as ih =>
    cases as
    case nil => exact ⟨[(ts, a)], rfl, by simpa [Layout.separated] using h, .one⟩
    case cons b as =>
      simp only [List.map_cons, Layout.separated, symbol, append_assoc, of_append, of_word] at h
      obtain ⟨us, _, rfl, ha, _, vs, rfl, ⟨comma, rfl, hcomma, _⟩, hrest⟩ := h
      obtain ⟨parts, hparts, hlayouts, hsep⟩ := ih hrest
      obtain ⟨part, parts, rfl⟩ := List.exists_cons_of_ne_nil (show parts ≠ [] by rintro rfl; simp at hparts)
      refine ⟨(us, a) :: part :: parts, by simpa using hparts, ?_, ?_⟩
      · simpa using ⟨ha, by simpa using hlayouts⟩
      · exact Separated.more hcomma hsep

end Layout

section Numbers

theorem number_toString {t : Token} {value : Int64} (hkind : t.kind = .integer)
    (hvalue : t.value = toString value.toInt.natAbs) : number t (decide (value < 0)) = .ok (.integer value) := by
  have hdigits : t.value.toList = Nat.toDigits 10 value.toInt.natAbs := by
    rw [hvalue]
    exact Nat.toList_repr
  have hwrites : t.WritesInteger :=
    ⟨hkind, by simp [hdigits], fun c hc => Nat.isDigit_of_mem_toDigits (by decide) (by decide) (hdigits ▸ hc)⟩
  have hmagnitude : t.magnitude = value.toInt.natAbs := by
    rw [Token.magnitude, hdigits]
    exact Nat.ofDigitChars_ten_toDigits
  have hsigned : signed (decide (value < 0)) t.magnitude = value.toInt := by
    have hneg : value < 0 ↔ value.toInt < 0 := Int64.lt_iff_toInt_lt
    simp only [signed, hmagnitude, decide_eq_true_eq, hneg]
    split <;> omega
  have hle : t.magnitude ≤ greatestMagnitude (decide (value < 0)) := by
    rw [← le_signed_and_signed_le_iff, hsigned]
    exact ⟨value.le_toInt, value.toInt_le⟩
  rw [number_of_writesInteger hwrites, if_pos hle, hsigned, Int64.ofInt_toInt]

end Numbers

namespace Grammar

theorem BindingLevel.rank_tighter_le {level l : BindingLevel} (h : level.rank ≤ l.rank) (hne : level ≠ l) :
    level.tighter.rank ≤ l.rank := by
  cases level <;> cases l <;> simp_all [rank, BindingLevel.tighter]

theorem BindingLevel.rank_le_rank_primary (level : BindingLevel) : level.rank ≤ primary.rank := by
  cases level <;> decide

-- What binds tightly stands wherever something looser may.
theorem Derives.loosen (h : Derives l n ts e) (hrank : level.rank ≤ l.rank) : Derives level n ts e := by
  by_cases heq : level = l
  case pos => exact heq ▸ h
  case neg =>
    have hle := BindingLevel.rank_tighter_le hrank heq
    have hlt : level.rank < level.tighter.rank := by
      cases level <;> cases l <;> simp_all [BindingLevel.rank, BindingLevel.tighter]
    exact .tighter (h.loosen hle)
termination_by l.rank - level.rank

theorem Derives.loosest (h : Derives l n ts e) : Derives .disjunction n ts e :=
  h.loosen (Nat.zero_le _)

variable {x : Layout} {own level : BindingLevel} {e : Expr}

theorem derives_within {wanted : Bool} (h : ∀ {n ts}, x.Of n ts → Derives own n ts e)
    (hx : (Layout.within wanted level own x).Of n ts) : Derives level n ts e := by
  unfold Layout.within at hx
  split at hx
  case isTrue =>
    obtain ⟨t, us, u, m, rfl, rfl, ht, hus, hu⟩ := hx.enclosed
    exact (Derives.parens ht (h hus).loosest hu).loosen level.rank_le_rank_primary
  case isFalse hrank =>
    have hrank : level.rank ≤ own.rank := by simp_all
    exact (h hx).loosen hrank

theorem derives_behindMinus (h : ∀ {n ts}, x.Of n ts → Derives .operand n ts e) (hx : x.behindMinus.Of n ts) :
    Derives .operand n ts e ∧ ∀ t ∈ ts.head?, t.kind.isNumber = false := by
  unfold Layout.behindMinus at hx
  split at hx
  case isTrue =>
    obtain ⟨t, us, u, m, rfl, rfl, ht, hus, hu⟩ := hx.enclosed
    exact ⟨(Derives.parens ht (h hus).loosest hu).loosen (by decide), by simp [ht, Kind.isNumber]⟩
  case isFalse hhead =>
    refine ⟨h hx, fun t ht => ?_⟩
    rw [← hx.1, List.head?_map, Option.mem_def.mp ht] at hhead
    simpa [Token.word] using hhead

theorem foldl_addIndex (base : Expr) (indices more : List Expr) :
    more.foldl addIndex (.index base indices) = .index base (indices ++ more) := by
  induction more generalizing indices
  case nil => simp
  case cons i more ih => simp [addIndex, ih]

theorem foldl_addIndex_of_not_isIndex {base : Expr} (hbase : base.isIndex = false) (hne : indices ≠ []) :
    indices.foldl addIndex base = .index base indices := by
  obtain ⟨i, indices, rfl⟩ := List.exists_cons_of_ne_nil hne
  have hfirst : addIndex base i = .index base [i] := by
    cases base
    case index => contradiction
    all_goals rfl
  rw [List.foldl_cons, hfirst, foldl_addIndex, List.singleton_append]

variable {style : Style}

-- Each index stands in brackets of its own, and joins the ones before it.
theorem derives_indices {base : Expr} {indices : List Expr} (h : Derives .suffixed n ts base)
    (hindices : ∀ i ∈ indices, ∀ {n ts}, (i.wholeLayout style).Of n ts → Derives .disjunction n ts i)
    (hjoin : (Layout.join (indices.map fun i => (i.wholeLayout style).enclosed .openBracket .closeBracket)).Of n us) :
    Derives .suffixed n (ts ++ us) (indices.foldl addIndex base) := by
  induction indices generalizing base ts us
  case nil =>
    obtain rfl := Layout.of_empty.mp hjoin
    simpa using h
  case cons i indices ih =>
    rw [List.forall_mem_cons] at hindices
    obtain ⟨_, vs, rfl, hi, hrest⟩ := Layout.of_append.mp hjoin
    obtain ⟨opening, ws, closing, m, rfl, rfl, hopen, hws, hclose⟩ := hi.enclosed
    have hbase := Derives.index h hopen (hindices.1 hws) hclose
    simpa using ih hbase hindices.2 hrest

-- Layouts of expressions with commas between them, each derived.
theorem exists_separated {es : List Expr}
    (hes : ∀ e ∈ es, ∀ {n ts}, (e.wholeLayout style).Of n ts → Derives .disjunction n ts e)
    (h : (Layout.separated (es.map (Expr.wholeLayout style))).Of n ts) :
    ∃ parts : List (List Token × Expr), parts.map Prod.snd = es ∧
      (∀ part ∈ parts, Derives .disjunction n part.1 part.2) ∧ Separated (parts.map Prod.fst) ts := by
  obtain ⟨parts, rfl, hparts, hsep⟩ := h.separated
  exact ⟨parts, rfl, fun part hpart => hes _ (List.mem_map_of_mem hpart) (hparts part hpart), hsep⟩

end Grammar

namespace Expr

open Layout

variable {e : Expr} {style : Style}

theorem Plain.derives (h : e.Plain) : ∀ {n ts}, (e.layout style).Of n ts → Derives e.level n ts e := by
  induction h
  all_goals
    intro n ts hts
    simp only [layout, layouts_eq_map, List.map_map, Layout.name, Layout.symbol, Layout.keyword, Layout.operator,
      append_assoc, of_append, of_word, of_nested] at hts
  case call ih =>
    obtain ⟨_, vs, rfl, ⟨name, rfl, hname, rfl⟩, hvs⟩ := hts
    obtain ⟨opening, us, closing, m, rfl, rfl, hopen, hus, hclose⟩ := hvs.enclosed
    obtain ⟨parts, rfl, hparts, hsep⟩ := exists_separated (fun e he _ _ => derives_within (ih e he)) hus
    have hcallee : Derives .suffixed (m + 1) [name] (.identifier name.value) := .tighter <| .atom <| .identifier hname
    exact .call parts hcallee hopen hparts hsep hclose
  case binary operator ihl ihr =>
    obtain ⟨us, _, rfl, hus, _, vs, rfl, ⟨word, rfl, hword, _⟩, hvs⟩ := hts
    have hright := derives_within ihr hvs
    have hleft := derives_within ihl hus
    split at hleft
    case isTrue hcomparison =>
      simp only [level, Operator.isComparison_iff_level.mp hcomparison] at hleft hright ⊢
      exact .comparison hword hcomparison hleft hright
    case isFalse hcomparison => exact .binary hword (Bool.eq_false_iff.mpr hcomparison) hleft hright
  case negate ih =>
    obtain ⟨_, vs, rfl, ⟨minus, rfl, hminus, _⟩, m, rfl, hvs⟩ := hts
    obtain ⟨hoperand, hhead⟩ := derives_behindMinus (derives_within ih) hvs
    exact .negate hminus hhead hoperand
  case not ih =>
    obtain ⟨_, vs, rfl, ⟨bang, rfl, hbang, _⟩, m, rfl, hvs⟩ := hts
    exact .not hbang (derives_within ih hvs)
  case member =>
    obtain ⟨_, _, rfl, ⟨record, rfl, hrecord, rfl⟩, _, _, rfl, ⟨dot, rfl, hdot, _⟩, field, rfl, hfield, rfl⟩ := hts
    have hbase : Derives .suffixed n [record] (.identifier record.value) := .tighter <| .atom <| .identifier hrecord
    exact .member hbase hdot hfield
  case array hne _ ih =>
    obtain ⟨opening, us, closing, m, rfl, rfl, hopen, hus, hclose⟩ := hts.enclosed
    obtain ⟨parts, rfl, hparts, hsep⟩ := exists_separated (fun e he _ _ => derives_within (ih e he)) hus
    exact .array parts hopen (by rintro rfl; exact hne rfl) hparts hsep hclose
  case index hbase hne _ ih ihindices =>
    obtain ⟨us, vs, rfl, hus, hvs⟩ := hts
    have hfirst := derives_within ih hus
    have := derives_indices hfirst (fun i hi _ _ => derives_within (ihindices i hi)) hvs
    rwa [foldl_addIndex_of_not_isIndex hbase hne] at this
  case identifier =>
    obtain ⟨name, rfl, hname, rfl⟩ := hts
    exact .atom <| .identifier hname
  case integer value =>
    split at hts
    case isTrue hneg =>
      simp only [of_append, of_word] at hts
      obtain ⟨_, _, rfl, ⟨minus, rfl, hminus, _⟩, digits, rfl, hdigits, hvalue⟩ := hts
      have hnumber := number_toString hdigits hvalue
      rw [decide_eq_true hneg] at hnumber
      simpa [level, hneg] using Derives.negative hminus (by simp [hdigits, Kind.isNumber]) hnumber
    case isFalse hneg =>
      obtain ⟨digits, rfl, hdigits, hvalue⟩ := of_word.mp hts
      have hnumber := number_toString hdigits hvalue
      rw [decide_eq_false hneg] at hnumber
      simpa [level, hneg] using Derives.atom (.number (by simp [hdigits, Kind.isNumber]) hnumber)
  case string =>
    obtain ⟨text, rfl, htext, rfl⟩ := hts
    exact .atom <| .string htext
  case boolean value =>
    obtain ⟨word, rfl, hword, _⟩ := hts
    cases value
    case false => exact .atom <| .falseWord hword
    case true => exact .atom <| .trueWord hword
  case nil =>
    obtain ⟨word, rfl, hword, _⟩ := hts
    exact .atom <| .nilWord hword

theorem Plain.derives_whole (h : e.Plain) (hts : (e.wholeLayout style).Of n ts) : Derives .disjunction n ts e :=
  derives_within h.derives hts

theorem Plain.returnedLayout_eq (h : e.Plain) : e.returnedLayout style = e.wholeLayout style := by
  cases h <;> rfl

end Expr

end BasicFrontEnd
