import BasicFrontEnd.Proofs.Token.Front
import Mathlib.Data.List.TakeWhile

/-!
What `Segment.first` reads is a segment cut off the front of the source, as long as it can be; where it reads none,
the source is stuck for the cause that it tells. Main statement: `first_meets`.
-/

namespace BasicFrontEnd.Lexical

-- What the reading of one segment has to be: a segment cut off the front, or the cause why there is none.
def Meets (cs : List Char) : Segment.Result → Prop
  | .ok (segment, n) => ∃ text rest, cs = text ++ rest ∧ text.length = n + 1 ∧ Cut segment text rest
  | .error fault     => Stuck cs fault.cause fault.offset

section Scanners

theorem length_le_takeWhile {p : Char → Bool} {cs ds : List Char} (h : ds <+: cs) (hp : ∀ d ∈ ds, p d = true) :
    ds.length ≤ (cs.takeWhile p).length := by
  obtain ⟨rest, rfl⟩ := h
  simp [List.takeWhile_append_of_pos hp]

theorem blank_meets (h : c = ' ' ∨ c = '\t' ∨ c = '\r' ∨ c = '\n') : Meets (c :: cs) (.ok (.blank, 0)) := by
  refine ⟨[c], cs, rfl, rfl, .of_follows (.blank h) (fun other ds hf _ => ?_) (by simp)⟩
  simp only [Follows, Front.of_isBlank h] at hf
  simp [hf.right]

theorem comment_meets : Meets ('\'' :: cs) (.ok (.comment, Segment.commentLength cs)) := by
  have hbody : '\n' ∉ cs.takeWhile (· != '\n') := by
    intro h
    simpa using List.mem_takeWhile_imp h
  have hsplit := List.takeWhile_append_dropWhile (p := (· != '\n')) (l := cs)
  have hfront : front '\'' = .comment := by decide
  cases hrest : cs.dropWhile (· != '\n')
  case nil =>
    rw [hrest, List.append_nil] at hsplit
    refine ⟨'\'' :: cs, [], by simp, by simp [Segment.commentLength, hsplit], ?_⟩
    refine .of_follows (.comment (hsplit ▸ hbody)) (fun other ds _ hp => ?_) (by simp)
    simpa using hp.length_le
  case cons d rest =>
    have hd : d = '\n' := by
      have := List.head?_dropWhile_not (· != '\n') cs
      simpa [hrest] using this
    subst hd
    rw [hrest] at hsplit
    have hlen : (cs.takeWhile (· != '\n')).length < cs.length := by
      have := congrArg List.length hsplit
      simp at this
      omega
    refine ⟨'\'' :: (cs.takeWhile (· != '\n') ++ ['\n']), rest, by simp [hsplit], ?_, ?_⟩
    · simp [Segment.commentLength, hlen]
    refine .of_follows (.closedComment hbody) (fun other ds hf hp => ?_) (by simp)
    simp only [Follows, hfront] at hf
    rw [List.append_assoc, List.singleton_append, hsplit] at hp
    have hle : ∀ es, '\n' ∉ es → es <+: cs → es.length ≤ (cs.takeWhile (· != '\n')).length :=
      fun es hes hp => length_le_takeWhile hp fun e he => bne_iff_ne.mpr (ne_of_mem_of_not_mem he hes)
    obtain ⟨-, h | ⟨es, hes, rfl⟩⟩ := hf
    · exact Nat.le_trans (hle ds h hp) (by simp)
    · simpa using hle es hes ((List.prefix_append ..).trans hp)

theorem word_meets (h : IsLetter c) : Meets (c :: cs) (Segment.word c cs) := by
  have hsplit := List.takeWhile_append_dropWhile (p := Segment.isWordPart) (l := cs)
  have hbody : ∀ d ∈ cs.takeWhile Segment.isWordPart, IsLetter d ∨ IsDigit d :=
    fun d hd => isWordPart_iff.mp (List.mem_takeWhile_imp hd)
  refine ⟨c :: cs.takeWhile Segment.isWordPart, cs.dropWhile Segment.isWordPart, by simp, by simp, ?_⟩
  refine .of_follows (.lexeme ?_) (fun other ds hf hp => ?_) ?_
  case refine_1 =>
    split
    case h_1 k hk =>
      have hs : k.spelling = String.ofList (c :: cs.takeWhile Segment.isWordPart) := by
        simpa using List.find?_some hk
      have := hs ▸ Lexeme.keyword k
      simpa using this
    case h_2 hk =>
      refine .identifier h hbody fun k hs => ?_
      rw [← hs, String.ofList_toList, Keyword.ofSpelling?_spelling] at hk
      cases hk
  case refine_2 =>
    simp only [Follows, Front.of_isLetter h] at hf
    rw [hsplit] at hp
    exact length_le_takeWhile hp fun d hd => isWordPart_iff.mpr (hf.right d hd)
  case refine_3 =>
    intro value hv
    split at hv <;> cases hv

theorem stringBody?_plain (hq : c ≠ '"') (hb : c ≠ '\\') :
    Segment.stringBody? (c :: cs) = (Segment.stringBody? cs).map fun (value, n) => (c :: value, n + 1) :=
  Segment.stringBody?.eq_5 c cs hq (fun h => absurd h hb) (fun _ _ h => absurd h hb)

theorem stringBody?_of_quotes (h : Quotes body value) (rest : List Char) :
    Segment.stringBody? (body ++ '"' :: rest) = some (value, body.length + 1) := by
  induction h
  case nil => simp [Segment.stringBody?]
  case plain hq hb _ hi => simp [stringBody?_plain hq hb, hi]
  case escape he _ hi => simp [Segment.stringBody?, unescape?_eq_some_iff.mpr he, hi]
  case backslash he _ hi =>
    simp only [List.cons_append] at hi
    simp [Segment.stringBody?, unescape?_eq_none_iff.mpr he, hi]

theorem quotes_of_stringBody? (h : Segment.stringBody? cs = some (value, n)) :
    ∃ body rest, cs = body ++ '"' :: rest ∧ n = body.length + 1 ∧ Quotes body value := by
  induction cs using Segment.stringBody?.induct generalizing value n
  case case1 => cases h
  case case2 =>
    simp only [Segment.stringBody?, Option.some.injEq, Prod.mk.injEq] at h
    obtain ⟨rfl, rfl⟩ := h
    exact ⟨[], _, rfl, rfl, .nil⟩
  case case3 => cases h
  case case4 c cs d he hi =>
    simp only [Segment.stringBody?, he, Option.map_eq_some_iff, Prod.exists, Prod.mk.injEq] at h
    obtain ⟨value, n, h, rfl, rfl⟩ := h
    obtain ⟨body, rest, rfl, rfl, hq⟩ := hi h
    exact ⟨'\\' :: c :: body, rest, by simp, by simp, .escape (unescape?_eq_some_iff.mp he) hq⟩
  case case5 c cs he hi =>
    simp only [Segment.stringBody?, he, Option.map_eq_some_iff, Prod.exists, Prod.mk.injEq] at h
    obtain ⟨value, n, h, rfl, rfl⟩ := h
    obtain ⟨body, rest, hcs, rfl, hq⟩ := hi h
    obtain _ | ⟨b, body⟩ := body
    case nil =>
      have hc : c = '"' := by simpa using (List.cons.inj hcs).left
      simp [hc, Segment.unescape?] at he
    case cons =>
      obtain ⟨rfl, rfl⟩ := List.cons.inj hcs
      exact ⟨'\\' :: c :: body, rest, by simp, by simp, .backslash (unescape?_eq_none_iff.mp he) hq⟩
  case case6 c cs hq hb₁ hb₂ hi =>
    have hb : c ≠ '\\' := by
      rintro rfl
      cases cs
      case nil => exact hb₁ rfl rfl
      case cons => exact hb₂ _ _ rfl rfl
    simp only [stringBody?_plain hq hb, Option.map_eq_some_iff, Prod.exists, Prod.mk.injEq] at h
    obtain ⟨value, n, h, rfl, rfl⟩ := h
    obtain ⟨body, rest, rfl, rfl, hquotes⟩ := hi h
    exact ⟨c :: body, rest, by simp, by simp, .plain hq hb hquotes⟩

theorem string_meets : Meets ('"' :: cs) (Segment.string cs) := by
  unfold Segment.string
  split
  case h_1 value n h =>
    obtain ⟨body, rest, rfl, rfl, hq⟩ := quotes_of_stringBody? h
    refine ⟨'"' :: (body ++ ['"']), rest, by simp, by simp, ?_⟩
    refine .of_follows (.lexeme (.string hq)) (fun other ds hf hp => ?_) (by simp)
    have hfront : front '"' = .quote := by decide
    simp only [Follows, hfront] at hf
    obtain ⟨body', value', -, rfl, hq'⟩ := hf
    -- Both texts end at the first quote that nothing escapes.
    obtain ⟨rest', hrest'⟩ := hp
    have h' := stringBody?_of_quotes hq' rest'
    simp only [List.append_assoc, List.singleton_append] at hrest'
    rw [hrest', h] at h'
    simp only [Option.some.injEq, Prod.mk.injEq] at h'
    simp [h'.right]
  case h_2 h =>
    refine .string fun body value rest hq hcs => ?_
    rw [hcs, stringBody?_of_quotes hq] at h
    cases h

theorem takeWhile_isDigit_append {ds rest : List Char} (hds : ∀ d ∈ ds, IsDigit d)
    (hr : ∀ d, rest.head? = some d → ¬IsDigit d) : (ds ++ rest).takeWhile Char.isDigit = ds := by
  rw [List.takeWhile_append_of_pos fun d hd => isDigit_iff.mpr (hds d hd)]
  cases rest
  case nil => simp
  case cons d rest => simp [isDigit_iff, hr d rfl]

-- What can be written with the digits in `whole` after a first one, and with what follows them: at most these
-- digits, or all of them with a point and a fraction.
theorem number_follows (h : IsDigit c) (hw : ∀ d ∈ whole, IsDigit d) (hr : ∀ d, rest.head? = some d → ¬IsDigit d)
    (hf : Follows other c ds) (hp : ds <+: whole ++ rest) :
    ds.length ≤ whole.length ∨
    ∃ es after, rest = '.' :: (es ++ after) ∧ es ≠ [] ∧ (∀ e ∈ es, IsDigit e) ∧ ds = whole ++ '.' :: es := by
  simp only [Follows, Front.of_isDigit h] at hf
  obtain ⟨-, hds⟩ | ⟨-, ds, es, rfl, hne, hds, hes⟩ := hf
  case inl =>
    have := length_le_takeWhile hp fun d hd => isDigit_iff.mpr (hds d hd)
    rw [takeWhile_isDigit_append hw hr] at this
    exact .inl this
  case inr =>
    obtain ⟨after, hp⟩ := hp
    rw [List.append_assoc, List.cons_append] at hp
    have heq : ds = whole := by
      have hpoint : ∀ d, ('.' :: (es ++ after)).head? = some d → ¬IsDigit d := by
        rintro d ⟨⟩
        decide
      rw [← takeWhile_isDigit_append hds hpoint, hp, takeWhile_isDigit_append hw hr]
    subst heq
    exact .inr ⟨es, after, (List.append_cancel_left hp).symm, hne, hes, rfl⟩

theorem number_meets (h : IsDigit c) : Meets (c :: cs) (Segment.number c cs) := by
  have hsplit := List.takeWhile_append_dropWhile (p := Char.isDigit) (l := cs)
  have hwhole : ∀ d ∈ cs.takeWhile Char.isDigit, IsDigit d :=
    fun d hd => isDigit_iff.mp (List.mem_takeWhile_imp hd)
  have hrest : ∀ d, (cs.dropWhile Char.isDigit).head? = some d → ¬IsDigit d := by
    intro d hd
    have := List.head?_dropWhile_not Char.isDigit cs
    simpa [hd, ← isDigit_iff] using this
  unfold Segment.number
  generalize cs.takeWhile Char.isDigit = whole at *
  generalize cs.dropWhile Char.isDigit = rest at *
  subst hsplit
  have hall : ∀ d ∈ c :: whole, IsDigit d := by simpa [h] using hwhole
  have hne : c :: whole ≠ [] := List.cons_ne_nil c whole
  split
  case h_1 => exact (Stuck.point hne hall :)
  case h_2 d rest =>
    split
    case isTrue hd =>
      have hfraction : ∀ e ∈ d :: rest.takeWhile Char.isDigit, IsDigit e := by
        simp only [List.mem_cons, forall_eq_or_imp]
        exact ⟨isDigit_iff.mp hd, fun e he => isDigit_iff.mp (List.mem_takeWhile_imp he)⟩
      refine ⟨c :: (whole ++ '.' :: d :: rest.takeWhile Char.isDigit), rest.dropWhile Char.isDigit, by simp,
        by simp; omega, .of_follows (.lexeme ?_) (fun other ds hf hp => ?_) (by simp)⟩
      case refine_1 => exact (Lexeme.float hne (List.cons_ne_nil _ _) hall hfraction :)
      case refine_2 =>
        have hp : ds <+: whole ++ '.' :: d :: rest := by simpa using hp
        obtain hle | ⟨es, after, hrest, -, hes, rfl⟩ := number_follows h hwhole hrest hf hp
        case inl => exact Nat.le_trans hle (by simp)
        case inr =>
          have hp : es <+: d :: rest := ⟨after, (List.cons.inj hrest).right.symm⟩
          have := length_le_takeWhile hp fun e he => isDigit_iff.mpr (hes e he)
          simpa [hd] using this
    case isFalse hd =>
      exact (Stuck.fraction hne hall (mt isDigit_iff.mpr hd) :)
  case h_3 h₁ h₂ =>
    have hpoint : rest.head? ≠ some '.' := by
      obtain _ | ⟨d, _ | ⟨e, rest⟩⟩ := rest
      all_goals simp only [List.head?_nil, List.head?_cons, ne_eq, reduceCtorEq, not_false_eq_true, Option.some.injEq]
      case cons.nil => exact fun hd => h₁ (by rw [hd])
      case cons.cons => exact fun hd => h₂ e rest (by rw [hd])
    refine ⟨c :: whole, rest, by simp, by simp, .of_follows (.lexeme ?_) (fun other ds hf hp => ?_) ?_⟩
    case refine_1 => exact .integer (by simp) hall
    case refine_2 =>
      obtain hle | ⟨es, after, rfl, -⟩ := number_follows h hwhole hrest hf hp
      case inl => exact hle
      case inr => exact absurd rfl hpoint
    case refine_3 => exact fun _ _ => hpoint

theorem chars_eq (s : Symbol) : ∃ c, s.chars = [c] ∨ ∃ d, s.chars = [c, d] := by
  cases s <;> simp [Symbol.chars]

-- What begins as a symbol is a symbol, of one character or two.
theorem Follows.exists_symbol {segment : Segment} (h : Follows segment c cs) (hc : front c = .other) :
    ∃ s : Symbol, s.chars = c :: cs ∧ (cs = [] ∨ ∃ d, cs = [d]) := by
  simp only [Follows, hc] at h
  obtain ⟨s, -, hs⟩ := h
  refine ⟨s, hs, ?_⟩
  obtain ⟨c', hone | ⟨d, htwo⟩⟩ := chars_eq s
  case inl => exact .inl (List.cons.inj (hs.symm.trans hone)).2
  case inr => exact .inr ⟨d, (List.cons.inj (hs.symm.trans htwo)).2⟩

theorem symbol_meets (h : front c = .other) : Meets (c :: cs) (Segment.symbol c cs) := by
  have hone : ∀ s : Symbol, s.chars = [c] → Symbol.ofChars? [c] = some s :=
    fun s hs => hs ▸ Symbol.ofChars?_chars s
  have htwo : ∀ (s : Symbol) d ds, s.chars = [c, d] → cs = d :: ds →
      (cs.head?.bind fun next => Symbol.ofChars? [c, next]) = some s := by
    rintro s d ds hs rfl
    simpa [hs] using Symbol.ofChars?_chars s
  unfold Segment.symbol Symbol.longest?
  split
  case h_1 s hs =>
    obtain hs | ⟨hn, hs⟩ := Option.or_eq_some_iff.mp hs
    case inl =>
      obtain ⟨d, hd, hs⟩ := Option.bind_eq_some_iff.mp hs
      obtain ⟨ds, rfl⟩ := List.head?_eq_some_iff.mp hd
      have hs := Symbol.chars_of_ofChars? hs
      refine ⟨[c, d], ds, rfl, by simp [hs], .of_follows (.lexeme (hs ▸ .symbol s)) (fun other es hf _ => ?_) (by simp)⟩
      obtain ⟨-, -, rfl | ⟨e, rfl⟩⟩ := hf.exists_symbol h <;> simp
    case inr =>
      have hs := Symbol.chars_of_ofChars? hs
      refine ⟨[c], cs, rfl, by simp [hs], .of_follows (.lexeme (hs ▸ .symbol s)) (fun other es hf hp => ?_) (by simp)⟩
      obtain ⟨s', hs', rfl | ⟨e, rfl⟩⟩ := hf.exists_symbol h
      case inl => simp
      case inr =>
        obtain ⟨after, hp⟩ := hp
        rw [htwo s' e after hs' (by simpa using hp.symm)] at hn
        cases hn
  case h_2 hn =>
    obtain ⟨hn₂, hn₁⟩ := Option.or_eq_none_iff.mp hn
    refine .character (by rintro rfl; cases h) fun segment text hs hp => ?_
    obtain _ | ⟨d, ds⟩ := text
    case nil => exact absurd rfl hs.ne_nil
    case cons =>
      obtain ⟨rfl, after, hds⟩ := List.cons_prefix_cons.mp hp
      obtain ⟨s', hs', rfl | ⟨e, rfl⟩⟩ := hs.follows.exists_symbol h
      case inl =>
        rw [hone s' hs'] at hn₁
        cases hn₁
      case inr =>
        rw [htwo s' e after hs' (by simpa using hds.symm)] at hn₂
        cases hn₂

end Scanners

-- Reading the first segment cuts it off the front of the source, or tells why that cannot be done.
theorem first_meets (c : Char) (cs : List Char) : Meets (c :: cs) (Segment.first c cs) := by
  unfold Segment.first
  split
  case isTrue h => exact blank_meets (isBlank_iff.mp h)
  split
  case isTrue h => exact h ▸ comment_meets
  split
  case isTrue h => exact h ▸ string_meets
  split
  case isTrue h => exact word_meets (isWordStart_iff.mp h)
  split
  case isTrue h => exact number_meets (isDigit_iff.mp h)
  case isFalse => exact symbol_meets (by simp [front, *])

end BasicFrontEnd.Lexical
