import BasicFrontEnd.Proofs.Token.Longest

/-!
There is at most one way to cut a segment off, and none where the source is stuck. So `Segment.first` answers
exactly with the segment that can be cut off, and exactly with the cause why there is none.
-/

namespace BasicFrontEnd.Lexical

variable {segment : Segment}

-- What a segment's text starts with and how it goes on settles the segment.
theorem Follows.unique (h₁ : Follows segment₁ c cs) (h₂ : Follows segment₂ c cs) : segment₁ = segment₂ := by
  unfold Follows at h₁ h₂
  split at h₁ <;> simp only [*] at h₂
  case h_1 => rw [h₁.left, h₂.left]
  case h_2 => rw [h₁.left, h₂.left]
  case h_3 =>
    obtain ⟨body₁, value₁, rfl, rfl, hq₁⟩ := h₁
    obtain ⟨body₂, value₂, rfl, hb, hq₂⟩ := h₂
    have hb : body₁ = body₂ := List.append_cancel_right hb
    have := stringBody?_of_quotes hq₁ []
    rw [hb, stringBody?_of_quotes hq₂] at this
    simp_all
  case h_4 => rw [h₁.left, h₂.left]
  case h_5 =>
    have hpoint : ∀ {ds es : List Char}, ¬∀ d ∈ ds ++ '.' :: es, IsDigit d :=
      fun h => absurd (h '.' (by simp)) (by decide)
    obtain ⟨rfl, hd₁⟩ | ⟨rfl, ds, es, rfl, -⟩ := h₁ <;> obtain ⟨rfl, hd₂⟩ | ⟨rfl, ds', es', hcs, -⟩ := h₂
    case inl.inl => rfl
    case inl.inr => exact absurd (hcs ▸ hd₁) hpoint
    case inr.inl => exact absurd hd₂ hpoint
    case inr.inr => rfl
  case h_6 =>
    obtain ⟨s₁, rfl, hs₁⟩ := h₁
    obtain ⟨s₂, rfl, hs₂⟩ := h₂
    have := Symbol.ofChars?_chars s₁
    rw [hs₁, ← hs₂, Symbol.ofChars?_chars] at this
    rw [Option.some.inj this]

theorem Spells.unique (h₁ : Spells segment₁ text) (h₂ : Spells segment₂ text) : segment₁ = segment₂ := by
  obtain _ | ⟨c, cs⟩ := text
  case nil => exact absurd rfl h₁.ne_nil
  case cons => exact h₁.follows.unique h₂.follows

-- There is at most one way to cut a segment off.
theorem Cut.unique (h₁ : Cut segment₁ text₁ rest₁) (h₂ : Cut segment₂ text₂ rest₂)
    (h : text₁ ++ rest₁ = text₂ ++ rest₂) : segment₁ = segment₂ ∧ text₁ = text₂ ∧ rest₁ = rest₂ := by
  have hle₁ := h₁.longest _ _ h₂.spells (h ▸ List.prefix_append ..)
  have hle₂ := h₂.longest _ _ h₁.spells (h ▸ List.prefix_append ..)
  obtain ⟨rfl, rfl⟩ := List.append_inj h (Nat.le_antisymm hle₂ hle₁)
  exact ⟨h₁.spells.unique h₂.spells, rfl, rfl⟩

theorem first_of_isDigit (h : IsDigit c) (cs : List Char) : Segment.first c cs = Segment.number c cs := by
  have hf := Front.of_isDigit h
  unfold front at hf
  split at hf <;> try cases hf
  split at hf <;> try cases hf
  split at hf <;> try cases hf
  split at hf <;> try cases hf
  simp [Segment.first, isDigit_iff, *]

theorem span_point (hd : ∀ d ∈ ds, IsDigit d) (rest : List Char) :
    (ds ++ '.' :: rest).takeWhile Char.isDigit = ds ∧
      (ds ++ '.' :: rest).dropWhile Char.isDigit = '.' :: rest := by
  refine ⟨takeWhile_isDigit_append hd (by rintro d ⟨⟩; decide), ?_⟩
  rw [List.dropWhile_append_of_pos fun d h => isDigit_iff.mpr (hd d h)]
  rfl

-- A source that begins with neither a quote nor a digit can only be stuck at its first character.
theorem Stuck.at_front (h : Stuck (c :: cs) cause offset) (hq : c ≠ '"') (hd : ¬IsDigit c) :
    cause = .unknownCharacter c ∧ offset = 0 := by
  generalize ht : c :: cs = text at h
  cases h
  case string => exact absurd (List.cons.inj ht).left hq
  case point ds hne hds =>
    obtain ⟨d, ds, rfl⟩ := List.exists_cons_of_ne_nil hne
    exact absurd (hds c (by simp [(List.cons.inj ht).left])) hd
  case fraction ds _ _ hne hds _ =>
    obtain ⟨d, ds, rfl⟩ := List.exists_cons_of_ne_nil hne
    exact absurd (hds c (by simp [(List.cons.inj ht).left])) hd
  case character => simp [(List.cons.inj ht).left]

theorem Stuck.first_eq (h : Stuck (c :: cs) cause offset) : Segment.first c cs = .error ⟨cause, offset⟩ := by
  generalize ht : c :: cs = text at h
  cases h
  case string h =>
    obtain ⟨rfl, rfl⟩ := List.cons.inj ht
    have hnone : Segment.stringBody? cs = none := by
      by_contra hne
      obtain ⟨⟨value, n⟩, hs⟩ := Option.ne_none_iff_exists'.mp hne
      obtain ⟨body, rest, hcs, -, hq⟩ := quotes_of_stringBody? hs
      exact h body value rest hq hcs
    simp [Segment.first, Segment.isBlank, Segment.string, hnone]
  case point ds hne hd =>
    obtain _ | ⟨d, ds⟩ := ds
    case nil => exact absurd rfl hne
    case cons =>
      obtain ⟨rfl, rfl⟩ := List.cons.inj ht
      simp only [List.mem_cons, forall_eq_or_imp] at hd
      obtain ⟨htake, hdrop⟩ := span_point hd.right []
      simp [first_of_isDigit hd.left, Segment.number, htake, hdrop]
  case fraction ds e rest hne hd he =>
    obtain _ | ⟨d, ds⟩ := ds
    case nil => exact absurd rfl hne
    case cons =>
      obtain ⟨rfl, rfl⟩ := List.cons.inj ht
      simp only [List.mem_cons, forall_eq_or_imp] at hd
      obtain ⟨htake, hdrop⟩ := span_point hd.right (e :: rest)
      simp [first_of_isDigit hd.left, Segment.number, htake, hdrop, isDigit_iff, he]
  case character hq hs =>
    obtain ⟨rfl, rfl⟩ := List.cons.inj ht
    have hm := first_meets c cs
    cases hr : Segment.first c cs
    case ok result =>
      simp only [hr, Meets] at hm
      obtain ⟨text, rest, hcs, -, hcut⟩ := hm
      exact absurd ⟨rest, hcs.symm⟩ (hs _ _ hcut.spells)
    case error fault =>
      have hd : ¬IsDigit c := fun h =>
        hs _ [c] (.lexeme (.integer (by simp) (by simpa using h))) ⟨cs, rfl⟩
      simp only [hr, Meets] at hm
      obtain ⟨hcause, hoffset⟩ := hm.at_front hq hd
      rw [← hcause, ← hoffset]

-- No segment can be cut off where digits have a point behind them that no digit follows.
theorem Cut.fraction_follows (h : Cut segment text rest) (ht : text ++ rest = ds ++ '.' :: tail) (hne : ds ≠ [])
    (hd : ∀ d ∈ ds, IsDigit d) : ∃ e, tail.head? = some e ∧ IsDigit e := by
  have hlong := h.longest _ ds (.lexeme (.integer hne hd)) (ht ▸ List.prefix_append ..)
  obtain ⟨d, ds, rfl⟩ := List.exists_cons_of_ne_nil hne
  obtain ⟨c, cs, rfl⟩ := List.exists_cons_of_ne_nil h.spells.ne_nil
  obtain ⟨rfl, htail⟩ := List.cons.inj ht
  have hpoint : ∀ e, ('.' :: tail).head? = some e → ¬IsDigit e := by
    rintro e ⟨⟩
    decide
  have hds := fun e he => hd e (List.mem_cons_of_mem c he)
  obtain hle | ⟨es, after, hrest, hes, hall, -⟩ :=
    number_follows (hd c (by simp)) hds hpoint h.spells.follows ⟨rest, htail⟩
  case inl =>
    obtain ⟨rfl, rfl⟩ := List.append_inj htail (Nat.le_antisymm hle (Nat.le_of_succ_le_succ hlong))
    have hs := h.spells.unique (.lexeme (.integer hne hd))
    exact absurd rfl (h.point _ hs)
  case inr =>
    obtain ⟨e, es, rfl⟩ := List.exists_cons_of_ne_nil hes
    exact ⟨e, by simp [(List.cons.inj hrest).right], hall e (by simp)⟩

theorem Stuck.not_cut (h : Stuck (text ++ rest) cause offset) : ¬Cut segment text rest := by
  intro hcut
  generalize ht : text ++ rest = source at h
  cases h
  case string h =>
    obtain ⟨c, cs, rfl⟩ := List.exists_cons_of_ne_nil hcut.spells.ne_nil
    obtain ⟨rfl, rfl⟩ := List.cons.inj ht
    have hfront : front '"' = .quote := by decide
    have hf := hcut.spells.follows
    simp only [Follows, hfront] at hf
    obtain ⟨body, value, -, rfl, hq⟩ := hf
    exact h body value rest hq (by simp)
  case point hne hd =>
    obtain ⟨e, he, -⟩ := hcut.fraction_follows ht hne hd
    cases he
  case fraction hne hd hc =>
    obtain ⟨e, ⟨⟩, he⟩ := hcut.fraction_follows ht hne hd
    exact hc he
  case character hs => exact hs _ _ hcut.spells ⟨rest, ht⟩

-- A segment is read exactly if it can be cut off.
theorem first_eq_ok_iff : Segment.first c cs = .ok (segment, n) ↔
    ∃ text rest, c :: cs = text ++ rest ∧ text.length = n + 1 ∧ Cut segment text rest := by
  have hm := first_meets c cs
  constructor
  case mp =>
    intro h
    rwa [h] at hm
  case mpr =>
    rintro ⟨text, rest, hcs, hlen, hcut⟩
    cases hr : Segment.first c cs
    case error =>
      rw [hr, hcs] at hm
      exact absurd hcut hm.not_cut
    case ok result =>
      rw [hr] at hm
      obtain ⟨text', rest', hcs', hlen', hcut'⟩ := hm
      obtain ⟨hs, rfl, -⟩ := hcut.unique hcut' (hcs.symm.trans hcs')
      have : result.2 = n := by omega
      rw [← this, hs]

theorem first_eq_error_iff : Segment.first c cs = .error fault ↔ Stuck (c :: cs) fault.cause fault.offset where
  mp h  := by simpa [h, Meets] using first_meets c cs
  mpr h := h.first_eq

end BasicFrontEnd.Lexical
