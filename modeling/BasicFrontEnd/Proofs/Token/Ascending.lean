import BasicFrontEnd.Proofs.Token.Scan

/-!
Tokens stand in the order of their places. Main statement: `ascending_tokens`.
-/

namespace BasicFrontEnd

namespace Position

-- The order of reading: line by line, and from left to right in a line.
instance : LT Position :=
  ⟨fun p q => p.line < q.line ∨ p.line = q.line ∧ p.column < q.column⟩

theorem lt_def {p q : Position} : p < q ↔ p.line < q.line ∨ p.line = q.line ∧ p.column < q.column :=
  Iff.rfl

theorem lt_irrefl (p : Position) : ¬p < p := by
  simp [lt_def]

end Position

namespace Lexical

variable {bs : List UInt8} {s : Source} {row : List Piece}

theorem placeAt_lt (hlt : m < n) (hn : n ≤ bs.length) : placeAt bs m < placeAt bs n := by
  obtain ⟨k, rfl⟩ := Nat.exists_eq_add_of_le hlt.le
  have htake : bs.take (m + k) = bs.take m ++ (bs.drop m).take k := List.take_add
  unfold placeAt
  rw [Position.lt_def, htake, List.count_append]
  by_cases hcount : ((bs.drop m).take k).count 0x0A = 0
  case neg =>
    refine .inl ?_
    dsimp only
    omega
  case pos =>
    -- There is no line feed in between, so the column counts what is.
    have hmiddle : ∀ b ∈ ((bs.drop m).take k).reverse, (b != 0x0A) = true := by
      intro b hb
      simpa using ne_of_mem_of_not_mem (List.mem_reverse.mp hb) (List.count_eq_zero.mp hcount)
    refine .inr ⟨by rw [hcount, Nat.add_zero], ?_⟩
    rw [List.reverse_append, List.takeWhile_append_of_pos hmiddle]
    simp only [List.length_append, List.length_reverse, List.length_take, List.length_drop]
    omega

-- Each byte has a place of its own, and so has the end.
theorem placeAt_inj (hm : m ≤ bs.length) (hn : n ≤ bs.length) (h : placeAt bs m = placeAt bs n) : m = n := by
  obtain hlt | heq | hlt := Nat.lt_trichotomy m n
  case inl => exact absurd (h ▸ placeAt_lt hlt hn) (Position.lt_irrefl _)
  case inr.inl => exact heq
  case inr.inr => exact absurd (h ▸ placeAt_lt hlt hm) (Position.lt_irrefl _)

theorem Piece.position_of_mem_token? {p : Piece} (h : t ∈ (p.token? s offset).toList) :
    t.position = placeAt s.bytes offset := by
  cases hp : p.segment <;> simp_all [Piece.token?]

theorem exists_split_of_mem_tokensOf (h : t ∈ tokensOf s offset row) :
    ∃ before p after, row = before ++ p :: after ∧ t.position = placeAt s.bytes (offset + (textOf before).length) := by
  induction row generalizing offset
  case nil => cases h
  case cons p row ih =>
    obtain h | h := List.mem_append.mp h
    case inl => exact ⟨[], p, row, rfl, Piece.position_of_mem_token? h⟩
    case inr =>
      obtain ⟨before, q, after, rfl, hposition⟩ := ih h
      exact ⟨p :: before, q, after, rfl, by simpa [Nat.add_assoc] using hposition⟩

theorem ascending_tokensOf (h : Row row rest) (hlength : offset + (textOf row).length ≤ s.bytes.length) :
    (tokensOf s offset row).Pairwise (·.position < ·.position) := by
  induction h generalizing offset
  case nil => exact .nil
  case cons row _ p hcut _ ih =>
    rw [textOf_cons, List.length_append, ← Nat.add_assoc] at hlength
    have hfirst : (p.token? s offset).toList.Pairwise (·.position < ·.position) := by
      cases p.token? s offset
      case none => exact .nil
      case some => exact List.pairwise_singleton _ _
    refine List.pairwise_append.mpr ⟨hfirst, ih hlength, fun t ht u hu => ?_⟩
    obtain ⟨before, q, after, rfl, huplace⟩ := exists_split_of_mem_tokensOf hu
    have htext : 0 < p.text.length := List.length_pos_iff.mpr hcut.spells.ne_nil
    have hbefore : (textOf before).length ≤ (textOf (before ++ q :: after)).length := by simp [textOf]
    rw [Piece.position_of_mem_token? ht, huplace]
    exact placeAt_lt (by omega) (by omega)

theorem ascending_tokens {stream : Stream} (h : s.tokens = .ok stream) :
    stream.ahead.dropLast.Pairwise (·.position < ·.position) := by
  obtain ⟨row, hrow, hs, -, rfl⟩ := exists_row_of_tokens h
  have hlength : 0 + (textOf row).length ≤ s.bytes.length := by
    rw [Nat.zero_add, ← hs, Source.chars, Text.length_latin1]
  show (tokensOf s 0 row ++ [_]).dropLast.Pairwise _
  rw [List.dropLast_concat]
  exact ascending_tokensOf hrow hlength

end Lexical

end BasicFrontEnd
