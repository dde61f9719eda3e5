import BasicFrontEnd.Program.Outline
import BasicFrontEnd.Proofs.Dump.Quoted

/-!
An outline can be told from its text, as long as its labels are ones that stand on a line: each line tells how deep it
stands and what its label is, and the depths tell where the outlines below a label end. Main statement: `write?_inj`.
-/

namespace BasicFrontEnd.Outline

section Labels

-- A label that stands on one line, with nothing in front that could be taken for indentation.
structure IsLabel (text : String) : Prop where
  oneLine  : '\n' ∉ text.toList
  unspaced : text.toList.head? ≠ some ' '

-- All labels of the outline are ones.
inductive Readable : Outline → Prop
  | node : IsLabel label → (∀ o ∈ children, Readable o) → Readable (.node label children)

variable {label : String} {d : Nat}

-- The level and the label that a line writes.
def rowOf (line : String) : Nat × String :=
  ((line.toList.takeWhile (· == ' ')).length / indentWidth, String.ofList (line.toList.dropWhile (· == ' ')))

theorem rowOf_indent (h : IsLabel label) : rowOf (indent d label) = (d, label) := by
  have hspaces : ∀ c ∈ List.replicate (d * indentWidth) ' ', (c == ' ') = true := fun c hc =>
    beq_iff_eq.mpr (List.eq_of_mem_replicate hc)
  have htake : label.toList.takeWhile (· == ' ') = [] := by
    have := h.unspaced
    cases hlabel : label.toList <;> simp_all
  have hdrop : label.toList.dropWhile (· == ' ') = label.toList := by
    simpa [htake] using List.takeWhile_append_dropWhile (p := (· == ' ')) (l := label.toList)
  simp only [rowOf, indent, String.toList_append, String.toList_ofList, List.takeWhile_append_of_pos hspaces,
    List.dropWhile_append_of_pos hspaces, htake, hdrop, List.append_nil, List.length_replicate, String.ofList_toList]
  rw [Nat.mul_div_cancel d (by decide)]

theorem not_mem_indent (h : IsLabel label) : '\n' ∉ (indent d label).toList := by
  simpa [indent] using h.oneLine

end Labels

section Rows

variable {o : Outline} {os : List Outline} {line : String} {d : Nat} {xs : List (Nat × String)}

mutual

-- The levels and labels of an outline that stands `depth` levels deep, in the order of its lines.
def rows (depth : Nat) : Outline → List (Nat × String)
  | node label children => (depth, label) :: rowsOfAll (depth + 1) children

def rowsOfAll (depth : Nat) : List Outline → List (Nat × String)
  | []      => []
  | o :: os => rows depth o ++ rowsOfAll depth os

end

theorem linesOfAll_eq_flatMap : linesOfAll d os = os.flatMap (lines d) := by
  induction os
  case nil => rfl
  case cons ih => rw [linesOfAll, ih, List.flatMap_cons]

theorem rowsOfAll_eq_flatMap : rowsOfAll d os = os.flatMap (rows d) := by
  induction os
  case nil => rfl
  case cons ih => rw [rowsOfAll, ih, List.flatMap_cons]

theorem Readable.map_rowOf_lines (h : o.Readable) : (lines d o).map rowOf = rows d o := by
  induction h generalizing d
  case node hlabel _ ih =>
    rw [lines, rows, List.map_cons, rowOf_indent hlabel, linesOfAll_eq_flatMap, rowsOfAll_eq_flatMap, List.map_flatMap,
      List.flatMap_congr fun o ho => ih o ho]

theorem Readable.not_mem_of_mem_lines (h : o.Readable) (hline : line ∈ lines d o) : '\n' ∉ line.toList := by
  induction h generalizing d
  case node hlabel _ ih =>
    rw [lines, linesOfAll_eq_flatMap] at hline
    obtain rfl | hline := List.mem_cons.mp hline
    case inl => exact not_mem_indent hlabel
    case inr =>
      obtain ⟨o, ho, hline⟩ := List.mem_flatMap.mp hline
      exact ih o ho hline

theorem head?_rowsOfAll_append (hxs : ∀ row ∈ xs.head?, row.1 < d) :
    ∀ row ∈ (rowsOfAll d os ++ xs).head?, row.1 ≤ d := by
  cases os
  case nil => exact fun row hrow => Nat.le_of_lt (hxs row hrow)
  case cons o os =>
    cases o
    simp [rowsOfAll, rows]

mutual

-- An outline ends where a row stands no deeper than it does.
theorem rows_append_inj {d : Nat} {xs ys : List (Nat × String)} (o o' : Outline) (hxs : ∀ row ∈ xs.head?, row.1 ≤ d)
    (hys : ∀ row ∈ ys.head?, row.1 ≤ d) (h : rows d o ++ xs = rows d o' ++ ys) : o = o' ∧ xs = ys := by
  cases o
  case node label children =>
    cases o'
    case node label' children' =>
      rw [rows, rows, List.cons_append, List.cons_append, List.cons_eq_cons, Prod.mk.injEq] at h
      obtain ⟨⟨-, rfl⟩, h⟩ := h
      obtain ⟨rfl, rfl⟩ := rowsOfAll_append_inj children children' (fun row hrow => Nat.lt_succ_of_le (hxs row hrow))
        (fun row hrow => Nat.lt_succ_of_le (hys row hrow)) h
      exact ⟨rfl, rfl⟩

-- A row of outlines ends where something less deep stands.
theorem rowsOfAll_append_inj {d : Nat} {xs ys : List (Nat × String)} (os os' : List Outline)
    (hxs : ∀ row ∈ xs.head?, row.1 < d) (hys : ∀ row ∈ ys.head?, row.1 < d)
    (h : rowsOfAll d os ++ xs = rowsOfAll d os' ++ ys) : os = os' ∧ xs = ys := by
  cases os <;> cases os'
  case nil.nil => exact ⟨rfl, h⟩
  case nil.cons o' os' =>
    cases o'
    rw [rowsOfAll, rowsOfAll, List.nil_append, rows] at h
    exact absurd (hxs _ (by rw [h]; rfl)) (Nat.lt_irrefl d)
  case cons.nil o os =>
    cases o
    rw [rowsOfAll, rowsOfAll, List.nil_append, rows] at h
    exact absurd (hys _ (by rw [← h]; rfl)) (Nat.lt_irrefl d)
  case cons.cons o os o' os' =>
    rw [rowsOfAll, rowsOfAll, List.append_assoc, List.append_assoc] at h
    obtain ⟨rfl, hrest⟩ := rows_append_inj o o' (head?_rowsOfAll_append hxs) (head?_rowsOfAll_append hys) h
    obtain ⟨rfl, rfl⟩ := rowsOfAll_append_inj os os' hxs hys hrest
    exact ⟨rfl, rfl⟩

end

end Rows

section Text

variable {o o' : Outline} {text : String}

theorem join_lines_cons (line : String) (ls : List String) :
    (String.join ((line :: ls).map (· ++ "\n"))).toList =
      line.toList ++ '\n' :: (String.join (ls.map (· ++ "\n"))).toList := by
  simp only [List.map_cons, String.join_cons, String.toList_append, List.append_assoc]
  rfl

-- Lines that each end with a line feed can be told from the text that they make.
theorem join_lines_inj {ls ls' : List String} (hls : ∀ line ∈ ls, '\n' ∉ line.toList)
    (hls' : ∀ line ∈ ls', '\n' ∉ line.toList)
    (h : (String.join (ls.map (· ++ "\n"))).toList = (String.join (ls'.map (· ++ "\n"))).toList) : ls = ls' := by
  induction ls generalizing ls'
  case nil =>
    cases ls'
    case nil => rfl
    case cons => exact absurd (h.trans (join_lines_cons _ _)) (by simp)
  case cons line ls ih =>
    cases ls'
    case nil => exact absurd (h.symm.trans (join_lines_cons _ _)) (by simp)
    case cons line' ls' =>
      rw [List.forall_mem_cons] at hls hls'
      rw [join_lines_cons, join_lines_cons] at h
      obtain ⟨hline, hrest⟩ := Text.append_cons_inj hls.1 hls'.1 h
      rw [String.toList_injective hline, ih hls.2 hls'.2 hrest]

/-- Outlines that are written the same are the same. -/
theorem write?_inj (ho : o.Readable) (ho' : o'.Readable) (h : o.write? = some text) (h' : o'.write? = some text) :
    o = o' := by
  have hjoin {o : Outline} (h : o.write? = some text) : String.join ((o.lines 0).map (· ++ "\n")) = text := by
    simp only [write?, Option.ite_none_right_eq_some, Option.some.injEq] at h
    exact h.2
  have hlines := join_lines_inj (fun _ => ho.not_mem_of_mem_lines) (fun _ => ho'.not_mem_of_mem_lines)
    (congrArg String.toList ((hjoin h).trans (hjoin h').symm))
  have hrows := congrArg (List.map rowOf) hlines
  rw [ho.map_rowOf_lines, ho'.map_rowOf_lines, ← List.append_nil (rows 0 o), ← List.append_nil (rows 0 o')] at hrows
  exact (rows_append_inj o o' (by simp) (by simp) hrows).1

end Text

end BasicFrontEnd.Outline
