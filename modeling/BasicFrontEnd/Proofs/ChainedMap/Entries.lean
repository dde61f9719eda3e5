import BasicFrontEnd.ChainedMap
import Mathlib.Data.List.FinRange
import Mathlib.Data.String.Basic

/-!
A map as the row of its entries in the order of insertion. Each slot chains those of the entries that fall in it, and a
look-up finds the first of these that fits; a listing goes from slot to slot. Main statement: `refines_insertions`.
-/

namespace BasicFrontEnd.ChainedMap

variable {β : Type u} {m : ChainedMap β} {es : List (Entry β)}

-- The chain of a slot.
def entriesAt (m : ChainedMap β) (i : Fin slotCount) : List (Entry β) :=
  m.slots[i].toList

-- Those of the entries that fall in the slot.
def inSlot (i : Fin slotCount) (es : List (Entry β)) : List (Entry β) :=
  es.filter (slotOf ·.key = i)

-- The map with the entries inserted one after the other.
def insertAll (m : ChainedMap β) (es : List (Entry β)) : ChainedMap β :=
  es.foldl (fun m e => m.insert e.key e.value) m

-- The line of a slot in a listing.
def slotLine (write : β → String) (i : Fin slotCount) (es : List (Entry β)) : String :=
  "[" ++ toString i.val ++ "]" ++ String.join (es.map fun e => " " ++ e.key ++ " => " ++ write e.value ++ ";") ++ "\n"

section Insertion

@[simp]
theorem inSlot_nil (i : Fin slotCount) : inSlot i ([] : List (Entry β)) = [] :=
  rfl

theorem inSlot_append (i : Fin slotCount) (es fs : List (Entry β)) : inSlot i (es ++ fs) = inSlot i es ++ inSlot i fs :=
  List.filter_append ..

theorem mem_inSlot {i : Fin slotCount} {e : Entry β} : e ∈ inSlot i es ↔ e ∈ es ∧ slotOf e.key = i := by
  simp [inSlot]

@[simp]
theorem entriesAt_empty (i : Fin slotCount) : (empty : ChainedMap β).entriesAt i = [] := by
  simp [entriesAt, empty]

-- A new entry comes last in its slot, and no other slot changes.
theorem entriesAt_insert (m : ChainedMap β) (e : Entry β) (i : Fin slotCount) :
    (m.insert e.key e.value).entriesAt i = m.entriesAt i ++ inSlot i [e] := by
  unfold entriesAt insert inSlot
  by_cases h : slotOf e.key = i
  case pos => simp [← h]
  case neg =>
    have h' : (slotOf e.key).val ≠ i.val := fun heq => h (Fin.ext heq)
    simp [Vector.getElem_set_ne _ _ h', h]

theorem insertAll_append (m : ChainedMap β) (es fs : List (Entry β)) :
    m.insertAll (es ++ fs) = (m.insertAll es).insertAll fs :=
  List.foldl_append

theorem entriesAt_insertAll (m : ChainedMap β) (es : List (Entry β)) (i : Fin slotCount) :
    (m.insertAll es).entriesAt i = m.entriesAt i ++ inSlot i es := by
  induction es generalizing m
  case nil => simp [insertAll]
  case cons e es ih =>
    have hstep : m.insertAll (e :: es) = (m.insert e.key e.value).insertAll es := rfl
    rw [hstep, ih, entriesAt_insert, List.append_assoc, ← inSlot_append, List.singleton_append]

theorem size_insertAll (m : ChainedMap β) (es : List (Entry β)) : (m.insertAll es).size = m.size + es.length := by
  induction es generalizing m
  case nil => rfl
  case cons e es ih =>
    have hstep : m.insertAll (e :: es) = (m.insert e.key e.value).insertAll es := rfl
    rw [hstep, ih, size_insert, List.length_cons, Nat.add_assoc, Nat.add_comm 1]

-- From the empty map, a slot has what falls in it, in the order of insertion.
theorem entriesAt_insertAll_empty (es : List (Entry β)) (i : Fin slotCount) :
    (empty.insertAll es).entriesAt i = inSlot i es := by
  rw [entriesAt_insertAll, entriesAt_empty, List.nil_append]

-- Entries with the name of a look-up are in its slot, so the others there do not matter.
theorem find?_inSlot (es : List (Entry β)) (key : String) :
    (inSlot (slotOf key) es).find? (·.key == key) = es.find? (·.key == key) := by
  rw [inSlot, List.find?_filter]
  congr 1
  funext e
  by_cases h : e.key = key
  case pos => simp [h]
  case neg => simp [h]

end Insertion

section Listing

-- Slots that differ hold what falls in one of them.
theorem perm_flatMap_inSlot (es : List (Entry β)) {slots : List (Fin slotCount)} (h : slots.Nodup) :
    (slots.flatMap (inSlot · es)).Perm (es.filter (slotOf ·.key ∈ slots)) := by
  induction slots
  case nil => simp
  case cons i slots ih =>
    obtain ⟨hi, hslots⟩ := List.nodup_cons.mp h
    have hfirst : (es.filter (slotOf ·.key ∈ i :: slots)).filter (slotOf ·.key = i) = inSlot i es := by
      rw [List.filter_filter, inSlot]
      exact List.filter_congr fun e _ => by simp +contextual
    have hothers : (es.filter (slotOf ·.key ∈ i :: slots)).filter (!slotOf ·.key = i) =
        es.filter (slotOf ·.key ∈ slots) := by
      rw [List.filter_filter]
      refine List.filter_congr fun e _ => ?_
      by_cases he : slotOf e.key = i
      case pos => simp [he, hi]
      case neg => simp [he]
    have hsplit := List.filter_append_perm (slotOf ·.key = i) (es.filter (slotOf ·.key ∈ i :: slots))
    rw [hfirst, hothers] at hsplit
    rw [List.flatMap_cons]
    exact ((ih hslots).append_left _).trans hsplit

-- The slots in use, in order.
def usedSlots (m : ChainedMap β) : List (Fin slotCount) :=
  (List.finRange slotCount).filter fun i => !(m.entriesAt i).isEmpty

theorem mem_usedSlots {i : Fin slotCount} : i ∈ m.usedSlots ↔ m.entriesAt i ≠ [] := by
  simp [usedSlots]

theorem pairwise_usedSlots (m : ChainedMap β) : m.usedSlots.Pairwise (· < ·) :=
  (List.pairwise_lt_finRange slotCount).filter _

-- Together the slots in use hold all of the entries.
theorem perm_flatMap_usedSlots (es : List (Entry β)) :
    ((empty.insertAll es).usedSlots.flatMap (empty.insertAll es).entriesAt).Perm es := by
  have hslots : (empty.insertAll es).entriesAt = (inSlot · es) := funext (entriesAt_insertAll_empty es)
  have hnodup := (pairwise_usedSlots (empty.insertAll es)).imp fun h => ne_of_lt h
  have hall : es.filter (slotOf ·.key ∈ (empty.insertAll es).usedSlots) = es := by
    refine List.filter_eq_self.mpr fun e he => decide_eq_true ?_
    rw [mem_usedSlots, entriesAt_insertAll_empty]
    exact List.ne_nil_of_mem (mem_inSlot.mpr ⟨he, rfl⟩)
  have hperm := perm_flatMap_inSlot es hnodup
  rwa [hall, ← hslots] at hperm

theorem zipIdx_toList {α : Type u} {n : Nat} (xs : Vector α n) :
    xs.toList.zipIdx = (List.finRange n).map fun i => (xs[i], i.val) := by
  refine List.ext_getElem (by simp) fun i hi hi' => ?_
  simp

-- What shows nothing can be left out.
theorem join_map_ite {α : Type} (xs : List α) (hidden : α → Bool) (render : α → String) :
    String.join (xs.map fun x => if hidden x then "" else render x) =
      String.join ((xs.filter (!hidden ·)).map render) := by
  induction xs
  case nil => rfl
  case cons x xs ih =>
    cases h : hidden x
    case true => simp [h, ih]
    case false => simp [h, ih]

-- A listing has one line for each slot in use.
theorem listing_eq (m : ChainedMap β) (write : β → String) :
    m.listing write = String.join (m.usedSlots.map fun i => slotLine write i (m.entriesAt i)) := by
  have hempty (i : Fin slotCount) : m.slots[i].isEmpty = (m.entriesAt i).isEmpty := by
    rw [Bool.eq_iff_iff, Sequence.isEmpty_iff, List.isEmpty_iff, entriesAt]
  rw [listing, zipIdx_toList, List.map_map, usedSlots, ← join_map_ite]
  refine congrArg String.join <| List.map_congr_left fun i _ => ?_
  rw [Function.comp_apply, ← hempty]
  rfl

end Listing

-- Whatever is inserted, a look-up by name finds the first entry with this name, and one with a condition the first
-- entry that fits among those in the slot of the name. No entry is lost or stands twice: each is in the slot of its
-- name and in no other, behind what was inserted there before it, and a listing goes through the slots in use from the
-- first to the last.
theorem refines_insertions (es : List (Entry β)) :
    let m := empty.insertAll es
    (∀ key, m.find? key = (es.find? (·.key == key)).map (·.value)) ∧
    (∀ key fits, m.findInSlot? key fits = ((inSlot (slotOf key) es).find? fits).map (·.value)) ∧
    m.size = es.length ∧
    (∀ i, m.entriesAt i = inSlot i es) ∧ (∀ e ∈ es, ∃! i, e ∈ m.entriesAt i) ∧
    ∃ slots : List (Fin slotCount), slots.Pairwise (· < ·) ∧ (∀ i, i ∈ slots ↔ m.entriesAt i ≠ []) ∧
      (slots.flatMap m.entriesAt).Perm es ∧
      ∀ write, m.listing write = String.join (slots.map fun i => slotLine write i (m.entriesAt i)) := by
  intro m
  have hslots : ∀ i, m.entriesAt i = inSlot i es := entriesAt_insertAll_empty es
  have hfind (key : String) (fits : Entry β → Bool) :
      m.findInSlot? key fits = ((inSlot (slotOf key) es).find? fits).map (·.value) := by
    rw [← hslots]
    rfl
  refine ⟨fun key => ?_, hfind, ?_, hslots, fun e he => ?_, ?_⟩
  case refine_1 => rw [find?, hfind, find?_inSlot]
  case refine_2 => rw [size_insertAll, size_empty, Nat.zero_add]
  case refine_3 =>
    refine ⟨slotOf e.key, by simp [hslots, mem_inSlot, he], fun i (hi : e ∈ m.entriesAt i) => ?_⟩
    rw [hslots, mem_inSlot] at hi
    exact hi.2.symm
  case refine_4 =>
    exact ⟨m.usedSlots, pairwise_usedSlots m, fun i => mem_usedSlots, perm_flatMap_usedSlots es, listing_eq m⟩

-- Two names that share a slot, one of them inserted twice.
theorem refines_insertions_sharedSlot :
    let m := empty.insertAll [⟨"a", 1⟩, ⟨"jy", 2⟩, ⟨"a", 3⟩]
    slotOf "a" = slotOf "jy" ∧ m.find? "a" = some 1 ∧ m.find? "jy" = some 2 ∧
      m.findInSlot? "jy" (2 < ·.value) = some 3 ∧ ∃! i, ⟨"a", 3⟩ ∈ m.entriesAt i := by
  have hshared : slotOf "a" = slotOf "jy" := by decide +kernel
  obtain ⟨hfind, hfindInSlot, -, -, hone, -⟩ := refines_insertions [⟨"a", 1⟩, ⟨"jy", 2⟩, ⟨"a", 3⟩]
  refine ⟨hshared, hfind "a", hfind "jy", ?_, hone ⟨"a", 3⟩ (by simp)⟩
  rw [hfindInSlot, ← hshared]
  simp [inSlot, hshared]

end BasicFrontEnd.ChainedMap
