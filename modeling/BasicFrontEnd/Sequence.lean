/-!
Ordered sequences that grow and shrink at both ends. Their members are numbered from 1, as source lines are.
-/

namespace BasicFrontEnd

@[ext]
structure Sequence (α : Type u) where
  items : Array α
  deriving DecidableEq

namespace Sequence

def toList (s : Sequence α) : List α :=
  s.items.toList

def empty : Sequence α :=
  ⟨#[]⟩

instance : Inhabited (Sequence α) :=
  ⟨empty⟩

def ofList (xs : List α) : Sequence α :=
  ⟨xs.toArray⟩

def append (s : Sequence α) (x : α) : Sequence α :=
  ⟨s.items.push x⟩

def prepend (s : Sequence α) (x : α) : Sequence α :=
  ⟨#[x] ++ s.items⟩

-- The last member, and the sequence without it.
def popTail (s : Sequence α) : Option α × Sequence α :=
  (s.items.back?, ⟨s.items.pop⟩)

-- The first member, and the sequence without it.
def popHead (s : Sequence α) : Option α × Sequence α :=
  (s.items[0]?, ⟨s.items.extract 1 s.items.size⟩)

def head? (s : Sequence α) : Option α :=
  s.items[0]?

def size (s : Sequence α) : Nat :=
  s.items.size

def isEmpty (s : Sequence α) : Bool :=
  s.items.isEmpty

-- Member number `n`. There is no member 0.
def nth? (s : Sequence α) : Nat → Option α
  | 0     => none
  | n + 1 => s.items[n]?

@[simp]
theorem toList_empty : (empty : Sequence α).toList = [] :=
  rfl

@[simp]
theorem toList_ofList (xs : List α) : (ofList xs).toList = xs :=
  rfl

@[simp]
theorem toList_append (s : Sequence α) (x : α) : (s.append x).toList = s.toList ++ [x] := by
  simp [append, toList]

@[simp]
theorem toList_prepend (s : Sequence α) (x : α) : (s.prepend x).toList = x :: s.toList := by
  simp [prepend, toList]

@[simp]
theorem popTail_fst (s : Sequence α) : s.popTail.1 = s.toList.getLast? := by
  simp [popTail, toList]

@[simp]
theorem toList_popTail_snd (s : Sequence α) : s.popTail.2.toList = s.toList.dropLast := by
  simp [popTail, toList]

@[simp]
theorem popHead_fst (s : Sequence α) : s.popHead.1 = s.toList.head? := by
  simp [popHead, toList, List.head?_eq_getElem?]

@[simp]
theorem toList_popHead_snd (s : Sequence α) : s.popHead.2.toList = s.toList.tail := by
  simp only [popHead, toList, Array.toList_extract, List.extract, List.drop_one]
  exact List.take_of_length_le (by simp)

@[simp]
theorem head?_eq (s : Sequence α) : s.head? = s.toList.head? := by
  simp [head?, toList, List.head?_eq_getElem?]

@[simp]
theorem length_toList (s : Sequence α) : s.toList.length = s.size := by
  simp [size, toList]

theorem isEmpty_iff (s : Sequence α) : s.isEmpty = true ↔ s.toList = [] := by
  simp [isEmpty, toList]

@[simp]
theorem nth?_zero (s : Sequence α) : s.nth? 0 = none :=
  rfl

@[simp]
theorem nth?_succ (s : Sequence α) (n : Nat) : s.nth? (n + 1) = s.toList[n]? := by
  simp [nth?, toList]

end Sequence
end BasicFrontEnd
