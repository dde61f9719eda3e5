import BasicFrontEnd.Sequence
import BasicFrontEnd.Text.Utf8

/-!
Maps from names to values with a fixed number of slots. A name's slot is found by its FNV-1a hash, and each slot
chains its entries in the order of insertion. Inserting never replaces: a look-up finds the first entry that fits.
-/

namespace BasicFrontEnd

-- The 64-bit FNV-1a hash of the bytes.
def fnv1a (bs : List UInt8) : UInt64 :=
  bs.foldl (fun hash b => (hash ^^^ b.toUInt64) * 0x00000100000001b3) 0xcbf29ce484222325

namespace ChainedMap

def slotCount : Nat := 1024

@[ext]
structure Entry (β : Type u) where
  key   : String
  value : β
  deriving DecidableEq

-- The slot that holds the entries of a name.
def slotOf (key : String) : Fin slotCount :=
  ⟨(fnv1a (Text.encode key.toList)).toNat % slotCount, Nat.mod_lt _ (by decide)⟩

end ChainedMap

@[ext]
structure ChainedMap (β : Type u) where
  slots : Vector (Sequence (ChainedMap.Entry β)) ChainedMap.slotCount
  count : Nat

namespace ChainedMap

def empty : ChainedMap β where
  slots := .replicate slotCount .empty
  count := 0

instance : Inhabited (ChainedMap β) :=
  ⟨empty⟩

-- The entries of the slot that `key` falls in.
def chain (m : ChainedMap β) (key : String) : List (Entry β) :=
  m.slots[slotOf key].toList

def insert (m : ChainedMap β) (key : String) (value : β) : ChainedMap β where
  slots := m.slots.set (slotOf key) (m.slots[slotOf key].append ⟨key, value⟩)
  count := m.count + 1

-- The value of the first entry in the slot of `key` that `fits` accepts.
def findInSlot? (m : ChainedMap β) (key : String) (fits : Entry β → Bool) : Option β :=
  ((m.chain key).find? fits).map (·.value)

-- The value that was inserted first for `key`.
def find? (m : ChainedMap β) (key : String) : Option β :=
  m.findInSlot? key (·.key == key)

def contains (m : ChainedMap β) (key : String) : Bool :=
  (m.find? key).isSome

def size (m : ChainedMap β) : Nat :=
  m.count

def isEmpty (m : ChainedMap β) : Bool :=
  m.count == 0

-- One line for each slot in use, with its entries in order.
def listing (m : ChainedMap β) (write : β → String) : String :=
  String.join <| m.slots.toList.zipIdx.map fun (slot, i) =>
    if slot.isEmpty then ""
    else "[" ++ toString i ++ "]" ++
      String.join (slot.toList.map fun e => " " ++ e.key ++ " => " ++ write e.value ++ ";") ++ "\n"

@[simp]
theorem chain_empty (key : String) : (empty : ChainedMap β).chain key = [] := by
  simp [chain, empty]

-- A new entry comes last in the chain of its slot; the other chains stay.
theorem chain_insert (m : ChainedMap β) (key key' : String) (value : β) :
    (m.insert key value).chain key' =
      if slotOf key = slotOf key' then m.chain key' ++ [⟨key, value⟩] else m.chain key' := by
  unfold chain insert
  split
  case isTrue h => simp [h]
  case isFalse h =>
    have h' : (slotOf key).val ≠ (slotOf key').val := fun e => h (Fin.ext e)
    simp [Vector.getElem_set_ne _ _ h']

@[simp]
theorem size_empty : (empty : ChainedMap β).size = 0 :=
  rfl

@[simp]
theorem size_insert (m : ChainedMap β) (key : String) (value : β) : (m.insert key value).size = m.size + 1 :=
  rfl

end ChainedMap
end BasicFrontEnd
