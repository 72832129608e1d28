import Mathlib.Algebra.Group.Nat.Defs
import Mathlib.Data.List.Basic

/-!
# Containers — the hash table

`HashMap` (`include/hashmap.hpp`): open addressing with linear probing and tombstones.  The keys
bring their equality, their hash and the default key `Key{}` a slot is constructed with
(`HashKey`).  The loop of `find_slot` visits every slot once before it repeats itself, so it is
cut off after as many iterations as there are slots; `none` stands for a loop that does not end, and
for one that comes to a comparison that is not defined.
-/

namespace CppLox

/-- The template parameters of `HashMap` that concern keys; `default` is `Key{}`.  Where two keys are
not `comparable`, the call of `KeyEqual` on them is undefined behaviour. -/
class HashKey (K : Type) extends Inhabited K where
  keyEqual : K → K → Bool
  hasher : K → Nat
  comparable : K → K → Bool := fun _ _ => true

export HashKey (keyEqual hasher comparable)

/-- `KeyEqual` is defined on all keys and an equivalence that `Hash` respects. -/
class LawfulHashKey (K : Type) [HashKey K] : Prop where
  refl : ∀ a : K, keyEqual a a = true
  symm : ∀ {a b : K}, keyEqual a b = true → keyEqual b a = true
  trans : ∀ {a b c : K}, keyEqual a b = true → keyEqual b c = true → keyEqual a c = true
  hash : ∀ {a b : K}, keyEqual a b = true → hasher a = hasher b
  comparable : ∀ a b : K, comparable a b = true := by exact fun _ _ => rfl

namespace HashMap

/-- `HashMap::Slot::State`. -/
inductive State where
  | filled
  | empty
  | tombstone
  deriving Repr, DecidableEq

/-- `HashMap::Slot`. -/
structure Slot (K : Type) (V : Type) where
  key : K
  value : V
  state : State
  deriving Repr

variable {K : Type} {V : Type} [HashKey K] [Inhabited V]

instance : Inhabited (Slot K V) := ⟨⟨default, default, .empty⟩⟩

/-- The slot at an index. -/
def slotAt (slots : List (Slot K V)) (i : Nat) : Slot K V := slots.getD i default

/-- The loop of `HashMap::find_slot`, with the tombstone found last. -/
def probe (slots : List (Slot K V)) (key : K) : Nat → Nat → Option Nat → Option Nat
  | 0, _, _ => none
  | fuel + 1, index, tombstone =>
    let slot := slotAt slots index
    if !comparable slot.key key then none
    else if keyEqual slot.key key then some index
    else if slot.state = .empty then
      -- a tombstone found earlier in the probe sequence is reused
      some (tombstone.getD index)
    else
      probe slots key fuel ((index + 1) % slots.length)
        (if slot.state = .tombstone then some index else tombstone)

/-- `HashMap::find_slot`: the index of the slot that is returned. -/
def findSlot (slots : List (Slot K V)) (key : K) : Option Nat :=
  probe slots key slots.length (hasher key % slots.length) none

end HashMap

/-- The data members of `HashMap`; the load and growth factors keep their defaults. -/
structure HashMap (K : Type) (V : Type) where
  size : Nat
  tombstones : Nat
  slots : List (HashMap.Slot K V)
  deriving Repr

namespace HashMap

variable {K : Type} {V : Type} [HashKey K] [Inhabited V]

/-- `HashMap::HashMap`. -/
def empty : HashMap K V := ⟨0, 0, []⟩

/-- `MIN_TABLE_SIZE`. -/
def minTableSize : Nat := 128

/-- `static_cast<size_t>(static_cast<double>(n) * 0.65)`.  The double nearest to `0.65` is
`5854679515581645 / 2 ^ 53`; the product is exact because a table has `0` or `128 * 2 ^ k`
slots. -/
def loadBound (n : Nat) : Nat := n * 5854679515581645 / 2 ^ 53

/-- The loop of `HashMap::grow` that moves the filled slots to a new vector. -/
def rehash (newSlots : List (Slot K V)) : List (Slot K V) → Option (List (Slot K V))
  | [] => some newSlots
  | slot :: slots =>
    if slot.state = .filled then do
      let destination ← findSlot newSlots slot.key
      rehash (newSlots.set destination slot) slots
    else rehash newSlots slots

/-- `HashMap::grow`. -/
def grow (m : HashMap K V) : Option (HashMap K V) :=
  if m.size + 1 + m.tombstones > loadBound m.slots.length then do
    let newCapacity := max (2 * m.slots.length) minTableSize
    let slots ← rehash (List.replicate newCapacity default) m.slots
    return ⟨m.size, 0, slots⟩
  else some m

/-- `HashMap::insert`: whether a new key was inserted. -/
def insert (m : HashMap K V) (key : K) (value : V) : Option (Bool × HashMap K V) := do
  let m ← m.grow
  let index ← findSlot m.slots key
  let slot := slotAt m.slots index
  match slot.state with
  | .empty => return (true,
      { m with slots := m.slots.set index ⟨key, value, .filled⟩, size := m.size + 1 })
  | .tombstone => return (true,
      { slots := m.slots.set index ⟨key, value, .filled⟩, size := m.size + 1,
        tombstones := m.tombstones - 1 })
  | .filled => return (false, { m with slots := m.slots.set index { slot with value := value } })

/-- `HashMap::insert_slot`: the index of the slot that is returned. -/
def insertSlot (m : HashMap K V) (key : K) (value : V) : Option (Nat × HashMap K V) := do
  let m ← m.grow
  let index ← findSlot m.slots key
  let slot := slotAt m.slots index
  match slot.state with
  | .empty => return (index,
      { m with slots := m.slots.set index ⟨key, value, .filled⟩, size := m.size + 1 })
  | .tombstone => return (index,
      { slots := m.slots.set index ⟨key, value, .filled⟩, size := m.size + 1,
        tombstones := m.tombstones - 1 })
  | .filled => return (index, { m with slots := m.slots.set index { slot with value := value } })

/-- `HashMap::get_ref`: the index of the slot whose value is referred to. -/
def getRef (m : HashMap K V) (key : K) : Option (Nat × HashMap K V) :=
  if m.size = 0 then m.insertSlot key default
  else do
    let index ← findSlot m.slots key
    if (slotAt m.slots index).state ≠ .filled then m.insertSlot key default
    else return (index, m)

/-- `HashMap::operator[]`, which has the statements of `get_ref`. -/
def subscript (m : HashMap K V) (key : K) : Option (Nat × HashMap K V) := m.getRef key

/-- A write through a reference to the value of a slot. -/
def writeRef (m : HashMap K V) (index : Nat) (value : V) : HashMap K V :=
  { m with slots := m.slots.set index { slotAt m.slots index with value := value } }

/-- `HashMap::get`. -/
def get (m : HashMap K V) (key : K) : Option (Option V) :=
  if m.size = 0 then some none
  else do
    let index ← findSlot m.slots key
    let slot := slotAt m.slots index
    return if slot.state = .filled then some slot.value else none

/-- `HashMap::contains`. -/
def contains (m : HashMap K V) (key : K) : Option Bool :=
  if m.size = 0 then some false
  else do
    let index ← findSlot m.slots key
    return (slotAt m.slots index).state = .filled

/-- `HashMap::erase`: whether the key was there. -/
def erase (m : HashMap K V) (key : K) : Option (Bool × HashMap K V) :=
  if m.size = 0 then some (false, m)
  else do
    let index ← findSlot m.slots key
    if (slotAt m.slots index).state ≠ .filled then return (false, m)
    else return (true,
      { slots := m.slots.set index ⟨default, default, .tombstone⟩
        tombstones := m.tombstones + 1
        size := m.size - 1 })

/-- `HashMap::clear`. -/
def clear (_ : HashMap K V) : HashMap K V := empty

end HashMap

end CppLox
