import CppLox.Native.Result

/-!
# Native functions — lists

`src/native/list.cpp`.  The length and the capacity of a new list are numbers of 64 bits with a sign
that `std::vector` takes as numbers without one.
-/

namespace CppLox

namespace Native

/-- `max_size()` of a `std::vector` of values of 16 bytes. -/
def maxListSize : Int := 2 ^ 59 - 1

/-- A size that `std::vector` accepts. -/
def FitsVector (n : Int64) : Prop := 0 ≤ n.toInt ∧ n.toInt ≤ maxListSize

instance (n : Int64) : Decidable (FitsVector n) :=
  inferInstanceAs (Decidable (0 ≤ n.toInt ∧ n.toInt ≤ maxListSize))

/-- `Allocator::new_list` with the constructor of `ObjectList`. -/
def newList (heap : Heap) (len cap : Int64) (default_ : Value) : NativeResult :=
  if ¬ FitsVector cap then .failed heap (.exception "vector::reserve")
  else if ¬ FitsVector len then .failed heap (.exception "vector::_M_fill_insert")
  else returns (heap ++ [.list (List.replicate len.toInt.toNat default_)]) (.ofAddr heap.length)

/-- The integer argument with an index, if it is given; `0` otherwise. -/
def integerArgument (argCount i : Nat) (values : Nat → Value) : Option Int64 :=
  if i ≤ argCount then
    match values i with
    | .integer n => some n
    | _ => none
  else some 0

/-- `native_list`. -/
def list (heap : Heap) (argCount : Nat) (values : Nat → Value) : NativeResult :=
  match integerArgument argCount 1 values with
  | none => reports heap "first argument len, to list(len, default, cap) must be an integer"
  | some len =>
    let default_ := if 2 ≤ argCount then values 2 else .nil false
    match integerArgument argCount 3 values with
    | none => reports heap "third argument cap, to list(len, default, cap) must be an integer"
    | some cap => newList heap len cap default_

/-- `native_pop_list`. -/
def popList (heap : Heap) (v : Value) : NativeResult :=
  match v.heapObject heap, v with
  | some (.list values), .object (.heap a) =>
    match values.getLast? with
    | some last => returns (heap.set a (.list values.dropLast)) last
    | none => reports heap "cannot pop from empty list"
  | _, _ => reports heap "argument to pop() must be a list"

/-- `native_cap_list`, with the capacities vectors have. -/
def capList (capacity : Heap → Addr → Int64) (heap : Heap) (v : Value) : NativeResult :=
  match v.heapObject heap, v with
  | some (.list _), .object (.heap a) => returns heap (.integer (capacity heap a))
  | _, _ => reports heap "argument to pop() must be a list"

theorem addsPlain_newList (heap : Heap) (len cap : Int64) (default_ : Value) :
    heap.AddsPlain (newList heap len cap default_).heap := by
  unfold newList
  split
  · exact .refl heap
  · split
    · exact .refl heap
    · exact .append rfl

theorem addsPlain_list (heap : Heap) (argCount : Nat) (values : Nat → Value) :
    heap.AddsPlain (list heap argCount values).heap := by
  unfold list
  split
  · exact .refl heap
  · dsimp only
    split
    · exact .refl heap
    · exact addsPlain_newList heap _ _ _

theorem addsPlain_popList (heap : Heap) (v : Value) : heap.AddsPlain (popList heap v).heap := by
  unfold popList
  split
  · split
    · exact .set rfl
    · exact .refl heap
  · exact .refl heap

theorem heap_capList (capacity : Heap → Addr → Int64) (heap : Heap) (v : Value) :
    (capList capacity heap v).heap = heap := by
  unfold capList
  split <;> rfl

end Native

end CppLox
