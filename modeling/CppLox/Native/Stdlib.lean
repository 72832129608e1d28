import CppLox.Native.Result

/-!
# Native functions — the standard library

`src/native/stdlib.cpp`, `stdio.cpp`, `string.cpp` and `test.cpp`.
-/

namespace CppLox

namespace Native

/-! ### stdlib.cpp -/

/-- `native_exit`. -/
def exit (heap : Heap) : Value → NativeResult
  | .integer _ => .failed heap .exit
  | _ => reports heap "invalid argument type to call exit(), must be an integer"

/-- The last branch of `native_type`: the error is reported, and then an exception is thrown. -/
def unhandledType (heap : Heap) : NativeResult := .failed heap (.exception "unhandled type")

/-- `native_type`.  Closures and bound methods are in none of its branches. -/
def type (heap : Heap) : Value → NativeResult
  | .integer _ => returns heap (.ofString (ascii ['i', 'n', 't']))
  | .real _ => returns heap (.ofString (ascii ['d', 'o', 'u', 'b', 'l', 'e']))
  | .boolean _ => returns heap (.ofString (ascii ['b', 'o', 'o', 'l']))
  | .nil _ => returns heap (.ofString (ascii ['n', 'i', 'l']))
  | .object (.string _) => returns heap (.ofString (ascii ['s', 't', 'r', 'i', 'n', 'g']))
  | .object (.function _) =>
    returns heap (.ofString (ascii ['f', 'u', 'n', 'c', 't', 'i', 'o', 'n']))
  | .object (.native _) =>
    returns heap (.ofString (ascii
      ['n', 'a', 't', 'i', 'v', 'e', '_', 'f', 'u', 'n', 'c', 't', 'i', 'o', 'n']))
  | .object (.heap a) =>
    match heap[a]? with
    | some (.class _ _ _) => returns heap (.ofString (ascii ['c', 'l', 'a', 's', 's']))
    | some (.instance _ _) =>
      returns heap (.ofString (ascii ['i', 'n', 's', 't', 'a', 'n', 'c', 'e']))
    | some (.list _) => returns heap (.ofString (ascii ['l', 'i', 's', 't']))
    | some (.map _) => returns heap (.ofString (ascii ['m', 'a', 'p']))
    | some (.closure _ _) | some (.boundMethod _ _) | some (.upvalue _) => unhandledType heap
    | none => .failed heap .undefined

/-- `native_len`. -/
def len (heap : Heap) (v : Value) : NativeResult :=
  match v.heapObject heap, v with
  | some (.list values), _ => returns heap (.integer (.ofNat values.length))
  | some (.map table), _ => returns heap (.integer (.ofNat table.size))
  | _, .object (.string s) => returns heap (.integer (.ofNat s.length))
  | _, _ => reports heap "invalid argument type to call len(), must be a string, list or map"

/-- `native_hash`. -/
def hash (P : Platform) (heap : Heap) (v : Value) : NativeResult :=
  let hash := v.hashCode P heap heap.length
  if hash = -1 then reports heap "unhashable type" else returns heap (.integer hash)

/-- `native_is_hashable`: its value `false` comes with `false`. -/
def isHashable (P : Platform) (heap : Heap) (v : Value) : NativeResult :=
  if v.hashCode P heap heap.length = -1 then .failed heap (.runtimeError none)
  else returns heap (.boolean true)

/-! ### stdio.cpp -/

/-- `native_getline`. -/
def getline (line : Bytes) (heap : Heap) : NativeResult := returns heap (.ofString line)

/-- The arguments `values[1]` to `values[arg_count]`. -/
def argumentList (argCount : Nat) (values : Nat → Value) : List Value :=
  (List.range argCount).map fun i => values (i + 1)

/-- The texts of the arguments. -/
def argumentTexts (P : Platform) (heap : Heap) (argCount : Nat) (values : Nat → Value) :
    Option (List Bytes) :=
  (argumentList argCount values).mapM (Value.toString P heap (heap.length + 1))

/-- `native_print`, with what is printed after the arguments. -/
def printWith (P : Platform) (ending : Bytes) (heap : Heap) (argCount : Nat)
    (values : Nat → Value) : NativeResult :=
  match argumentTexts P heap argCount values with
  | some texts => .value (.nil false) heap (List.intercalate (ascii [' ']) texts ++ ending)
  | none => .failed heap .diverges

/-- `native_print`. -/
def print (P : Platform) : Heap → Nat → (Nat → Value) → NativeResult := printWith P []

/-- `native_println`. -/
def println (P : Platform) : Heap → Nat → (Nat → Value) → NativeResult := printWith P [10]

/-! ### string.cpp and test.cpp -/

/-- `native_to_string`. -/
def toString (P : Platform) (heap : Heap) : Value → NativeResult
  | .object (.string s) => returns heap (.ofString s)
  | v => withText P heap v fun text => returns heap (.ofString text)

/-- `native_assert`. -/
def assert (P : Platform) (heap : Heap) (value message : Value) : NativeResult :=
  if value.isFalsey then
    withText P heap message fun text => reports heap ("assertion failed: " ++ VM.quoted text)
  else returns heap (.nil false)

/-! ### The heap -/

theorem heap_exit (heap : Heap) (v : Value) : (exit heap v).heap = heap := by
  cases v <;> rfl

theorem heap_type (heap : Heap) (v : Value) : (type heap v).heap = heap := by
  unfold type
  split
  case h_8 => split <;> rfl
  all_goals rfl

theorem heap_len (heap : Heap) (v : Value) : (len heap v).heap = heap := by
  unfold len
  split <;> rfl

theorem heap_hash (P : Platform) (heap : Heap) (v : Value) : (hash P heap v).heap = heap := by
  unfold hash
  dsimp only
  split <;> rfl

theorem heap_isHashable (P : Platform) (heap : Heap) (v : Value) :
    (isHashable P heap v).heap = heap := by
  unfold isHashable
  split <;> rfl

theorem heap_printWith (P : Platform) (ending : Bytes) (heap : Heap) (argCount : Nat)
    (values : Nat → Value) : (printWith P ending heap argCount values).heap = heap := by
  unfold printWith
  split <;> rfl

theorem heap_toString (P : Platform) (heap : Heap) (v : Value) :
    (toString P heap v).heap = heap := by
  unfold toString
  split
  · rfl
  · exact heap_withText fun _ => rfl

theorem heap_assert (P : Platform) (heap : Heap) (value message : Value) :
    (assert P heap value message).heap = heap := by
  unfold assert
  split
  · exact heap_withText fun _ => rfl
  · rfl

end Native

end CppLox
