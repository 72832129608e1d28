import CppLox.Container.HashMap
import CppLox.Object.Value

/-!
# Memory — the heap of the allocator

The objects of `include/object.hpp`, `function.hpp`, `classes.hpp`, `list.hpp` and `map.hpp` at
the level of pointers, with the members that refer to other objects, and the table of interned
strings.  A null pointer is `none`.
-/

namespace CppLox.Memory

/-- The address of an object. -/
abbrev Ptr := Nat

/-- `Value`. -/
inductive Value where
  | nil
  | boolean (b : Bool)
  | real (bits : UInt64)
  | integer (i : Int64)
  | object (p : Option Ptr)
  deriving Repr, DecidableEq

instance : Inhabited Value := ⟨.nil⟩

/-- The slots of a `StringValueTable`. -/
abbrev StringValueSlots := List (HashMap.Slot (Option Ptr) Value)

/-- The slots of a `ValueValueTable`. -/
abbrev ValueValueSlots := List (HashMap.Slot Value Value)

/-- The ten kinds of objects. -/
inductive Object where
  | string (data : Bytes)
  | function (name : Option Ptr) (constants : List Value)
  | closure (function : Option Ptr) (upvalues : List (Option Ptr))
  | nativeFunction
  | upvalue (next : Option Ptr) (closed : Value)
  | class_ (name : Option Ptr) (initMethod : Value) (methods : StringValueSlots)
  | instance_ (class_ : Option Ptr) (fields : StringValueSlots)
  | boundMethod (receiver : Value) (method : Option Ptr)
  | list (values : List Value)
  | map (slots : ValueValueSlots)
  deriving Repr

/-- The objects that are allocated. -/
abbrev Heap := Ptr → Option Object

/-! ### Interned strings -/

/-- `hash_string`: FNV-1a on 32 bits. -/
def hashString (data : Bytes) : UInt32 :=
  data.foldl (fun hash byte => (hash ^^^ byte.toUInt32) * 16777619) 2166136261

/-- `Allocator::InternedString`. -/
structure InternedString where
  str : Bytes
  hash : UInt32
  deriving Repr, DecidableEq

/-- `strncmp(first, second, n) == 0` for two strings of `n` bytes: the comparison stops at a NUL
byte. -/
def strncmpEqual : Bytes → Bytes → Bool
  | x :: xs, y :: ys => x == y && (x == 0 || strncmpEqual xs ys)
  | _, _ => true

/-- `InternedStringCmp` and `InternedStringHasher`; `Key{}` has a null pointer, length 0 and
hash 0. -/
instance : HashKey InternedString where
  default := ⟨[], 0⟩
  keyEqual first second :=
    if first.str.length ≠ second.str.length then false
    else if first.hash ≠ second.hash then false
    else strncmpEqual first.str second.str
  hasher s := s.hash.toNat

/-- The key a string is interned under. -/
def internKey (data : Bytes) : InternedString := ⟨data, hashString data⟩

/-- `interned_strings`. -/
abbrev InternTable := HashMap InternedString (Option Ptr)

end CppLox.Memory
