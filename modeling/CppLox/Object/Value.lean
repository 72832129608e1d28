import Mathlib.Data.List.Basic

/-!
# Objects — values, constants and functions

`Value` (`include/value.hpp`), the constants a chunk holds and `ObjectFunction`
(`include/function.hpp`).

Immutable objects are represented by what they hold: a string by its bytes (interning makes
pointer equality of strings equality of bytes), a function by its fields together with the
address the allocator gave it, a native function by its position in the order of registration.
The mutable objects (closures, classes, instances, bound methods, lists, maps, upvalues) are
references into the heap.
-/

namespace CppLox

/-- The bytes of a `std::string` or of a lexeme. -/
abbrev Bytes := List UInt8

instance : LawfulBEq Bytes := inferInstanceAs (LawfulBEq (List UInt8))

/-- The address of a heap object. -/
abbrev Addr := Nat

/-- `Chunk::LineInfo`: line `lineNumber` starts at the byte with offset `offset`. -/
structure LineInfo where
  offset : Int32
  lineNumber : Int32
  deriving Repr, DecidableEq

/-- A constant of a chunk: the kinds of `Value` the compiler adds to a constant pool, and the
two kinds (`NIL`, `BOOLEAN`) the file format also has a tag for.  A real is its bit pattern. -/
inductive Constant (F : Type) where
  | nil
  | boolean (b : Bool)
  | real (bits : UInt64)
  | integer (i : Int64)
  | string (s : Bytes)
  | function (f : F)
  deriving Repr, DecidableEq

/-- `ObjectFunction` with its `Chunk`. -/
structure ObjectFunction where
  addr : Addr
  arity : Nat
  upvalueCount : Nat
  name : Bytes
  code : List UInt8
  constants : List (Constant ObjectFunction)
  lines : List LineInfo

/-- What an `Object *` points to. -/
inductive Object where
  | string (s : Bytes)
  | function (f : ObjectFunction)
  | native (id : Nat)
  | heap (a : Addr)

/-- `Value`.  The `uninitialized` flag is only ever set on a nil. -/
inductive Value where
  | nil (uninitialized : Bool)
  | boolean (b : Bool)
  | real (bits : UInt64)
  | integer (i : Int64)
  | object (o : Object)

instance : Inhabited Value := ⟨.nil false⟩

/-- The value `Chunk::get_value_unchecked` returns for a constant. -/
def Constant.toValue : Constant ObjectFunction → Value
  | .nil => .nil false
  | .boolean b => .boolean b
  | .real r => .real r
  | .integer i => .integer i
  | .string s => .object (.string s)
  | .function f => .object (.function f)

end CppLox
