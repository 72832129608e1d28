import CppLox.Bytecode.OpCode
import CppLox.Container.HashMap
import CppLox.Object.Context
import CppLox.Object.Map

/-!
# Virtual machine — state

The data members of `VM` (`include/vm.hpp`), the objects it works on and its stack operations.

`evalstack` is a memory of which the first `stackTop` slots are in use; the slots above keep what
was written to them.  A pointer into it is an index.  The tables of strings of classes and
instances are lists of pairs, the tables of maps are hash tables.
-/

namespace CppLox

/-- Where an `ObjectUpvalue` points to: a slot of the stack, or its member `closed`. -/
inductive Location where
  | slot (n : Nat)
  | closed (value : Value)

/-- A `StringValueTable`. -/
abbrev StringTable := List (Bytes × Value)

/-- The objects that have an address in the heap. -/
inductive HeapObject where
  | closure (function : ObjectFunction) (upvalues : List (Option Addr))
  | upvalue (location : Location)
  | «class» (name : Bytes) (initMethod : Value) (methods : StringTable)
  | «instance» (klass : Addr) (fields : StringTable)
  | boundMethod (receiver : Value) (method : Addr)
  | list (values : List Value)
  | map (table : HashMap Value Value)

/-- The objects by their addresses. -/
abbrev Heap := List HeapObject

/-- A change of the heap that opens no upvalue. -/
def Heap.OpensNone (heap heap' : Heap) : Prop :=
  ∀ (a : Addr) (n : Nat), heap'[a]? = some (HeapObject.upvalue (.slot n)) →
    heap[a]? = some (HeapObject.upvalue (.slot n))

/-- A closure. -/
def HeapObject.isClosure : HeapObject → Bool
  | .closure _ _ => true
  | _ => false

/-- An object that is no open upvalue, no closure and no class with a constructor or methods. -/
def HeapObject.isPlain : HeapObject → Bool
  | .upvalue (.slot _) | .closure _ _ => false
  | .class _ (.nil false) [] => true
  | .class _ _ _ => false
  | _ => true

/-- A change of the heap after which the objects that are not of a kind are ones from before. -/
def Heap.Adds (kind : HeapObject → Bool) (heap heap' : Heap) : Prop :=
  ∀ (a : Addr) (object : HeapObject), heap'[a]? = some object → kind object = false →
    heap[a]? = some object

/-- A change of the heap after which the objects that are not plain are ones from before. -/
def Heap.AddsPlain (heap heap' : Heap) : Prop := heap.Adds HeapObject.isPlain heap'

/-- `CallFrame`, with the function of the closure. -/
structure CallFrame where
  closure : Addr
  function : ObjectFunction
  ip : Nat
  slots : Nat

/-- The data members of `VM`.  `frames` holds the first `frame_count` frames, the innermost first:
`current_frame` is its head.  `openUpvalues` is the list that starts at `open_upvalues`. -/
structure VM where
  stack : Nat → Value
  stackTop : Nat
  frames : List CallFrame
  openUpvalues : List Addr
  heap : Heap
  context : Context
  output : Bytes

/-- What ends an execution before its end. -/
inductive Interrupt where
  /-- `RUNTIME_ERROR`, with the message of `report_error` where it was called. -/
  | runtimeError (message : Option String)
  /-- A C++ exception. -/
  | exception (message : String)
  /-- The native function `exit`. -/
  | exit
  /-- A loop or a recursion that does not end. -/
  | diverges
  /-- Behaviour the language leaves undefined: an access out of bounds, a cast to another class. -/
  | undefined
  deriving DecidableEq

/-- What a routine of the machine ends with. -/
inductive Outcome (α : Type) where
  | done (a : α) (vm : VM)
  | stopped (interrupt : Interrupt) (vm : VM)

/-- What a native function does: its value with the changed heap and what it prints, or why it
gives none. -/
inductive NativeResult where
  | value (v : Value) (heap : Heap) (printed : Bytes)
  | failed (heap : Heap) (interrupt : Interrupt)

/-- The heap after a native function. -/
def NativeResult.heap : NativeResult → Heap
  | .value _ heap _ | .failed heap _ => heap

/-- A native function of `src/native`, on the heap, `arg_count` and the pointer to the slot of the
callee.  It makes lists and maps, and changes them and the fields of instances. -/
structure Native where
  name : Bytes
  arity : Int
  function : Heap → Nat → (Nat → Value) → NativeResult
  addsPlain : ∀ (heap : Heap) argCount values, heap.AddsPlain (function heap argCount values).heap

/-- What a machine runs with: the option `value_stack_max`, the addresses objects have as numbers,
the native functions and the text of a real in the format `{:.16g}`. -/
structure Platform where
  valueStackMax : Nat
  address : Object → Int64
  natives : List Native
  formatReal : UInt64 → Bytes

/-- `hash_pointer`. -/
def Platform.hashPointer (P : Platform) (o : Object) : Int64 :=
  if P.address o = -1 then -2 else P.address o

/-- `evalstack.size()`. -/
def Platform.capacity (P : Platform) : Nat := P.valueStackMax + 4

/-- A routine of the machine. -/
def VMM (α : Type) : Type := VM → Outcome α

namespace VMM

instance : Monad VMM where
  pure a := fun vm => .done a vm
  bind x f := fun vm =>
    match x vm with
    | .done a vm' => f a vm'
    | .stopped i vm' => .stopped i vm'

theorem bind_apply {α β : Type} (m : VMM α) (f : α → VMM β) (vm : VM) :
    (m >>= f) vm = match m vm with
      | .done a vm' => f a vm'
      | .stopped i vm' => .stopped i vm' := rfl

def stop {α : Type} (i : Interrupt) : VMM α := fun vm => .stopped i vm

/-- `report_error` and the return of `RUNTIME_ERROR`. -/
def runtimeError {α : Type} (message : String) : VMM α := stop (.runtimeError (some message))

/-- A C++ exception. -/
def throwException {α : Type} (message : String) : VMM α := stop (.exception message)

def undefinedBehaviour {α : Type} : VMM α := stop .undefined

def get : VMM VM := fun vm => .done vm vm

def modify (f : VM → VM) : VMM Unit := fun vm => .done () (f vm)

end VMM

open VMM

namespace VM

/-! ### The evaluation stack -/

variable (P : Platform)

/-- A write to a slot. -/
def setSlot (vm : VM) (i : Nat) (v : Value) : VM :=
  { vm with stack := fun j => if j = i then v else vm.stack j }

def push (v : Value) : VMM Unit := do
  let vm ← get
  if vm.stackTop = P.capacity then throwException "Stack overflow"
  else modify fun vm => { vm.setSlot vm.stackTop v with stackTop := vm.stackTop + 1 }

def pop : VMM Value := do
  let vm ← get
  if vm.stackTop = 0 then throwException "Stack underflow"
  else
    modify fun vm => { vm with stackTop := vm.stackTop - 1 }
    return vm.stack (vm.stackTop - 1)

def peek (offset : Nat) : VMM Value := do
  let vm ← get
  if vm.stackTop < offset + 1 then throwException "Stack underflow while peek()"
  else return vm.stack (vm.stackTop - offset - 1)

/-- A read through a pointer into `evalstack`. -/
def readSlot (i : Nat) : VMM Value := do
  let vm ← get
  if i < P.capacity then return vm.stack i else undefinedBehaviour

/-- A write through a pointer into `evalstack`. -/
def writeSlot (i : Nat) (v : Value) : VMM Unit :=
  if i < P.capacity then modify fun vm => vm.setSlot i v else undefinedBehaviour

/-! ### The current frame -/

def currentFrame : VMM CallFrame := do
  let vm ← get
  match vm.frames with
  | [] => undefinedBehaviour
  | frame :: _ => return frame

/-- A change of `current_frame->ip`. -/
def setIp (ip : Nat) : VMM Unit := modify fun vm =>
  match vm.frames with
  | [] => vm
  | frame :: frames => { vm with frames := { frame with ip } :: frames }

def readByte : VMM UInt8 := do
  let frame ← currentFrame
  match frame.function.code[frame.ip]? with
  | some byte =>
    setIp (frame.ip + 1)
    return byte
  | none => undefinedBehaviour

def readUint16Le : VMM Nat := do
  let low ← readByte
  let high ← readByte
  return low.toNat + 256 * high.toNat

/-- `Chunk::get_value_unchecked` on the chunk of the current frame. -/
def constant (index : Nat) : VMM Value := do
  let frame ← currentFrame
  match frame.function.constants[index]? with
  | some value => return value.toValue
  | none => undefinedBehaviour

def readConstant : VMM Value := do
  let index ← readByte
  constant index.toNat

def readConstantLong : VMM Value := do
  let index ← readUint16Le
  constant index

/-! ### Objects -/

/-- An object that is allocated: its address. -/
def allocate (object : HeapObject) : VMM Addr := do
  let vm ← get
  modify fun vm => { vm with heap := vm.heap ++ [object] }
  return vm.heap.length

/-- A change of an object. -/
def setObject (a : Addr) (object : HeapObject) : VMM Unit :=
  modify fun vm => { vm with heap := vm.heap.set a object }

/-- The object at an address. -/
def objectAt (a : Addr) : VMM HeapObject := do
  let vm ← get
  match vm.heap[a]? with
  | some object => return object
  | none => undefinedBehaviour

end VM

/-- The value that refers to an object in the heap. -/
def Value.ofAddr (a : Addr) : Value := .object (.heap a)

/-- `Allocator::intern_string`, as a value. -/
def Value.ofString (s : Bytes) : Value := .object (.string s)

namespace Value

/-- The heap object a value refers to. -/
def heapObject (heap : Heap) : Value → Option HeapObject
  | .object (.heap a) => heap[a]?
  | _ => none

def isNumber : Value → Bool
  | .real _ | .integer _ => true
  | _ => false

def isReal : Value → Bool
  | .real _ => true
  | _ => false

/-- `coerce_real` on a number. -/
def coerceReal : Value → Float
  | .real bits => Float.ofBits bits
  | .integer i => Float.ofInt i.toInt
  | _ => 0

def isFalsey : Value → Bool
  | .boolean b => !b
  | .nil _ => true
  | _ => false

def isUninitialized : Value → Bool
  | .nil b => b
  | _ => false

/-! ### Keys -/

/-- `hash_double`. -/
def hashDouble (bits : UInt64) : Int64 :=
  let d := Float.ofBits bits
  if d == 0 then 0
  else if d.isNaN || d.isInf then 0xC0DE10ADED
  else hashInt bits.toInt64

/-- `Value::hash_code`, through at most `fuel` receivers of bound methods. -/
def hashCode (P : Platform) (heap : Heap) : Nat → Value → Int64
  | _, .nil _ => 0xDEADC0DE
  | _, .boolean b => if b then 1 else 0
  | _, .integer i => hashInt i
  | _, .real bits => hashDouble bits
  | _, .object (.string s) => (Memory.hashString s).toUInt64.toInt64
  | fuel, .object (.heap a) =>
    match heap[a]?, fuel with
    | some (.list _), _ | some (.map _), _ => -1
    | some (.boundMethod receiver method), fuel + 1 =>
      let h1 := P.hashPointer (.heap method)
      let h2 := hashCode P heap fuel receiver
      if h2 = -1 then h1 else hashInt (h1 ^^^ h2)
    | _, _ => P.hashPointer (.heap a)
  | _, .object o => P.hashPointer o

/-- Whether two `Object *` are the same pointer. -/
def samePointer : Object → Object → Bool
  | .string s, .string s' => s == s'
  | .function f, .function f' => f.addr == f'.addr
  | .native i, .native i' => i == i'
  | .heap a, .heap a' => a == a'
  | _, _ => false

/-- Whether two upvalues point to the same location; each one has a `closed` member of its own. -/
def sameLocation : Object × Location → Object × Location → Bool
  | (_, .slot n), (_, .slot n') => n == n'
  | (a, .closed _), (a', .closed _) => samePointer a a'
  | _, _ => false

/-- `Value::operator==`, through at most `fuel` receivers of bound methods.  A bound method is
compared with any object as if that were one too, and so is an upvalue. -/
def equals (heap : Heap) : Nat → Value → Value → Option Bool
  | _, .nil _, .nil _ => some true
  | _, .boolean a, .boolean b => some (a == b)
  | _, .integer a, .integer b => some (a == b)
  | _, .real a, .real b => some (Float.abs (Float.ofBits a - Float.ofBits b) < 1e-9)
  | fuel, .object a, .object b =>
    match heapObject heap (.object a), heapObject heap (.object b), fuel with
    | some (.boundMethod receiver method), some (.boundMethod receiver' method'), fuel + 1 =>
      if method = method' then equals heap fuel receiver receiver' else some false
    | some (.boundMethod _ _), _, _ => none
    | some (.upvalue location), some (.upvalue location'), _ =>
      some (sameLocation (a, location) (b, location'))
    | some (.upvalue _), _, _ => none
    | _, _, _ => some (samePointer a b)
  | _, _, _ => some false

/-- `std::equal_to` and `ValueValueTableHasher` on the values of a heap.  A comparison is defined where
`Value::operator==` is. -/
@[reducible] def hashKey (P : Platform) (heap : Heap) : HashKey Value where
  default := .nil false
  keyEqual a b := (equals heap heap.length a b).getD false
  comparable a b := (equals heap heap.length a b).isSome
  hasher v := (hashCode P heap heap.length v).toUInt64.toNat

end Value

end CppLox
