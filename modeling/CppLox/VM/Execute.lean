import CppLox.Compiler.Parser
import CppLox.Compiler.Expressions
import CppLox.VM.Printing

/-!
# Virtual machine — instructions

`VM::execute` (`src/vm/vm.cpp`) with the routines for calls and upvalues, one definition for each
instruction.  The arithmetic of integers wraps.
-/

namespace CppLox

open VMM

namespace VM

variable (P : Platform)

/-- A name in an error message. -/
def quoted (name : Bytes) : String := { lexeme := name : Token }.text

/-- `MAX_FRAME_SIZE`. -/
def maxFrameSize : Nat := 256

/-- The heap object a value refers to. -/
def objectOf (v : Value) : VMM (Option HeapObject) := do
  let vm ← get
  return v.heapObject vm.heap

/-- `static_cast<ObjectString *>(value.as_object())`. -/
def stringOf : Value → VMM Bytes
  | .object (.string s) => pure s
  | _ => undefinedBehaviour

/-- `static_cast<ObjectClass *>(value.as_object())`: the name and the methods. -/
def classOf (v : Value) : VMM (Bytes × StringTable) := do
  match ← objectOf v with
  | some (.class name _ methods) => return (name, methods)
  | _ => undefinedBehaviour

/-- The class at an address. -/
def classAt (a : Addr) : VMM (Bytes × StringTable) := classOf (.ofAddr a)

/-- The closure a value refers to, as an address with its function. -/
def closureOf : Value → VMM (Addr × ObjectFunction)
  | .object (.heap a) => do
    match ← objectAt a with
    | .closure function _ => return (a, function)
    | _ => undefinedBehaviour
  | _ => undefinedBehaviour

/-- A slot of the callee before its arguments: `stack_top - arg_count - 1`. -/
def calleeSlot (argCount : Nat) : VMM Nat := do
  let vm ← get
  if vm.stackTop < argCount + 1 then undefinedBehaviour
  else return vm.stackTop - argCount - 1

/-! ### String tables -/

/-- `StringValueTable::insert`. -/
def tableInsert (table : StringTable) (key : Bytes) (v : Value) : StringTable :=
  (key, v) :: table.filter fun entry => entry.1 ≠ key

/-- The loop of `INHERIT`. -/
def tableInsertAll (table entries : StringTable) : StringTable :=
  entries.foldr (fun entry t => tableInsert t entry.1 entry.2) table

/-! ### Upvalues -/

/-- `ObjectUpvalue::get` of the upvalue at an address. -/
def locationAt (a : Addr) : VMM Location := do
  match ← objectAt a with
  | .upvalue location => return location
  | _ => undefinedBehaviour

/-- The loop of `VM::close_upvalues`, on the upvalues that are open. -/
def closeUpvaluesFrom (lastValue : Nat) : List Addr → VMM Unit
  | [] => modify fun vm => { vm with openUpvalues := [] }
  | a :: rest => do
    match ← locationAt a with
    | .slot n =>
      if lastValue ≤ n then
        let v ← readSlot P n
        setObject a (.upvalue (.closed v))
        closeUpvaluesFrom lastValue rest
      else modify fun vm => { vm with openUpvalues := a :: rest }
    -- a comparison of pointers into different objects
    | .closed _ => undefinedBehaviour

def closeUpvalues (lastValue : Nat) : VMM Unit := do
  let vm ← get
  closeUpvaluesFrom P lastValue vm.openUpvalues

/-- `VM::capture_upvalue`, on the rest of the list: the upvalue with the changed list. -/
def captureFrom (slot : Nat) : List Addr → VMM (Addr × List Addr)
  | [] => do
    let a ← allocate (.upvalue (.slot slot))
    return (a, [a])
  | current :: rest => do
    match ← locationAt current with
    | .slot n =>
      if slot < n then
        let (a, rest) ← captureFrom slot rest
        return (a, current :: rest)
      else if n = slot then return (current, current :: rest)
      else
        let a ← allocate (.upvalue (.slot slot))
        return (a, a :: current :: rest)
    | .closed _ => undefinedBehaviour

def captureUpvalue (slot : Nat) : VMM Addr := do
  let vm ← get
  let (a, openUpvalues) ← captureFrom slot vm.openUpvalues
  modify fun vm => { vm with openUpvalues }
  return a

/-- The upvalue of the current closure with an index. -/
def upvalueOf (index : Nat) : VMM Addr := do
  let frame ← currentFrame
  match ← objectAt frame.closure with
  | .closure _ upvalues =>
    match upvalues[index]? with
    | some (some a) => return a
    | _ => undefinedBehaviour
  | _ => undefinedBehaviour

/-! ### Calls -/

/-- `VM::call`. -/
def call (closure : Addr × ObjectFunction) (argCount : Nat) : VMM Unit := do
  let (a, function) := closure
  if argCount ≠ function.arity then
    runtimeError ("Expected " ++ toString function.arity ++ " arguments to call " ++
      quoted function.name ++ "(), got " ++ toString argCount)
  else
    let vm ← get
    if vm.frames.length = maxFrameSize then runtimeError "Stack overflow: too many frames"
    else
      let slots ← calleeSlot argCount
      modify fun vm => { vm with frames := ⟨a, function, 0, slots⟩ :: vm.frames }

/-- The call of a class. -/
def callClass (a : Addr) (name : Bytes) (initMethod : Value) (argCount : Nat) : VMM Unit := do
  let inst ← allocate (.instance a [])
  let slot ← calleeSlot argCount
  writeSlot P slot (.ofAddr inst)
  match initMethod with
  | .nil _ =>
    if argCount ≠ 0 then
      runtimeError ("Expected 0 arguments to call " ++ quoted name ++ "(), got " ++
        toString argCount)
    else pure ()
  | _ => do
    let closure ← closureOf initMethod
    call closure argCount

/-- The call of a native function. -/
def callNative (native : Native) (argCount : Nat) : VMM Unit := do
  if native.arity ≠ -1 ∧ (argCount : Int) ≠ native.arity then
    runtimeError ("Expected " ++ toString native.arity ++
      " arguments to call native function, got " ++ toString argCount)
  else
    let slot ← calleeSlot argCount
    let vm ← get
    match native.function vm.heap argCount (fun i => vm.stack (slot + i)) with
    | .value v heap printed =>
      modify fun vm => { vm with heap, output := vm.output ++ printed, stackTop := slot }
      push P v
    | .failed heap interrupt =>
      modify fun vm => { vm with heap }
      stop interrupt

/-- `VM::call_value`. -/
def callValue (callee : Value) (argCount : Nat) : VMM Unit := do
  match callee with
  | .object (.function _) => throwException "naked functions should not exist"
  | .object (.native i) =>
    match P.natives[i]? with
    | some native => callNative P native argCount
    | none => undefinedBehaviour
  | .object (.heap a) =>
    match ← objectAt a with
    | .closure function _ => call (a, function) argCount
    | .boundMethod receiver method =>
      let slot ← calleeSlot argCount
      writeSlot P slot receiver
      let closure ← closureOf (.ofAddr method)
      call closure argCount
    | .class name initMethod _ => callClass P a name initMethod argCount
    | _ => runtimeError "invalid call to non function, can only call functions and classes"
  | _ => runtimeError "invalid call to non function, can only call functions and classes"

/-- `VM::invoke_from_class`. -/
def invokeFromClass (klass : Bytes × StringTable) (name : Bytes) (argCount : Nat) : VMM Unit := do
  match klass.2.lookup name with
  | none =>
    runtimeError ("Runtime Error: Instance of class '" ++ quoted klass.1 ++ "' has no method '" ++
      quoted name ++ "'")
  | some method =>
    let closure ← closureOf method
    call closure argCount

/-- `VM::invoke`. -/
def invoke (name : Bytes) (argCount : Nat) : VMM Unit := do
  let receiver ← peek argCount
  match ← objectOf receiver with
  | some (.instance klass fields) =>
    match fields.lookup name with
    | some v =>
      let slot ← calleeSlot argCount
      writeSlot P slot v
      callValue P v argCount
    | none =>
      let klass ← classAt klass
      invokeFromClass klass name argCount
  | _ => runtimeError "Runtime Error: Can only invoke methods on instances"

/-! ### Instructions on the stack -/

/-- `BINARY_OP`: the operands must be numbers. -/
def binaryOp (symbol : String) (integers : Int64 → Int64 → Value) (reals : Float → Float → Value) :
    VMM Unit := do
  let error := "Expected operands of '" ++ symbol ++ "' to be numbers"
  if !(← peek 0).isNumber then runtimeError error
  else if !(← peek 1).isNumber then runtimeError error
  else
    let b ← pop
    let a ← pop
    match a, b with
    | .integer a, .integer b => push P (integers a b)
    | _, _ => push P (reals a.coerceReal b.coerceReal)

/-- A real as a value. -/
def realValue (x : Float) : Value := .real x.toBits

def executeNegate : VMM Unit := do
  match ← peek 0 with
  | .real bits =>
    modify fun vm => vm.setSlot (vm.stackTop - 1) (realValue (-Float.ofBits bits))
  | .integer i => modify fun vm => vm.setSlot (vm.stackTop - 1) (.integer (-i))
  | _ => runtimeError "Runtime Error: Cannot negate value, it must be a number"

def addNumbers : VMM Unit :=
  binaryOp P "+" (fun a b => .integer (a + b)) fun a b => realValue (a + b)

/-- `ADD` on two lists. -/
def addLists (a b : List Value) : VMM Unit := do
  let list ← allocate (.list (a ++ b))
  let _ ← pop
  let _ ← pop
  push P (.ofAddr list)

/-- `ADD` on two strings: `concatenate`. -/
def addStrings (a b : Bytes) : VMM Unit := do
  let _ ← pop
  let _ ← pop
  push P (.ofString (a ++ b))

def executeAdd : VMM Unit := do
  let b ← peek 0
  match ← objectOf b, b with
  | some (.list bs), _ =>
    match ← objectOf (← peek 1) with
    | some (.list as) => addLists P as bs
    | _ => addNumbers P
  | _, .object (.string bs) =>
    match ← peek 1 with
    | .object (.string as) => addStrings P as bs
    | _ => addNumbers P
  | _, _ => addNumbers P

def executeSubtract : VMM Unit :=
  binaryOp P "-" (fun a b => .integer (a - b)) fun a b => realValue (a - b)

def executeMultiply : VMM Unit :=
  binaryOp P "*" (fun a b => .integer (a * b)) fun a b => realValue (a * b)

/-- Division of integers is division of reals. -/
def executeDivide : VMM Unit :=
  binaryOp P "/"
    (fun a b => realValue (Value.coerceReal (.integer a) / Value.coerceReal (.integer b)))
    fun a b => realValue (a / b)

def executeGreater : VMM Unit :=
  binaryOp P ">" (fun a b => .boolean (a > b)) fun a b => .boolean (a > b)

def executeLess : VMM Unit :=
  binaryOp P "<" (fun a b => .boolean (a < b)) fun a b => .boolean (a < b)

def executeNot : VMM Unit := do
  let v ← pop
  push P (.boolean v.isFalsey)

def executeEqual : VMM Unit := do
  let b ← pop
  let a ← pop
  if a.isNumber ∧ b.isNumber ∧ (a.isReal ∨ b.isReal) then
    push P (.boolean (a.coerceReal == b.coerceReal))
  else
    let vm ← get
    match a.equals vm.heap vm.heap.length b with
    | some same => push P (.boolean same)
    | none => undefinedBehaviour

/-- `Value::to_string`; a recursion through more objects than there are does not end. -/
def toText (v : Value) : VMM Bytes := do
  let vm ← get
  match v.toString P vm.heap (vm.heap.length + 1) with
  | some text => return text
  | none => stop .diverges

def executePrint : VMM Unit := do
  let v ← pop
  let text ← toText P v
  modify fun vm => { vm with output := vm.output ++ text ++ [10] }

def executePopTop : VMM Unit := do
  let _ ← pop

def executeDupTop : VMM Unit := do
  let v ← peek 0
  push P v

/-! ### Jumps -/

/-- `current_frame->ip += offset`. -/
def jumpForward (offset : Nat) : VMM Unit := do
  let frame ← currentFrame
  setIp (frame.ip + offset)

/-- `current_frame->ip -= offset`. -/
def jumpBackward (offset : Nat) : VMM Unit := do
  let frame ← currentFrame
  if frame.ip < offset then undefinedBehaviour else setIp (frame.ip - offset)

/-- A jump under a condition. -/
def jumpIf (condition : Bool) (offset : Nat) : VMM Unit :=
  if condition then jumpForward offset else pure ()

def executeJumpIfFalse : VMM Unit := do
  let offset ← readUint16Le
  let v ← peek 0
  jumpIf v.isFalsey offset

def executeJumpIfTrue : VMM Unit := do
  let offset ← readUint16Le
  let v ← peek 0
  jumpIf (!v.isFalsey) offset

def executePopJumpIfFalse : VMM Unit := do
  let offset ← readUint16Le
  let v ← pop
  jumpIf v.isFalsey offset

def executeJumpForward : VMM Unit := do
  let offset ← readUint16Le
  jumpForward offset

def executeJumpBackward : VMM Unit := do
  let offset ← readUint16Le
  jumpBackward offset

/-! ### Variables -/

/-- A change of the global with an index. -/
def modifyGlobal (index : Nat) (f : GlobalValue → GlobalValue) : VMM Unit :=
  modify fun vm => { vm with context := vm.context.modify index f }

/-- `DEFINE_GLOBAL` of an index; `defined` is written before the value. -/
def defineGlobal (index : Nat) : VMM Unit := do
  let vm ← get
  if !vm.context.exists index then undefinedBehaviour
  else
    let global := vm.context.getInternalValue index
    if global.defined && global.isConst then
      runtimeError ("Runtime Error: Cannot redeclare const variable '" ++
        quoted (vm.context.getName index) ++ "'")
    else
      modifyGlobal index fun global => { global with defined := true }
      let v ← peek 0
      modifyGlobal index fun global =>
        { global with value := v, initialized := global.initialized || !v.isUninitialized }
      let _ ← pop

def executeDefineGlobal : VMM Unit := do
  let index ← readUint16Le
  defineGlobal index

/-- The error of `LOAD_GLOBAL` and `STORE_GLOBAL`; the name of an index that does not exist is an
access out of bounds. -/
def undefinedGlobal (index : Nat) : VMM Unit := do
  let vm ← get
  if !vm.context.exists index then undefinedBehaviour
  else
    runtimeError ("Runtime Error: Undefined global variable '" ++
      quoted (vm.context.getName index) ++ "'")

def storeGlobal (index : Nat) : VMM Unit := do
  let vm ← get
  let global := vm.context.getInternalValue index
  if !vm.context.exists index || !global.defined then undefinedGlobal index
  else if global.isConst then
    runtimeError ("Runtime Error: Assignment to const variable '" ++
      quoted (vm.context.getName index) ++ "'")
  else
    let v ← peek 0
    modifyGlobal index fun global => { global with value := v, initialized := true }

def executeStoreGlobal : VMM Unit := do
  let index ← readUint16Le
  storeGlobal index

def loadGlobal (index : Nat) : VMM Unit := do
  let vm ← get
  let global := vm.context.getInternalValue index
  if !vm.context.exists index || !global.defined then undefinedGlobal index
  else if !global.initialized then
    runtimeError ("Runtime Error: Uninitialized access of global variable '" ++
      quoted (vm.context.getName index) ++ "'")
  else push P global.value

def executeLoadGlobal : VMM Unit := do
  let index ← readUint16Le
  loadGlobal P index

/-- The slot is compared with the whole stack and not with the frame. -/
def loadLocal (slot : Nat) : VMM Unit := do
  let vm ← get
  if vm.stackTop ≤ slot then runtimeError "Runtime Error: Local variable not declared"
  else
    let frame ← currentFrame
    let v ← readSlot P (frame.slots + slot)
    if v.isUninitialized then
      runtimeError "Runtime Error: Uninitialized access of local variable"
    else push P v

def executeLoadLocal : VMM Unit := do
  let slot ← readUint16Le
  loadLocal P slot

def storeLocal (slot : Nat) : VMM Unit := do
  let frame ← currentFrame
  let v ← peek 0
  writeSlot P (frame.slots + slot) v

def executeStoreLocal : VMM Unit := do
  let slot ← readUint16Le
  storeLocal P slot

def loadUpvalue (index : Nat) : VMM Unit := do
  let a ← upvalueOf index
  match ← locationAt a with
  | .slot n =>
    let v ← readSlot P n
    push P v
  | .closed v => push P v

def executeLoadUpvalue : VMM Unit := do
  let index ← readUint16Le
  loadUpvalue P index

def storeUpvalue (index : Nat) : VMM Unit := do
  let a ← upvalueOf index
  let v ← peek 0
  match ← locationAt a with
  | .slot n => writeSlot P n v
  | .closed _ => setObject a (.upvalue (.closed v))

def executeStoreUpvalue : VMM Unit := do
  let index ← readUint16Le
  storeUpvalue P index

def executeCloseUpvalue : VMM Unit := do
  let vm ← get
  if vm.stackTop = 0 then undefinedBehaviour
  else
    closeUpvalues P (vm.stackTop - 1)
    let _ ← pop

/-! ### Functions -/

/-- The upvalue a triple of operands of `CLOSURE` stands for. -/
def captureOne (isLocal : Bool) (index : Nat) : VMM Addr := do
  let frame ← currentFrame
  if isLocal then captureUpvalue (frame.slots + index) else upvalueOf index

/-- The loop of `CLOSURE`: upvalue `i` of the closure and those after it. -/
def captureAll (closure : Addr) : Nat → Nat → VMM Unit
  | 0, _ => pure ()
  | n + 1, i => do
    let isLocal ← readByte
    let index ← readUint16Le
    let a ← captureOne (isLocal ≠ 0) index
    match ← objectAt closure with
    | .closure function upvalues =>
      setObject closure (.closure function (upvalues.set i (some a)))
      captureAll closure n (i + 1)
    | _ => undefinedBehaviour

/-- `Allocator::new_closure`. -/
def newClosure (function : ObjectFunction) : VMM Addr :=
  allocate (.closure function (List.replicate function.upvalueCount none))

/-- `CLOSURE` of a constant; the captured variables follow in the code. -/
def makeClosure : Value → VMM Unit
  | .object (.function function) => do
    let closure ← newClosure function
    push P (.ofAddr closure)
    captureAll closure function.upvalueCount 0
  | _ => undefinedBehaviour

def executeClosure : VMM Unit := do
  let function ← readConstantLong
  makeClosure P function

def executeCall : VMM Unit := do
  let argCount ← readByte
  callValue P (← peek argCount.toNat) argCount.toNat

def executeInvoke : VMM Unit := do
  let name ← stringOf (← readConstantLong)
  let argCount ← readByte
  invoke P name argCount.toNat

def executeSuperInvoke : VMM Unit := do
  let name ← stringOf (← readConstantLong)
  let argCount ← readByte
  let superclass ← classOf (← pop)
  invokeFromClass superclass name argCount.toNat

/-- `RETURN`: whether the script has ended. -/
def executeReturn : VMM Bool := do
  let result ← pop
  let frame ← currentFrame
  closeUpvalues P frame.slots
  modify fun vm => { vm with frames := vm.frames.tail }
  let vm ← get
  if vm.frames.isEmpty then
    let _ ← pop
    return true
  else
    modify fun vm => { vm with stackTop := frame.slots }
    push P result
    return false

/-! ### Classes -/

def makeClass : Value → VMM Unit
  | .object (.string name) => do
    push P (.ofString name)
    let klass ← allocate (.class name (.nil false) [])
    let _ ← pop
    push P (.ofAddr klass)
  | _ => throwException "invalid operand to opcode CLASS, expected a string"

def executeClass : VMM Unit := do
  let name ← readConstantLong
  makeClass P name

/-- A method bound to the instance on top of the stack takes its place. -/
def bindMethod (method : Value) : VMM Unit := do
  let receiver ← peek 0
  let (closure, _) ← closureOf method
  let bound ← allocate (.boundMethod receiver closure)
  let _ ← pop
  push P (.ofAddr bound)

/-- `LOAD_PROPERTY` on an instance. -/
def loadProperty (klass : Addr) (fields : StringTable) (property : Bytes) : VMM Unit := do
  match fields.lookup property with
  | some v =>
    let _ ← pop
    push P v
  | none =>
    let (name, methods) ← classAt klass
    match methods.lookup property with
    | none =>
      runtimeError ("Runtime Error: Instance of class '" ++ quoted name ++
        "' has no property '" ++ quoted property ++ "'")
    | some method => bindMethod P method

/-- The operand is not read when the value is no instance. -/
def executeLoadProperty : VMM Unit := do
  match ← objectOf (← peek 0) with
  | some (.instance klass fields) =>
    let property ← stringOf (← readConstantLong)
    loadProperty P klass fields property
  | _ => runtimeError "Runtime Error: Can only access properties on instances"

/-- Nil in place of the value on top of the stack. -/
def replaceByNil : VMM Unit := do
  let _ ← pop
  push P (.nil false)

/-- `LOAD_PROPERTY_SAFE` on an instance. -/
def loadPropertySafe (klass : Addr) (fields : StringTable) (property : Bytes) : VMM Unit := do
  match fields.lookup property with
  | some v =>
    let _ ← pop
    push P v
  | none =>
    let (_, methods) ← classAt klass
    match methods.lookup property with
    | some method => bindMethod P method
    | none => replaceByNil P

def executeLoadPropertySafe : VMM Unit := do
  match ← objectOf (← peek 0) with
  | some (.instance klass fields) =>
    let property ← stringOf (← readConstantLong)
    loadPropertySafe P klass fields property
  | _ =>
    let _ ← readConstantLong
    replaceByNil P

/-- Whether a value is an object of any kind. -/
def isObject : Value → Bool
  | .object _ => true
  | _ => false

/-- `STORE_PROPERTY` on an instance. -/
def storeProperty (a klass : Addr) (fields : StringTable) (property : Bytes) : VMM Unit := do
  let v ← peek 0
  setObject a (.instance klass (tableInsert fields property v))
  let top ← pop
  let _ ← pop
  push P top

/-- The operand is not read when the target is no instance. -/
def executeStoreProperty : VMM Unit := do
  let target ← peek 1
  match ← objectOf target, target with
  | some (.instance klass fields), .object (.heap a) =>
    let property ← stringOf (← readConstantLong)
    storeProperty P a klass fields property
  | _, _ =>
    if isObject target then runtimeError "Runtime Error: Can only set properties on instances"
    else runtimeError "Runtime Error: Can only set properties on objects"

def addMethod : Value → VMM Unit
  | .object (.string name) => do
    let method ← peek 0
    let klass ← peek 1
    match ← objectOf klass, klass with
    | some (.class className initMethod methods), .object (.heap a) =>
      setObject a (.class className (if name = initName then method else initMethod)
        (tableInsert methods name method))
      let _ ← pop
    | _, _ => undefinedBehaviour
  | _ => throwException "invalid operand to opcode METHOD, expected a string"

def executeMethod : VMM Unit := do
  let name ← readConstantLong
  addMethod name

def executeInherit : VMM Unit := do
  match ← objectOf (← peek 1) with
  | some (.class _ _ inherited) =>
    let subclass ← peek 0
    match ← objectOf subclass, subclass with
    | some (.class name initMethod methods), .object (.heap a) =>
      setObject a (.class name initMethod (tableInsertAll methods inherited))
      let _ ← pop
    | _, _ => undefinedBehaviour
  | _ => runtimeError "Runtime Error: Cannot inherit from a non-class value"

/-- The name of the class of an instance, for an error message. -/
def instanceClassName (v : Value) : VMM Bytes := do
  match ← objectOf v with
  | some (.instance klass _) =>
    let (name, _) ← classAt klass
    return name
  | _ => undefinedBehaviour

def loadSuper (name : Bytes) : VMM Unit := do
  let (superName, methods) ← classOf (← pop)
  let receiver ← peek 0
  match methods.lookup name with
  | some method => bindMethod P method
  | none =>
    let className ← instanceClassName receiver
    runtimeError ("Runtime Error: Instance of class '" ++ quoted className ++
      "', which is a subclass of class '" ++ quoted superName ++ "' has no method '" ++
      quoted name ++ "'")

def executeLoadSuper : VMM Unit := do
  let name ← stringOf (← readConstantLong)
  loadSuper P name

/-! ### Lists and maps -/

/-- The loop of `LIST`: the values on top of the stack, the lowest first. -/
def popList : Nat → List Value → VMM (List Value)
  | 0, values => pure values
  | n + 1, values => do
    let v ← peek 0
    let _ ← pop
    popList n (v :: values)

def buildList (length : Nat) : VMM Unit := do
  let values ← popList length []
  let list ← allocate (.list values)
  push P (.ofAddr list)

def executeList : VMM Unit := do
  let length ← readByte
  buildList P length.toNat

def executeListAppend : VMM Unit := do
  let target ← peek 1
  match ← objectOf target, target with
  | some (.list values), .object (.heap a) =>
    let v ← peek 0
    setObject a (.list (values ++ [v]))
    let _ ← pop
  | _, _ => undefinedBehaviour

/-- `ObjectMap::set`: whether the key is hashable, with the changed table.  A search that does not come
to its end has compared a bound method with an object of another kind. -/
def mapSet (table : HashMap Value Value) (key v : Value) : VMM (Bool × HashMap Value Value) := do
  let vm ← get
  if key.hashCode P vm.heap vm.heap.length = -1 then return (false, table)
  else
    let _ : HashKey Value := Value.hashKey P vm.heap
    match table.subscript key with
    | some (i, table) => return (true, table.writeRef i v)
    | none => undefinedBehaviour

/-- `ObjectMap::get`. -/
def mapGet (table : HashMap Value Value) (key : Value) : VMM (Option Value) := do
  let vm ← get
  let _ : HashKey Value := Value.hashKey P vm.heap
  match table.get key with
  | some found => return found
  | none => undefinedBehaviour

/-- The text of a key in an error message. -/
def keyText (key : Value) : VMM String := do
  let text ← toText P key
  return quoted text

/-- The loop of `MAP`. -/
def popEntries : Nat → HashMap Value Value → VMM (HashMap Value Value)
  | 0, table => pure table
  | n + 1, table => do
    let key ← peek 1
    let v ← peek 0
    let (hashable, table) ← mapSet P table key v
    if hashable then
      let _ ← pop
      let _ ← pop
      popEntries n table
    else runtimeError "unhashable type used as map key"

def buildMap (length : Nat) : VMM Unit := do
  let table ← popEntries P length HashMap.empty
  let map ← allocate (.map table)
  push P (.ofAddr map)

def executeMap : VMM Unit := do
  let length ← readByte
  buildMap P length.toNat

def executeMapAdd : VMM Unit := do
  let target ← peek 2
  match ← objectOf target, target with
  | some (.map table), .object (.heap a) =>
    let key ← peek 1
    let v ← peek 0
    let (hashable, table) ← mapSet P table key v
    if hashable then
      setObject a (.map table)
      let _ ← pop
      let _ ← pop
    else runtimeError "unhashable type used as map key"
  | _, _ => undefinedBehaviour

/-- The operands are popped and the value is pushed. -/
def finishStore (v : Value) : VMM Unit := do
  let _ ← pop
  let _ ← pop
  let _ ← pop
  push P v

/-- `STORE_INDEX` on a map. -/
def storeKey (a : Addr) (table : HashMap Value Value) : VMM Unit := do
  let key ← peek 1
  let v ← peek 0
  let (hashable, table) ← mapSet P table key v
  if hashable then
    setObject a (.map table)
    finishStore P v
  else
    let text ← keyText P key
    runtimeError ("Runtime error: Key '" ++ text ++
      "' is of unhashable type, and cannot be used to set map value")

/-- The error of an index that is out of range. -/
def outOfRange (kind what : String) (index : Int64) (size : Nat) : VMM Unit :=
  runtimeError ("Runtime error: " ++ kind ++
    " index out of range, attempt to subscript " ++ kind.toLower ++ " at [" ++ toString index ++
    "] (" ++ kind.toLower ++ " contains " ++ toString size ++ " " ++ what ++ ")")

/-- `STORE_INDEX` on a list.  A negative index is not stored by `ObjectList::set`. -/
def storeElement (a : Addr) (values : List Value) : VMM Unit := do
  match ← peek 1 with
  | .integer index =>
    if index.toInt ≥ values.length then outOfRange "List" "elements" index values.length
    else
      let v ← peek 0
      if 0 ≤ index.toInt then setObject a (.list (values.set index.toInt.toNat v)) else pure ()
      finishStore P v
  | _ => runtimeError "Runtime error: Index of a list must be an integer"

def executeStoreIndex : VMM Unit := do
  let target ← peek 2
  match ← objectOf target, target with
  | some (.map table), .object (.heap a) => storeKey P a table
  | some (.list values), .object (.heap a) => storeElement P a values
  | _, .object (.string _) =>
    runtimeError "Runtime error: Strings are immutable, and do not support index assignment"
  | _, _ =>
    runtimeError "Runtime error: Cannot set index of value, can only index lists and maps"

/-- The operands are popped and the element is pushed. -/
def finishLoad (v : Value) : VMM Unit := do
  let _ ← pop
  let _ ← pop
  push P v

/-- `LOAD_INDEX` on a map: the key is looked up before it is known to be hashable. -/
def loadKey (table : HashMap Value Value) : VMM Unit := do
  let key ← peek 0
  let found ← mapGet P table key
  let vm ← get
  if key.hashCode P vm.heap vm.heap.length = -1 then
    let text ← keyText P key
    runtimeError ("Runtime error: Key '" ++ text ++
      "' is of unhashable type, and cannot be used to access map value")
  else
    match found with
    | some v => finishLoad P v
    | none =>
      let text ← keyText P key
      runtimeError ("Runtime error: Key '" ++ text ++ "' does not exist in the map")

/-- `LOAD_INDEX` on a list: `value()` of an empty `optional` throws. -/
def loadElement (values : List Value) : VMM Unit := do
  match ← peek 0 with
  | .integer index =>
    if index.toInt ≥ values.length then outOfRange "List" "elements" index values.length
    else if index.toInt < 0 then throwException "bad optional access"
    else
      match values[index.toInt.toNat]? with
      | some v => finishLoad P v
      | none => undefinedBehaviour
  | _ => runtimeError "Runtime error: Index of a list or string must be an integer"

/-- `LOAD_INDEX` on a string: the comparison with the size is one of unsigned numbers. -/
def loadCharacter (s : Bytes) : VMM Unit := do
  match ← peek 0 with
  | .integer index =>
    match s[index.toUInt64.toNat]? with
    | some ch => finishLoad P (.ofString [ch])
    | none => outOfRange "String" "characters" index s.length
  | _ => runtimeError "Runtime error: Index of a list or string must be an integer"

def executeLoadIndex : VMM Unit := do
  let target ← peek 1
  match ← objectOf target, target with
  | some (.map table), _ => loadKey P table
  | some (.list values), _ => loadElement P values
  | _, .object (.string s) => loadCharacter P s
  | _, _ =>
    runtimeError
      "Runtime error: Cannot get index of value, can only index lists, strings and maps"

/-! ### The machine -/

/-- An instruction other than `RETURN`. -/
def execute : OpCode → VMM Unit
  | .loadConstant => do push P (← readConstant)
  | .loadConstantLong => do push P (← readConstantLong)
  | .negate => executeNegate
  | .add => executeAdd P
  | .subtract => executeSubtract P
  | .multiply => executeMultiply P
  | .divide => executeDivide P
  | .nil => push P (.nil false)
  | .uninitialized => push P (.nil true)
  | .true => push P (.boolean true)
  | .false => push P (.boolean false)
  | .not => executeNot P
  | .equal => executeEqual P
  | .greater => executeGreater P
  | .less => executeLess P
  | .print => executePrint P
  | .popTop => executePopTop
  | .defineGlobal => executeDefineGlobal
  | .storeGlobal => executeStoreGlobal
  | .loadGlobal => executeLoadGlobal P
  | .storeLocal => executeStoreLocal P
  | .loadLocal => executeLoadLocal P
  | .storeUpvalue => executeStoreUpvalue P
  | .loadUpvalue => executeLoadUpvalue P
  | .storeProperty => executeStoreProperty P
  | .loadProperty => executeLoadProperty P
  | .loadPropertySafe => executeLoadPropertySafe P
  | .loadSuper => executeLoadSuper P
  | .loadIndex => executeLoadIndex P
  | .storeIndex => executeStoreIndex P
  | .closeUpvalue => executeCloseUpvalue P
  | .jumpIfFalse => executeJumpIfFalse
  | .jumpIfTrue => executeJumpIfTrue
  | .popJumpIfFalse => executePopJumpIfFalse
  | .jumpForward => executeJumpForward
  | .jumpBackward => executeJumpBackward
  | .dupTop => executeDupTop P
  | .call => executeCall P
  | .class => executeClass P
  | .invoke => executeInvoke P
  | .superInvoke => executeSuperInvoke
  | .inherit => executeInherit
  | .closure => executeClosure P
  | .zero => push P (.integer 0)
  | .minusOne => push P (.integer (-1))
  | .one => push P (.integer 1)
  | .method => executeMethod
  | .list => executeList P
  | .listAppend => executeListAppend
  | .map => executeMap P
  | .mapAdd => executeMapAdd P
  | .invalid | .return => throwException "Invalid instruction"

/-- One iteration of `VM::execute`: whether the script has ended. -/
def step : VMM Bool := do
  match OpCode.ofByte (← readByte) with
  | some op =>
    if op = .return then executeReturn P
    else
      execute P op
      return false
  | none => throwException "Invalid instruction"

end VM

end CppLox
