import CppLox.Bytecode.Chunk
import CppLox.Compiler.Parser
import CppLox.Object.Context

/-!
# Compiler — state and helpers

The data members of `Compiler` (`include/compiler.hpp`) and its helper functions
(`src/compiler/compiler.cpp`): emitting and patching code, scopes, locals, upvalues and globals.

The compiler objects of the functions being compiled form a chain; `current` is the innermost one
and `enclosing` holds the others, the nearest first.  A routine is a function on the state that may
throw.
-/

namespace CppLox

/-- `FunctionType`. -/
inductive FunctionType where
  | function
  | script
  | method
  | initializer
  deriving Repr, DecidableEq

/-- `Compiler::Local`; of the token only the lexeme is used. -/
structure Local where
  name : Bytes
  depth : Nat
  uninitialized : Bool
  isConst : Bool
  isCaptured : Bool
  deriving Repr, DecidableEq

instance : Inhabited Local := ⟨⟨[], 0, false, false, false⟩⟩

/-- The data members of a `Compiler`.  `enclosingClass` lists the `has_super_class` members of the
chain of `ClassCompiler`s, the innermost first. -/
structure FunctionState where
  scopeDepth : Nat := 0
  locals : List Local := []
  constantNumbers : List (Int64 × Nat) := []
  function : ObjectFunction
  loopDepth : Nat := 0
  loopScopeDepth : Int := -1
  loopStartOffset : Int := -1
  functionType : FunctionType
  upvalues : List Upvalue := []
  enclosingClass : List Bool := []

/-- The state of a compilation. -/
structure CompilerState where
  parser : Parser
  current : FunctionState
  enclosing : List FunctionState
  context : Context
  /-- The address the next function is allocated at. -/
  nextAddress : Addr

/-- What ends a compilation before its result: an exception, or the fuel of the model. -/
inductive CompilerError where
  | logicError (message : String)
  | outOfFuel
  deriving Repr, DecidableEq

/-- A routine of the compiler. -/
def CompilerM (α : Type) : Type := CompilerState → Except CompilerError (α × CompilerState)

namespace CompilerM

instance : Monad CompilerM where
  pure a := fun s => .ok (a, s)
  bind x f := fun s =>
    match x s with
    | .ok (a, s') => f a s'
    | .error e => .error e

theorem bind_apply {α β : Type} (m : CompilerM α) (f : α → CompilerM β) (s : CompilerState) :
    (m >>= f) s = match m s with
      | .ok (a, s') => f a s'
      | .error e => .error e := rfl

/-- A C++ exception. -/
def throwLogicError {α : Type} (message : String) : CompilerM α :=
  fun _ => .error (.logicError message)

def get : CompilerM CompilerState := fun s => .ok (s, s)

def modify (f : CompilerState → CompilerState) : CompilerM Unit := fun s => .ok ((), f s)

/-- A change of the innermost compiler. -/
def modifyCurrent (f : FunctionState → FunctionState) : CompilerM Unit :=
  modify fun s => { s with current := f s.current }

end CompilerM

open CompilerM

namespace Compiler

/-- `MAX_NUMBER_OF_LOCAL_VARIABLES`. -/
def maxNumberOfLocalVariables : Nat := 2048

/-- `MAX_FUNCTION_PARAMETERS`. -/
def maxFunctionParameters : Nat := 255

/-! ### The parser -/

def reportError (message : String) : CompilerM Unit :=
  modify fun s => { s with parser := s.parser.reportError message }

/-- A report under a condition. -/
def reportIf (condition : Bool) (message : String) : CompilerM Unit :=
  if condition then reportError message else pure ()

def advance : CompilerM Unit := modify fun s => { s with parser := s.parser.advance }

def previous : CompilerM Token := fun s => .ok (s.parser.previous, s)

def peek : CompilerM Token := fun s => .ok (s.parser.peek, s)

def check (expected : TokenType) : CompilerM Bool := fun s => .ok (s.parser.check expected, s)

/-- `Parser::match`. -/
def matchToken (expected : TokenType) : CompilerM Bool := fun s =>
  let (matched, parser) := s.parser.match expected
  .ok (matched, { s with parser })

def consume (expected : TokenType) (errorMessage : String) : CompilerM Unit :=
  modify fun s => { s with parser := s.parser.consume expected errorMessage }

/-! ### Code -/

/-- A write to the chunk of the current function, with the line of the previous token. -/
def modifyChunk (f : ObjectFunction → Int32 → ObjectFunction) : CompilerM Unit :=
  modify fun s => { s with
    current := { s.current with function := f s.current.function s.parser.previous.line } }

def emitOpcode (code : OpCode) : CompilerM Unit :=
  modifyChunk fun f line => Chunk.writeSimpleOp f code line

def emitByte (byte : Nat) : CompilerM Unit :=
  modifyChunk fun f line => Chunk.writeByte f byte.toUInt8 line

def emitUint16Le (bytes : Nat) : CompilerM Unit :=
  modifyChunk fun f line => Chunk.writeUint16Le f bytes line

/-- `chunk()->get_code().size()`. -/
def codeLength : CompilerM Nat := fun s => .ok (s.current.function.code.length, s)

/-- The value `emit_return` returns: slot 0 in an initializer. -/
def emitReturnValue (type : FunctionType) : CompilerM Unit :=
  if type = .initializer then do
    emitOpcode .loadLocal
    emitUint16Le 0
  else emitOpcode .nil

def emitReturn : CompilerM Unit := do
  let s ← get
  emitReturnValue s.current.functionType
  emitOpcode .return

/-- `Compiler::emit_jump`: the offset of the operand. -/
def emitJump (code : OpCode) : CompilerM Nat := do
  emitOpcode code
  emitUint16Le 0
  let n ← codeLength
  return n - 2

/-- `Compiler::patch_jump`. -/
def patchJump (offset : Nat) : CompilerM Unit := do
  let n ← codeLength
  let jump := n - offset - 2
  reportIf (jump > 0xFFFF) "Too much code to jump over"
  modifyChunk fun f _ =>
    { f with code := (f.code.set offset jump.toUInt8).set (offset + 1) (jump / 256).toUInt8 }

/-- `Compiler::emit_jump_back`. -/
def emitJumpBack (absoluteLocation : Int) : CompilerM Unit := do
  emitOpcode .jumpBackward
  let n ← codeLength
  let offset := (n : Int) - absoluteLocation + 2
  reportIf (offset > 0xFFFF) "Too much code to jump back"
  emitUint16Le offset.toNat

/-- `Chunk::add_constant` on the current chunk. -/
def addConstant (value : Constant ObjectFunction) : CompilerM Nat := fun s =>
  match Chunk.addConstant s.current.function value with
  | .ok (index, f) => .ok (index, { s with current := { s.current with function := f } })
  | .error message => .error (.logicError message)

/-- `Chunk::write_load_constant` on the current chunk. -/
def writeLoadConstant (index : Nat) (line : Int32) : CompilerM Unit := fun s =>
  match Chunk.writeLoadConstant s.current.function index line with
  | .ok f => .ok ((), { s with current := { s.current with function := f } })
  | .error message => .error (.logicError message)

/-- `Allocator::intern_string`. -/
def internString (s : Bytes) : CompilerM Bytes := pure s

/-! ### Scopes and variables -/

def beginScope : CompilerM Unit :=
  modifyCurrent fun c => { c with scopeDepth := c.scopeDepth + 1 }

/-- The loop of `Compiler::end_scope`, on the locals from the last one on. -/
def popLocals (scopeDepth : Nat) : List Local → CompilerM Unit
  | [] => pure ()
  | l :: rest =>
    if l.depth > scopeDepth then do
      emitOpcode (if l.isCaptured then .closeUpvalue else .popTop)
      modifyCurrent fun c => { c with locals := c.locals.dropLast }
      popLocals scopeDepth rest
    else pure ()

def endScope : CompilerM Unit := do
  modifyCurrent fun c => { c with scopeDepth := c.scopeDepth - 1 }
  let s ← get
  popLocals s.current.scopeDepth s.current.locals.reverse

def addLocal (name : Bytes) (isConst : Bool) : CompilerM Unit := do
  let s ← get
  if s.current.locals.length = maxNumberOfLocalVariables then
    reportError "Limit on the number of local variables reached"
  else
    modifyCurrent fun c => { c with
      locals := c.locals ++ [⟨name, c.scopeDepth, true, isConst, false⟩] }

/-- Whether a local of the same name was declared in the innermost scope. -/
def redeclared (locals : List Local) (scopeDepth : Nat) (name : Bytes) : Bool :=
  (locals.reverse.takeWhile fun l => !decide (l.depth < scopeDepth)).any fun l => l.name == name

def declareVariable (isConstant : Bool) : CompilerM Unit := do
  let s ← get
  if s.current.scopeDepth = 0 then pure ()
  else do
    let token ← previous
    if redeclared s.current.locals s.current.scopeDepth token.lexeme then
      reportError ("Variable '" ++ token.text ++ "' redeclared in the same scope")
    else addLocal token.lexeme isConstant

/-- The assignment `locals.back().uninitialized = false`. -/
def setLastInitialized (locals : List Local) : List Local :=
  locals.modify (locals.length - 1) fun l => { l with uninitialized := false }

def markInitialized : CompilerM Unit := do
  let s ← get
  if s.current.scopeDepth > 0 then
    modifyCurrent fun c => { c with locals := setLastInitialized c.locals }
  else pure ()

/-- `Compiler::identifier`: the index of a global. -/
def identifier (name : Bytes) : CompilerM Nat := do
  let obj ← internString name
  fun s =>
    let (index, context) := s.context.getGlobal obj
    .ok (index, { s with context })

def parseVariable (errMessage : String) (isConstant : Bool) : CompilerM Nat := do
  consume .identifier errMessage
  declareVariable isConstant
  let s ← get
  if s.current.scopeDepth > 0 then pure 0
  else do
    let token ← previous
    identifier token.lexeme

def defineVariable (constantIndex : Nat) (isConst : Bool) : CompilerM Unit := do
  if constantIndex > 0xFFFF then
    reportError
      "Syntax Error: Too many global variables, can only have < 65535 global variables"
  else do
    let s ← get
    if s.current.scopeDepth > 0 then
      modifyCurrent fun c => { c with locals := setLastInitialized c.locals }
    else if (s.context.getInternalValue constantIndex).isConst then
      reportError ("Syntax Error: Variable '" ++
        { lexeme := s.context.getName constantIndex : Token }.text ++
        "' has been declared const, cannot be redeclared")
    else do
      modify fun s => { s with
        context := s.context.modify constantIndex fun val => { val with isConst } }
      emitOpcode .defineGlobal
      emitUint16Le constantIndex

/-- The index of the last local of a name. -/
def findLocal (locals : List Local) (name : Bytes) : Option Nat :=
  (locals.reverse.findIdx? fun l => l.name == name).map fun i => locals.length - 1 - i

/-- `Compiler::resolve_local` of the compiler `c`. -/
def resolveLocal (c : FunctionState) (name : Bytes) : CompilerM (Option Nat) :=
  match findLocal c.locals name with
  | none => pure none
  | some i =>
    if (c.locals.getD i default).uninitialized then do
      reportError "Can't use local variable in it's own initializer"
      pure none
    else pure (some i)

/-- The index of an upvalue that is in the list. -/
def findUpvalue (upvalues : List Upvalue) (u : Upvalue) : Option Nat :=
  upvalues.findIdx? fun v => v == u

/-- `Compiler::add_upvalue` of the compiler `c`. -/
def addUpvalue (c : FunctionState) (index : Nat) (isLocal : Bool) :
    CompilerM (Nat × FunctionState) :=
  if c.upvalues.length > 0xFFFF then throwLogicError "Too many upvalues in function"
  else
    match findUpvalue c.upvalues ⟨index, isLocal⟩ with
    | some idx => pure (idx, c)
    | none => pure (c.upvalues.length,
        { c with
          upvalues := c.upvalues ++ [⟨index, isLocal⟩]
          function := { c.function with upvalueCount := c.upvalues.length + 1 } })

/-- `Compiler::resolve_upvalue` of the compiler `c` with the enclosing compilers: the index of the
upvalue and whether the variable is const, with the changed compilers. -/
def resolveUpvalue (name : Bytes) : FunctionState → List FunctionState →
    CompilerM (Option (Nat × Bool) × FunctionState × List FunctionState)
  | c, [] => pure (none, c, [])
  | c, enclosing :: outer => do
    match ← resolveLocal enclosing name with
    | some i =>
      let enclosing := { enclosing with
        locals := enclosing.locals.modify i fun l => { l with isCaptured := true } }
      let (upvalue, c) ← addUpvalue c i true
      return (some (upvalue, (enclosing.locals.getD i default).isConst), c, enclosing :: outer)
    | none =>
      let (found, enclosing, outer) ← resolveUpvalue name enclosing outer
      match found with
      | some (upvalue, isConst) =>
        let (upvalue, c) ← addUpvalue c upvalue false
        return (some (upvalue, isConst), c, enclosing :: outer)
      | none => return (none, c, enclosing :: outer)

/-- Where `named_variable` finds a variable: the store and load opcodes, the index, and whether an
assignment is an error, with its message. -/
structure Resolved where
  storeOp : OpCode
  loadOp : OpCode
  index : Nat
  constError : Option String

/-- The first half of `Compiler::named_variable`. -/
def resolve (name : Token) : CompilerM Resolved := do
  let s ← get
  match ← resolveLocal s.current name.lexeme with
  | some i =>
    let l := s.current.locals.getD i default
    return ⟨.storeLocal, .loadLocal, i,
      if l.isConst then
        some ("Syntax Error: Assignment to const variable '" ++
          { lexeme := l.name : Token }.text ++ "'")
      else none⟩
  | none =>
    let (found, current, enclosing) ← resolveUpvalue name.lexeme s.current s.enclosing
    modify fun s => { s with current, enclosing }
    match found with
    | some (upvalue, isConst) =>
      return ⟨.storeUpvalue, .loadUpvalue, upvalue,
        if isConst then some "Syntax Error: Assignment to const variable disallowed" else none⟩
    | none =>
      let index ← identifier name.lexeme
      return ⟨.storeGlobal, .loadGlobal, index, none⟩

end Compiler

end CppLox
