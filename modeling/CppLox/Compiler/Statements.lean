import CppLox.Compiler.Expressions

/-!
# Compiler — declarations, statements and the whole pass

The remaining routines of `Compiler` (`src/compiler/compiler.cpp`).  `routines` ties the record of
recursive routines with fuel: every call of an entry of the record, and every further iteration of
a loop, costs one unit.
-/

namespace CppLox

open CompilerM

namespace Compiler

variable (r : Routines)

/-! ### Declarations -/

def expressionStatement : CompilerM Unit := do
  if ← check .semicolon then advance
  else
    expression r
    consume .semicolon "Expected ';' after expression"
    emitOpcode .popTop

/-- The initializer of a `var`. -/
def varInitializer : CompilerM Unit := do
  if ← matchToken .equal then expression r else emitOpcode .uninitialized

def varDeclaration : CompilerM Unit := do
  let variableConstantIndex ← parseVariable "Expected variable name after 'var'" false
  varInitializer r
  consume .semicolon "Expected ';' after variable declaration"
  defineVariable variableConstantIndex false

def constDeclaration : CompilerM Unit := do
  let constConstantIndex ← parseVariable "Expected variable name after 'const'" true
  if ← matchToken .equal then
    expression r
    consume .semicolon "Expected ';' after const declaration"
    defineVariable constConstantIndex true
  else reportError "Expected initializer after const declaration"

def block : CompilerM Unit := do
  r.blockLoop
  consume .rightBrace "Expected \"\x7d\" after a block"

/-- The loop of `block`. -/
def blockLoop : CompilerM Unit := do
  if ← check .rightBrace then pure ()
  else if ← check .endOfFile then pure ()
  else
    r.declaration
    r.blockLoop

/-- A newly constructed compiler: slot 0 is `this` in a method and reserved elsewhere. -/
def newFunctionState (type : FunctionType) (addr : Addr) (name : Bytes)
    (enclosingClass : List Bool) : FunctionState where
  function :=
    { addr, arity := 0, upvalueCount := 0, name, code := [], constants := [], lines := [] }
  functionType := type
  locals :=
    [if type = .method ∨ type = .initializer then ⟨thisName, 0, false, true, false⟩
     else ⟨[], 0, true, false, false⟩]
  enclosingClass := enclosingClass

/-- The construction of a nested compiler. -/
def pushCompiler (type : FunctionType) (name : Bytes) : CompilerM Unit := do
  let name ← internString name
  modify fun s => { s with
    current := newFunctionState type s.nextAddress name s.current.enclosingClass
    enclosing := s.current :: s.enclosing
    nextAddress := s.nextAddress + 1 }

/-- The end of a nested compiler: what it holds. -/
def popCompiler : CompilerM FunctionState := fun s =>
  match s.enclosing with
  | [] => .error (.logicError "no enclosing compiler")
  | c :: enclosing => .ok (s.current, { s with current := c, enclosing })

def parameters : CompilerM Unit := do
  if ← check .rightParen then pure () else r.parameterLoop

/-- The loop of `parameters`. -/
def parameterLoop : CompilerM Unit := do
  modifyCurrent fun c => { c with function := { c.function with arity := c.function.arity + 1 } }
  let s ← get
  if s.current.function.arity > maxFunctionParameters then
    reportError ("Too many parameters (" ++ toString s.current.function.arity ++
      "), has to be less than " ++ toString maxFunctionParameters)
  else
    let parameterConstantIndex ← parseVariable "Expected parameter name" false
    defineVariable parameterConstantIndex false
    if ← matchToken .comma then r.parameterLoop else pure ()

/-- The triples after a `CLOSURE`. -/
def emitCaptures : List Upvalue → CompilerM Unit
  | [] => pure ()
  | upvalue :: upvalues => do
    emitByte (if upvalue.isLocal then 1 else 0)
    emitUint16Le upvalue.index
    emitCaptures upvalues

/-- The instruction that creates the closure of a compiled function. -/
def emitClosure (compiler : FunctionState) : CompilerM Unit := do
  let index ← addConstant (.function compiler.function)
  emitConstantOp .closure index
  emitCaptures compiler.upvalues

def compileFunction (type : FunctionType) (name : Bytes) : CompilerM Unit := do
  pushCompiler type name
  beginScope
  consume .leftParen "Expected '(' after function name"
  parameters r
  consume .rightParen "Expected ')' after function parameters"
  consume .leftBrace "Expected '\x7b' before function body"
  block r
  emitReturn
  let compiler ← popCompiler
  emitClosure compiler

def funDeclaration : CompilerM Unit := do
  let functionNameConstantIndex ← parseVariable "Expected function name after 'fun'" false
  markInitialized
  let token ← previous
  compileFunction r .function token.lexeme
  defineVariable functionNameConstantIndex false

def method : CompilerM Unit := do
  let _ ← matchToken .fun
  consume .identifier "Expected method name"
  let token ← previous
  let methodName ← internString token.lexeme
  let constantIndex ← addConstant (.string methodName)
  compileFunction r (if token.lexeme = initName then .initializer else .method) token.lexeme
  emitConstantOp .method constantIndex

/-- The loop of `class_declaration`. -/
def methodLoop : CompilerM Unit := do
  if ← check .rightBrace then pure ()
  else if ← check .endOfFile then pure ()
  else
    method r
    r.methodLoop

/-- The clause of `class_declaration` for a superclass. -/
def superClause (classToken : Token) : CompilerM Unit := do
  if ← matchToken .colon then
    consume .identifier "Expected superclass name after ':'"
    «variable» r false
    let superToken ← previous
    reportIf (classToken.lexeme = superToken.lexeme)
      ("Circular inheritance not allowed. Class '" ++ classToken.text ++
        "' is trying to inherit from itself")
    beginScope
    addLocal superName true
    defineVariable 0 true
    modifyCurrent fun c => { c with enclosingClass := true :: c.enclosingClass.tail }
    namedVariable r classToken false
    emitOpcode .inherit
  else pure ()

/-- The scope of `super` ends with the class. -/
def endSuperScope : CompilerM Unit := do
  let s ← get
  if s.current.enclosingClass.headD false then endScope else pure ()

/-- The part of `class_declaration` between the braces, with the class on the stack. -/
def classBody : CompilerM Unit := do
  consume .leftBrace "Expected '\x7b' after class name"
  r.methodLoop
  consume .rightBrace "Expected '\x7d' after class body"
  emitOpcode .popTop

def classDeclaration : CompilerM Unit := do
  let classNameIndex ← parseVariable "Expected class name after 'class'" false
  let classToken ← previous
  let className ← internString classToken.lexeme
  let constantIndex ← addConstant (.string className)
  markInitialized
  emitConstantOp .class constantIndex
  defineVariable classNameIndex false
  modifyCurrent fun c => { c with enclosingClass := false :: c.enclosingClass }
  superClause r classToken
  namedVariable r classToken false
  classBody r
  endSuperScope
  modifyCurrent fun c => { c with enclosingClass := c.enclosingClass.tail }

/-- The choice of `declaration` by the first token. -/
def declarationOf : CompilerM Unit := do
  if ← matchToken .var then varDeclaration r
  else if ← matchToken .const then constDeclaration r
  else if ← matchToken .fun then funDeclaration r
  else if ← matchToken .class then classDeclaration r
  else r.statement

/-- After an error the parser is synchronized. -/
def synchronizeOnPanic : CompilerM Unit :=
  modify fun s =>
    if s.parser.panicMode then { s with parser := s.parser.synchronize } else s

def declaration : CompilerM Unit := do
  declarationOf r
  synchronizeOnPanic

/-! ### Statements -/

def printStatement : CompilerM Unit := do
  expression r
  consume .semicolon "Expected ';' after print statement"
  emitOpcode .print

def ifStatement : CompilerM Unit := do
  consume .leftParen "Expected '(' after 'if'"
  expression r
  consume .rightParen "Expected ')' after if condition"
  let thenJump ← emitJump .popJumpIfFalse
  r.statement
  if ← matchToken .else then
    -- the then branch jumps over the else branch
    let elseJump ← emitJump .jumpForward
    patchJump thenJump
    r.statement
    patchJump elseJump
  else patchJump thenJump

/-- The jump out of a loop that has a condition. -/
def patchExit : Option Nat → CompilerM Unit
  | none => pure ()
  | some exitJump => patchJump exitJump

/-- The body of a loop, compiled with its own `loop_scope_depth` and `loop_start_offset`. -/
def loopBody (outer : FunctionState) (loopBegin : Nat) (exitJump : Option Nat) :
    CompilerM Unit := do
  modifyCurrent fun c => { c with loopStartOffset := loopBegin }
  r.statement
  emitJumpBack loopBegin
  patchExit exitJump
  modifyCurrent fun c => { c with
    loopScopeDepth := outer.loopScopeDepth
    loopStartOffset := outer.loopStartOffset }

def whileStatement : CompilerM Unit := do
  modifyCurrent fun c => { c with loopDepth := c.loopDepth + 1 }
  beginScope
  let loopBegin ← codeLength
  consume .leftParen "Expected '(' after 'while'"
  expression r
  consume .rightParen "Expected ')' after while condition"
  let outer ← get
  modifyCurrent fun c => { c with loopScopeDepth := c.scopeDepth }
  let exitJump ← emitJump .popJumpIfFalse
  loopBody r outer.current loopBegin (some exitJump)
  modifyCurrent fun c => { c with loopDepth := c.loopDepth - 1 }
  endScope

/-- The initializer of a `for`. -/
def forInitializer : CompilerM Unit := do
  if ← matchToken .semicolon then pure ()
  else if ← matchToken .var then varDeclaration r
  else if ← matchToken .const then constDeclaration r
  else expressionStatement r

/-- The condition of a `for`: the jump out of the loop, if there is a condition. -/
def forCondition : CompilerM (Option Nat) := do
  if ← matchToken .semicolon then return none
  else
    expression r
    consume .semicolon "Expected ';' after loop condition"
    let exitJump ← emitJump .popJumpIfFalse
    return some exitJump

/-- The update of a `for`: where the body jumps back to. -/
def forIncrement (loopBegin : Nat) : CompilerM Nat := do
  if ← matchToken .rightParen then return loopBegin
  else
    let bodyJump ← emitJump .jumpForward
    let incrementBegin ← codeLength
    expression r
    emitOpcode .popTop
    consume .rightParen "Expected ')' after for statement"
    emitJumpBack loopBegin
    patchJump bodyJump
    return incrementBegin

def forStatement : CompilerM Unit := do
  modifyCurrent fun c => { c with loopDepth := c.loopDepth + 1 }
  beginScope
  consume .leftParen "Expected '(' after 'for'"
  forInitializer r
  let outer ← get
  modifyCurrent fun c => { c with loopScopeDepth := c.scopeDepth }
  let loopBegin ← codeLength
  let exitJump ← forCondition r
  let loopBegin ← forIncrement r loopBegin
  loopBody r outer.current loopBegin exitJump
  endScope
  modifyCurrent fun c => { c with loopDepth := c.loopDepth - 1 }

/-- The part of an arm of a `switch` after its label. -/
def armBody : CompilerM Unit := do
  consume .colon "Expected ':' after case or default statement"
  let s ← get
  reportIf (s.parser.check .default || s.parser.check .case || s.parser.check .rightBrace)
    "Empty cases not allowed in switch statement"
  r.armLoop
  endScope

/-- The loop over the declarations of an arm. -/
def armLoop : CompilerM Unit := do
  let s ← get
  if s.parser.check .rightBrace || s.parser.check .case || s.parser.check .default ||
      s.parser.check .endOfFile then pure ()
  else
    r.declaration
    r.armLoop

/-- A `case` of a `switch`: its exit jump. -/
def caseArm (defaultCaseCompiled : Bool) : CompilerM Nat := do
  -- EQUAL consumes the copy of the switch value
  emitOpcode .dupTop
  beginScope
  addLocal switchVariableName false
  reportIf defaultCaseCompiled "Cannot have cases following the 'default' case"
  expression r
  emitOpcode .equal
  let skipJump ← emitJump .popJumpIfFalse
  armBody r
  let exitJump ← emitJump .jumpForward
  patchJump skipJump
  return exitJump

/-- The `default` of a `switch`: its exit jump. -/
def defaultArm (defaultCaseCompiled : Bool) : CompilerM Nat := do
  beginScope
  addLocal switchVariableName false
  reportIf defaultCaseCompiled "Cannot have multiple 'default' statements in a single switch case"
  armBody r
  emitJump .jumpForward

/-- The loop of `switch_statement`. -/
def caseLoop (exitJumps : List Nat) (defaultCaseCompiled : Bool) :
    CompilerM (Option (List Nat × Bool)) := do
  if ← check .rightBrace then return some (exitJumps, defaultCaseCompiled)
  else if ← check .endOfFile then return some (exitJumps, defaultCaseCompiled)
  else if ← matchToken .case then
    let exitJump ← caseArm r defaultCaseCompiled
    r.caseLoop (exitJumps ++ [exitJump]) defaultCaseCompiled
  else if ← matchToken .default then
    let exitJump ← defaultArm r defaultCaseCompiled
    r.caseLoop (exitJumps ++ [exitJump]) true
  else
    reportError "Expected 'case' or 'default' statements inside switch statement"
    return none

/-- Without a `default` the switch value is popped after the last arm. -/
def emitSwitchPop (defaultCaseCompiled : Bool) : CompilerM Unit :=
  if defaultCaseCompiled then pure () else emitOpcode .popTop

def patchJumps : List Nat → CompilerM Unit
  | [] => pure ()
  | jump :: jumps => do
    patchJump jump
    patchJumps jumps

/-- The end of a `switch` whose arms were all compiled. -/
def endSwitch : Option (List Nat × Bool) → CompilerM Unit
  | none => pure ()
  | some (exitJumps, defaultCaseCompiled) => do
    emitSwitchPop defaultCaseCompiled
    consume .rightBrace "Expected '\x7d' after switch statement"
    patchJumps exitJumps

def switchStatement : CompilerM Unit := do
  expression r
  consume .leftBrace "Expected '\x7b' after switch statement"
  let arms ← r.caseLoop [] false
  endSwitch arms

def breakStatement : CompilerM Unit := do
  let s ← get
  reportIf (s.current.loopDepth = 0) "Cannot use break statement outside loop"
  consume .semicolon "Expected ';' after break statement"
  reportError "NOT YET IMPLEMENTED"

/-- The loop of `continue_statement` over the locals, from the last one on. -/
def emitLoopPops (loopScopeDepth : Int) : List Local → CompilerM Unit
  | [] => pure ()
  | l :: rest =>
    if l.depth ≤ loopScopeDepth then pure ()
    else do
      emitOpcode .popTop
      emitLoopPops loopScopeDepth rest

def continueStatement : CompilerM Unit := do
  let s ← get
  reportIf (s.current.loopDepth = 0) "Cannot use continue statement outside loop"
  consume .semicolon "Expected ';' after continue statement"
  emitLoopPops s.current.loopScopeDepth s.current.locals.reverse
  emitJumpBack s.current.loopStartOffset

def returnStatement : CompilerM Unit := do
  let s ← get
  reportIf (s.current.functionType = .script)
    "cannot return from top level script, must be used inside a function"
  if ← matchToken .semicolon then emitReturn
  else
    reportIf (s.current.functionType = .initializer) "cannot return a value from init() method"
    expression r
    consume .semicolon "Expected ';' after return statement"
    emitOpcode .return

/-- A block as a statement. -/
def blockStatement : CompilerM Unit := do
  beginScope
  block r
  endScope

def statement : CompilerM Unit := do
  if ← matchToken .print then printStatement r
  else if ← matchToken .if then ifStatement r
  else if ← matchToken .while then whileStatement r
  else if ← matchToken .for then forStatement r
  else if ← matchToken .switch then switchStatement r
  else if ← matchToken .leftBrace then blockStatement r
  else if ← matchToken .continue then continueStatement
  else if ← matchToken .break then breakStatement
  else if ← matchToken .return then returnStatement r
  else expressionStatement r

/-- The loop of `compile`. -/
def programLoop : CompilerM Unit := do
  if ← matchToken .endOfFile then pure ()
  else
    r.declaration
    r.programLoop

/-! ### The whole pass -/

variable (parseReal : ParseReal)

/-- One unfolding of the recursive routines. -/
def unfoldRoutines : Routines where
  parsePrecedence := parsePrecedence parseReal r
  infixLoop := infixLoop parseReal r
  declaration := declaration r
  statement := statement r
  argumentLoop := argumentLoop r
  listLoop := listLoop r
  mapLoop := mapLoop r
  blockLoop := blockLoop r
  parameterLoop := parameterLoop r
  methodLoop := methodLoop r
  caseLoop := caseLoop r
  armLoop := armLoop r
  programLoop := programLoop r

/-- The routines without fuel. -/
def noRoutines : Routines where
  parsePrecedence _ _ := .error .outOfFuel
  infixLoop _ _ _ := .error .outOfFuel
  declaration _ := .error .outOfFuel
  statement _ := .error .outOfFuel
  argumentLoop _ _ := .error .outOfFuel
  listLoop _ _ _ := .error .outOfFuel
  mapLoop _ _ _ := .error .outOfFuel
  blockLoop _ := .error .outOfFuel
  parameterLoop _ := .error .outOfFuel
  methodLoop _ := .error .outOfFuel
  caseLoop _ _ _ := .error .outOfFuel
  armLoop _ := .error .outOfFuel
  programLoop _ := .error .outOfFuel

/-- The recursive routines with fuel. -/
def routines : Nat → Routines
  | 0 => noRoutines
  | fuel + 1 => unfoldRoutines (routines fuel) parseReal

/-- The state in which `Lox::compile_and_execute` starts the compilation of a source. -/
def initialState (source : Bytes) (context : Context) (addr : Addr) : CompilerState where
  parser := Parser.init (Lexer.tokens source)
  current := newFunctionState .script addr [] []
  enclosing := []
  context := context
  nextAddress := addr + 1

/-- `Compiler::compile` up to its result. -/
def compileScript (fuel : Nat) : CompilerM Unit := do
  (routines parseReal fuel).programLoop
  emitReturn

/-- `Compiler::compile` of a source: the function, or `none` for `COMPILE_ERROR`, with the context
and the reported errors. -/
def compile (fuel : Nat) (source : Bytes) (context : Context) (addr : Addr) :
    Except CompilerError (Option ObjectFunction × CompilerState) :=
  match compileScript parseReal fuel (initialState source context addr) with
  | .ok ((), s) => .ok (if s.parser.hadError then none else some s.current.function, s)
  | .error e => .error e

end Compiler

end CppLox
