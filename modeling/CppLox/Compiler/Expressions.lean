import CppLox.Compiler.State

/-!
# Compiler — expressions

The routines of `Compiler` (`src/compiler/compiler.cpp`) that parse expressions and emit their
code.  They call each other through a record of `Routines`, which `Compiler.routines` ties.
-/

namespace CppLox

open CompilerM

/-- `ParsePrecedence`. -/
inductive ParsePrecedence where
  | none | assignment | conditional | or | and | equality | comparison | term | factor | unary
  | call | primary
  deriving Repr, DecidableEq

namespace ParsePrecedence

def toNat : ParsePrecedence → Nat
  | none => 0
  | assignment => 1
  | conditional => 2
  | or => 3
  | and => 4
  | equality => 5
  | comparison => 6
  | term => 7
  | factor => 8
  | unary => 9
  | call => 10
  | primary => 11

/-- `static_cast<ParsePrecedence>(+precedence + 1)`. -/
def succ : ParsePrecedence → ParsePrecedence
  | none => assignment
  | assignment => conditional
  | conditional => or
  | or => and
  | and => equality
  | equality => comparison
  | comparison => term
  | term => factor
  | factor => unary
  | unary => call
  | call | primary => primary

end ParsePrecedence

/-- The member functions that stand in the table of rules. -/
inductive ParseFunction where
  | grouping | call | map | safeDot | dot | unary | binary | variable | string | number | and_
  | literal | or_ | super_ | this_ | ternary | list | index
  deriving Repr, DecidableEq

/-- `ParseRule`; `none` is `nullptr`. -/
structure ParseRule where
  prefixRule : Option ParseFunction := .none
  infixRule : Option ParseFunction := .none
  precedence : ParsePrecedence := .none

/-- `Compiler::get_rule`: the table `rules`. -/
def getRule : TokenType → ParseRule
  | .leftParen => { prefixRule := some .grouping, infixRule := some .call, precedence := .call }
  | .leftBrace => { prefixRule := some .map }
  | .questionDot => { infixRule := some .safeDot, precedence := .call }
  | .dot => { infixRule := some .dot, precedence := .call }
  | .minus => { prefixRule := some .unary, infixRule := some .binary, precedence := .term }
  | .plus => { infixRule := some .binary, precedence := .term }
  | .slash => { infixRule := some .binary, precedence := .factor }
  | .star => { infixRule := some .binary, precedence := .factor }
  | .bang => { prefixRule := some .unary }
  | .bangEqual => { infixRule := some .binary, precedence := .equality }
  | .equalEqual => { infixRule := some .binary, precedence := .equality }
  | .greater => { infixRule := some .binary, precedence := .comparison }
  | .greaterEqual => { infixRule := some .binary, precedence := .comparison }
  | .less => { infixRule := some .binary, precedence := .comparison }
  | .lessEqual => { infixRule := some .binary, precedence := .comparison }
  | .identifier => { prefixRule := some .variable }
  | .string => { prefixRule := some .string }
  | .numberInt => { prefixRule := some .number }
  | .numberReal => { prefixRule := some .number }
  | .and => { infixRule := some .and_, precedence := .and }
  | .false => { prefixRule := some .literal }
  | .nil => { prefixRule := some .literal }
  | .not => { prefixRule := some .unary }
  | .or => { infixRule := some .or_, precedence := .or }
  | .super => { prefixRule := some .super_ }
  | .this => { prefixRule := some .this_ }
  | .true => { prefixRule := some .literal }
  | .questionMark => { infixRule := some .ternary, precedence := .conditional }
  | .leftBracket => { prefixRule := some .list, infixRule := some .index, precedence := .call }
  | _ => {}

/-- `fast_float::from_chars` on a `double`: the bit pattern, or an error. -/
abbrev ParseReal := Bytes → Option UInt64

/-- `fast_float::from_chars` on an `int64_t`: the digits of the lexeme, or an error when there is
none or the number is too large. -/
def parseInt (lexeme : Bytes) : Option Int64 :=
  let digits := lexeme.takeWhile Lexer.isDigit
  let value := digits.foldl (fun n c => 10 * n + (c.toNat - 48)) 0
  if digits = [] ∨ value > 0x7FFFFFFFFFFFFFFF then .none else some (Int64.ofNat value)

/-- The lexeme `this`. -/
def thisName : Bytes := ascii ['t', 'h', 'i', 's']

/-- The lexeme `super`. -/
def superName : Bytes := ascii ['s', 'u', 'p', 'e', 'r']

/-- The name of initializers. -/
def initName : Bytes := ascii ['i', 'n', 'i', 't']

/-- The name of the dummy local of a `switch`: `<switch_variable>`. -/
def switchVariableName : Bytes :=
  ascii ['<', 's', 'w', 'i', 't', 'c', 'h', '_', 'v', 'a', 'r', 'i', 'a', 'b', 'l', 'e', '>']

/-- `LIST_BUILD_APPEND_THRESHOLD`. -/
def listBuildAppendThreshold : Nat := 5

/-- `MAP_BUILD_ADD_THRESHOLD`. -/
def mapBuildAddThreshold : Nat := 5

/-- The routines and loops that are called recursively. -/
structure Routines where
  parsePrecedence : ParsePrecedence → CompilerM Unit
  /-- The loop of `parse_precedence`. -/
  infixLoop : ParsePrecedence → Bool → CompilerM Unit
  declaration : CompilerM Unit
  statement : CompilerM Unit
  /-- The loop of `argument_list` with the arguments so far: the number of arguments. -/
  argumentLoop : Nat → CompilerM Nat
  /-- The loop of `list` with `list_length` and `should_emit_build_op`. -/
  listLoop : Nat → Bool → CompilerM (Nat × Bool)
  /-- The loop of `map` with `map_length` and `should_emit_build_op`. -/
  mapLoop : Nat → Bool → CompilerM (Nat × Bool)
  /-- The loop of `block`. -/
  blockLoop : CompilerM Unit
  /-- The loop of `parameters`. -/
  parameterLoop : CompilerM Unit
  /-- The loop of `class_declaration`. -/
  methodLoop : CompilerM Unit
  /-- The loop of `switch_statement` with `exit_jumps` and `default_case_compiled`; `none` when it
  returns early. -/
  caseLoop : List Nat → Bool → CompilerM (Option (List Nat × Bool))
  /-- The loop over the declarations of an arm of a `switch`. -/
  armLoop : CompilerM Unit
  /-- The loop of `compile`. -/
  programLoop : CompilerM Unit

namespace Compiler

variable (parseReal : ParseReal) (r : Routines)

/-- The condition `canAssign && parser.match(expected)`. -/
def matchIf (canAssign : Bool) (expected : TokenType) : CompilerM Bool :=
  if canAssign then matchToken expected else pure false

/-! ### Expressions -/

def expression : CompilerM Unit := r.parsePrecedence .assignment

/-- An integer literal that is in the constant pool already, or is added to it. -/
def loadInteger (value : Int64) (line : Int32) : Option Nat → CompilerM Unit
  | some index => writeLoadConstant index line
  | none => do
    let index ← addConstant (.integer value)
    writeLoadConstant index line
    modifyCurrent fun c => { c with constantNumbers := (value, index) :: c.constantNumbers }

/-- An integer literal. -/
def integerLiteral (token : Token) : Option Int64 → CompilerM Unit
  | none => reportError ("Error while parsing number as integer '" ++ token.text ++ "'")
  | some value => do
    if value = 0 then emitOpcode .zero
    else if value = 1 then emitOpcode .one
    else
      let s ← get
      loadInteger value token.line (s.current.constantNumbers.lookup value)

/-- A literal with a decimal point. -/
def realLiteral (token : Token) : Option UInt64 → CompilerM Unit
  | none => reportError ("Error while parsing number as double '" ++ token.text ++ "'")
  | some value => do
    let index ← addConstant (.real value)
    writeLoadConstant index token.line

def number : CompilerM Unit := do
  let token ← previous
  if token.tokenType = .numberInt then integerLiteral token (parseInt token.lexeme)
  else if token.tokenType = .numberReal then realLiteral token (parseReal token.lexeme)
  else pure ()

def grouping : CompilerM Unit := do
  expression r
  consume .rightParen "Expected ')' after expression"

/-- The code of unary `-`: a last byte equal to `ONE` becomes `MINUS_ONE`. -/
def emitNegate : CompilerM Unit := do
  let s ← get
  if s.current.function.code.getLast? = some OpCode.one.toByte then
    modifyChunk fun f _ => { f with code := f.code.dropLast ++ [OpCode.minusOne.toByte] }
  else emitOpcode .negate

/-- The code of a unary operator. -/
def emitUnary : TokenType → CompilerM Unit
  | .minus => emitNegate
  | .bang | .not => emitOpcode .not
  | _ => pure ()

def unary : CompilerM Unit := do
  let operator ← previous
  r.parsePrecedence .unary
  emitUnary operator.tokenType

def and_ : CompilerM Unit := do
  let endJump ← emitJump .jumpIfFalse
  emitOpcode .popTop
  r.parsePrecedence .and
  patchJump endJump

def or_ : CompilerM Unit := do
  let endJump ← emitJump .jumpIfTrue
  emitOpcode .popTop
  r.parsePrecedence .or
  patchJump endJump

/-- The opcode with a constant index as operand. -/
def emitConstantOp (code : OpCode) (index : Nat) : CompilerM Unit := do
  emitOpcode code
  emitUint16Le index

def argumentList : CompilerM Nat := do
  if ← check .rightParen then
    consume .rightParen "Expected ')' after arguments"
    return 0
  else
    let argCount ← r.argumentLoop 0
    consume .rightParen "Expected ')' after arguments"
    return argCount

/-- The body of the loop of `argument_list`. -/
def argumentLoop (argCount : Nat) : CompilerM Nat := do
  expression r
  if argCount = maxFunctionParameters then
    reportError ("Too many arguments: " ++ toString argCount)
    return argCount
  else if ← matchToken .comma then r.argumentLoop (argCount + 1)
  else return argCount + 1

def dot (canAssign : Bool) : CompilerM Unit := do
  consume .identifier "Expected property name after ."
  let token ← previous
  let propertyName ← internString token.lexeme
  let constantIndex ← addConstant (.string propertyName)
  if ← matchIf canAssign .equal then
    expression r
    emitConstantOp .storeProperty constantIndex
  else if ← matchToken .leftParen then
    let argCount ← argumentList r
    emitConstantOp .invoke constantIndex
    emitByte argCount
  else emitConstantOp .loadProperty constantIndex

def safeDot (canAssign : Bool) : CompilerM Unit := do
  consume .identifier "Expected property name after '?.'"
  let token ← previous
  let propertyName ← internString token.lexeme
  let constantIndex ← addConstant (.string propertyName)
  if ← matchIf canAssign .equal then
    reportError "Cannot assign to property with optional chaining"
  else emitConstantOp .loadPropertySafe constantIndex

/-- The opcodes of a binary operator. -/
def binaryOpcodes : TokenType → Option (List OpCode)
  | .plus => some [.add]
  | .minus => some [.subtract]
  | .slash => some [.divide]
  | .star => some [.multiply]
  | .equalEqual => some [.equal]
  | .bangEqual => some [.equal, .not]
  | .greater => some [.greater]
  | .greaterEqual => some [.less, .not]
  | .less => some [.less]
  | .lessEqual => some [.greater, .not]
  | _ => none

/-- The opcodes one after the other. -/
def emitOpcodes : List OpCode → CompilerM Unit
  | [] => pure ()
  | code :: codes => do
    emitOpcode code
    emitOpcodes codes

/-- The code of a binary operator. -/
def emitBinary : Option (List OpCode) → CompilerM Unit
  | some codes => emitOpcodes codes
  | none => throwLogicError "Invalid token type to binary()"

def binary : CompilerM Unit := do
  let op ← previous
  r.parsePrecedence (getRule op.tokenType).precedence.succ
  emitBinary (binaryOpcodes op.tokenType)

def ternary : CompilerM Unit := do
  r.parsePrecedence .conditional
  consume .colon "Expected ':' after then branch of ternary expression"
  r.parsePrecedence .assignment

/-- The code of a literal. -/
def emitLiteral : TokenType → CompilerM Unit
  | .false => emitOpcode .false
  | .true => emitOpcode .true
  | .nil => emitOpcode .nil
  | _ => throwLogicError "Invalid token type to literal"

def literal : CompilerM Unit := do
  let token ← previous
  emitLiteral token.tokenType

def string : CompilerM Unit := do
  let token ← previous
  let obj ← internString ((token.lexeme.drop 1).take (token.lexeme.length - 2))
  let index ← addConstant (.string obj)
  writeLoadConstant index token.line

/-- An assignment to a variable, or the error that it is const. -/
def assignTo (resolved : Resolved) : Option String → CompilerM Unit
  | some message => reportError message
  | none => do
    expression r
    emitConstantOp resolved.storeOp resolved.index

def namedVariable (name : Token) (canAssign : Bool) : CompilerM Unit := do
  let resolved ← resolve name
  if ← matchIf canAssign .equal then assignTo r resolved resolved.constError
  else emitConstantOp resolved.loadOp resolved.index

def «variable» (canAssign : Bool) : CompilerM Unit := do
  let token ← previous
  namedVariable r token canAssign

def this_ : CompilerM Unit := do
  let s ← get
  if s.current.enclosingClass = [] then reportError "Cannot use 'this' outside a class"
  else «variable» r false

/-- The errors `super_` reports first. -/
def checkSuper : List Bool → CompilerM Unit
  | [] => reportError "Cannot use 'super' outside a class"
  | hasSuperClass :: _ =>
    reportIf (!hasSuperClass) "Cannot use 'super' in a class that has no superclass"

/-- A token that stands for a keyword used as a variable. -/
def keywordToken (lexeme : Bytes) (line : Int32) : Token :=
  { tokenType := .identifier, line, lexeme }

/-- The part of `super_` after the name of the method: a call or an access. -/
def superAccess (methodIndex : Nat) (line : Int32) : CompilerM Unit := do
  namedVariable r (keywordToken thisName line) false
  if ← matchToken .leftParen then
    let argCount ← argumentList r
    namedVariable r (keywordToken superName line) false
    emitConstantOp .superInvoke methodIndex
    emitByte argCount
  else
    namedVariable r (keywordToken superName line) false
    emitConstantOp .loadSuper methodIndex

def super_ : CompilerM Unit := do
  let s ← get
  checkSuper s.current.enclosingClass
  consume .dot "Expected '.' after 'super'"
  consume .identifier "Expected method name after 'super.'"
  let token ← previous
  let methodName ← internString token.lexeme
  let methodIndex ← addConstant (.string methodName)
  superAccess r methodIndex token.line

def call : CompilerM Unit := do
  let argCount ← argumentList r
  emitOpcode .call
  emitByte argCount

/-- The opcode that builds a list or a map of the elements on the stack. -/
def emitBuild (code : OpCode) (length : Nat) : CompilerM Unit := do
  emitOpcode code
  emitByte length

/-- The opcode that appends an element to an object built before. -/
def emitAppend (code : OpCode) (shouldEmitBuildOp : Bool) : CompilerM Unit :=
  if shouldEmitBuildOp then pure () else emitOpcode code

/-- What `list` and `map` emit after an element: an append when the object was built before, and
the object itself when the threshold is reached. -/
def emitElement (buildOp appendOp : OpCode) (threshold length : Nat) (shouldEmitBuildOp : Bool) :
    CompilerM Bool := do
  emitAppend appendOp shouldEmitBuildOp
  if length = threshold then
    emitBuild buildOp length
    return false
  else return shouldEmitBuildOp

/-- The body of the loop of `list`. -/
def listLoop (length : Nat) (shouldEmitBuildOp : Bool) : CompilerM (Nat × Bool) := do
  expression r
  let shouldEmitBuildOp ←
    emitElement .list .listAppend listBuildAppendThreshold (length + 1) shouldEmitBuildOp
  if ← matchToken .comma then
    if ← check .rightBracket then return (length + 1, shouldEmitBuildOp)
    else r.listLoop (length + 1) shouldEmitBuildOp
  else return (length + 1, shouldEmitBuildOp)

def list : CompilerM Unit := do
  if ← check .rightBracket then
    consume .rightBracket "Expected ']' after list expression"
    emitBuild .list 0
  else
    let (length, shouldEmitBuildOp) ← r.listLoop 0 true
    consume .rightBracket "Expected ']' after list expression"
    if shouldEmitBuildOp then emitBuild .list length else pure ()

/-- The body of the loop of `map`. -/
def mapLoop (length : Nat) (shouldEmitBuildOp : Bool) : CompilerM (Nat × Bool) := do
  expression r
  consume .colon "Expected ':' between key and value in map declaration"
  expression r
  let shouldEmitBuildOp ←
    emitElement .map .mapAdd mapBuildAddThreshold (length + 1) shouldEmitBuildOp
  if ← matchToken .comma then
    if ← check .rightBrace then return (length + 1, shouldEmitBuildOp)
    else r.mapLoop (length + 1) shouldEmitBuildOp
  else return (length + 1, shouldEmitBuildOp)

def map : CompilerM Unit := do
  if ← check .rightBrace then
    consume .rightBrace "Expected '\x7d' after map declaration"
    emitBuild .map 0
  else
    let (length, shouldEmitBuildOp) ← r.mapLoop 0 true
    consume .rightBrace "Expected '\x7d' after map declaration"
    if shouldEmitBuildOp then emitBuild .map length else pure ()

def index (canAssign : Bool) : CompilerM Unit := do
  expression r
  consume .rightBracket "Expected ']' after index access"
  if ← matchIf canAssign .equal then
    expression r
    emitOpcode .storeIndex
  else emitOpcode .loadIndex

/-- A call through the table of rules. -/
def parseFunction (canAssign : Bool) : ParseFunction → CompilerM Unit
  | .grouping => grouping r
  | .call => call r
  | .map => map r
  | .safeDot => safeDot canAssign
  | .dot => dot r canAssign
  | .unary => unary r
  | .binary => binary r
  | .variable => «variable» r canAssign
  | .string => string
  | .number => number parseReal
  | .and_ => and_ r
  | .literal => literal
  | .or_ => or_ r
  | .super_ => super_ r
  | .this_ => this_ r
  | .ternary => ternary r
  | .list => list r
  | .index => index r canAssign

/-- An infix rule and the rest of the loop of `parse_precedence`. -/
def callInfix (precedence : ParsePrecedence) (canAssign : Bool) :
    Option ParseFunction → CompilerM Unit
  | none => throwLogicError "bad_function_call"
  | some infix_ => do
    parseFunction parseReal r canAssign infix_
    r.infixLoop precedence canAssign

/-- The loop of `parse_precedence`. -/
def infixLoop (precedence : ParsePrecedence) (canAssign : Bool) : CompilerM Unit := do
  let token ← peek
  if precedence.toNat ≤ (getRule token.tokenType).precedence.toNat then
    advance
    let operator ← previous
    callInfix parseReal r precedence canAssign (getRule operator.tokenType).infixRule
  else pure ()

/-- A prefix rule and the loop of `parse_precedence`. -/
def callPrefix (precedence : ParsePrecedence) (canAssign : Bool) :
    Option ParseFunction → CompilerM Unit
  | none => reportError "Expected expression"
  | some prefix_ => do
    parseFunction parseReal r canAssign prefix_
    r.infixLoop precedence canAssign
    let invalid ← matchIf canAssign .equal
    reportIf invalid "Invalid assignment target"

def parsePrecedence (precedence : ParsePrecedence) : CompilerM Unit := do
  advance
  let token ← previous
  callPrefix parseReal r precedence (decide (precedence.toNat ≤ ParsePrecedence.assignment.toNat))
    (getRule token.tokenType).prefixRule

end Compiler

end CppLox
