import CppLox.Compiler.Expressions
import CppLox.Syntax.Ast

/-!
# Syntax — the tree of a source

A parser that builds the tree the compiler walks through without an error: the precedence climbing
of `Compiler::parse_precedence` and the statement forms of `Compiler::statement`, with no state but
the tokens.  It fails where the compiler reports a syntax error.
-/

namespace CppLox

/-- A parser of trees. -/
def SyntaxM (α : Type) : Type := Tokens → Option (α × Tokens)

namespace SyntaxM

instance : Monad SyntaxM where
  pure a := fun t => some (a, t)
  bind x f := fun t =>
    match x t with
    | some (a, t') => f a t'
    | none => none

def fail {α : Type} : SyntaxM α := fun _ => none

theorem bind_apply {α β : Type} (x : SyntaxM α) (f : α → SyntaxM β) (t : Tokens) :
    (x >>= f) t = match x t with
      | some (a, t') => f a t'
      | none => none := rfl

theorem bind_eq {α β : Type} {x : SyntaxM α} {f : α → SyntaxM β} {t t' : Tokens} {a : α}
    (h : x t = some (a, t')) : (x >>= f) t = f a t' := by
  rw [bind_apply, h]

theorem bind_eq_some {α β : Type} {x : SyntaxM α} {f : α → SyntaxM β} {t : Tokens} {b : β × Tokens}
    (h : (x >>= f) t = some b) : ∃ a t', x t = some (a, t') ∧ f a t' = some b := by
  rw [bind_apply] at h
  split at h
  · exact ⟨_, _, by assumption, h⟩
  · cases h

end SyntaxM

open SyntaxM

/-- The parsers that are called recursively. -/
structure SyntaxRoutines where
  parsePrecedence : ParsePrecedence → SyntaxM Expr
  infixLoop : ParsePrecedence → Bool → Expr → SyntaxM Expr
  declaration : SyntaxM Stmt
  statement : SyntaxM Stmt
  argumentLoop : SyntaxM Exprs
  listLoop : SyntaxM Exprs
  mapLoop : SyntaxM Entries
  blockLoop : SyntaxM Stmts
  parameterLoop : SyntaxM (List Bytes)
  methodLoop : SyntaxM Methods
  caseLoop : SyntaxM Cases
  armLoop : SyntaxM Stmts
  programLoop : SyntaxM Stmts

namespace Syntax

/-! ### Tokens -/

/-- A token the parser reports: one of type `ERROR` that carries an error code, as the lexer makes
them. -/
def isReported (token : Token) : Bool := token.tokenType = .error && token.err ≠ .noError

/-- The next token, which `Parser::advance` does not report. -/
def nextToken (previous : Token) : List Token → Option (Unit × Tokens)
  | [] => some ((), ⟨previous, {}, []⟩)
  | token :: rest =>
    if token.tokenType = .error then if isReported token then none else nextToken previous rest
    else some ((), ⟨previous, token, rest⟩)

/-- The next token becomes the current one. -/
def advance : SyntaxM Unit := fun t => nextToken t.current t.rest

def previous : SyntaxM Token := fun t => some (t.previous, t)

def peek : SyntaxM Token := fun t => some (t.current, t)

theorem bind_previous {β : Type} (f : Token → SyntaxM β) (t : Tokens) :
    (previous >>= f) t = f t.previous t := rfl

theorem bind_peek {β : Type} (f : Token → SyntaxM β) (t : Tokens) :
    (peek >>= f) t = f t.current t := rfl

def check (expected : TokenType) : SyntaxM Bool := fun t =>
  some (decide (t.current.tokenType = expected), t)

def matchToken (expected : TokenType) : SyntaxM Bool := do
  if ← check expected then
    advance
    return true
  else return false

def matchIf (canAssign : Bool) (expected : TokenType) : SyntaxM Bool :=
  if canAssign then matchToken expected else pure false

def consume (expected : TokenType) : SyntaxM Unit := do
  if ← check expected then advance else fail

/-- The lexeme of an identifier that must come next. -/
def name : SyntaxM Bytes := do
  consume .identifier
  let token ← previous
  return token.lexeme

/-! ### Expressions -/

variable (parseReal : ParseReal) (r : SyntaxRoutines)

def expression : SyntaxM Expr := r.parsePrecedence .assignment

def number : SyntaxM Expr := do
  let token ← previous
  if token.tokenType = .numberInt then
    match parseInt token.lexeme with
    | some value => return .integer value
    | none => fail
  else
    match parseReal token.lexeme with
    | some bits => return .real bits
    | none => fail

def grouping : SyntaxM Expr := do
  let e ← expression r
  consume .rightParen
  return e

def unary : SyntaxM Expr := do
  let operator ← previous
  let e ← r.parsePrecedence .unary
  return if operator.tokenType = .minus then .negate e else .not e

def argumentList : SyntaxM Exprs := do
  if ← check .rightParen then
    consume .rightParen
    return .nil
  else
    let args ← r.argumentLoop
    consume .rightParen
    return args

/-- One or more arguments. -/
def argumentLoop : SyntaxM Exprs := do
  let e ← expression r
  if ← matchToken .comma then
    let es ← r.argumentLoop
    return .cons e es
  else return .cons e .nil

def dot (left : Expr) (canAssign : Bool) : SyntaxM Expr := do
  let property ← name
  if ← matchIf canAssign .equal then
    let value ← expression r
    return .setProperty left property value
  else if ← matchToken .leftParen then
    let args ← argumentList r
    return .invoke left property args
  else return .property left property

def safeDot (left : Expr) (canAssign : Bool) : SyntaxM Expr := do
  let property ← name
  if ← matchIf canAssign .equal then fail else return .propertySafe left property

/-- The operator of a token. -/
def binaryOp : TokenType → Option BinaryOp
  | .plus => some .add
  | .minus => some .subtract
  | .slash => some .divide
  | .star => some .multiply
  | .equalEqual => some .equal
  | .bangEqual => some .notEqual
  | .greater => some .greater
  | .greaterEqual => some .greaterEqual
  | .less => some .less
  | .lessEqual => some .lessEqual
  | _ => none

def binary (left : Expr) : SyntaxM Expr := do
  let op ← previous
  let right ← r.parsePrecedence (getRule op.tokenType).precedence.succ
  match binaryOp op.tokenType with
  | some op => return .binary op left right
  | none => fail

def and_ (left : Expr) : SyntaxM Expr := do
  let right ← r.parsePrecedence .and
  return .and left right

def or_ (left : Expr) : SyntaxM Expr := do
  let right ← r.parsePrecedence .or
  return .or left right

def ternary (left : Expr) : SyntaxM Expr := do
  let thenBranch ← r.parsePrecedence .conditional
  consume .colon
  let elseBranch ← r.parsePrecedence .assignment
  return .conditional left thenBranch elseBranch

def literal : SyntaxM Expr := do
  let token ← previous
  match token.tokenType with
  | .false => return .boolean false
  | .true => return .boolean true
  | .nil => return .nil
  | _ => fail

def string : SyntaxM Expr := do
  let token ← previous
  return .string ((token.lexeme.drop 1).take (token.lexeme.length - 2))

def «variable» (canAssign : Bool) : SyntaxM Expr := do
  let token ← previous
  if ← matchIf canAssign .equal then
    let value ← expression r
    return .assign token.lexeme value
  else return .variable token.lexeme

def super_ : SyntaxM Expr := do
  consume .dot
  let method ← name
  if ← matchToken .leftParen then
    let args ← argumentList r
    return .superInvoke method args
  else return .super method

def call (left : Expr) : SyntaxM Expr := do
  let args ← argumentList r
  return .call left args

/-- One or more elements of a list. -/
def listLoop : SyntaxM Exprs := do
  let e ← expression r
  if ← matchToken .comma then
    if ← check .rightBracket then return .cons e .nil
    else
      let es ← r.listLoop
      return .cons e es
  else return .cons e .nil

def list : SyntaxM Expr := do
  if ← check .rightBracket then
    consume .rightBracket
    return .list .nil
  else
    let elements ← r.listLoop
    consume .rightBracket
    return .list elements

/-- One or more entries of a map. -/
def mapLoop : SyntaxM Entries := do
  let key ← expression r
  consume .colon
  let value ← expression r
  if ← matchToken .comma then
    if ← check .rightBrace then return .cons key value .nil
    else
      let rest ← r.mapLoop
      return .cons key value rest
  else return .cons key value .nil

def map : SyntaxM Expr := do
  if ← check .rightBrace then
    consume .rightBrace
    return .map .nil
  else
    let entries ← r.mapLoop
    consume .rightBrace
    return .map entries

def index (left : Expr) (canAssign : Bool) : SyntaxM Expr := do
  let key ← expression r
  consume .rightBracket
  if ← matchIf canAssign .equal then
    let value ← expression r
    return .setIndex left key value
  else return .index left key

/-- The functions in prefix position. -/
def prefixFunction (canAssign : Bool) : ParseFunction → SyntaxM Expr
  | .grouping => grouping r
  | .map => map r
  | .unary => unary r
  | .variable => «variable» r canAssign
  | .string => string
  | .number => number parseReal
  | .literal => literal
  | .super_ => super_ r
  | .this_ => «variable» r false
  | .list => list r
  | _ => fail

/-- The functions in infix position, with the tree to their left. -/
def infixFunction (left : Expr) (canAssign : Bool) : ParseFunction → SyntaxM Expr
  | .call => call r left
  | .safeDot => safeDot left canAssign
  | .dot => dot r left canAssign
  | .binary => binary r left
  | .and_ => and_ r left
  | .or_ => or_ r left
  | .ternary => ternary r left
  | .index => index r left canAssign
  | _ => fail

def infixLoop (precedence : ParsePrecedence) (canAssign : Bool) (left : Expr) : SyntaxM Expr := do
  let token ← peek
  if precedence.toNat ≤ (getRule token.tokenType).precedence.toNat then
    advance
    let operator ← previous
    match (getRule operator.tokenType).infixRule with
    | none => fail
    | some infix_ =>
      let e ← infixFunction r left canAssign infix_
      r.infixLoop precedence canAssign e
  else return left

def parsePrecedence (precedence : ParsePrecedence) : SyntaxM Expr := do
  advance
  let token ← previous
  match (getRule token.tokenType).prefixRule with
  | none => fail
  | some prefix_ =>
    let canAssign := decide (precedence.toNat ≤ ParsePrecedence.assignment.toNat)
    let left ← prefixFunction parseReal r canAssign prefix_
    let e ← r.infixLoop precedence canAssign left
    let invalid ← matchIf canAssign .equal
    if invalid then fail else return e

/-! ### Declarations and statements -/

def expressionStatement : SyntaxM Stmt := do
  if ← check .semicolon then
    advance
    return .empty
  else
    let e ← expression r
    consume .semicolon
    return .expression e

def varInitializer : SyntaxM (Option Expr) := do
  if ← matchToken .equal then
    let e ← expression r
    return some e
  else return none

def varDeclaration : SyntaxM Stmt := do
  let x ← name
  let initializer ← varInitializer r
  consume .semicolon
  return .var x initializer

def constDeclaration : SyntaxM Stmt := do
  let x ← name
  consume .equal
  let initializer ← expression r
  consume .semicolon
  return .const x initializer

def block : SyntaxM Stmts := do
  let body ← r.blockLoop
  consume .rightBrace
  return body

def blockLoop : SyntaxM Stmts := do
  if ← check .rightBrace then return .nil
  else if ← check .endOfFile then return .nil
  else
    let s ← r.declaration
    let ss ← r.blockLoop
    return .cons s ss

def parameters : SyntaxM (List Bytes) := do
  if ← check .rightParen then return [] else r.parameterLoop

/-- One or more parameters. -/
def parameterLoop : SyntaxM (List Bytes) := do
  let x ← name
  if ← matchToken .comma then
    let xs ← r.parameterLoop
    return x :: xs
  else return [x]

/-- The parameters and the body of a function. -/
def functionRest : SyntaxM (List Bytes × Stmts) := do
  consume .leftParen
  let params ← parameters r
  consume .rightParen
  consume .leftBrace
  let body ← block r
  return (params, body)

def funDeclaration : SyntaxM Stmt := do
  let x ← name
  let (params, body) ← functionRest r
  return .function x params body

def methodLoop : SyntaxM Methods := do
  if ← check .rightBrace then return .nil
  else if ← check .endOfFile then return .nil
  else
    let _ ← matchToken .fun
    let x ← name
    let (params, body) ← functionRest r
    let rest ← r.methodLoop
    return .cons x params body rest

def superClause : SyntaxM (Option Bytes) := do
  if ← matchToken .colon then
    let x ← name
    return some x
  else return none

def classDeclaration : SyntaxM Stmt := do
  let x ← name
  let superclass ← superClause
  consume .leftBrace
  let methods ← r.methodLoop
  consume .rightBrace
  return .class x superclass methods

def declaration : SyntaxM Stmt := do
  if ← matchToken .var then varDeclaration r
  else if ← matchToken .const then constDeclaration r
  else if ← matchToken .fun then funDeclaration r
  else if ← matchToken .class then classDeclaration r
  else r.statement

def printStatement : SyntaxM Stmt := do
  let e ← expression r
  consume .semicolon
  return .print e

/-- A condition in parentheses. -/
def condition : SyntaxM Expr := do
  consume .leftParen
  let e ← expression r
  consume .rightParen
  return e

def ifStatement : SyntaxM Stmt := do
  let e ← condition r
  let thenBranch ← r.statement
  if ← matchToken .else then
    let elseBranch ← r.statement
    return .ifElse e thenBranch elseBranch
  else return .if e thenBranch

def whileStatement : SyntaxM Stmt := do
  let e ← condition r
  let body ← r.statement
  return .while e body

def forInitializer : SyntaxM Stmt := do
  if ← matchToken .semicolon then return .empty
  else if ← matchToken .var then varDeclaration r
  else if ← matchToken .const then constDeclaration r
  else expressionStatement r

def forCondition : SyntaxM (Option Expr) := do
  if ← matchToken .semicolon then return none
  else
    let e ← expression r
    consume .semicolon
    return some e

def forIncrement : SyntaxM (Option Expr) := do
  if ← matchToken .rightParen then return none
  else
    let e ← expression r
    consume .rightParen
    return some e

def forStatement : SyntaxM Stmt := do
  consume .leftParen
  let initializer ← forInitializer r
  let condition ← forCondition r
  let increment ← forIncrement r
  let body ← r.statement
  return .for initializer condition increment body

def armLoop : SyntaxM Stmts := do
  let token ← peek
  if token.tokenType = .rightBrace ∨ token.tokenType = .case ∨ token.tokenType = .default ∨
      token.tokenType = .endOfFile then return .nil
  else
    let s ← r.declaration
    let ss ← r.armLoop
    return .cons s ss

def caseLoop : SyntaxM Cases := do
  if ← check .rightBrace then return .nil
  else if ← check .endOfFile then return .nil
  else if ← matchToken .case then
    let label ← expression r
    consume .colon
    let body ← r.armLoop
    let rest ← r.caseLoop
    return .case label body rest
  else if ← matchToken .default then
    consume .colon
    let body ← r.armLoop
    return .default body
  else fail

def switchStatement : SyntaxM Stmt := do
  let value ← expression r
  consume .leftBrace
  let cases ← r.caseLoop
  consume .rightBrace
  return .switch value cases

def continueStatement : SyntaxM Stmt := do
  consume .semicolon
  return .continue

def returnStatement : SyntaxM Stmt := do
  if ← matchToken .semicolon then return .return none
  else
    let e ← expression r
    consume .semicolon
    return .return (some e)

def blockStatement : SyntaxM Stmt := do
  let body ← block r
  return .block body

def statement : SyntaxM Stmt := do
  if ← matchToken .print then printStatement r
  else if ← matchToken .if then ifStatement r
  else if ← matchToken .while then whileStatement r
  else if ← matchToken .for then forStatement r
  else if ← matchToken .switch then switchStatement r
  else if ← matchToken .leftBrace then blockStatement r
  else if ← matchToken .continue then continueStatement
  else if ← matchToken .return then returnStatement r
  else expressionStatement r

def programLoop : SyntaxM Stmts := do
  if ← matchToken .endOfFile then return .nil
  else
    let s ← r.declaration
    let ss ← r.programLoop
    return .cons s ss

/-! ### The whole source -/

/-- One unfolding of the recursive parsers. -/
def unfoldRoutines : SyntaxRoutines where
  parsePrecedence := parsePrecedence parseReal r
  infixLoop := infixLoop r
  declaration := declaration r
  statement := statement r
  argumentLoop := argumentLoop r
  listLoop := listLoop r
  mapLoop := mapLoop r
  blockLoop := blockLoop r
  parameterLoop := parameterLoop r
  methodLoop := methodLoop r
  caseLoop := caseLoop r
  armLoop := armLoop r
  programLoop := programLoop r

/-- The parsers without fuel. -/
def noRoutines : SyntaxRoutines :=
  ⟨fun _ => fail, fun _ _ _ => fail, fail, fail, fail, fail, fail, fail, fail, fail, fail, fail,
    fail⟩

/-- The recursive parsers with fuel. -/
def routines : Nat → SyntaxRoutines
  | 0 => noRoutines
  | fuel + 1 => unfoldRoutines parseReal (routines fuel)

/-- The tree of a source. -/
def parse (fuel : Nat) (source : Bytes) : Option Stmts :=
  let tokens := Lexer.tokens source
  let first := tokens.headD {}
  if isReported first then none
  else ((routines parseReal fuel).programLoop ⟨first, first, tokens.tail⟩).map Prod.fst

end Syntax

end CppLox
