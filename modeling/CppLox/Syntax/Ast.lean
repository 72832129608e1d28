import CppLox.Bytecode.OpCode

/-!
# Syntax — abstract syntax

The programs of the language as trees.  The compiler builds no tree; the tree of a source is what
`Syntax.parse` reads off its tokens.
-/

namespace CppLox

/-- The binary operators that evaluate both operands. -/
inductive BinaryOp where
  | add | subtract | multiply | divide
  | equal | notEqual | greater | greaterEqual | less | lessEqual
  deriving Repr, DecidableEq

/-- The opcodes of a binary operator. -/
def BinaryOp.opcodes : BinaryOp → List OpCode
  | .add => [.add]
  | .subtract => [.subtract]
  | .multiply => [.multiply]
  | .divide => [.divide]
  | .equal => [.equal]
  | .notEqual => [.equal, .not]
  | .greater => [.greater]
  | .greaterEqual => [.less, .not]
  | .less => [.less]
  | .lessEqual => [.greater, .not]

mutual

/-- Expressions.  `this` is the variable of that name. -/
inductive Expr where
  | nil
  | boolean (b : Bool)
  | integer (i : Int64)
  | real (bits : UInt64)
  | string (s : Bytes)
  | «variable» (name : Bytes)
  | assign (name : Bytes) (value : Expr)
  | not (e : Expr)
  | negate (e : Expr)
  | binary (op : BinaryOp) (left right : Expr)
  | and (left right : Expr)
  | or (left right : Expr)
  | conditional (condition thenBranch elseBranch : Expr)
  | call (callee : Expr) (args : Exprs)
  | invoke (object : Expr) (name : Bytes) (args : Exprs)
  | property (object : Expr) (name : Bytes)
  | propertySafe (object : Expr) (name : Bytes)
  | setProperty (object : Expr) (name : Bytes) (value : Expr)
  | index (object key : Expr)
  | setIndex (object key value : Expr)
  | list (elements : Exprs)
  | map (entries : Entries)
  | super (name : Bytes)
  | superInvoke (name : Bytes) (args : Exprs)

/-- Lists of expressions. -/
inductive Exprs where
  | nil
  | cons (e : Expr) (es : Exprs)

/-- The entries of a map literal. -/
inductive Entries where
  | nil
  | cons (key value : Expr) (rest : Entries)

end

mutual

/-- Statements and declarations. -/
inductive Stmt where
  | empty
  | expression (e : Expr)
  | print (e : Expr)
  | var (name : Bytes) (initializer : Option Expr)
  | const (name : Bytes) (initializer : Expr)
  | function (name : Bytes) (params : List Bytes) (body : Stmts)
  | «class» (name : Bytes) (superclass : Option Bytes) (methods : Methods)
  | block (body : Stmts)
  | «if» (condition : Expr) (thenBranch : Stmt)
  | ifElse (condition : Expr) (thenBranch elseBranch : Stmt)
  | while (condition : Expr) (body : Stmt)
  | «for» (initializer : Stmt) (condition increment : Option Expr) (body : Stmt)
  | switch (value : Expr) (cases : Cases)
  | «continue»
  | «return» (value : Option Expr)

/-- Lists of declarations. -/
inductive Stmts where
  | nil
  | cons (s : Stmt) (ss : Stmts)

/-- The arms of a `switch`; a `default` is the last one. -/
inductive Cases where
  | nil
  | default (body : Stmts)
  | case (label : Expr) (body : Stmts) (rest : Cases)

/-- The methods of a class. -/
inductive Methods where
  | nil
  | cons (name : Bytes) (params : List Bytes) (body : Stmts) (rest : Methods)

end

def Exprs.length : Exprs → Nat
  | .nil => 0
  | .cons _ es => es.length + 1

end CppLox
