import CppLox.Compiler.Statements
import CppLox.Syntax.Parse

/-!
# Compiler — the code of a tree

The instructions the compiler emits for each form of the abstract syntax, as a relation.  The
relation speaks of a function at the end of its compilation: `Env` holds its final constant pool,
upvalues and global names, and a slot knows whether it is captured in the end.  The forward jumps
are patched: their operands are the sizes of the code they skip.

Unary `-` works on bytes and not on instructions: a last byte equal to `ONE` becomes `MINUS_ONE`,
whatever instruction it belongs to.
-/

namespace CppLox

/-- What the code of a function depends on of one of its locals. -/
structure Slot where
  name : Bytes
  captured : Bool
  deriving Repr, DecidableEq

/-- A function around the one being compiled. -/
structure EnclosingFunction where
  slots : List Slot
  upvalues : List Upvalue

/-- A function at the end of its compilation. -/
structure Env where
  type : FunctionType
  constants : List (Constant ObjectFunction)
  upvalues : List Upvalue
  enclosing : List EnclosingFunction
  globals : List Bytes

/-- The loop `continue` belongs to: where it jumps to and how many slots it keeps. -/
structure Loop where
  start : Nat
  slots : Nat

/-- A place in the code of a function: the loop around it, the depth of its scope and the offset. -/
structure Place where
  env : Env
  loop : Option Loop
  depth : Nat
  pos : Nat

namespace Place

/-- The place after `n` bytes. -/
def after (P : Place) (n : Nat) : Place := { P with pos := P.pos + n }

/-- The same place in a nested scope. -/
def nested (P : Place) : Place := { P with depth := P.depth + 1 }

/-- The body of a loop. -/
def inLoop (P : Place) (start slots : Nat) : Place := { P with loop := some ⟨start, slots⟩ }

end Place

/-- Where a variable lives. -/
inductive Ref where
  | local (slot : Nat)
  | upvalue (index : Nat)
  | global (index : Nat)
  deriving Repr, DecidableEq

namespace Ref

def load : Ref → Instr
  | .local i => .short .loadLocal i
  | .upvalue j => .short .loadUpvalue j
  | .global g => .short .loadGlobal g

def store : Ref → Instr
  | .local i => .short .storeLocal i
  | .upvalue j => .short .storeUpvalue j
  | .global g => .short .storeGlobal g

end Ref

/-! ### Names -/

/-- The last slot of a name. -/
def findSlot (slots : List Slot) (name : Bytes) : Option Nat :=
  (slots.reverse.findIdx? fun l => l.name == name).map fun i => slots.length - 1 - i

/-- Upvalue `j` of a function with the upvalues `U` is the variable `name` of one of the functions
around it, through upvalues of the functions in between. -/
def Captures (name : Bytes) : List EnclosingFunction → List Upvalue → Nat → Prop
  | [], _, _ => False
  | F :: outer, U, j =>
    match findSlot F.slots name with
    | some i => U[j]? = some ⟨i, true⟩ ∧ (F.slots[i]?.map Slot.captured) = some true
    | none => ∃ j', Captures name outer F.upvalues j' ∧ U[j]? = some ⟨j', false⟩

/-- The innermost variable of a name.  The limits on locals and upvalues keep their indices within
16 bits; a global has none. -/
def Resolves (E : Env) (Γ : List Slot) (name : Bytes) : Ref → Prop
  | .local i => findSlot Γ name = some i ∧ i ≤ 0xFFFF
  | .upvalue j => findSlot Γ name = none ∧ Captures name E.enclosing E.upvalues j ∧ j ≤ 0xFFFF
  | .global g => findSlot Γ name = none ∧ (∀ F ∈ E.enclosing, findSlot F.slots name = none) ∧
      E.globals[g]? = some name

/-! ### Expressions -/

/-- `Chunk::write_load_constant`. -/
def loadConstant (k : Nat) : Instr :=
  if k ≤ 0xFF then .byte .loadConstant k else .short .loadConstantLong k

/-- A jump over `n` bytes fits its operand. -/
def JumpFits (n : Nat) : Prop := n ≤ 0xFFFF

/-- What follows the element that makes `n` of a list or a map. -/
def elementCode (buildOp appendOp : OpCode) (threshold n : Nat) : List Instr :=
  (if threshold < n then [.op appendOp] else []) ++
    if n = threshold then [.byte buildOp n] else []

/-- What follows the last element of `n`. -/
def buildCode (buildOp : OpCode) (threshold n : Nat) : List Instr :=
  if n < threshold then [.byte buildOp n] else []

mutual

/-- The code of an expression. -/
def ExprCode (E : Env) (Γ : List Slot) : Expr → List Instr → Prop
  | .nil, is => is = [.op .nil]
  | .boolean b, is => is = [.op (if b then .true else .false)]
  | .integer v, is =>
    if v = 0 then is = [.op .zero]
    else if v = 1 then is = [.op .one]
    else ∃ k, k ≤ 0xFFFF ∧ E.constants[k]? = some (.integer v) ∧ is = [loadConstant k]
  | .real v, is => ∃ k, k ≤ 0xFFFF ∧ E.constants[k]? = some (.real v) ∧ is = [loadConstant k]
  | .string v, is => ∃ k, k ≤ 0xFFFF ∧ E.constants[k]? = some (.string v) ∧ is = [loadConstant k]
  | .variable x, is => ∃ ref, Resolves E Γ x ref ∧ is = [ref.load]
  | .assign x e, is => ∃ ref ie, Resolves E Γ x ref ∧ ExprCode E Γ e ie ∧ is = ie ++ [ref.store]
  | .not e, is => ∃ ie, ExprCode E Γ e ie ∧ is = ie ++ [.op .not]
  | .negate e, is => ∃ ie, ExprCode E Γ e ie ∧
      if (encodeAll ie).getLast? = some OpCode.one.toByte then
        encodeAll is = (encodeAll ie).dropLast ++ [OpCode.minusOne.toByte]
      else is = ie ++ [.op .negate]
  | .binary op l r, is => ∃ il ir, ExprCode E Γ l il ∧ ExprCode E Γ r ir ∧
      is = il ++ ir ++ op.opcodes.map .op
  | .and l r, is => ∃ il ir, ExprCode E Γ l il ∧ ExprCode E Γ r ir ∧ JumpFits (1 + codeSize ir) ∧
      is = il ++ [.short .jumpIfFalse (1 + codeSize ir), .op .popTop] ++ ir
  | .or l r, is => ∃ il ir, ExprCode E Γ l il ∧ ExprCode E Γ r ir ∧ JumpFits (1 + codeSize ir) ∧
      is = il ++ [.short .jumpIfTrue (1 + codeSize ir), .op .popTop] ++ ir
  | .conditional c t e, is => ∃ ic it ie, ExprCode E Γ c ic ∧ ExprCode E Γ t it ∧
      ExprCode E Γ e ie ∧ is = ic ++ it ++ ie
  | .call callee args, is => ∃ ic ia, ExprCode E Γ callee ic ∧ ExprsCode E Γ args ia ∧
      args.length ≤ 255 ∧ is = ic ++ ia ++ [.byte .call args.length]
  | .invoke object x args, is => ∃ io ia k, ExprCode E Γ object io ∧ ExprsCode E Γ args ia ∧
      args.length ≤ 255 ∧ k ≤ 0xFFFF ∧ E.constants[k]? = some (.string x) ∧
      is = io ++ ia ++ [.shortByte .invoke k args.length]
  | .property object x, is => ∃ io k, ExprCode E Γ object io ∧ k ≤ 0xFFFF ∧
      E.constants[k]? = some (.string x) ∧ is = io ++ [.short .loadProperty k]
  | .propertySafe object x, is => ∃ io k, ExprCode E Γ object io ∧ k ≤ 0xFFFF ∧
      E.constants[k]? = some (.string x) ∧ is = io ++ [.short .loadPropertySafe k]
  | .setProperty object x e, is => ∃ io ie k, ExprCode E Γ object io ∧ ExprCode E Γ e ie ∧
      k ≤ 0xFFFF ∧ E.constants[k]? = some (.string x) ∧ is = io ++ ie ++ [.short .storeProperty k]
  | .index object key, is => ∃ io ik, ExprCode E Γ object io ∧ ExprCode E Γ key ik ∧
      is = io ++ ik ++ [.op .loadIndex]
  | .setIndex object key e, is => ∃ io ik ie, ExprCode E Γ object io ∧ ExprCode E Γ key ik ∧
      ExprCode E Γ e ie ∧ is = io ++ ik ++ ie ++ [.op .storeIndex]
  | .list es, is => ElementsCode E Γ es 0 is
  | .map es, is => EntriesCode E Γ es 0 is
  | .super x, is => ∃ this super k, Resolves E Γ thisName this ∧ Resolves E Γ superName super ∧
      k ≤ 0xFFFF ∧ E.constants[k]? = some (.string x) ∧
      is = [this.load, super.load, .short .loadSuper k]
  | .superInvoke x args, is => ∃ this super ia k, Resolves E Γ thisName this ∧
      Resolves E Γ superName super ∧ ExprsCode E Γ args ia ∧ args.length ≤ 255 ∧ k ≤ 0xFFFF ∧
      E.constants[k]? = some (.string x) ∧
      is = [this.load] ++ ia ++ [super.load, .shortByte .superInvoke k args.length]

/-- The code of arguments. -/
def ExprsCode (E : Env) (Γ : List Slot) : Exprs → List Instr → Prop
  | .nil, is => is = []
  | .cons e es, is => ∃ ie ies, ExprCode E Γ e ie ∧ ExprsCode E Γ es ies ∧ is = ie ++ ies

/-- The code of the elements of a list after the first `n`. -/
def ElementsCode (E : Env) (Γ : List Slot) : Exprs → Nat → List Instr → Prop
  | .nil, n, is => is = buildCode .list listBuildAppendThreshold n
  | .cons e es, n, is => ∃ ie ies, ExprCode E Γ e ie ∧ ElementsCode E Γ es (n + 1) ies ∧
      is = ie ++ elementCode .list .listAppend listBuildAppendThreshold (n + 1) ++ ies

/-- The code of the entries of a map after the first `n`. -/
def EntriesCode (E : Env) (Γ : List Slot) : Entries → Nat → List Instr → Prop
  | .nil, n, is => is = buildCode .map mapBuildAddThreshold n
  | .cons key value es, n, is => ∃ ik iv ies, ExprCode E Γ key ik ∧ ExprCode E Γ value iv ∧
      EntriesCode E Γ es (n + 1) ies ∧
      is = ik ++ iv ++ elementCode .map .mapAdd mapBuildAddThreshold (n + 1) ++ ies

end

/-! ### Statements -/

/-- The code that ends the scope of some slots. -/
def scopeEnd (slots : List Slot) : List Instr :=
  slots.reverse.map fun l => .op (if l.captured then .closeUpvalue else .popTop)

/-- `Compiler::emit_return`. -/
def returnCode (type : FunctionType) : List Instr :=
  [if type = .initializer then .short .loadLocal 0 else .op .nil, .op .return]

/-- The name of slot 0. -/
def slotZeroName (type : FunctionType) : Bytes :=
  if type = .method ∨ type = .initializer then thisName else []

/-- The declaration of a variable: in the global scope a global, elsewhere a slot. -/
def DefineCode (P : Place) (Γ : List Slot) (x : Bytes) (is : List Instr) (Γ' : List Slot) : Prop :=
  if P.depth = 0 then
    ∃ g, P.env.globals[g]? = some x ∧ g ≤ 0xFFFF ∧ is = [.short .defineGlobal g] ∧ Γ' = Γ
  else ∃ captured, is = [] ∧ Γ' = Γ ++ [⟨x, captured⟩]

/-- The upvalues of a nested function: captured slots and upvalues of the function around it. -/
def UpvaluesFit (Γ : List Slot) (outer U : List Upvalue) : Prop :=
  U.length ≤ 0x10000 ∧ ∀ u ∈ U, u.index ≤ 0xFFFF ∧
    if u.isLocal then (Γ[u.index]?.map Slot.captured) = some true else u.index < outer.length

/-- The code of a `for` between its initializer and its body, given the size of the body with its
jump back, and the offset in that code the body jumps back to. -/
def ForHead (E : Env) (Γ : List Slot) (condition increment : Option Expr) (bodySize : Nat)
    (head : List Instr) (start : Nat) : Prop :=
  ∃ ic ii, (match condition with
    | none => ic = []
    | some c => ∃ is, ExprCode E Γ c is ∧ JumpFits (codeSize ii + bodySize) ∧
        ic = is ++ [.short .popJumpIfFalse (codeSize ii + bodySize)]) ∧
  (match increment with
    | none => ii = [] ∧ start = 0
    | some e => ∃ is, ExprCode E Γ e is ∧ JumpFits (codeSize is + 4) ∧
        JumpFits (codeSize ic + 3 + codeSize is + 4) ∧
        ii = [.short .jumpForward (codeSize is + 4)] ++ is ++
          [.op .popTop, .short .jumpBackward (codeSize ic + 3 + codeSize is + 4)] ∧
        start = codeSize ic + 3) ∧
  head = ic ++ ii

/-- The function a nested declaration is compiled to, with the variables it captures; `bodyCode` is
the relation of its body. -/
def FunctionCode (bodyCode : Place → List Slot → List Instr → List Slot → Prop) (E : Env)
    (Γ : List Slot) (type : FunctionType) (x : Bytes) (params : List Bytes) (f : ObjectFunction)
    (U : List Upvalue) : Prop :=
  f.arity = params.length ∧ f.name = x ∧ f.upvalueCount = U.length ∧ UpvaluesFit Γ E.upvalues U ∧
    ∃ zero slots is Γ', zero.name = slotZeroName type ∧ slots.map Slot.name = params ∧
      bodyCode ⟨⟨type, f.constants, U, ⟨Γ, E.upvalues⟩ :: E.enclosing, E.globals⟩, none, 1, 0⟩
        (zero :: slots) is Γ' ∧
      f.code = encodeAll (is ++ returnCode type)

/-- The type of a method. -/
def methodType (x : Bytes) : FunctionType := if x = initName then .initializer else .method

mutual

/-- The code of a statement at a place, with the slots `Γ` before and `Γ'` after it. -/
def StmtCode : Stmt → Place → List Slot → List Instr → List Slot → Prop
  | .empty, _, Γ, is, Γ' => is = [] ∧ Γ' = Γ
  | .expression e, P, Γ, is, Γ' => ∃ ie, ExprCode P.env Γ e ie ∧ is = ie ++ [.op .popTop] ∧ Γ' = Γ
  | .print e, P, Γ, is, Γ' => ∃ ie, ExprCode P.env Γ e ie ∧ is = ie ++ [.op .print] ∧ Γ' = Γ
  | .var x none, P, Γ, is, Γ' =>
    ∃ id, DefineCode P Γ x id Γ' ∧ is = [.op .uninitialized] ++ id
  -- the slot is declared before the initializer is compiled, but the initializer cannot use it
  | .var x (some e), P, Γ, is, Γ' => ∃ ie id, DefineCode P Γ x id Γ' ∧
      ExprCode P.env Γ e ie ∧ is = ie ++ id
  | .const x e, P, Γ, is, Γ' => ∃ ie id, DefineCode P Γ x id Γ' ∧
      ExprCode P.env Γ e ie ∧ is = ie ++ id
  | .function x params body, P, Γ, is, Γ' => ∃ id k f U, DefineCode P Γ x id Γ' ∧
      k ≤ 0xFFFF ∧ P.env.constants[k]? = some (.function f) ∧
      FunctionCode (StmtsCode body) P.env Γ' .function x params f U ∧ is = [.closure k U] ++ id
  | .class x none methods, P, Γ, is, Γ' => ∃ id k ref im, DefineCode P Γ x id Γ' ∧
      k ≤ 0xFFFF ∧ P.env.constants[k]? = some (.string x) ∧ Resolves P.env Γ' x ref ∧
      MethodsCode methods P.env Γ' im ∧
      is = [.short .class k] ++ id ++ [ref.load] ++ im ++ [.op .popTop]
  | .class x (some y) methods, P, Γ, is, Γ' => ∃ id k ref ref' superRef captured im,
      DefineCode P Γ x id Γ' ∧ k ≤ 0xFFFF ∧ P.env.constants[k]? = some (.string x) ∧
      Resolves P.env Γ' y superRef ∧ Resolves P.env (Γ' ++ [⟨superName, captured⟩]) x ref ∧
      Resolves P.env (Γ' ++ [⟨superName, captured⟩]) x ref' ∧
      MethodsCode methods P.env (Γ' ++ [⟨superName, captured⟩]) im ∧
      is = [.short .class k] ++ id ++ [superRef.load, ref.load, .op .inherit, ref'.load] ++ im ++
        [.op .popTop] ++ scopeEnd [⟨superName, captured⟩]
  | .block body, P, Γ, is, Γ' => ∃ ib Γb, StmtsCode body P.nested Γ ib Γb ∧
      is = ib ++ scopeEnd (Γb.drop Γ.length) ∧ Γ' = Γ
  | .if c t, P, Γ, is, Γ' => ∃ ic it, ExprCode P.env Γ c ic ∧
      StmtCode t (P.after (codeSize ic + 3)) Γ it Γ ∧ JumpFits (codeSize it) ∧
      is = ic ++ [.short .popJumpIfFalse (codeSize it)] ++ it ∧ Γ' = Γ
  | .ifElse c t e, P, Γ, is, Γ' => ∃ ic it ie, ExprCode P.env Γ c ic ∧
      StmtCode t (P.after (codeSize ic + 3)) Γ it Γ ∧
      StmtCode e (P.after (codeSize ic + 3 + codeSize it + 3)) Γ ie Γ ∧
      JumpFits (codeSize it + 3) ∧ JumpFits (codeSize ie) ∧
      is = ic ++ [.short .popJumpIfFalse (codeSize it + 3)] ++ it ++
        [.short .jumpForward (codeSize ie)] ++ ie ∧ Γ' = Γ
  | .while c b, P, Γ, is, Γ' => ∃ ic ib, ExprCode P.env Γ c ic ∧
      StmtCode b ((P.nested.inLoop P.pos Γ.length).after (codeSize ic + 3)) Γ ib Γ ∧
      JumpFits (codeSize ib + 3) ∧ JumpFits (codeSize ic + 3 + codeSize ib + 3) ∧
      is = ic ++ [.short .popJumpIfFalse (codeSize ib + 3)] ++ ib ++
        [.short .jumpBackward (codeSize ic + 3 + codeSize ib + 3)] ∧ Γ' = Γ
  | .for init c i b, P, Γ, is, Γ' => ∃ ii Γi head start ib,
      StmtCode init P.nested Γ ii Γi ∧
      ForHead P.env Γi c i (codeSize ib + 3) head start ∧
      StmtCode b ((P.nested.inLoop (P.pos + codeSize ii + start) Γi.length).after
        (codeSize ii + codeSize head)) Γi ib Γi ∧
      JumpFits (codeSize head + codeSize ib + 3 - start) ∧
      is = ii ++ head ++ ib ++ [.short .jumpBackward (codeSize head + codeSize ib + 3 - start)] ++
        scopeEnd (Γi.drop Γ.length) ∧ Γ' = Γ
  | .switch e cases, P, Γ, is, Γ' => ∃ ie ic, ExprCode P.env Γ e ie ∧
      CasesCode cases (P.after (codeSize ie)) Γ ic ∧ is = ie ++ ic ∧ Γ' = Γ
  | .continue, P, Γ, is, Γ' => ∃ loop, P.loop = some loop ∧ loop.slots ≤ Γ.length ∧
      loop.start ≤ P.pos ∧ JumpFits (P.pos + (Γ.length - loop.slots) + 3 - loop.start) ∧
      is = List.replicate (Γ.length - loop.slots) (.op .popTop) ++
        [.short .jumpBackward (P.pos + (Γ.length - loop.slots) + 3 - loop.start)] ∧ Γ' = Γ
  | .return none, P, Γ, is, Γ' => is = returnCode P.env.type ∧ Γ' = Γ
  | .return (some e), P, Γ, is, Γ' => ∃ ie, ExprCode P.env Γ e ie ∧ is = ie ++ [.op .return] ∧ Γ' = Γ

/-- The code of declarations one after the other. -/
def StmtsCode : Stmts → Place → List Slot → List Instr → List Slot → Prop
  | .nil, _, Γ, is, Γ' => is = [] ∧ Γ' = Γ
  | .cons s ss, P, Γ, is, Γ' => ∃ i Γ₁ is', StmtCode s P Γ i Γ₁ ∧
      StmtsCode ss (P.after (codeSize i)) Γ₁ is' Γ' ∧ is = i ++ is'

/-- The code of the arms of a `switch`, with the switch value on top of the slots `Γ`.  Each arm
takes it as a slot of its own. -/
def CasesCode : Cases → Place → List Slot → List Instr → Prop
  | .nil, _, _, is => is = [.op .popTop]
  | .default body, P, Γ, is => ∃ ib Γb captured,
      StmtsCode body P.nested (Γ ++ [⟨switchVariableName, captured⟩]) ib Γb ∧
      is = ib ++ scopeEnd (Γb.drop Γ.length) ++ [.short .jumpForward 0]
  | .case label body rest, P, Γ, is => ∃ il ib Γb captured ir,
      ExprCode P.env (Γ ++ [⟨switchVariableName, captured⟩]) label il ∧
      StmtsCode body (P.nested.after (codeSize il + 5)) (Γ ++ [⟨switchVariableName, captured⟩])
        ib Γb ∧
      CasesCode rest
        (P.after (codeSize il + 5 + codeSize (ib ++ scopeEnd (Γb.drop Γ.length)) + 3)) Γ ir ∧
      JumpFits (codeSize (ib ++ scopeEnd (Γb.drop Γ.length)) + 3) ∧ JumpFits (codeSize ir) ∧
      is = [.op .dupTop] ++ il ++ [.op .equal,
          .short .popJumpIfFalse (codeSize (ib ++ scopeEnd (Γb.drop Γ.length)) + 3)] ++
        (ib ++ scopeEnd (Γb.drop Γ.length)) ++ [.short .jumpForward (codeSize ir)] ++ ir

/-- The code of the methods of a class, with the class on top of the stack. -/
def MethodsCode : Methods → Env → List Slot → List Instr → Prop
  | .nil, _, _, is => is = []
  | .cons x params body rest, E, Γ, is => ∃ k kx f U ir, k ≤ 0xFFFF ∧ kx ≤ 0xFFFF ∧
      E.constants[k]? = some (.function f) ∧ E.constants[kx]? = some (.string x) ∧
      FunctionCode (StmtsCode body) E Γ (methodType x) x params f U ∧
      MethodsCode rest E Γ ir ∧ is = [.closure k U, .short .method kx] ++ ir

end

/-- The function a script is compiled to. -/
def ProgramCode (globals : List Bytes) (program : Stmts) (f : ObjectFunction) : Prop :=
  f.arity = 0 ∧ f.name = [] ∧ f.upvalueCount = 0 ∧ ∃ zero is Γ', zero.name = slotZeroName .script ∧
    StmtsCode program ⟨⟨.script, f.constants, [], [], globals⟩, none, 0, 0⟩ [zero] is Γ' ∧
    f.code = encodeAll (is ++ returnCode .script)

end CppLox
