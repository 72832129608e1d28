import CppLox.Compiler.Statements

/-!
# Compiler — disciplines of the parser

Every routine changes the parser only by reporting an error, advancing and synchronizing, and fails
only by throwing or where a routine it calls fails.  A `Discipline` is a relation on parsers that
these steps keep to; `Obeys D m` says that the routine `m` keeps to it.  `Obeys` is a class, so that
it is found from the shape of a routine, given that the routines called recursively obey.
-/

namespace CppLox

open CompilerM

/-- A condition on parsers, a relation it is carried along, and the failures that are allowed. -/
structure Discipline where
  pre : Parser → Prop
  rel : Parser → Parser → Prop
  err : CompilerError → Prop
  refl : ∀ p, rel p p
  trans : ∀ {p q t}, rel p q → rel q t → rel p t
  pre_of_rel : ∀ {p q}, pre p → rel p q → pre q
  reportError : ∀ (p : Parser) message, rel p (p.reportError message)
  advance : ∀ p : Parser, rel p p.advance
  synchronize : ∀ p : Parser, rel p p.synchronize
  logicError : ∀ message, err (.logicError message)

/-- A routine keeps to a discipline. -/
class Obeys (D : Discipline) {α : Type} (m : CompilerM α) : Prop where
  rel : ∀ s a s', D.pre s.parser → m s = .ok (a, s') → D.rel s.parser s'.parser
  err : ∀ s e, D.pre s.parser → m s = .error e → D.err e

section Obeys

set_option synthInstance.maxSize 10000

variable {D : Discipline} {α β : Type}

/-- A run of two routines one after the other. -/
theorem CompilerM.bind_eq_ok {m : CompilerM α} {f : α → CompilerM β} {s s' : CompilerState} {b : β}
    (h : (m >>= f) s = .ok (b, s')) : ∃ a s₁, m s = .ok (a, s₁) ∧ f a s₁ = .ok (b, s') := by
  rw [bind_apply] at h
  split at h
  · rename_i a s₁ heq
    exact ⟨a, s₁, heq, h⟩
  · cases h

theorem CompilerM.bind_eq_error {m : CompilerM α} {f : α → CompilerM β} {s : CompilerState}
    {e : CompilerError} (h : (m >>= f) s = .error e) :
    m s = .error e ∨ ∃ a s₁, m s = .ok (a, s₁) ∧ f a s₁ = .error e := by
  rw [bind_apply] at h
  split at h
  · rename_i a s₁ heq
    exact .inr ⟨a, s₁, heq, h⟩
  · rename_i heq
    cases h
    exact .inl heq

/-- A routine that does not fail, or throws. -/
theorem obeys_cases {m : CompilerM α}
    (h : ∀ s, (∃ a s', m s = .ok (a, s') ∧ D.rel s.parser s'.parser) ∨
      ∃ message, m s = .error (.logicError message)) : Obeys D m where
  rel s a s' _ hrun := by
    obtain ⟨b, t, ht, hrel⟩ | ⟨message, hm⟩ := h s
    · rw [ht] at hrun
      cases hrun
      exact hrel
    · rw [hm] at hrun
      cases hrun
  err s e _ hrun := by
    obtain ⟨b, t, ht, -⟩ | ⟨message, hm⟩ := h s
    · rw [ht] at hrun
      cases hrun
    · rw [hm] at hrun
      cases hrun
      exact D.logicError message

theorem obeys_total {m : CompilerM α}
    (h : ∀ s, ∃ a s', m s = .ok (a, s') ∧ D.rel s.parser s'.parser) : Obeys D m :=
  obeys_cases fun s => .inl (h s)

theorem obeys_modify {f : CompilerState → CompilerState}
    (hf : ∀ s : CompilerState, D.rel s.parser (f s).parser) : Obeys D (CompilerM.modify f) :=
  obeys_total fun s => ⟨(), f s, rfl, hf s⟩

instance (a : α) : Obeys D (pure a : CompilerM α) := obeys_total fun s => ⟨a, s, rfl, D.refl _⟩

theorem Obeys.bind {m : CompilerM α} {f : α → CompilerM β} (hm : Obeys D m)
    (hf : ∀ a, Obeys D (f a)) : Obeys D (m >>= f) where
  rel s b s' hpre h := by
    obtain ⟨a, s₁, h₁, h₂⟩ := CompilerM.bind_eq_ok h
    have hrel := hm.rel s a s₁ hpre h₁
    exact D.trans hrel ((hf a).rel s₁ b s' (D.pre_of_rel hpre hrel) h₂)
  err s e hpre h := by
    rcases CompilerM.bind_eq_error h with h | ⟨a, s₁, h₁, h₂⟩
    · exact hm.err s e hpre h
    · exact (hf a).err s₁ e (D.pre_of_rel hpre (hm.rel s a s₁ hpre h₁)) h₂

instance (m : CompilerM α) (f : α → CompilerM β) [Obeys D m] [∀ a, Obeys D (f a)] :
    Obeys D (m >>= f) := Obeys.bind inferInstance inferInstance

instance (c : Prop) [Decidable c] (m n : CompilerM α) [Obeys D m] [Obeys D n] :
    Obeys D (if c then m else n) := by
  split <;> infer_instance

instance : Obeys D CompilerM.get := obeys_total fun s => ⟨s, s, rfl, D.refl _⟩

instance (f : FunctionState → FunctionState) : Obeys D (modifyCurrent f) :=
  obeys_modify fun _ => D.refl _

instance (message : String) : Obeys D (throwLogicError message : CompilerM α) :=
  obeys_cases fun _ => .inr ⟨message, rfl⟩

namespace Compiler

instance (message : String) : Obeys D (reportError message) :=
  obeys_modify fun s => D.reportError s.parser message

instance (c : Bool) (message : String) : Obeys D (reportIf c message) := by
  unfold reportIf
  infer_instance

instance : Obeys D advance := obeys_modify fun s => D.advance s.parser

instance : Obeys D previous := obeys_total fun _ => ⟨_, _, rfl, D.refl _⟩

instance : Obeys D peek := obeys_total fun _ => ⟨_, _, rfl, D.refl _⟩

instance (expected : TokenType) : Obeys D (check expected) :=
  obeys_total fun _ => ⟨_, _, rfl, D.refl _⟩

instance (expected : TokenType) : Obeys D (matchToken expected) := by
  refine obeys_total fun s => ⟨(s.parser.match expected).1,
    { s with parser := (s.parser.match expected).2 }, rfl, ?_⟩
  unfold Parser.match
  split
  · exact D.advance s.parser
  · exact D.refl _

instance (expected : TokenType) (message : String) : Obeys D (consume expected message) := by
  refine obeys_modify fun s => ?_
  unfold Parser.consume
  split
  · exact D.advance s.parser
  · exact D.reportError s.parser _

instance (f : ObjectFunction → Int32 → ObjectFunction) : Obeys D (modifyChunk f) :=
  obeys_modify fun _ => D.refl _

instance (code : OpCode) : Obeys D (emitOpcode code) := by
  unfold emitOpcode
  infer_instance

instance (byte : Nat) : Obeys D (emitByte byte) := by
  unfold emitByte
  infer_instance

instance (bytes : Nat) : Obeys D (emitUint16Le bytes) := by
  unfold emitUint16Le
  infer_instance

instance : Obeys D codeLength := obeys_total fun _ => ⟨_, _, rfl, D.refl _⟩

instance (type : FunctionType) : Obeys D (emitReturnValue type) := by
  unfold emitReturnValue
  infer_instance

instance : Obeys D emitReturn := by
  unfold emitReturn
  infer_instance

instance (code : OpCode) : Obeys D (emitJump code) := by
  unfold emitJump
  infer_instance

instance (offset : Nat) : Obeys D (patchJump offset) := by
  unfold patchJump
  infer_instance

instance (location : Int) : Obeys D (emitJumpBack location) := by
  unfold emitJumpBack
  infer_instance

instance (value : Constant ObjectFunction) : Obeys D (addConstant value) := by
  refine obeys_cases fun s => ?_
  unfold addConstant
  split
  · exact .inl ⟨_, _, rfl, D.refl _⟩
  · exact .inr ⟨_, rfl⟩

instance (index : Nat) (line : Int32) : Obeys D (writeLoadConstant index line) := by
  refine obeys_cases fun s => ?_
  unfold writeLoadConstant
  split
  · exact .inl ⟨_, _, rfl, D.refl _⟩
  · exact .inr ⟨_, rfl⟩

instance (s : Bytes) : Obeys D (internString s) := by
  unfold internString
  infer_instance

instance : Obeys D beginScope := by
  unfold beginScope
  infer_instance

instance (scopeDepth : Nat) (locals : List Local) : Obeys D (popLocals scopeDepth locals) := by
  induction locals with
  | nil => exact inferInstanceAs (Obeys D (pure ()))
  | cons l rest ih =>
      unfold popLocals
      infer_instance

instance : Obeys D endScope := by
  unfold endScope
  infer_instance

instance (name : Bytes) (isConst : Bool) : Obeys D (addLocal name isConst) := by
  unfold addLocal
  infer_instance

instance (isConstant : Bool) : Obeys D (declareVariable isConstant) := by
  unfold declareVariable
  infer_instance

instance : Obeys D markInitialized := by
  unfold markInitialized
  infer_instance

instance (name : Bytes) : Obeys D (identifier name) :=
  obeys_total fun _ => ⟨_, _, rfl, D.refl _⟩

instance (message : String) (isConstant : Bool) : Obeys D (parseVariable message isConstant) := by
  unfold parseVariable
  infer_instance

instance (f : CompilerState → Context) : Obeys D (CompilerM.modify fun s => { s with context := f s }) :=
  obeys_modify fun _ => D.refl _

instance (index : Nat) (isConst : Bool) : Obeys D (defineVariable index isConst) := by
  unfold defineVariable
  infer_instance

instance (c : FunctionState) (name : Bytes) : Obeys D (resolveLocal c name) := by
  unfold resolveLocal
  split <;> infer_instance

instance (c : FunctionState) (index : Nat) (isLocal : Bool) : Obeys D (addUpvalue c index isLocal) := by
  unfold addUpvalue
  split
  · infer_instance
  · split <;> infer_instance

instance obeys_resolveUpvalue (name : Bytes) (enclosing : List FunctionState) (c : FunctionState) :
    Obeys D (resolveUpvalue name c enclosing) := by
  induction enclosing generalizing c with
  | nil => exact inferInstanceAs (Obeys D (pure _))
  | cons e outer ih =>
      unfold resolveUpvalue
      refine Obeys.bind inferInstance fun found => ?_
      cases found with
      | some i => infer_instance
      | none =>
          refine Obeys.bind (ih e) fun x => ?_
          obtain ⟨found, e, outer⟩ := x
          cases found <;> infer_instance

/-- The routines that are called recursively keep to a discipline. -/
class ObeysRoutines (D : Discipline) (r : Routines) : Prop where
  parsePrecedence : ∀ precedence, Obeys D (r.parsePrecedence precedence)
  infixLoop : ∀ precedence canAssign, Obeys D (r.infixLoop precedence canAssign)
  declaration : Obeys D r.declaration
  statement : Obeys D r.statement
  argumentLoop : ∀ n, Obeys D (r.argumentLoop n)
  listLoop : ∀ n b, Obeys D (r.listLoop n b)
  mapLoop : ∀ n b, Obeys D (r.mapLoop n b)
  blockLoop : Obeys D r.blockLoop
  parameterLoop : Obeys D r.parameterLoop
  methodLoop : Obeys D r.methodLoop
  caseLoop : ∀ jumps b, Obeys D (r.caseLoop jumps b)
  armLoop : Obeys D r.armLoop
  programLoop : Obeys D r.programLoop

attribute [instance] ObeysRoutines.parsePrecedence ObeysRoutines.infixLoop ObeysRoutines.declaration
  ObeysRoutines.statement ObeysRoutines.argumentLoop ObeysRoutines.listLoop ObeysRoutines.mapLoop
  ObeysRoutines.blockLoop ObeysRoutines.parameterLoop ObeysRoutines.methodLoop ObeysRoutines.caseLoop
  ObeysRoutines.armLoop ObeysRoutines.programLoop

variable (parseReal : ParseReal) (r : Routines)

instance (canAssign : Bool) (expected : TokenType) : Obeys D (matchIf canAssign expected) := by
  unfold matchIf
  infer_instance

instance (value : Int64) (line : Int32) (found : Option Nat) : Obeys D (loadInteger value line found) := by
  cases found <;> (unfold loadInteger; infer_instance)

instance (token : Token) (value : Option Int64) : Obeys D (integerLiteral token value) := by
  cases value <;> (unfold integerLiteral; infer_instance)

instance (token : Token) (value : Option UInt64) : Obeys D (realLiteral token value) := by
  cases value <;> (unfold realLiteral; infer_instance)

instance : Obeys D (number parseReal) := by
  unfold number
  infer_instance

instance (code : OpCode) (index : Nat) : Obeys D (emitConstantOp code index) := by
  unfold emitConstantOp
  infer_instance

instance : Obeys D emitNegate := by
  unfold emitNegate
  infer_instance

instance (codes : List OpCode) : Obeys D (emitOpcodes codes) := by
  induction codes with
  | nil => exact inferInstanceAs (Obeys D (pure ()))
  | cons code codes ih =>
      unfold emitOpcodes
      infer_instance

instance (type : TokenType) : Obeys D (emitUnary type) := by
  unfold emitUnary
  split <;> infer_instance

instance (codes : Option (List OpCode)) : Obeys D (emitBinary codes) := by
  cases codes <;> (unfold emitBinary; infer_instance)

instance (type : TokenType) : Obeys D (emitLiteral type) := by
  unfold emitLiteral
  split <;> infer_instance

instance : Obeys D literal := by
  unfold literal
  infer_instance

instance : Obeys D string := by
  unfold string
  infer_instance

instance (name : Token) : Obeys D (resolve name) := by
  unfold resolve
  refine Obeys.bind inferInstance fun s => Obeys.bind inferInstance fun found => ?_
  cases found with
  | some i => infer_instance
  | none =>
      refine Obeys.bind inferInstance fun x => ?_
      obtain ⟨found, current, enclosing⟩ := x
      refine Obeys.bind (obeys_modify fun _ => D.refl _) fun _ => ?_
      cases found <;> infer_instance

instance (enclosingClass : List Bool) : Obeys D (checkSuper enclosingClass) := by
  unfold checkSuper
  split <;> infer_instance

instance (code : OpCode) (length : Nat) : Obeys D (emitBuild code length) := by
  unfold emitBuild
  infer_instance

instance (code : OpCode) (b : Bool) : Obeys D (emitAppend code b) := by
  unfold emitAppend
  infer_instance

instance (buildOp appendOp : OpCode) (threshold length : Nat) (b : Bool) :
    Obeys D (emitElement buildOp appendOp threshold length b) := by
  unfold emitElement
  infer_instance

instance (canAssign : Bool) : Obeys D (safeDot canAssign) := by
  unfold safeDot
  infer_instance

section

variable [ObeysRoutines D r]

instance : Obeys D (expression r) := by
  unfold expression
  infer_instance

instance : Obeys D (grouping r) := by
  unfold grouping
  infer_instance

instance : Obeys D (unary r) := by
  unfold unary
  infer_instance

instance : Obeys D (and_ r) := by
  unfold and_
  infer_instance

instance : Obeys D (or_ r) := by
  unfold or_
  infer_instance

instance : Obeys D (argumentList r) := by
  unfold argumentList
  infer_instance

instance (n : Nat) : Obeys D (argumentLoop r n) := by
  unfold argumentLoop
  infer_instance

instance (canAssign : Bool) : Obeys D (dot r canAssign) := by
  unfold dot
  infer_instance

instance : Obeys D (binary r) := by
  unfold binary
  infer_instance

instance : Obeys D (ternary r) := by
  unfold ternary
  infer_instance

instance (resolved : Resolved) (message : Option String) : Obeys D (assignTo r resolved message) := by
  cases message <;> (unfold assignTo; infer_instance)

instance (name : Token) (canAssign : Bool) : Obeys D (namedVariable r name canAssign) := by
  unfold namedVariable
  infer_instance

instance (canAssign : Bool) : Obeys D («variable» r canAssign) := by
  unfold «variable»
  infer_instance

instance : Obeys D (this_ r) := by
  unfold this_
  infer_instance

instance (methodIndex : Nat) (line : Int32) : Obeys D (superAccess r methodIndex line) := by
  unfold superAccess
  infer_instance

instance : Obeys D (super_ r) := by
  unfold super_
  infer_instance

instance : Obeys D (call r) := by
  unfold call
  infer_instance

instance (n : Nat) (b : Bool) : Obeys D (listLoop r n b) := by
  unfold listLoop
  infer_instance

instance : Obeys D (list r) := by
  unfold list
  infer_instance

instance (n : Nat) (b : Bool) : Obeys D (mapLoop r n b) := by
  unfold mapLoop
  infer_instance

instance : Obeys D (map r) := by
  unfold map
  infer_instance

instance (canAssign : Bool) : Obeys D (index r canAssign) := by
  unfold index
  infer_instance

instance (canAssign : Bool) (f : ParseFunction) : Obeys D (parseFunction parseReal r canAssign f) := by
  cases f <;> (unfold parseFunction; infer_instance)

instance (precedence : ParsePrecedence) (canAssign : Bool) (rule : Option ParseFunction) :
    Obeys D (callInfix parseReal r precedence canAssign rule) := by
  cases rule <;> (unfold callInfix; infer_instance)

instance (precedence : ParsePrecedence) (canAssign : Bool) :
    Obeys D (infixLoop parseReal r precedence canAssign) := by
  unfold infixLoop
  infer_instance

instance (precedence : ParsePrecedence) (canAssign : Bool) (rule : Option ParseFunction) :
    Obeys D (callPrefix parseReal r precedence canAssign rule) := by
  cases rule <;> (unfold callPrefix; infer_instance)

instance (precedence : ParsePrecedence) : Obeys D (parsePrecedence parseReal r precedence) := by
  unfold parsePrecedence
  infer_instance

instance : Obeys D (expressionStatement r) := by
  unfold expressionStatement
  infer_instance

instance : Obeys D (varInitializer r) := by
  unfold varInitializer
  infer_instance

instance : Obeys D (varDeclaration r) := by
  unfold varDeclaration
  infer_instance

instance : Obeys D (constDeclaration r) := by
  unfold constDeclaration
  infer_instance

instance : Obeys D (block r) := by
  unfold block
  infer_instance

instance : Obeys D (blockLoop r) := by
  unfold blockLoop
  infer_instance

instance (type : FunctionType) (name : Bytes) : Obeys D (pushCompiler type name) := by
  unfold pushCompiler
  exact Obeys.bind inferInstance fun _ => obeys_modify fun _ => D.refl _

instance : Obeys D popCompiler := by
  refine obeys_cases fun s => ?_
  unfold popCompiler
  split
  · exact .inr ⟨_, rfl⟩
  · exact .inl ⟨_, _, rfl, D.refl _⟩

instance : Obeys D (parameters r) := by
  unfold parameters
  infer_instance

instance : Obeys D (parameterLoop r) := by
  unfold parameterLoop
  infer_instance

instance (upvalues : List Upvalue) : Obeys D (emitCaptures upvalues) := by
  induction upvalues with
  | nil => exact inferInstanceAs (Obeys D (pure ()))
  | cons upvalue upvalues ih =>
      unfold emitCaptures
      infer_instance

instance (compiler : FunctionState) : Obeys D (emitClosure compiler) := by
  unfold emitClosure
  infer_instance

instance (type : FunctionType) (name : Bytes) : Obeys D (compileFunction r type name) := by
  unfold compileFunction
  infer_instance

instance : Obeys D (funDeclaration r) := by
  unfold funDeclaration
  infer_instance

instance : Obeys D (method r) := by
  unfold method
  infer_instance

instance : Obeys D (methodLoop r) := by
  unfold methodLoop
  infer_instance

instance (classToken : Token) : Obeys D (superClause r classToken) := by
  unfold superClause
  infer_instance

instance : Obeys D endSuperScope := by
  unfold endSuperScope
  infer_instance

instance : Obeys D (classBody r) := by
  unfold classBody
  infer_instance

instance : Obeys D (classDeclaration r) := by
  unfold classDeclaration
  infer_instance

instance : Obeys D (declarationOf r) := by
  unfold declarationOf
  infer_instance

instance : Obeys D synchronizeOnPanic := by
  refine obeys_modify fun s => ?_
  split
  · exact D.synchronize s.parser
  · exact D.refl _

instance : Obeys D (declaration r) := by
  unfold declaration
  infer_instance

instance : Obeys D (printStatement r) := by
  unfold printStatement
  infer_instance

instance : Obeys D (ifStatement r) := by
  unfold ifStatement
  infer_instance

instance (exitJump : Option Nat) : Obeys D (patchExit exitJump) := by
  cases exitJump <;> (unfold patchExit; infer_instance)

instance (outer : FunctionState) (loopBegin : Nat) (exitJump : Option Nat) :
    Obeys D (loopBody r outer loopBegin exitJump) := by
  unfold loopBody
  infer_instance

instance : Obeys D (whileStatement r) := by
  unfold whileStatement
  infer_instance

instance : Obeys D (forInitializer r) := by
  unfold forInitializer
  infer_instance

instance : Obeys D (forCondition r) := by
  unfold forCondition
  infer_instance

instance (loopBegin : Nat) : Obeys D (forIncrement r loopBegin) := by
  unfold forIncrement
  infer_instance

instance : Obeys D (forStatement r) := by
  unfold forStatement
  infer_instance

instance : Obeys D (armBody r) := by
  unfold armBody
  infer_instance

instance : Obeys D (armLoop r) := by
  unfold armLoop
  infer_instance

instance (b : Bool) : Obeys D (caseArm r b) := by
  unfold caseArm
  infer_instance

instance (b : Bool) : Obeys D (defaultArm r b) := by
  unfold defaultArm
  infer_instance

instance (jumps : List Nat) (b : Bool) : Obeys D (caseLoop r jumps b) := by
  unfold caseLoop
  infer_instance

instance (b : Bool) : Obeys D (emitSwitchPop b) := by
  unfold emitSwitchPop
  infer_instance

instance (jumps : List Nat) : Obeys D (patchJumps jumps) := by
  induction jumps with
  | nil => exact inferInstanceAs (Obeys D (pure ()))
  | cons jump jumps ih =>
      unfold patchJumps
      infer_instance

instance (arms : Option (List Nat × Bool)) : Obeys D (endSwitch arms) := by
  cases arms <;> (unfold endSwitch; infer_instance)

instance : Obeys D (switchStatement r) := by
  unfold switchStatement
  infer_instance

instance : Obeys D breakStatement := by
  unfold breakStatement
  infer_instance

instance (loopScopeDepth : Int) (locals : List Local) : Obeys D (emitLoopPops loopScopeDepth locals) := by
  induction locals with
  | nil => exact inferInstanceAs (Obeys D (pure ()))
  | cons l rest ih =>
      unfold emitLoopPops
      infer_instance

instance : Obeys D continueStatement := by
  unfold continueStatement
  infer_instance

instance : Obeys D (returnStatement r) := by
  unfold returnStatement
  infer_instance

instance : Obeys D (blockStatement r) := by
  unfold blockStatement
  infer_instance

instance : Obeys D (statement r) := by
  unfold statement
  infer_instance

instance : Obeys D (programLoop r) := by
  unfold programLoop
  infer_instance

end

instance [ObeysRoutines D r] : ObeysRoutines D (unfoldRoutines r parseReal) := by
  constructor <;> (intros; unfold unfoldRoutines; infer_instance)

end Compiler

end Obeys

end CppLox
