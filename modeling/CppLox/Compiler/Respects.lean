import CppLox.Compiler.Discipline

/-!
# Compiler — relations that compiling keeps to

A compilation changes its state in few ways: it adds names to the table of globals and marks const
ones, it adds constants, and it constructs and closes nested compilers; everything else leaves the
globals, the addresses and the constant pools alone.  A relation that allows these steps (`Allowing`)
is one every routine keeps to, whether the source is accepted or not: `Respects R m`.  `Respects` is a
class, so that it is found from the shape of a routine, given that the routines called recursively
keep to the relation.
-/

namespace CppLox

open CompilerM

/-- The address and the constants of a function. -/
def ObjectFunction.pool (f : ObjectFunction) : Addr × List (Constant ObjectFunction) :=
  (f.addr, f.constants)

/-- The function with a constant more. -/
def ObjectFunction.withConstant (f : ObjectFunction) (c : Constant ObjectFunction) :
    ObjectFunction := { f with constants := f.constants ++ [c] }

/-- The functions of a chain of compilers, the innermost first. -/
def CompilerState.pools (s : CompilerState) : List (Addr × List (Constant ObjectFunction)) :=
  (s.current :: s.enclosing).map fun c => c.function.pool

/-- The globals, the next address and the constant pools stay. -/
structure CompilerState.Keeps (s s' : CompilerState) : Prop where
  context : s'.context = s.context
  nextAddress : s'.nextAddress = s.nextAddress
  pools : s'.pools = s.pools

namespace CompilerState.Keeps

theorem refl (s : CompilerState) : s.Keeps s := ⟨rfl, rfl, rfl⟩

theorem trans {s t u : CompilerState} (h : s.Keeps t) (h' : t.Keeps u) : s.Keeps u :=
  ⟨h'.context.trans h.context, h'.nextAddress.trans h.nextAddress, h'.pools.trans h.pools⟩

end CompilerState.Keeps

/-- The steps a relation on states of the compiler is to allow. -/
class Allowing (R : CompilerState → CompilerState → Prop) : Prop where
  trans : ∀ {s t u}, R s t → R t u → R s u
  keeps : ∀ {s s'}, s.Keeps s' → R s s'
  addConstant : ∀ (s : CompilerState) c, (∀ f, c ≠ .function f) →
    R s { s with current := { s.current with function := s.current.function.withConstant c } }
  identifier : ∀ (s : CompilerState) name, R s { s with context := (s.context.getGlobal name).2 }
  isConst : ∀ (s : CompilerState) index isConst, ¬ (s.context.getInternalValue index).isConst →
    R s { s with context := s.context.modify index fun val => { val with isConst } }
  pushCompiler : ∀ (s : CompilerState) type name enclosingClass, R s { s with
    current := Compiler.newFunctionState type s.nextAddress name enclosingClass
    enclosing := s.current :: s.enclosing
    nextAddress := s.nextAddress + 1 }
  /-- The function of a nested compiler becomes a constant of the enclosing one. -/
  popCompiler : ∀ (s : CompilerState) c enclosing, s.enclosing = c :: enclosing → R s { s with
    current := { c with function := c.function.withConstant (.function s.current.function) }
    enclosing }

/-- A routine keeps to a relation. -/
class Respects (R : CompilerState → CompilerState → Prop) {α : Type} (m : CompilerM α) : Prop where
  rel : ∀ s a s', m s = .ok (a, s') → R s s'

/-- A change of a compiler that leaves the pool of its function alone. -/
class KeepsPool (f : FunctionState → FunctionState) : Prop where
  pool : ∀ c, (f c).function.pool = c.function.pool

section Respects

set_option synthInstance.maxSize 10000

variable {R : CompilerState → CompilerState → Prop} [Allowing R] {α β : Type}

theorem Respects.of_keeps {m : CompilerM α} (h : ∀ s a s', m s = .ok (a, s') → s.Keeps s') :
    Respects R m := ⟨fun s a s' hrun => Allowing.keeps (h s a s' hrun)⟩

theorem Respects.of_eq {m : CompilerM α} (h : ∀ s a s', m s = .ok (a, s') → s' = s) :
    Respects R m := .of_keeps fun s a s' hrun => by
  rw [h s a s' hrun]
  exact .refl s

theorem Respects.modify {f : CompilerState → CompilerState} (h : ∀ s : CompilerState, s.Keeps (f s)) :
    Respects R (CompilerM.modify f) :=
  .of_keeps fun s a s' hrun => by
    cases hrun
    exact h s

/-- The chain of compilers is the same but for what is no pool. -/
theorem CompilerState.keeps_current (s : CompilerState) {c : FunctionState}
    (h : c.function.pool = s.current.function.pool) : s.Keeps { s with current := c } :=
  ⟨rfl, rfl, by simp only [CompilerState.pools, List.map_cons, h]⟩

instance (a : α) : Respects R (pure a : CompilerM α) := .of_eq fun s b s' h => by cases h; rfl

theorem Respects.bind {m : CompilerM α} {f : α → CompilerM β} (hm : Respects R m)
    (hf : ∀ a, Respects R (f a)) : Respects R (m >>= f) where
  rel s b s' h := by
    obtain ⟨a, s₁, h₁, h₂⟩ := CompilerM.bind_eq_ok h
    exact Allowing.trans (hm.rel s a s₁ h₁) ((hf a).rel s₁ b s' h₂)

instance (m : CompilerM α) (f : α → CompilerM β) [Respects R m] [∀ a, Respects R (f a)] :
    Respects R (m >>= f) := Respects.bind inferInstance inferInstance

instance (c : Prop) [Decidable c] (m n : CompilerM α) [Respects R m] [Respects R n] :
    Respects R (if c then m else n) := by
  split <;> infer_instance

instance : Respects R CompilerM.get := .of_eq fun s a s' h => by cases h; rfl

/-- The scopes, the locals and the other members change. -/
instance (scopeDepth : FunctionState → Nat) (locals : FunctionState → List Local)
    (constantNumbers : FunctionState → List (Int64 × Nat)) (loopDepth : FunctionState → Nat)
    (loopScopeDepth loopStartOffset : FunctionState → Int) (type : FunctionState → FunctionType)
    (upvalues : FunctionState → List Upvalue) (enclosingClass : FunctionState → List Bool) :
    KeepsPool fun c => ⟨scopeDepth c, locals c, constantNumbers c, c.function, loopDepth c,
      loopScopeDepth c, loopStartOffset c, type c, upvalues c, enclosingClass c⟩ := ⟨fun _ => rfl⟩

instance (f : FunctionState → FunctionState) [KeepsPool f] : Respects R (modifyCurrent f) :=
  .modify fun s => s.keeps_current (KeepsPool.pool s.current)

instance (message : String) : Respects R (throwLogicError message : CompilerM α) :=
  .of_eq fun s a s' h => by cases h

namespace Compiler

instance (message : String) : Respects R (reportError message) := .modify fun _ => ⟨rfl, rfl, rfl⟩

instance (c : Bool) (message : String) : Respects R (reportIf c message) := by
  unfold reportIf
  infer_instance

instance : Respects R advance := .modify fun _ => ⟨rfl, rfl, rfl⟩

instance : Respects R previous := .of_eq fun s a s' h => by cases h; rfl

instance : Respects R peek := .of_eq fun s a s' h => by cases h; rfl

instance (expected : TokenType) : Respects R (check expected) :=
  .of_eq fun s a s' h => by cases h; rfl

instance (expected : TokenType) : Respects R (matchToken expected) :=
  .of_keeps fun s a s' h => by
    cases h
    exact ⟨rfl, rfl, rfl⟩

instance (expected : TokenType) (message : String) : Respects R (consume expected message) :=
  .modify fun _ => ⟨rfl, rfl, rfl⟩

/-- Code is written. -/
theorem respects_modifyChunk {f : ObjectFunction → Int32 → ObjectFunction}
    (h : ∀ g line, (f g line).pool = g.pool) : Respects R (modifyChunk f) :=
  .modify fun s => s.keeps_current (h s.current.function s.parser.previous.line)

theorem pool_writeByte (f : ObjectFunction) (byte : UInt8) (line : Int32) :
    (Chunk.writeByte f byte line).pool = f.pool := by
  rw [Chunk.writeByte_eq]
  rfl

theorem pool_writeUint16Le (f : ObjectFunction) (bytes : Nat) (line : Int32) :
    (Chunk.writeUint16Le f bytes line).pool = f.pool := by
  unfold Chunk.writeUint16Le
  rw [pool_writeByte, pool_writeByte, Chunk.addLineNumber_eq]
  rfl

instance (code : OpCode) : Respects R (emitOpcode code) :=
  respects_modifyChunk fun g line => pool_writeByte g _ line

instance (byte : Nat) : Respects R (emitByte byte) :=
  respects_modifyChunk fun g line => pool_writeByte g _ line

instance (bytes : Nat) : Respects R (emitUint16Le bytes) :=
  respects_modifyChunk fun g line => pool_writeUint16Le g bytes line

instance : Respects R codeLength := .of_eq fun s a s' h => by cases h; rfl

instance (type : FunctionType) : Respects R (emitReturnValue type) := by
  unfold emitReturnValue
  infer_instance

instance : Respects R emitReturn := by
  unfold emitReturn
  infer_instance

instance (code : OpCode) : Respects R (emitJump code) := by
  unfold emitJump
  infer_instance

instance (offset : Nat) : Respects R (patchJump offset) := by
  unfold patchJump
  exact .bind inferInstance fun _ => .bind inferInstance fun _ => respects_modifyChunk fun _ _ => rfl

instance (location : Int) : Respects R (emitJumpBack location) := by
  unfold emitJumpBack
  infer_instance

theorem addConstant_ok {value : Constant ObjectFunction} {s s' : CompilerState} {index : Nat}
    (h : addConstant value s = .ok (index, s')) :
    s' = { s with current := { s.current with function := s.current.function.withConstant value } } := by
  unfold addConstant Chunk.addConstant at h
  split at h
  · rename_i heq
    split at heq <;> cases heq
    cases h
    rfl
  · cases h

theorem respects_addConstant {value : Constant ObjectFunction} (hvalue : ∀ f, value ≠ .function f) :
    Respects R (addConstant value) where
  rel s index s' h := by
    rw [addConstant_ok h]
    exact Allowing.addConstant s value hvalue

instance (d : UInt64) : Respects R (addConstant (.real d)) := respects_addConstant fun _ h => by cases h

instance (i : Int64) : Respects R (addConstant (.integer i)) := respects_addConstant fun _ h => by cases h

instance (s : Bytes) : Respects R (addConstant (.string s)) := respects_addConstant fun _ h => by cases h

instance (index : Nat) (line : Int32) : Respects R (writeLoadConstant index line) := by
  refine .of_keeps fun s a s' h => ?_
  unfold writeLoadConstant Chunk.writeLoadConstant at h
  split at h
  · rename_i f heq
    have hpool : f.pool = s.current.function.pool := by
      split at heq
      · cases heq
        exact (pool_writeByte _ _ line).trans (pool_writeByte _ _ line)
      · split at heq <;> cases heq
        exact (pool_writeUint16Le _ index line).trans (pool_writeByte _ _ line)
    cases h
    exact s.keeps_current hpool
  · cases h

instance (s : Bytes) : Respects R (internString s) := by
  unfold internString
  infer_instance

instance : Respects R beginScope := by
  unfold beginScope
  infer_instance

instance (scopeDepth : Nat) (locals : List Local) : Respects R (popLocals scopeDepth locals) := by
  induction locals with
  | nil => exact inferInstanceAs (Respects R (pure ()))
  | cons l rest ih =>
      unfold popLocals
      infer_instance

instance : Respects R endScope := by
  unfold endScope
  infer_instance

instance (name : Bytes) (isConst : Bool) : Respects R (addLocal name isConst) := by
  unfold addLocal
  infer_instance

instance (isConstant : Bool) : Respects R (declareVariable isConstant) := by
  unfold declareVariable
  infer_instance

instance : Respects R markInitialized := by
  unfold markInitialized
  infer_instance

instance (name : Bytes) : Respects R (identifier name) where
  rel s a s' h := by
    cases h
    exact Allowing.identifier s name

instance (message : String) (isConstant : Bool) : Respects R (parseVariable message isConstant) := by
  unfold parseVariable
  infer_instance

/-- A global that is not const is marked. -/
instance (index : Nat) (isConst : Bool) : Respects R (defineVariable index isConst) where
  rel s a s' h := by
    unfold defineVariable at h
    split at h
    · exact (inferInstance : Respects R (reportError _)).rel _ _ _ h
    rw [CompilerM.bind_apply] at h
    change (if s.current.scopeDepth > 0 then _ else _ : CompilerM Unit) s = _ at h
    split at h
    · exact (inferInstance : Respects R
        (modifyCurrent fun c => { c with locals := setLastInitialized c.locals })).rel _ _ _ h
    split at h
    · exact (inferInstance : Respects R (reportError _)).rel _ _ _ h
    rename_i hconst
    exact Allowing.trans (Allowing.isConst s index isConst hconst) ((inferInstance : Respects R
      (emitOpcode .defineGlobal >>= fun _ => emitUint16Le index)).rel
        { s with context := s.context.modify index fun val => { val with isConst } } a s' h)

theorem resolveLocal_keeps {c : FunctionState} {name : Bytes} {found : Option Nat}
    {s s' : CompilerState} (h : resolveLocal c name s = .ok (found, s')) : s.Keeps s' := by
  unfold resolveLocal at h
  cases hfound : findLocal c.locals name with
  | none =>
      rw [hfound] at h
      cases h
      exact .refl s
  | some i =>
      rw [hfound] at h
      change (if (c.locals.getD i default).uninitialized then _ else _ : CompilerM _) s = _ at h
      split at h <;> cases h <;> exact ⟨rfl, rfl, rfl⟩

theorem addUpvalue_keeps {c c' : FunctionState} {index upvalue : Nat} {isLocal : Bool}
    {s s' : CompilerState} (h : addUpvalue c index isLocal s = .ok ((upvalue, c'), s')) :
    s' = s ∧ c'.function.pool = c.function.pool := by
  unfold addUpvalue at h
  split at h
  · cases h
  · cases hfound : findUpvalue c.upvalues ⟨index, isLocal⟩ with
    | some i =>
        rw [hfound] at h
        cases h
        exact ⟨rfl, rfl⟩
    | none =>
        rw [hfound] at h
        cases h
        exact ⟨rfl, rfl⟩

/-- A search for an upvalue changes the compilers in what is no pool. -/
theorem resolveUpvalue_keeps {name : Bytes} {enclosing enclosing' : List FunctionState}
    {c c' : FunctionState} {found : Option (Nat × Bool)} {s s' : CompilerState}
    (h : resolveUpvalue name c enclosing s = .ok ((found, c', enclosing'), s')) :
    s.Keeps s' ∧ (c' :: enclosing').map (·.function.pool) = (c :: enclosing).map (·.function.pool) := by
  induction enclosing generalizing c c' enclosing' found s s' with
  | nil =>
      cases h
      exact ⟨.refl _, rfl⟩
  | cons e outer ih =>
      unfold resolveUpvalue at h
      obtain ⟨i, s₁, h₁, h⟩ := CompilerM.bind_eq_ok h
      cases i with
      | some i =>
          obtain ⟨⟨upvalue, c₁⟩, s₂, h₂, h⟩ := CompilerM.bind_eq_ok h
          obtain ⟨hs, hpool⟩ := addUpvalue_keeps h₂
          cases h
          subst hs
          exact ⟨resolveLocal_keeps h₁, by simp [hpool]⟩
      | none =>
          obtain ⟨⟨found₁, e₁, outer₁⟩, s₂, h₂, h⟩ := CompilerM.bind_eq_ok h
          obtain ⟨hkeeps, hpools⟩ := ih h₂
          cases found₁ with
          | some x =>
              obtain ⟨⟨upvalue, c₁⟩, s₃, h₃, h⟩ := CompilerM.bind_eq_ok h
              obtain ⟨hs, hpool⟩ := addUpvalue_keeps h₃
              cases h
              subst hs
              exact ⟨(resolveLocal_keeps h₁).trans hkeeps, by
                rw [List.map_cons, hpools, hpool, List.map_cons (l := e :: outer)]⟩
          | none =>
              cases h
              exact ⟨(resolveLocal_keeps h₁).trans hkeeps, by
                rw [List.map_cons, hpools, List.map_cons (l := e :: outer)]⟩

/-- The routines that are called recursively keep to a discipline. -/
class RespectsRoutines (R : CompilerState → CompilerState → Prop) (r : Routines) : Prop where
  parsePrecedence : ∀ precedence, Respects R (r.parsePrecedence precedence)
  infixLoop : ∀ precedence canAssign, Respects R (r.infixLoop precedence canAssign)
  declaration : Respects R r.declaration
  statement : Respects R r.statement
  argumentLoop : ∀ n, Respects R (r.argumentLoop n)
  listLoop : ∀ n b, Respects R (r.listLoop n b)
  mapLoop : ∀ n b, Respects R (r.mapLoop n b)
  blockLoop : Respects R r.blockLoop
  parameterLoop : Respects R r.parameterLoop
  methodLoop : Respects R r.methodLoop
  caseLoop : ∀ jumps b, Respects R (r.caseLoop jumps b)
  armLoop : Respects R r.armLoop
  programLoop : Respects R r.programLoop

attribute [instance] RespectsRoutines.parsePrecedence RespectsRoutines.infixLoop
  RespectsRoutines.declaration RespectsRoutines.statement RespectsRoutines.argumentLoop
  RespectsRoutines.listLoop RespectsRoutines.mapLoop RespectsRoutines.blockLoop
  RespectsRoutines.parameterLoop RespectsRoutines.methodLoop RespectsRoutines.caseLoop
  RespectsRoutines.armLoop RespectsRoutines.programLoop

variable (parseReal : ParseReal) (r : Routines)

instance (canAssign : Bool) (expected : TokenType) : Respects R (matchIf canAssign expected) := by
  unfold matchIf
  infer_instance

instance (value : Int64) (line : Int32) (found : Option Nat) : Respects R (loadInteger value line found) := by
  cases found <;> (unfold loadInteger; infer_instance)

instance (token : Token) (value : Option Int64) : Respects R (integerLiteral token value) := by
  cases value <;> (unfold integerLiteral; infer_instance)

instance (token : Token) (value : Option UInt64) : Respects R (realLiteral token value) := by
  cases value <;> (unfold realLiteral; infer_instance)

instance : Respects R (number parseReal) := by
  unfold number
  infer_instance

instance (code : OpCode) (index : Nat) : Respects R (emitConstantOp code index) := by
  unfold emitConstantOp
  infer_instance

instance : Respects R emitNegate := by
  unfold emitNegate
  refine .bind inferInstance fun s => ?_
  split
  · exact respects_modifyChunk fun _ _ => rfl
  · infer_instance

instance (codes : List OpCode) : Respects R (emitOpcodes codes) := by
  induction codes with
  | nil => exact inferInstanceAs (Respects R (pure ()))
  | cons code codes ih =>
      unfold emitOpcodes
      infer_instance

instance (type : TokenType) : Respects R (emitUnary type) := by
  unfold emitUnary
  split <;> infer_instance

instance (codes : Option (List OpCode)) : Respects R (emitBinary codes) := by
  cases codes <;> (unfold emitBinary; infer_instance)

instance (type : TokenType) : Respects R (emitLiteral type) := by
  unfold emitLiteral
  split <;> infer_instance

instance : Respects R literal := by
  unfold literal
  infer_instance

instance : Respects R string := by
  unfold string
  infer_instance

/-- The compilers a search changes take the place of those it was given. -/
instance (name : Token) : Respects R (resolve name) where
  rel s a s' h := by
    unfold resolve at h
    obtain ⟨s₀, s₁, h₀, h⟩ := CompilerM.bind_eq_ok h
    cases h₀
    obtain ⟨i, s₁, h₁, h⟩ := CompilerM.bind_eq_ok h
    have hkeeps := resolveLocal_keeps h₁
    cases i with
    | some i =>
        cases h
        exact Allowing.keeps hkeeps
    | none =>
        obtain ⟨⟨found, current, enclosing⟩, s₂, h₂, h⟩ := CompilerM.bind_eq_ok h
        obtain ⟨hkeeps₂, hpools⟩ := resolveUpvalue_keeps h₂
        obtain ⟨_, s₃, h₃, h⟩ := CompilerM.bind_eq_ok h
        cases h₃
        have hto : s.Keeps { s₂ with current, enclosing } :=
          ⟨hkeeps₂.context.trans hkeeps.context, hkeeps₂.nextAddress.trans hkeeps.nextAddress, hpools⟩
        refine Allowing.trans (Allowing.keeps hto) ?_
        cases found with
        | some x =>
            cases h
            exact Allowing.keeps (.refl _)
        | none =>
            exact (inferInstance : Respects R (identifier name.lexeme >>= fun index =>
              (pure ⟨.storeGlobal, .loadGlobal, index, none⟩ : CompilerM Resolved))).rel _ _ _ h

instance (enclosingClass : List Bool) : Respects R (checkSuper enclosingClass) := by
  unfold checkSuper
  split <;> infer_instance

instance (code : OpCode) (length : Nat) : Respects R (emitBuild code length) := by
  unfold emitBuild
  infer_instance

instance (code : OpCode) (b : Bool) : Respects R (emitAppend code b) := by
  unfold emitAppend
  infer_instance

instance (buildOp appendOp : OpCode) (threshold length : Nat) (b : Bool) :
    Respects R (emitElement buildOp appendOp threshold length b) := by
  unfold emitElement
  infer_instance

instance (canAssign : Bool) : Respects R (safeDot canAssign) := by
  unfold safeDot
  infer_instance

section

variable [RespectsRoutines R r]

instance : Respects R (expression r) := by
  unfold expression
  infer_instance

instance : Respects R (grouping r) := by
  unfold grouping
  infer_instance

instance : Respects R (unary r) := by
  unfold unary
  infer_instance

instance : Respects R (and_ r) := by
  unfold and_
  infer_instance

instance : Respects R (or_ r) := by
  unfold or_
  infer_instance

instance : Respects R (argumentList r) := by
  unfold argumentList
  infer_instance

instance (n : Nat) : Respects R (argumentLoop r n) := by
  unfold argumentLoop
  infer_instance

instance (canAssign : Bool) : Respects R (dot r canAssign) := by
  unfold dot
  infer_instance

instance : Respects R (binary r) := by
  unfold binary
  infer_instance

instance : Respects R (ternary r) := by
  unfold ternary
  infer_instance

instance (resolved : Resolved) (message : Option String) : Respects R (assignTo r resolved message) := by
  cases message <;> (unfold assignTo; infer_instance)

instance (name : Token) (canAssign : Bool) : Respects R (namedVariable r name canAssign) := by
  unfold namedVariable
  infer_instance

instance (canAssign : Bool) : Respects R («variable» r canAssign) := by
  unfold «variable»
  infer_instance

instance : Respects R (this_ r) := by
  unfold this_
  infer_instance

instance (methodIndex : Nat) (line : Int32) : Respects R (superAccess r methodIndex line) := by
  unfold superAccess
  infer_instance

instance : Respects R (super_ r) := by
  unfold super_
  infer_instance

instance : Respects R (call r) := by
  unfold call
  infer_instance

instance (n : Nat) (b : Bool) : Respects R (listLoop r n b) := by
  unfold listLoop
  infer_instance

instance : Respects R (list r) := by
  unfold list
  infer_instance

instance (n : Nat) (b : Bool) : Respects R (mapLoop r n b) := by
  unfold mapLoop
  infer_instance

instance : Respects R (map r) := by
  unfold map
  infer_instance

instance (canAssign : Bool) : Respects R (index r canAssign) := by
  unfold index
  infer_instance

instance (canAssign : Bool) (f : ParseFunction) : Respects R (parseFunction parseReal r canAssign f) := by
  cases f <;> (unfold parseFunction; infer_instance)

instance (precedence : ParsePrecedence) (canAssign : Bool) (rule : Option ParseFunction) :
    Respects R (callInfix parseReal r precedence canAssign rule) := by
  cases rule <;> (unfold callInfix; infer_instance)

instance (precedence : ParsePrecedence) (canAssign : Bool) :
    Respects R (infixLoop parseReal r precedence canAssign) := by
  unfold infixLoop
  infer_instance

instance (precedence : ParsePrecedence) (canAssign : Bool) (rule : Option ParseFunction) :
    Respects R (callPrefix parseReal r precedence canAssign rule) := by
  cases rule <;> (unfold callPrefix; infer_instance)

instance (precedence : ParsePrecedence) : Respects R (parsePrecedence parseReal r precedence) := by
  unfold parsePrecedence
  infer_instance

instance : Respects R (expressionStatement r) := by
  unfold expressionStatement
  infer_instance

instance : Respects R (varInitializer r) := by
  unfold varInitializer
  infer_instance

instance : Respects R (varDeclaration r) := by
  unfold varDeclaration
  infer_instance

instance : Respects R (constDeclaration r) := by
  unfold constDeclaration
  infer_instance

instance : Respects R (block r) := by
  unfold block
  infer_instance

instance : Respects R (blockLoop r) := by
  unfold blockLoop
  infer_instance

instance (type : FunctionType) (name : Bytes) : Respects R (pushCompiler type name) := by
  unfold pushCompiler
  exact .bind inferInstance fun name => ⟨fun s a s' h => by
    cases h
    exact Allowing.pushCompiler s type name s.current.enclosingClass⟩

instance : Respects R (parameters r) := by
  unfold parameters
  infer_instance

instance : Respects R (parameterLoop r) := by
  unfold parameterLoop
  exact .bind (.modify fun s => s.keeps_current rfl) fun _ => inferInstance

instance (upvalues : List Upvalue) : Respects R (emitCaptures upvalues) := by
  induction upvalues with
  | nil => exact inferInstanceAs (Respects R (pure ()))
  | cons upvalue upvalues ih =>
      unfold emitCaptures
      infer_instance

/-- The function of a nested compiler ends up in the pool of the enclosing one. -/
instance : Respects R (popCompiler >>= emitClosure) where
  rel s a s' h := by
    obtain ⟨compiler, s₁, h₁, h⟩ := CompilerM.bind_eq_ok h
    unfold emitClosure at h
    obtain ⟨index, s₂, h₂, h⟩ := CompilerM.bind_eq_ok h
    have hs₂ := addConstant_ok h₂
    unfold popCompiler at h₁
    cases henclosing : s.enclosing with
    | nil =>
        rw [henclosing] at h₁
        cases h₁
    | cons c enclosing =>
        rw [henclosing] at h₁
        cases h₁
        subst hs₂
        refine Allowing.trans (Allowing.popCompiler s c enclosing henclosing) ?_
        exact (inferInstance : Respects R (emitConstantOp .closure index >>= fun _ =>
          emitCaptures s.current.upvalues)).rel _ _ _ h

instance (type : FunctionType) (name : Bytes) : Respects R (compileFunction r type name) := by
  unfold compileFunction
  infer_instance

instance : Respects R (funDeclaration r) := by
  unfold funDeclaration
  infer_instance

instance : Respects R (method r) := by
  unfold method
  infer_instance

instance : Respects R (methodLoop r) := by
  unfold methodLoop
  infer_instance

instance (classToken : Token) : Respects R (superClause r classToken) := by
  unfold superClause
  infer_instance

instance : Respects R endSuperScope := by
  unfold endSuperScope
  infer_instance

instance : Respects R (classBody r) := by
  unfold classBody
  infer_instance

instance : Respects R (classDeclaration r) := by
  unfold classDeclaration
  infer_instance

instance : Respects R (declarationOf r) := by
  unfold declarationOf
  infer_instance

instance : Respects R synchronizeOnPanic := .modify fun s => by
  split <;> exact ⟨rfl, rfl, rfl⟩

instance : Respects R (declaration r) := by
  unfold declaration
  infer_instance

instance : Respects R (printStatement r) := by
  unfold printStatement
  infer_instance

instance : Respects R (ifStatement r) := by
  unfold ifStatement
  infer_instance

instance (exitJump : Option Nat) : Respects R (patchExit exitJump) := by
  cases exitJump <;> (unfold patchExit; infer_instance)

instance (outer : FunctionState) (loopBegin : Nat) (exitJump : Option Nat) :
    Respects R (loopBody r outer loopBegin exitJump) := by
  unfold loopBody
  infer_instance

instance : Respects R (whileStatement r) := by
  unfold whileStatement
  infer_instance

instance : Respects R (forInitializer r) := by
  unfold forInitializer
  infer_instance

instance : Respects R (forCondition r) := by
  unfold forCondition
  infer_instance

instance (loopBegin : Nat) : Respects R (forIncrement r loopBegin) := by
  unfold forIncrement
  infer_instance

instance : Respects R (forStatement r) := by
  unfold forStatement
  infer_instance

instance : Respects R (armBody r) := by
  unfold armBody
  infer_instance

instance : Respects R (armLoop r) := by
  unfold armLoop
  infer_instance

instance (b : Bool) : Respects R (caseArm r b) := by
  unfold caseArm
  infer_instance

instance (b : Bool) : Respects R (defaultArm r b) := by
  unfold defaultArm
  infer_instance

instance (jumps : List Nat) (b : Bool) : Respects R (caseLoop r jumps b) := by
  unfold caseLoop
  infer_instance

instance (b : Bool) : Respects R (emitSwitchPop b) := by
  unfold emitSwitchPop
  infer_instance

instance (jumps : List Nat) : Respects R (patchJumps jumps) := by
  induction jumps with
  | nil => exact inferInstanceAs (Respects R (pure ()))
  | cons jump jumps ih =>
      unfold patchJumps
      infer_instance

instance (arms : Option (List Nat × Bool)) : Respects R (endSwitch arms) := by
  cases arms <;> (unfold endSwitch; infer_instance)

instance : Respects R (switchStatement r) := by
  unfold switchStatement
  infer_instance

instance : Respects R breakStatement := by
  unfold breakStatement
  infer_instance

instance (loopScopeDepth : Int) (locals : List Local) : Respects R (emitLoopPops loopScopeDepth locals) := by
  induction locals with
  | nil => exact inferInstanceAs (Respects R (pure ()))
  | cons l rest ih =>
      unfold emitLoopPops
      infer_instance

instance : Respects R continueStatement := by
  unfold continueStatement
  infer_instance

instance : Respects R (returnStatement r) := by
  unfold returnStatement
  infer_instance

instance : Respects R (blockStatement r) := by
  unfold blockStatement
  infer_instance

instance : Respects R (statement r) := by
  unfold statement
  infer_instance

instance : Respects R (programLoop r) := by
  unfold programLoop
  infer_instance

end

instance [RespectsRoutines R r] : RespectsRoutines R (unfoldRoutines r parseReal) := by
  constructor <;> (intros; unfold unfoldRoutines; infer_instance)

instance : RespectsRoutines R noRoutines := by
  constructor <;> intros <;> exact ⟨fun _ _ _ h => nomatch h⟩

instance (fuel : Nat) : RespectsRoutines R (routines parseReal fuel) := by
  induction fuel with
  | zero => exact inferInstanceAs (RespectsRoutines R noRoutines)
  | succ fuel ih => exact inferInstanceAs (RespectsRoutines R (unfoldRoutines _ parseReal))

/-- A compilation that ends relates its first state to its last one. -/
theorem compile_respects {fuel : Nat} {source : Bytes} {context : Context} {addr : Addr}
    {result : Option ObjectFunction} {s : CompilerState}
    (h : compile parseReal fuel source context addr = .ok (result, s)) :
    R (initialState source context addr) s := by
  have hscript : Respects R (compileScript parseReal fuel) := by
    unfold compileScript
    infer_instance
  unfold compile at h
  split at h
  · rename_i s' hrun
    cases h
    exact hscript.rel _ _ _ hrun
  · cases h

end Compiler

end Respects

end CppLox
