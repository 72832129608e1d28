import CppLox.Compiler.Expressions
import CppLox.Library.Except
import CppLox.Syntax.Ast

/-!
# Semantics — the evaluator

What the programs of the structured fragment mean: literals, operators, variables, `echo`, blocks,
branches, loops and `switch`, without functions, classes and collections.  The evaluator walks the
tree.  A local variable is the innermost one of its name, a global one has a cell, and a block takes
its locals with it.  The values and their operations are a parameter.

Loops have fuel: the statements in a loop are executed with the fuel of the iteration they are in.
-/

namespace CppLox

/-- Why a program is stopped. -/
inductive Fault where
  | undefinedGlobal (name : Bytes)
  | uninitializedGlobal (name : Bytes)
  | assignedConst (name : Bytes)
  | redeclaredConst (name : Bytes)
  | uninitializedLocal
  | operands (symbol : String)
  /-- An expression outside the fragment. -/
  | unsupported
  deriving DecidableEq

/-- The operations on the values of the language. -/
structure Operations (V : Type) where
  nil : V
  uninitialized : V
  boolean : Bool → V
  integer : Int64 → V
  real : UInt64 → V
  string : Bytes → V
  isFalsey : V → Bool
  isUninitialized : V → Bool
  binary : BinaryOp → V → V → Except Fault V
  text : V → Bytes

/-- A global variable. -/
structure Cell (V : Type) where
  value : V
  defined : Bool
  initialized : Bool
  isConst : Bool

/-- The variables, the innermost local first, and what was printed. -/
structure Store (V : Type) where
  globals : Bytes → Cell V
  locals : List (Bytes × V)
  output : Bytes

/-- How a statement ends. -/
inductive Result (V : Type) where
  | done (σ : Store V)
  /-- At a `continue`. -/
  | again (σ : Store V)
  | failed (fault : Fault) (output : Bytes)
  | outOfFuel (output : Bytes)

variable {V : Type}

/-- The locals after an assignment, if one has the name. -/
def assignLocal (x : Bytes) (v : V) : List (Bytes × V) → Option (List (Bytes × V))
  | [] => none
  | (y, w) :: locals =>
    if x = y then some ((y, v) :: locals) else (assignLocal x v locals).map ((y, w) :: ·)

namespace Store

/-- The store without the locals beyond the first `n`. -/
def leave (σ : Store V) (n : Nat) : Store V := { σ with locals := σ.locals.drop (σ.locals.length - n) }

def declare (σ : Store V) (x : Bytes) (v : V) : Store V := { σ with locals := (x, v) :: σ.locals }

def setGlobal (σ : Store V) (x : Bytes) (c : Cell V) : Store V :=
  { σ with globals := fun y => if y = x then c else σ.globals y }

/-- The innermost local. -/
def top (ops : Operations V) (σ : Store V) : V :=
  match σ.locals with
  | [] => ops.nil
  | entry :: _ => entry.2

/-- The value of a variable. -/
def read (ops : Operations V) (σ : Store V) (x : Bytes) : Except Fault V :=
  match σ.locals.lookup x with
  | some v => if ops.isUninitialized v then .error .uninitializedLocal else .ok v
  | none =>
    let c := σ.globals x
    if !c.defined then .error (.undefinedGlobal x)
    else if !c.initialized then .error (.uninitializedGlobal x)
    else .ok c.value

/-- An assignment. -/
def write (σ : Store V) (x : Bytes) (v : V) : Except Fault (Store V) :=
  match assignLocal x v σ.locals with
  | some locals => .ok { σ with locals }
  | none =>
    let c := σ.globals x
    if !c.defined then .error (.undefinedGlobal x)
    else if c.isConst then .error (.assignedConst x)
    else .ok (σ.setGlobal x { c with value := v, initialized := true })

/-- A declaration, in a scope or in the global one.  A global that was initialized stays so when it
is declared again. -/
def define (ops : Operations V) (σ : Store V) (inScope : Bool) (x : Bytes) (v : V) :
    Except Fault (Store V) :=
  if inScope then .ok (σ.declare x v)
  else
    let c := σ.globals x
    if c.defined && c.isConst then .error (.redeclaredConst x)
    else
      let initialized := c.initialized || !ops.isUninitialized v
      .ok (σ.setGlobal x { c with value := v, defined := true, initialized })

end Store

/-! ### Expressions -/

/-- An expression of the fragment. -/
def Expr.structured : Expr → Bool
  | .nil | .boolean _ | .integer _ | .real _ | .string _ | .variable _ => true
  | .assign _ e | .not e => e.structured
  | .binary _ l r | .and l r | .or l r => l.structured && r.structured
  | _ => false

/-- The value of an expression, with the store after it. -/
def Expr.evaluate (ops : Operations V) : Expr → Store V → Except Fault (V × Store V)
  | .nil, σ => .ok (ops.nil, σ)
  | .boolean b, σ => .ok (ops.boolean b, σ)
  | .integer i, σ => .ok (ops.integer i, σ)
  | .real bits, σ => .ok (ops.real bits, σ)
  | .string s, σ => .ok (ops.string s, σ)
  | .variable x, σ => do
    let v ← σ.read ops x
    return (v, σ)
  | .assign x e, σ => do
    let r ← e.evaluate ops σ
    let σ' ← r.2.write x r.1
    return (r.1, σ')
  | .not e, σ => do
    let r ← e.evaluate ops σ
    return (ops.boolean (ops.isFalsey r.1), r.2)
  | .binary op left right, σ => do
    let a ← left.evaluate ops σ
    let b ← right.evaluate ops a.2
    let v ← ops.binary op a.1 b.1
    return (v, b.2)
  | .and left right, σ => do
    let a ← left.evaluate ops σ
    if ops.isFalsey a.1 then return a else right.evaluate ops a.2
  | .or left right, σ => do
    let a ← left.evaluate ops σ
    if ops.isFalsey a.1 then right.evaluate ops a.2 else return a
  | _, _ => .error .unsupported

/-! ### Statements -/

namespace Result

/-- What follows a statement. -/
def andThen (r : Result V) (next : Store V → Result V) : Result V :=
  match r with
  | .done σ => next σ
  | r => r

/-- What follows the body of a loop. -/
def iterate (r : Result V) (next : Store V → Result V) : Result V :=
  match r with
  | .done σ | .again σ => next σ
  | r => r

/-- The end of a scope that began with `n` locals. -/
def endScope (n : Nat) (r : Result V) : Result V := r.andThen fun σ => .done (σ.leave n)

end Result

/-- What follows an expression in a store. -/
def attempt {α : Type} (σ : Store V) (x : Except Fault α) (next : α → Result V) : Result V :=
  match x with
  | .ok a => next a
  | .error fault => .failed fault σ.output

/-- A loop whose scope has `n` locals. -/
def executeLoop (n : Nat) (condition : Store V → Except Fault (Bool × Store V))
    (body : Nat → Store V → Result V) (increment : Store V → Except Fault (Store V)) :
    Nat → Store V → Result V
  | 0, σ => .outOfFuel σ.output
  | fuel + 1, σ => attempt σ (condition σ) fun c =>
    if c.1 then
      (body (fuel + 1) c.2).iterate fun σ' => attempt σ' (increment (σ'.leave n)) fun σ'' =>
        executeLoop n condition body increment fuel σ''
    else .done c.2

section

variable (ops : Operations V)

/-- The condition of a loop; without one it goes on. -/
def evaluateCondition : Option Expr → Store V → Except Fault (Bool × Store V)
  | none, σ => .ok (true, σ)
  | some e, σ => do
    let r ← e.evaluate ops σ
    return (!ops.isFalsey r.1, r.2)

/-- An expression whose value is dropped, if there is one. -/
def evaluateIncrement : Option Expr → Store V → Except Fault (Store V)
  | none, σ => .ok σ
  | some e, σ => do
    let r ← e.evaluate ops σ
    return r.2

/-- A declaration with the value of an expression. -/
def declareWith (inScope : Bool) (x : Bytes) (e : Expr) (σ : Store V) : Result V :=
  attempt σ (e.evaluate ops σ) fun r => attempt r.2 (r.2.define ops inScope x r.1) .done

mutual

/-- A statement of the fragment. -/
def Stmt.structured : Stmt → Bool
  | .empty | .continue => true
  | .expression e | .print e | .const _ e => e.structured
  | .var _ initializer => initializer.all Expr.structured
  | .block body => body.structured
  | .if c t => c.structured && t.structured
  | .ifElse c t e => c.structured && t.structured && e.structured
  | .while c b => c.structured && b.structured
  | .for init c i b =>
    init.structured && c.all Expr.structured && i.all Expr.structured && b.structured
  | .switch e cases => e.structured && cases.structured
  | .function _ _ _ | .class _ _ _ | .return _ => false

def Stmts.structured : Stmts → Bool
  | .nil => true
  | .cons s ss => s.structured && ss.structured

def Cases.structured : Cases → Bool
  | .nil => true
  | .default body => body.structured
  | .case label body rest => label.structured && body.structured && rest.structured

end

mutual

/-- A statement is executed, in a scope or in the global one. -/
def Stmt.execute : Stmt → Bool → Nat → Store V → Result V
  | .expression e, _, _, σ => attempt σ (e.evaluate ops σ) fun r => .done r.2
  | .print e, _, _, σ => attempt σ (e.evaluate ops σ) fun r =>
    .done { r.2 with output := r.2.output ++ ops.text r.1 ++ [10] }
  | .var x none, inScope, _, σ => attempt σ (σ.define ops inScope x ops.uninitialized) .done
  | .var x (some e), inScope, _, σ => declareWith ops inScope x e σ
  | .const x e, inScope, _, σ => declareWith ops inScope x e σ
  | .block body, _, fuel, σ => (body.execute true fuel σ).endScope σ.locals.length
  | .if c t, inScope, fuel, σ => attempt σ (c.evaluate ops σ) fun r =>
    if ops.isFalsey r.1 then .done r.2 else t.execute inScope fuel r.2
  | .ifElse c t e, inScope, fuel, σ => attempt σ (c.evaluate ops σ) fun r =>
    if ops.isFalsey r.1 then e.execute inScope fuel r.2 else t.execute inScope fuel r.2
  | .while c b, _, fuel, σ =>
    executeLoop σ.locals.length (evaluateCondition ops (some c)) (b.execute true) .ok fuel σ
  | .for init c i b, _, fuel, σ =>
    ((init.execute true fuel σ).andThen fun σ' =>
      executeLoop σ'.locals.length (evaluateCondition ops c) (b.execute true) (evaluateIncrement ops i)
        fuel σ').endScope σ.locals.length
  | .switch e cases, _, fuel, σ => attempt σ (e.evaluate ops σ) fun r =>
    cases.execute σ.locals.length fuel (r.2.declare switchVariableName r.1)
  | .continue, _, _, σ => .again σ
  | .empty, _, _, σ | .function _ _ _, _, _, σ | .class _ _ _, _, _, σ | .return _, _, _, σ => .done σ

/-- Declarations are executed one after the other. -/
def Stmts.execute : Stmts → Bool → Nat → Store V → Result V
  | .nil, _, _, σ => .done σ
  | .cons s ss, inScope, fuel, σ => (s.execute inScope fuel σ).andThen (ss.execute inScope fuel)

/-- The arms of a `switch` are tried; its value is the innermost local, behind `n` others. -/
def Cases.execute : Cases → Nat → Nat → Store V → Result V
  | .nil, n, _, σ => .done (σ.leave n)
  | .default body, n, fuel, σ => (body.execute true fuel σ).endScope n
  | .case label body rest, n, fuel, σ => attempt σ (label.evaluate ops σ) fun r =>
    attempt σ (ops.binary .equal (σ.top ops) r.1) fun same =>
      if ops.isFalsey same then rest.execute n fuel r.2 else (body.execute true fuel r.2).endScope n

end

end

/-! ### What expressions leave alone -/

/-- The same locals, up to their values, and the same output. -/
structure Store.Keeps (σ σ' : Store V) : Prop where
  names : σ'.locals.map Prod.fst = σ.locals.map Prod.fst
  output : σ'.output = σ.output

theorem Store.Keeps.refl (σ : Store V) : σ.Keeps σ := ⟨rfl, rfl⟩

theorem Store.Keeps.trans {σ σ' σ'' : Store V} (h : σ.Keeps σ') (h' : σ'.Keeps σ'') :
    σ.Keeps σ'' := ⟨h'.names.trans h.names, h'.output.trans h.output⟩

theorem Store.Keeps.length {σ σ' : Store V} (h : σ.Keeps σ') :
    σ'.locals.length = σ.locals.length := by
  have := congrArg List.length h.names
  rwa [List.length_map, List.length_map] at this

theorem map_fst_assignLocal {x : Bytes} {v : V} {locals locals' : List (Bytes × V)}
    (h : assignLocal x v locals = some locals') :
    locals'.map Prod.fst = locals.map Prod.fst := by
  induction locals generalizing locals' with
  | nil => cases h
  | cons entry locals ih =>
      obtain ⟨y, w⟩ := entry
      unfold assignLocal at h
      split at h
      · cases h
        rfl
      · obtain ⟨l, hl, rfl⟩ := Option.map_eq_some_iff.mp h
        rw [List.map_cons, List.map_cons, ih hl]

theorem Store.keeps_of_write {σ σ' : Store V} {x : Bytes} {v : V} (h : σ.write x v = .ok σ') :
    σ.Keeps σ' := by
  unfold write at h
  split at h
  · rename_i hlocal
    cases h
    exact ⟨map_fst_assignLocal hlocal, rfl⟩
  · dsimp only at h
    split at h
    · cases h
    · split at h
      · cases h
      · cases h
        exact ⟨rfl, rfl⟩

/-- An expression only writes to variables. -/
theorem Expr.evaluate_keeps (ops : Operations V) (e : Expr) :
    ∀ {σ : Store V} {r : V × Store V}, e.evaluate ops σ = .ok r → σ.Keeps r.2 := by
  intro σ r h
  cases e with
  | nil => cases h; exact .refl σ
  | boolean b => cases h; exact .refl σ
  | integer i => cases h; exact .refl σ
  | real bits => cases h; exact .refl σ
  | string s => cases h; exact .refl σ
  | «variable» x =>
      obtain ⟨v, -, h⟩ := Except.bind_eq_ok.mp h
      cases h
      exact .refl σ
  | assign x e =>
      obtain ⟨r', hr', h⟩ := Except.bind_eq_ok.mp h
      obtain ⟨σ', hwrite, h⟩ := Except.bind_eq_ok.mp h
      cases h
      exact (evaluate_keeps ops e hr').trans (Store.keeps_of_write hwrite)
  | not e =>
      obtain ⟨r', hr', h⟩ := Except.bind_eq_ok.mp h
      have hkeeps := evaluate_keeps ops e hr'
      cases h
      exact hkeeps
  | binary op left right =>
      obtain ⟨a, ha, h⟩ := Except.bind_eq_ok.mp h
      obtain ⟨b, hb, h⟩ := Except.bind_eq_ok.mp h
      obtain ⟨v, -, h⟩ := Except.bind_eq_ok.mp h
      have hkeeps := (evaluate_keeps ops left ha).trans (evaluate_keeps ops right hb)
      cases h
      exact hkeeps
  | and left right =>
      obtain ⟨a, ha, h⟩ := Except.bind_eq_ok.mp h
      have hleft := evaluate_keeps ops left ha
      split at h
      · cases h
        exact hleft
      · exact hleft.trans (evaluate_keeps ops right h)
  | or left right =>
      obtain ⟨a, ha, h⟩ := Except.bind_eq_ok.mp h
      have hleft := evaluate_keeps ops left ha
      split at h
      · exact hleft.trans (evaluate_keeps ops right h)
      · cases h
        exact hleft
  | _ => cases h

end CppLox
