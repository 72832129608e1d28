import CppLox.VM.Preserves
import Mathlib.Logic.Relation

/-!
# Virtual machine — runs

The construction of `VM`, the registration of the native functions, and `VM::run`: a function is
called on an empty stack and its instructions are executed until the script returns or an
instruction is stopped.
-/

namespace CppLox

open VMM

namespace VM

variable (P : Platform)

/-- The constructor of `VM`, with an empty table of globals. -/
def initial : VM where
  stack := fun _ => .nil false
  stackTop := 0
  frames := []
  openUpvalues := []
  heap := []
  context := Context.empty
  output := []

/-- A native function becomes the value of a global. -/
def defineGlobalValue (name : Bytes) (v : Value) : VMM Unit := modify fun vm =>
  let (index, context) := vm.context.getGlobal name
  { vm with context := context.modify index fun global =>
      { global with value := v, initialized := true, defined := true, isCreatedByRuntime := true } }

def defineNativeFunction (i : Nat) (native : Native) : VMM Unit := do
  push P (.ofString native.name)
  push P (.object (.native i))
  let name ← stringOf (← peek 1)
  let v ← peek 0
  defineGlobalValue name v
  let _ ← pop
  let _ ← pop

/-- The native functions from native function `i` on. -/
def registerFrom : Nat → List Native → VMM Unit
  | _, [] => pure ()
  | i, native :: natives => do
    defineNativeFunction P i native
    registerFrom (i + 1) natives

/-- `VM::register_native_functions`. -/
def registerNativeFunctions : VMM Unit := registerFrom P 0 P.natives

/-- `VM::run` up to the call of `execute`. -/
def start (function : ObjectFunction) : VMM Unit := do
  push P (.object (.function function))
  let closure ← newClosure function
  let _ ← pop
  push P (.ofAddr closure)
  call (closure, function) 0

/-- One instruction after which the script has not ended. -/
def Step (vm vm' : VM) : Prop := step P vm = .done false vm'

/-- Instructions one after the other. -/
def Steps : VM → VM → Prop := Relation.ReflTransGen (Step P)

def clearEvaluationStack (vm : VM) : VM := { vm with stackTop := 0 }

def clearFrames (vm : VM) : VM := { vm with frames := [] }

/-- The machine executes instructions before it gives up `fuel` of them: the interrupt, if any, with
the machine before the last instruction and after it. -/
def executeFuel : Nat → VM → Option (Option Interrupt × VM × VM)
  | 0, _ => none
  | fuel + 1, vm =>
    match step P vm with
    | .done true vm' => some (none, vm, vm')
    | .done false vm' => executeFuel fuel vm'
    | .stopped i vm' => some (some i, vm, vm')

/-- The outcome of the last instruction. -/
def lastOutcome : Option Interrupt → VM → Outcome Bool
  | none, vm => .done true vm
  | some i, vm => .stopped i vm

theorem steps_of_executeFuel {P : Platform} {fuel : Nat} {vm vm₁ vm' : VM} {r : Option Interrupt}
    (h : executeFuel P fuel vm = some (r, vm₁, vm')) :
    Steps P vm vm₁ ∧ step P vm₁ = lastOutcome r vm' := by
  induction fuel generalizing vm with
  | zero => cases h
  | succ fuel ih =>
      unfold executeFuel at h
      split at h
      · rename_i heq
        cases h
        exact ⟨.refl, heq⟩
      · rename_i vm₂ heq
        obtain ⟨hsteps, hlast⟩ := ih h
        exact ⟨.head heq hsteps, hlast⟩
      · rename_i heq
        cases h
        exact ⟨.refl, heq⟩

/-- The states of a run of at most `fuel` instructions that comes to an end. -/
def trace : Nat → VM → Option (List VM)
  | 0, _ => none
  | fuel + 1, vm =>
    match step P vm with
    | .done false vm' => (trace fuel vm').map (vm :: ·)
    | _ => some [vm]

theorem mem_of_trace {P : Platform} {fuel : Nat} {vm vm' : VM} {states : List VM}
    (h : trace P fuel vm = some states) (hsteps : Steps P vm vm') : vm' ∈ states := by
  induction fuel generalizing vm states with
  | zero => cases h
  | succ fuel ih =>
      unfold trace at h
      rcases Relation.ReflTransGen.cases_head hsteps with rfl | ⟨vm₁, hstep, hsteps'⟩
      · split at h
        · obtain ⟨states', -, rfl⟩ := Option.map_eq_some_iff.mp h
          exact List.mem_cons_self
        · cases h
          exact List.mem_singleton_self _
      · rw [show step P vm = .done false vm₁ from hstep] at h
        obtain ⟨states', hstates, rfl⟩ := Option.map_eq_some_iff.mp h
        exact List.mem_cons_of_mem _ (ih hstates hsteps')

/-- The machine after `n` instructions, when it passes a test before each of them. -/
def stepsWhile (test : VM → Bool) : Nat → VM → Option VM
  | 0, vm => some vm
  | n + 1, vm =>
    match test vm, step P vm with
    | true, .done false vm' => stepsWhile test n vm'
    | _, _ => none

theorem tested_of_stepsWhile {P : Platform} {test : VM → Bool} {n : Nat} {vm vm' : VM}
    (h : stepsWhile P test n vm = some vm') :
    Relation.ReflTransGen (fun v v' => test v = true ∧ Step P v v') vm vm' := by
  induction n generalizing vm with
  | zero =>
      cases h
      exact .refl
  | succ n ih =>
      unfold stepsWhile at h
      split at h
      · rename_i vm₁ htest hstep
        exact .head ⟨htest, hstep⟩ (ih h)
      · cases h

theorem step_of_stepsWhile_one {P : Platform} {test : VM → Bool} {vm vm' : VM}
    (h : stepsWhile P test 1 vm = some vm') : test vm = true ∧ Step P vm vm' := by
  unfold stepsWhile at h
  split at h
  · rename_i htest hstep
    cases h
    exact ⟨htest, hstep⟩
  · cases h

theorem steps_of_tested {P : Platform} {test : VM → Bool} {vm vm' : VM}
    (h : Relation.ReflTransGen (fun v v' => test v = true ∧ Step P v v') vm vm') :
    Steps P vm vm' := Relation.ReflTransGen.mono (fun _ _ hstep => hstep.2) vm vm' h

end VM

/-- A machine with the default size of the stack and without native functions. -/
def barePlatform : Platform := ⟨1024, fun _ => 0, [], fun _ => []⟩

end CppLox
