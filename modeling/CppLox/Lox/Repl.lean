import CppLox.Compiler.Statements
import CppLox.VM.Run

/-!
# Lox — the session

`Lox::run_repl` and `Lox::compile_and_execute` (`src/lox/lox.cpp`).  All lines of a session share
the table of globals and the machine.  A C++ exception, the native function `exit`, a line that does
not end and undefined behaviour end the session: there is no next line.
-/

namespace CppLox

/-- What the lines of a session share: the machine with the table of globals, and the address the
next function is allocated at. -/
structure Session where
  vm : VM
  nextAddress : Addr

/-- How a line ends: `COMPILE_ERROR`, `OK`, or `RUNTIME_ERROR` with the machine before the
instruction that reports it. -/
inductive LineEnd where
  | compileError
  | ok
  | runtimeError (before : VM)

/-- The session after the compilation of a line. -/
def Session.compiled (σ : Session) (s : CompilerState) : Session :=
  ⟨{ σ.vm with context := s.context }, s.nextAddress⟩

/-- `vm.clear_evaluation_stack()` and `vm.clear_frames()`. -/
def Session.cleared (σ : Session) : Session :=
  { σ with vm := σ.vm.clearEvaluationStack.clearFrames }

variable (P : Platform) (parseReal : ParseReal)

/-- `Lox::compile_and_execute`. -/
inductive CompileAndExecute : Session → Bytes → LineEnd → Session → Prop where
  | compileError {σ : Session} {line : Bytes} {fuel : Nat} {s : CompilerState}
      (hcompile : Compiler.compile parseReal fuel line σ.vm.context σ.nextAddress = .ok (none, s)) :
      CompileAndExecute σ line .compileError (σ.compiled s)
  | ok {σ : Session} {line : Bytes} {fuel : Nat} {f : ObjectFunction} {s : CompilerState}
      {vm vm₁ vm' : VM}
      (hcompile : Compiler.compile parseReal fuel line σ.vm.context σ.nextAddress = .ok (some f, s))
      (hstart : VM.start P f (σ.compiled s).vm = .done () vm) (hsteps : VM.Steps P vm vm₁)
      (hlast : VM.step P vm₁ = .done true vm') :
      CompileAndExecute σ line .ok ⟨vm', s.nextAddress⟩
  | runtimeError {σ : Session} {line : Bytes} {fuel : Nat} {f : ObjectFunction} {s : CompilerState}
      {vm vm₁ vm' : VM} {message : Option String}
      (hcompile : Compiler.compile parseReal fuel line σ.vm.context σ.nextAddress = .ok (some f, s))
      (hstart : VM.start P f (σ.compiled s).vm = .done () vm) (hsteps : VM.Steps P vm vm₁)
      (hlast : VM.step P vm₁ = .stopped (.runtimeError message) vm') :
      CompileAndExecute σ line (.runtimeError vm₁) ⟨vm', s.nextAddress⟩

/-- A line is accepted, and the machine is about to execute its first instruction. -/
def Started (σ : Session) (line : Bytes) (vm : VM) : Prop :=
  ∃ fuel f s, Compiler.compile parseReal fuel line σ.vm.context σ.nextAddress = .ok (some f, s) ∧
    VM.start P f (σ.compiled s).vm = .done () vm

/-- The sessions at the start of a line of `Lox::run_repl`, when every line so far satisfies `C`. -/
inductive Repl (C : Session → Bytes → LineEnd → Prop) : Session → Prop where
  | first {vm : VM} {nextAddress : Addr}
      (hregister : VM.registerNativeFunctions P VM.initial = .done () vm) :
      Repl C ⟨vm, nextAddress⟩
  | next {σ σ' : Session} {line : Bytes} {e : LineEnd} (hσ : Repl C σ)
      (hline : line ≠ [] ∧ line ≠ ascii ['e', 'x', 'i', 't'])
      (hrun : CompileAndExecute P parseReal σ line e σ') (hcond : C σ line e) :
      Repl C σ'.cleared

/-- A line with `fuel` for the compiler and for the machine. -/
def runLine (fuel : Nat) (σ : Session) (line : Bytes) : Option (LineEnd × Session) :=
  match Compiler.compile parseReal fuel line σ.vm.context σ.nextAddress with
  | .error _ => none
  | .ok (none, s) => some (.compileError, σ.compiled s)
  | .ok (some f, s) =>
    match VM.start P f (σ.compiled s).vm with
    | .stopped _ _ => none
    | .done () vm =>
      match VM.executeFuel P fuel vm with
      | some (none, _, vm') => some (.ok, ⟨vm', s.nextAddress⟩)
      | some (some (.runtimeError _), vm₁, vm') => some (.runtimeError vm₁, ⟨vm', s.nextAddress⟩)
      | _ => none

/-- The machine before the first instruction of a line, with `fuel` for the compiler. -/
def startLine (fuel : Nat) (σ : Session) (line : Bytes) : Option VM :=
  match Compiler.compile parseReal fuel line σ.vm.context σ.nextAddress with
  | .ok (some f, s) =>
    match VM.start P f (σ.compiled s).vm with
    | .done () vm => some vm
    | .stopped _ _ => none
  | _ => none

variable {P parseReal}

theorem started_of_startLine {fuel : Nat} {σ : Session} {line : Bytes} {vm : VM}
    (h : startLine P parseReal fuel σ line = some vm) : Started P parseReal σ line vm := by
  unfold startLine at h
  split at h
  · rename_i f s hcompile
    split at h
    · rename_i hstart
      cases h
      exact ⟨fuel, f, s, hcompile, hstart⟩
    · cases h
  · cases h

theorem compileAndExecute_of_runLine {fuel : Nat} {σ σ' : Session} {line : Bytes} {e : LineEnd}
    (h : runLine P parseReal fuel σ line = some (e, σ')) :
    CompileAndExecute P parseReal σ line e σ' := by
  unfold runLine at h
  split at h
  · cases h
  · rename_i s hcompile
    cases h
    exact .compileError hcompile
  · rename_i f s hcompile
    split at h
    · cases h
    · rename_i vm hstart
      split at h
      · rename_i vm₁ vm' hexecute
        cases h
        obtain ⟨hsteps, hlast⟩ := VM.steps_of_executeFuel hexecute
        exact .ok hcompile hstart hsteps hlast
      · rename_i message vm₁ vm' hexecute
        cases h
        obtain ⟨hsteps, hlast⟩ := VM.steps_of_executeFuel hexecute
        exact .runtimeError hcompile hstart hsteps hlast
      · cases h

end CppLox
