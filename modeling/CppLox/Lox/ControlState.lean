import CppLox.Lox.Repl
import CppLox.VM.OpenUpvalues

/-!
# Lox — the control state between lines

After a line `run_repl` empties the stack and the frames, but not the list of open upvalues.  A line
that runs to its end leaves that list empty; one that is stopped by an error leaves it as it was at
the error.
-/

namespace CppLox

open VMM

/-- The control state of a freshly constructed machine. -/
def VM.ControlFresh (vm : VM) : Prop :=
  vm.stackTop = VM.initial.stackTop ∧ vm.frames = VM.initial.frames ∧
    vm.openUpvalues = VM.initial.openUpvalues

/-- No closure refers to a slot of the stack. -/
def VM.NoOpenUpvalue (vm : VM) : Prop :=
  ∀ (a : Addr) (n : Nat), vm.heap[a]? ≠ some (HeapObject.upvalue (.slot n))

/-- An error of the line is reported while no upvalue is open. -/
def FailsWithNoneOpen (_ : Session) (_ : Bytes) : LineEnd → Prop
  | .compileError | .ok => True
  | .runtimeError before => before.openUpvalues = []

namespace VM

variable (P : Platform)

/-- The parts of the machine that a registration leaves alone. -/
def SameControl (vm vm' : VM) : Prop :=
  vm'.stackTop = vm.stackTop ∧ vm'.frames = vm.frames ∧ vm'.openUpvalues = vm.openUpvalues ∧
    vm'.heap = vm.heap

theorem defineNativeFunction_done {i : Nat} {native : Native} {vm vm' : VM}
    (h : defineNativeFunction P i native vm = .done () vm') : SameControl vm vm' := by
  obtain ⟨_, vm₁, h₁, h⟩ := VMM.bind_done.mp h
  obtain ⟨_, vm₂, h₂, h⟩ := VMM.bind_done.mp h
  obtain ⟨_, vm₃, h₃, h⟩ := VMM.bind_done.mp h
  obtain ⟨_, vm₄, h₄, h⟩ := VMM.bind_done.mp h
  obtain ⟨_, vm₅, h₅, h⟩ := VMM.bind_done.mp h
  obtain ⟨_, vm₆, h₆, h⟩ := VMM.bind_done.mp h
  obtain ⟨_, vm₇, h₇, h⟩ := VMM.bind_done.mp h
  obtain ⟨_, vm₈, h₈, h⟩ := VMM.bind_done.mp h
  obtain ⟨-, -, rfl⟩ := pop_done h₇
  obtain ⟨-, -, rfl⟩ := pop_done h₈
  cases h
  cases h₆
  rw [peek_done h₅, stringOf_done h₄, peek_done h₃, push_done P h₂, push_done P h₁]
  exact ⟨rfl, rfl, rfl, rfl⟩

theorem registerFrom_done {i : Nat} {natives : List Native} {vm vm' : VM}
    (h : registerFrom P i natives vm = .done () vm') : SameControl vm vm' := by
  induction natives generalizing i vm with
  | nil =>
      cases h
      exact ⟨rfl, rfl, rfl, rfl⟩
  | cons native natives ih =>
      obtain ⟨_, vm₁, h₁, h⟩ := VMM.bind_done.mp h
      obtain ⟨htop, hframes, hopen, hheap⟩ := defineNativeFunction_done P h₁
      obtain ⟨htop', hframes', hopen', hheap'⟩ := ih h
      exact ⟨htop'.trans htop, hframes'.trans hframes, hopen'.trans hopen, hheap'.trans hheap⟩

instance (f : ObjectFunction) : Preserves KeepsListed (start P f) := by
  unfold start
  infer_instance

/-- The call of a script on an empty stack. -/
theorem start_done {f : ObjectFunction} {vm vm' : VM} (hfresh : vm.ControlFresh)
    (h : start P f vm = .done () vm') : BottomAtBase vm' := by
  obtain ⟨htop, hframes, -⟩ := hfresh
  obtain ⟨_, vm₁, h₁, h⟩ := VMM.bind_done.mp h
  obtain ⟨a, vm₂, h₂, h⟩ := VMM.bind_done.mp h
  obtain ⟨_, vm₃, h₃, h⟩ := VMM.bind_done.mp h
  obtain ⟨_, vm₄, h₄, h⟩ := VMM.bind_done.mp h
  have e₁ := push_done P h₁
  have e₂ := (allocate_done h₂).2
  have e₃ := (pop_done h₃).2.2
  have e₄ := push_done P h₄
  have hframes₄ : vm₄.frames = [] := by
    rw [e₄, e₃, e₂, e₁]
    exact hframes
  have htop₄ : vm₄.stackTop = 1 := by
    rw [e₄, e₃, e₂, e₁]
    change vm.stackTop + 1 - 1 + 1 = 1
    rw [htop]
    rfl
  rw [call_done h, BottomAtBase, hframes₄, htop₄]
  rfl

end VM

variable {P : Platform} {parseReal : ParseReal}

/-- What holds of the machine at the start of a line. -/
structure ReadyForLine (vm : VM) : Prop where
  fresh : vm.ControlFresh
  listed : VM.OpenListed vm

theorem ReadyForLine.noOpenUpvalue {vm : VM} (h : ReadyForLine vm) : vm.NoOpenUpvalue := by
  intro a n ha
  have hmem := h.listed a n ha
  rw [h.fresh.2.2] at hmem
  cases hmem

theorem readyForLine_registered {vm : VM}
    (h : VM.registerNativeFunctions P VM.initial = .done () vm) : ReadyForLine vm := by
  obtain ⟨htop, hframes, hopen, hheap⟩ := VM.registerFrom_done P h
  refine ⟨⟨htop, hframes, hopen⟩, fun a n ha => ?_⟩
  rw [hheap] at ha
  cases ha

/-- A line whose error, if any, is reported while no upvalue is open. -/
theorem readyForLine_cleared {σ σ' : Session} {line : Bytes} {e : LineEnd}
    (hσ : ReadyForLine σ.vm) (hrun : CompileAndExecute P parseReal σ line e σ')
    (hcond : FailsWithNoneOpen σ line e) : ReadyForLine σ'.cleared.vm := by
  cases hrun with
  | compileError hcompile => exact ⟨⟨rfl, rfl, hσ.fresh.2.2⟩, hσ.listed⟩
  | ok hcompile hstart hsteps hlast =>
      have hbottom := hsteps.bottomAtBase P
        (VM.start_done P (show (σ.compiled _).vm.ControlFresh from hσ.fresh) hstart)
      have hlisted := hsteps.openListed P
        ((inferInstance : Preserves VM.KeepsListed (VM.start P _)).done hstart hσ.listed)
      have hended := (inferInstance : Preserves VM.KeepsListed (VM.step P)).done hlast hlisted
      have hopen := VM.openUpvalues_of_ended P hlast hbottom
      exact ⟨⟨rfl, rfl, hopen⟩, hended⟩
  | runtimeError hcompile hstart hsteps hlast =>
      have hlisted := hsteps.openListed P
        ((inferInstance : Preserves VM.KeepsListed (VM.start P _)).done hstart hσ.listed)
      have hended := (inferInstance : Preserves VM.KeepsListed (VM.step P)).stopped hlast hlisted
      exact ⟨⟨rfl, rfl, (VM.openUpvalues_of_runtimeError P hlast).trans hcond⟩, hended⟩

/-- **A session starts each line afresh**: the control state at the start of each line is that of a
new machine, and no closure refers to a slot of the stack, in a session in which every error is
reported while no upvalue is open.  The condition is there since `run_repl` clears the stack and the
frames after a line, and nothing clears `open_upvalues`; a line that ends without an error closes
its upvalues itself. -/
theorem repl_control_state {σ : Session} (h : Repl P parseReal FailsWithNoneOpen σ) :
    σ.vm.ControlFresh ∧ σ.vm.NoOpenUpvalue := by
  suffices hready : ReadyForLine σ.vm from ⟨hready.fresh, hready.noOpenUpvalue⟩
  induction h with
  | first hregister => exact readyForLine_registered hregister
  | next _ _ hrun hcond ih => exact readyForLine_cleared ih hrun hcond

/-- A parser of reals that accepts none. -/
def noReals : ParseReal := fun _ => none

/-- A session of one line, on a machine without native functions. -/
theorem Repl.single {C : Session → Bytes → LineEnd → Prop} {fuel : Nat} {line : Bytes}
    {r : LineEnd × Session} (hline : line ≠ [] ∧ line ≠ ascii ['e', 'x', 'i', 't'])
    (hrun : runLine barePlatform noReals fuel ⟨VM.initial, 0⟩ line = some r)
    (hcond : C ⟨VM.initial, 0⟩ line r.1) : Repl barePlatform noReals C r.2.cleared :=
  .next (.first rfl) hline (compileAndExecute_of_runLine hrun) hcond

/-- The line ends with a runtime error that is reported while no upvalue is open. -/
def LineEnd.failsWithNoneOpen : LineEnd → Bool
  | .runtimeError before => before.openUpvalues.isEmpty
  | _ => false

/-- A session whose line `nil();` fails. -/
theorem repl_control_state_nil : ∃ σ : Session,
    Repl barePlatform noReals FailsWithNoneOpen σ ∧ σ.vm.ControlFresh ∧ σ.vm.NoOpenUpvalue := by
  have hrun : (runLine barePlatform noReals 20 ⟨VM.initial, 0⟩
      (ascii ['n', 'i', 'l', '(', ')', ';'])).any (fun r => r.1.failsWithNoneOpen) = true := by
    decide +kernel
  obtain ⟨⟨e, σ⟩, hrun, hfails⟩ := (Option.any_eq_true _ _).mp hrun
  have hcond : FailsWithNoneOpen ⟨VM.initial, 0⟩ (ascii ['n', 'i', 'l', '(', ')', ';']) e := by
    cases e with
    | compileError => trivial
    | ok => trivial
    | runtimeError before => exact List.isEmpty_iff.mp hfails
  have hrepl : Repl barePlatform noReals FailsWithNoneOpen σ.cleared :=
    Repl.single (by decide) hrun hcond
  exact ⟨σ.cleared, hrepl, repl_control_state hrepl⟩

/-- A captured variable of a scope that an error leaves: `{var a; fun f(){a;} nil();}`. -/
def openUpvalueLine : Bytes :=
  ascii ['{', 'v', 'a', 'r', ' ', 'a', ';', 'f', 'u', 'n', ' ', 'f', '(', ')', '{', 'a', ';', '}',
    'n', 'i', 'l', '(', ')', ';', '}']

/-- An error leaves an upvalue open for the next line. -/
theorem repl_open_upvalue : ¬ ∀ (P : Platform) (parseReal : ParseReal) (σ : Session),
    Repl P parseReal (fun _ _ _ => True) σ → σ.vm.ControlFresh ∧ σ.vm.NoOpenUpvalue := by
  intro hall
  have hrun : (runLine barePlatform noReals 40 ⟨VM.initial, 0⟩ openUpvalueLine).any
      (fun r => !r.2.vm.openUpvalues.isEmpty) = true := by
    decide +kernel
  obtain ⟨⟨e, σ⟩, hrun, hopen⟩ := (Option.any_eq_true _ _).mp hrun
  have hrepl : Repl barePlatform noReals (fun _ _ _ => True) σ.cleared :=
    Repl.single (by decide) hrun trivial
  have hnil : σ.vm.openUpvalues = [] := (hall _ _ _ hrepl).1.2.2
  rw [hnil] at hopen
  cases hopen

end CppLox
