import CppLox.Compiler.ProgramCode
import CppLox.Lox.ControlState
import CppLox.Semantics.Statements

/-!
# Lox — the meaning of a line

A line whose program is structured does what the evaluator does: the machine comes to the end of the
script, is stopped by an error or runs on as the evaluator is done, fails or uses up all fuel, and the
globals and the output are those of the evaluator.  The stack has a limit that the evaluator does not
know.
-/

namespace CppLox

open VMM VM SmallStep

namespace VM

variable (P : Platform)

theorem step_deterministic : Deterministic (Step P) := by
  intro vm vm₁ vm₂ h₁ h₂
  cases Eq.trans (Eq.symm h₁) h₂
  rfl

theorem final_of_ended {vm vm' : VM} (h : step P vm = .done true vm') : Final (Step P) vm := by
  intro vm₁ hstep
  cases Eq.trans (Eq.symm h) hstep

theorem final_of_stopped {i : Interrupt} {vm vm' : VM} (h : step P vm = .stopped i vm') :
    Final (Step P) vm := by
  intro vm₁ hstep
  cases Eq.trans (Eq.symm h) hstep

/-- The variables of a script before its first instruction. -/
def store (vm : VM) : Store Value :=
  ⟨vm.context.cell, [(slotZeroName .script, vm.stack 0)], vm.output⟩

/-- A run from a machine agrees with an evaluator: it ends, is stopped and goes on for ever as the
evaluator does. -/
structure Agrees (vm : VM) (r : Nat → Result Value) : Prop where
  ends : ∀ globals output,
    (∃ vm₁ vm', Steps P vm vm₁ ∧ step P vm₁ = .done true vm' ∧ vm'.context.cell = globals ∧
      vm'.output = output) ↔
    ∃ n σ, r n = .done σ ∧ σ.globals = globals ∧ σ.output = output
  stops : ∀ i output,
    (∃ vm₁ vm', Steps P vm vm₁ ∧ step P vm₁ = .stopped i vm' ∧ vm'.output = output) ↔
    ∃ n fault, r n = .failed fault output ∧ i = .runtimeError (some fault.message)
  goesOn : (∀ vm₁, Steps P vm vm₁ → ∃ vm₂, Step P vm₁ vm₂) ↔ ∀ n, ∃ output, r n = .outOfFuel output
  lasts : ∀ n output, r n = .outOfFuel output → Lasts (Step P) (fun vm' => vm'.output = output) n vm

/-- A run of a script does what the evaluator does with some fuel. -/
def Concludes (S : Script) (vm : VM) (n : Nat) : Result Value → Prop
  | .done σ => Reaches (Step P) vm fun vm₁ =>
      ∃ vm', step P vm₁ = .done true vm' ∧ vm'.context.cell = σ.globals ∧ S.Leaves σ.output vm'
  | .again _ => False
  | .failed fault output => Reaches (Step P) vm (S.Reporting P fault output)
  | .outOfFuel output => Lasts (Step P) (fun vm' => vm'.output = output) n vm

section

variable {P} {S : Script} {vm vm₁ vm' : VM} {r : Nat → Result Value}

/-- When a run comes to an end, the evaluator is done or fails with some fuel, at that end. -/
theorem exists_of_concludes (h : ∀ n, Concludes P S vm n (r n)) (hsteps : Steps P vm vm₁)
    (hfinal : Final (Step P) vm₁) :
    (∃ n σ, r n = .done σ ∧ ∃ vm', step P vm₁ = .done true vm' ∧ vm'.context.cell = σ.globals ∧
      S.Leaves σ.output vm') ∨
    ∃ n fault output, r n = .failed fault output ∧ S.Reporting P fault output vm₁ := by
  obtain ⟨n, hn⟩ := (step_deterministic P).not_lasts hsteps hfinal
  have hr := h n
  cases hrn : r n with
  | done σ =>
      rw [hrn] at hr
      obtain ⟨vm₂, hsteps₂, vm', hended, hsame⟩ := hr
      obtain rfl := (step_deterministic P).final_unique hsteps hfinal hsteps₂ (final_of_ended P hended)
      exact .inl ⟨n, σ, hrn, vm', hended, hsame⟩
  | again σ =>
      rw [hrn] at hr
      exact hr.elim
  | failed fault output =>
      rw [hrn] at hr
      obtain ⟨vm₂, hsteps₂, vm', hstopped, hsame⟩ := hr
      obtain rfl :=
        (step_deterministic P).final_unique hsteps hfinal hsteps₂ (final_of_stopped P hstopped)
      exact .inr ⟨n, fault, output, hrn, vm', hstopped, hsame⟩
  | outOfFuel output =>
      rw [hrn] at hr
      exact absurd hr (hn _)

/-- The machine after the last instruction of a run. -/
theorem leaves_of_ended (h : ∀ n, Concludes P S vm n (r n)) (hsteps : Steps P vm vm₁)
    (hended : step P vm₁ = .done true vm') : S.Leaves vm'.output vm' := by
  rcases exists_of_concludes h hsteps (final_of_ended P hended) with
    ⟨n, σ, -, vm₂, hended₂, -, hleaves⟩ | ⟨n, fault, output, -, vm₂, hstopped, -⟩
  · cases Eq.trans (Eq.symm hended) hended₂
    exact ⟨rfl, hleaves.heap, hleaves.openUpvalues⟩
  · cases Eq.trans (Eq.symm hended) hstopped

theorem leaves_of_stopped {i : Interrupt} (h : ∀ n, Concludes P S vm n (r n))
    (hsteps : Steps P vm vm₁) (hstopped : step P vm₁ = .stopped i vm') :
    S.Leaves vm'.output vm' := by
  rcases exists_of_concludes h hsteps (final_of_stopped P hstopped) with
    ⟨n, σ, -, vm₂, hended, -⟩ | ⟨n, fault, output, -, vm₂, hstopped₂, hleaves⟩
  · cases Eq.trans (Eq.symm hstopped) hended
  · cases Eq.trans (Eq.symm hstopped) hstopped₂
    exact ⟨rfl, hleaves.heap, hleaves.openUpvalues⟩

theorem Agrees.of_concludes (h : ∀ n, Concludes P S vm n (r n)) : Agrees P vm r where
  ends := by
    intro globals output
    constructor
    · rintro ⟨vm₁, vm', hsteps, hended, rfl, rfl⟩
      rcases exists_of_concludes h hsteps (final_of_ended P hended) with
        ⟨n, σ, hr, vm₂, hended₂, hglobals, hleaves⟩ | ⟨n, fault, output, -, vm₂, hstopped, -⟩
      · cases Eq.trans (Eq.symm hended) hended₂
        exact ⟨n, σ, hr, hglobals.symm, hleaves.output.symm⟩
      · cases Eq.trans (Eq.symm hended) hstopped
    · rintro ⟨n, σ, hr, rfl, rfl⟩
      have hdone := h n
      rw [hr] at hdone
      obtain ⟨vm₁, hsteps, vm', hended, hglobals, hleaves⟩ := hdone
      exact ⟨vm₁, vm', hsteps, hended, hglobals, hleaves.output⟩
  stops := by
    intro i output
    constructor
    · rintro ⟨vm₁, vm', hsteps, hstopped, rfl⟩
      rcases exists_of_concludes h hsteps (final_of_stopped P hstopped) with
        ⟨n, σ, -, vm₂, hended, -⟩ | ⟨n, fault, output, hr, vm₂, hstopped₂, hleaves⟩
      · cases Eq.trans (Eq.symm hstopped) hended
      · cases Eq.trans (Eq.symm hstopped) hstopped₂
        rw [← hleaves.output] at hr
        exact ⟨n, fault, hr, rfl⟩
    · rintro ⟨n, fault, hr, rfl⟩
      have hfailed := h n
      rw [hr] at hfailed
      obtain ⟨vm₁, hsteps, vm', hstopped, hleaves⟩ := hfailed
      exact ⟨vm₁, vm', hsteps, hstopped, hleaves.output⟩
  goesOn := by
    constructor
    · intro hgoes n
      have hr := h n
      cases hrn : r n with
      | done σ =>
          rw [hrn] at hr
          obtain ⟨vm₁, hsteps, vm', hended, -⟩ := hr
          obtain ⟨vm₂, hstep⟩ := hgoes vm₁ hsteps
          exact absurd hstep (final_of_ended P hended vm₂)
      | again σ =>
          rw [hrn] at hr
          exact hr.elim
      | failed fault output =>
          rw [hrn] at hr
          obtain ⟨vm₁, hsteps, vm', hstopped, -⟩ := hr
          obtain ⟨vm₂, hstep⟩ := hgoes vm₁ hsteps
          exact absurd hstep (final_of_stopped P hstopped vm₂)
      | outOfFuel output => exact ⟨output, rfl⟩
    · intro hfuel vm₁ hsteps
      by_contra hnone
      obtain ⟨n, hn⟩ := (step_deterministic P).not_lasts hsteps fun vm₂ hstep => hnone ⟨vm₂, hstep⟩
      obtain ⟨output, hr⟩ := hfuel n
      have hlasts := h n
      rw [hr] at hlasts
      exact hn _ hlasts
  lasts := by
    intro n output hr
    have hlasts := h n
    rwa [hr] at hlasts

end

end VM

/-! ### The end of a script -/

namespace Script

section

variable {P : Platform} {S : Script} {ip : Nat} {vs : List Value} {v w : Value}
  {g : Bytes → Cell Value} {out : Bytes} {vm : VM}

/-- At its `RETURN` the script ends. -/
theorem Shows.ends (h : S.Shows P ⟨ip, vs ++ [w, v], g, out⟩ vm)
    (hcode : S.HasBytes ip [OpCode.return.toByte]) :
    ∃ vm', step P vm = .done true vm' ∧ vm'.context.cell = g ∧ S.Leaves out vm' := by
  have hread := readByte_apply (h.ahead hcode)
  have hshows := h.advance 1
  unfold step
  rw [VMM.bind_of_done hread, OpCode.ofByte_toByte]
  change ∃ vm', executeReturn P (vm.advance 1) = _ ∧ _
  generalize vm.advance 1 = vm₁ at hshows
  obtain ⟨a, hframes⟩ := hshows.frames
  have honTop : vm₁.OnTop (v :: w :: vs.reverse) := hshows.onTop_append
  have hframe : currentFrame { vm₁ with stackTop := vm₁.stackTop - 1 } = _ :=
    currentFrame_apply hframes
  -- no upvalue is open
  have hclose : closeUpvalues P 0 { vm₁ with stackTop := vm₁.stackTop - 1 } =
      .done () { vm₁ with stackTop := vm₁.stackTop - 1, openUpvalues := [] } := by
    change closeUpvaluesFrom P 0 vm₁.openUpvalues _ = _
    rw [hshows.openUpvalues]
    rfl
  unfold executeReturn
  rw [VMM.bind_of_done (pop_apply honTop), VMM.bind_of_done hframe, VMM.bind_of_done hclose]
  change ∃ vm', (if vm₁.frames.tail.isEmpty then _ else _ : VMM Bool) _ = _ ∧ _
  rw [if_pos (show vm₁.frames.tail.isEmpty = true by rw [hframes]; rfl)]
  -- the closure of the script
  have hlast := pop_apply (⟨honTop.tail.length, honTop.tail.slot⟩ : VM.OnTop { vm₁ with
    stackTop := vm₁.stackTop - 1, openUpvalues := [], frames := vm₁.frames.tail } (w :: vs.reverse))
  change ∃ vm', (pop >>= fun _ => pure true) { vm₁ with
    stackTop := vm₁.stackTop - 1, openUpvalues := [], frames := vm₁.frames.tail } = _ ∧ _
  rw [VMM.bind_of_done hlast]
  exact ⟨_, rfl, funext hshows.globals, hshows.output, hshows.heap, rfl⟩

/-- The code at the end of a script returns `nil`; the closure of the script is below. -/
theorem reaches_end {σ : Store Value} (hlocals : σ.locals ≠ [])
    (hcode : S.Has ip (returnCode .script)) (h : S.Shows P (σ.config ip []) vm) :
    Reaches (Step P) vm fun vm₁ =>
      (∃ vm', step P vm₁ = .done true vm' ∧ vm'.context.cell = σ.globals ∧ S.Leaves σ.output vm') ∨
        Overflowing P vm₁ := by
  have hcode : S.Has ip ([.op .nil] ++ [.op .return]) := hcode
  obtain hnil | ⟨vs, w, hvalues⟩ := List.eq_nil_or_concat' σ.values
  · rw [Store.values, List.reverse_eq_nil_iff, List.map_eq_nil_iff] at hnil
    exact absurd hnil hlocals
  refine (@leads_push P S σ ip [] _ .nil hcode.left rfl (by decide) vm h).mono fun vm₁ h₁ => ?_
  rcases h₁ with hshows | hfull
  · rw [Store.config, hvalues, List.append_assoc] at hshows
    exact .inl (hshows.ends hcode.right)
  · exact .inr hfull

end

/-! ### The start of a script -/

section

variable {P : Platform} {f : ObjectFunction} {vm vm' : VM}

/-- A script that is called on an empty stack. -/
theorem shows_started (hfresh : vm.ControlFresh) (h : start P f vm = .done () vm') :
    Shows P ⟨f, vm'.heap, vm'.context.names⟩ (vm'.store.config 0 []) vm' ∧
      vm'.context = vm.context ∧
      vm'.heap = vm.heap ++ [.closure f (List.replicate f.upvalueCount none)] := by
  obtain ⟨htop, hframes, hopen⟩ := hfresh
  obtain ⟨_, vm₁, h₁, h⟩ := VMM.bind_done.mp h
  obtain ⟨a, vm₂, h₂, h⟩ := VMM.bind_done.mp h
  obtain ⟨_, vm₃, h₃, h⟩ := VMM.bind_done.mp h
  obtain ⟨_, vm₄, h₄, h⟩ := VMM.bind_done.mp h
  have htop : vm.stackTop = 0 := htop
  have hroom : 1 ≤ P.capacity := by
    by_contra hnone
    change (if vm.stackTop = P.capacity then throwException _ else _ : VMM Unit) vm = _ at h₁
    rw [if_pos (by omega)] at h₁
    cases h₁
  have e₁ := push_done P h₁
  have e₂ := (allocate_done h₂).2
  have e₃ := (pop_done h₃).2.2
  have e₄ := push_done P h₄
  have e₅ := call_done h
  subst e₁ e₂ e₃ e₄ e₅
  have htop' : vm.stackTop + 1 - 1 + 1 = 1 := by omega
  refine ⟨?_, rfl, rfl⟩
  exact {
    frames := ⟨a, by
      change [⟨a, f, 0, vm.stackTop + 1 - 1 + 1 - 0 - 1⟩] ++ vm.frames = _
      rw [htop', hframes]
      rfl⟩
    stackTop := htop'
    slot := fun i v hi => by
      obtain ⟨hlt, hv⟩ := List.getElem?_eq_some_iff.mp hi
      obtain rfl : i = 0 := Nat.lt_one_iff.mp hlt
      exact hv
    room := htop'.le.trans hroom
    openUpvalues := hopen
    heap := rfl
    names := rfl
    globals := fun _ => rfl
    output := rfl }

end

end Script

/-! ### A line -/

section

variable {P : Platform} {parseReal : ParseReal} {program : Stmts}
  {f : ObjectFunction} {names : List Bytes} {vm vm' : VM}

/-- What is reached, where the stack does not overflow. -/
theorem reaches_of_or {Q : VM → Prop} (hroom : ¬ Reaches (Step P) vm (Script.Overflowing P))
    (h : Reaches (Step P) vm fun vm₁ => Q vm₁ ∨ Script.Overflowing P vm₁) :
    Reaches (Step P) vm Q := by
  obtain ⟨vm₁, hsteps, hQ | hfull⟩ := h
  · exact ⟨vm₁, hsteps, hQ⟩
  · exact absurd ⟨vm₁, hsteps, hfull⟩ hroom

/-- The code of a structured program does what the evaluator does. -/
theorem concludes_program (hcode : ProgramCode vm'.context.names program f)
    (hs : program.structured = true) (hfew : vm'.context.names.length ≤ 0x10000)
    (hfresh : vm.ControlFresh) (hheap : vm.heap.OnlyClosures)
    (hstart : start P f vm = .done () vm')
    (hroom : ¬ Reaches (Step P) vm' (Script.Overflowing P)) (n : Nat) :
    Concludes P ⟨f, vm'.heap, vm'.context.names⟩ vm' n (program.execute (Value.operations P vm'.heap) false n vm'.store) := by
  obtain ⟨hshows, -, hheap'⟩ := Script.shows_started hfresh hstart
  obtain ⟨-, -, -, zero, is, Γ, hzero, hcode, hf⟩ := hcode
  have hS : Script.Of ⟨f, vm'.heap, vm'.context.names⟩
      ⟨.script, f.constants, [], [], vm'.context.names⟩ := by
    refine ⟨rfl, rfl, rfl, hfew, fun o ho => ?_⟩
    rw [hheap', List.mem_append, List.mem_singleton] at ho
    rcases ho with ho | rfl
    · exact hheap o ho
    · rfl
  have hhas : Script.Has ⟨f, vm'.heap, vm'.context.names⟩ 0 (is ++ returnCode .script) := by
    change encodeAll (is ++ returnCode .script) <+: f.code
    rw [hf]
  have hnames : Store.Names [zero] vm'.store := congrArg (fun x => [x]) hzero.symm
  have hrun := Script.simulates_stmts (P := P) hS program hs rfl hcode hhas.left
    (Δ := []) (fun l hl => by cases hl) (iff_of_false Bool.false_ne_true (fun h => h rfl)) hnames n
  generalize program.execute (Value.operations P vm'.heap) false n vm'.store = r at hrun
  cases r with
  | done σ =>
      obtain ⟨hleads, hnames'⟩ := hrun
      have hlength := (Script.stmtsCode_extends program hs hcode).length_le
      have hlocals : σ.locals ≠ [] := by
        rw [← List.length_pos_iff, hnames'.length]
        exact hlength
      refine reaches_of_or hroom ((hleads vm' hshows).bind fun vm₁ h₁ => ?_)
      rcases h₁ with hshows₁ | hfull
      · exact Script.reaches_end hlocals hhas.right hshows₁
      · exact .of (.inr hfull)
  | again σ =>
      obtain ⟨l, hl, -⟩ := hrun
      cases hl
  | failed fault output => exact reaches_of_or hroom (hrun vm' hshows)
  | outOfFuel output => exact (hrun vm' hshows).resolve_right hroom

/-- A run that ends otherwise does not overflow the stack. -/
theorem not_overflowing {vm₁ : VM} (hsteps : Steps P vm vm₁) (hfinal : Final (Step P) vm₁)
    (hlast : ¬ Script.Overflowing P vm₁) : ¬ Reaches (Step P) vm (Script.Overflowing P) := by
  rintro ⟨vm₂, hsteps₂, vm', hfull⟩
  obtain rfl :=
    (step_deterministic P).final_unique hsteps hfinal hsteps₂ (final_of_stopped P hfull)
  exact hlast ⟨vm', hfull⟩

end

/-! ### Sessions -/

/-- The program of a line is in the fragment of the evaluator.  Strings are their bytes here and in the
evaluator; two strings with a NUL byte may be interned as one, so a line has none. -/
structure InFragment (line : Bytes) (program : Stmts) : Prop where
  structured : program.structured = true
  noNul : 0 ∉ line

/-- A line that is accepted only if its program is in the fragment and there are not too many globals. -/
def StructuredLine (parseReal : ParseReal) (σ : Session) (line : Bytes) (_ : LineEnd) : Prop :=
  ∀ fuel f s, Compiler.compile parseReal fuel line σ.vm.context σ.nextAddress = .ok (some f, s) →
    ∃ program, Syntax.parse parseReal fuel line = some program ∧ InFragment line program ∧
      s.context.names.length ≤ 0x10000

/-- The machine between lines whose programs are structured. -/
structure ReadyForScript (vm : VM) : Prop where
  fresh : vm.ControlFresh
  heap : vm.heap.OnlyClosures

section

variable {P : Platform} {parseReal : ParseReal} {σ σ' : Session} {line : Bytes} {fuel : Nat}
  {f : ObjectFunction} {s : CompilerState} {program : Stmts} {vm : VM}

theorem concludes_line (hready : ReadyForScript σ.vm)
    (hcompile : Compiler.compile parseReal fuel line σ.vm.context σ.nextAddress = .ok (some f, s))
    (htree : Syntax.parse parseReal fuel line = some program) (hs : program.structured = true)
    (hfew : s.context.names.length ≤ 0x10000)
    (hstart : start P f (σ.compiled s).vm = .done () vm)
    (hroom : ¬ Reaches (Step P) vm (Script.Overflowing P)) (n : Nat) :
    Concludes P ⟨f, vm.heap, vm.context.names⟩ vm n
      (program.execute (Value.operations P vm.heap) false n vm.store) := by
  obtain ⟨program', htree', hcode⟩ := Compiler.compile_code parseReal hcompile
  obtain rfl : program' = program := Option.some.inj (htree'.symm.trans htree)
  have hfresh : (σ.compiled s).vm.ControlFresh := hready.fresh
  have hcontext : vm.context = s.context := (Script.shows_started hfresh hstart).2.1
  rw [← hcontext] at hcode hfew
  exact concludes_program hcode hs hfew hfresh hready.heap hstart hroom n

theorem Script.Leaves.ready {S : Script} {output : Bytes} (h : S.Leaves output vm)
    (hheap : S.heap.OnlyClosures) : ReadyForScript vm.clearEvaluationStack.clearFrames :=
  ⟨⟨rfl, rfl, h.openUpvalues⟩, by rw [← h.heap] at hheap; exact hheap⟩

/-- A line of a structured program leaves the machine ready for the next one. -/
theorem readyForScript_cleared {e : LineEnd} (hready : ReadyForScript σ.vm)
    (hrun : CompileAndExecute P parseReal σ line e σ') (hline : StructuredLine parseReal σ line e) :
    ReadyForScript σ'.cleared.vm := by
  have hclosures : ∀ {f s vm}, start P f (σ.compiled s).vm = .done () vm →
      vm.heap.OnlyClosures := by
    intro f s vm hstart o ho
    have hfresh : (σ.compiled s).vm.ControlFresh := hready.fresh
    rw [(Script.shows_started hfresh hstart).2.2, List.mem_append, List.mem_singleton] at ho
    rcases ho with ho | rfl
    · exact hready.heap o ho
    · rfl
  cases hrun with
  | compileError hcompile => exact ⟨⟨rfl, rfl, hready.fresh.2.2⟩, hready.heap⟩
  | ok hcompile hstart hsteps hlast =>
      obtain ⟨program, htree, hs, hfew⟩ := hline _ _ _ hcompile
      have hroom := not_overflowing hsteps (final_of_ended P hlast) fun ⟨vm', hfull⟩ => by
        cases Eq.trans (Eq.symm hlast) hfull
      have hleaves :=
        leaves_of_ended (concludes_line hready hcompile htree hs.structured hfew hstart hroom) hsteps hlast
      exact hleaves.ready (hclosures hstart)
  | runtimeError hcompile hstart hsteps hlast =>
      obtain ⟨program, htree, hs, hfew⟩ := hline _ _ _ hcompile
      have hroom := not_overflowing hsteps (final_of_stopped P hlast) fun ⟨vm', hfull⟩ => by
        cases Eq.trans (Eq.symm hlast) hfull
      have hleaves :=
        leaves_of_stopped (concludes_line hready hcompile htree hs.structured hfew hstart hroom) hsteps hlast
      exact hleaves.ready (hclosures hstart)

theorem Repl.readyForScript (h : Repl P parseReal (StructuredLine parseReal) σ) :
    ReadyForScript σ.vm := by
  induction h with
  | first hregister =>
      obtain ⟨htop, hframes, hopen, hheap⟩ := VM.registerFrom_done P hregister
      refine ⟨⟨htop, hframes, hopen⟩, fun o ho => ?_⟩
      rw [hheap] at ho
      cases ho
  | next _ _ hrun hcond ih => exact readyForScript_cleared ih hrun hcond

/-- **Compiled programs mean what the evaluator says.**  In a session whose accepted lines had programs of
the fragment, a line of the fragment does what the evaluator does with its tree, unless the stack
overflows: the run ends where the evaluator is done, with its globals and output, it is stopped by the
error the evaluator fails with, and it goes on for ever where the evaluator uses up all fuel, with the
same output along the way.  The machine need not be that of the start of the session: the lines before
leave it ready (`readyForScript_cleared`). -/
theorem structured_line_agrees (hσ : Repl P parseReal (StructuredLine parseReal) σ)
    (hcompile : Compiler.compile parseReal fuel line σ.vm.context σ.nextAddress = .ok (some f, s))
    (htree : Syntax.parse parseReal fuel line = some program) (hs : InFragment line program)
    (hfew : s.context.names.length ≤ 0x10000)
    (hstart : start P f (σ.compiled s).vm = .done () vm)
    (hroom : ¬ Reaches (Step P) vm (Script.Overflowing P)) :
    Agrees P vm fun n => program.execute (Value.operations P vm.heap) false n vm.store :=
  .of_concludes (concludes_line hσ.readyForScript hcompile htree hs.structured hfew hstart hroom)

end

/-- A line whose program is structured is run to its end with `fuel` for the compiler and the
machine. -/
def runsStructured (P : Platform) (parseReal : ParseReal) (fuel : Nat) (σ : Session) (line : Bytes) :
    Bool :=
  match Compiler.compile parseReal fuel line σ.vm.context σ.nextAddress with
  | .ok (some f, s) =>
    (Syntax.parse parseReal fuel line).any Stmts.structured && decide (0 ∉ line) &&
      decide (s.context.names.length ≤ 0x10000) &&
      match VM.start P f (σ.compiled s).vm with
      | .done () vm => (VM.executeFuel P fuel vm).any fun r => r.1.isNone
      | .stopped _ _ => false
  | _ => false

/-- The program `var i=0;while(i<3){echo i;i=i+1;}`. -/
def countingLine : Bytes :=
  ascii ['v', 'a', 'r', ' ', 'i', '=', '0', ';', 'w', 'h', 'i', 'l', 'e', '(', 'i', '<', '3', ')',
    '{', 'e', 'c', 'h', 'o', ' ', 'i', ';', 'i', '=', 'i', '+', '1', ';', '}']

/-- The first line of a session counts to three. -/
theorem structured_line_agrees_counting : ∃ (vm : VM) (program : Stmts),
    Started barePlatform noReals ⟨VM.initial, 0⟩ countingLine vm ∧ InFragment countingLine program ∧
      Agrees barePlatform vm fun n =>
        program.execute (Value.operations barePlatform vm.heap) false n vm.store := by
  have hrun : runsStructured barePlatform noReals 100 ⟨VM.initial, 0⟩ countingLine = true := by
    decide +kernel
  unfold runsStructured at hrun
  split at hrun
  · rename_i f s hcompile
    obtain ⟨htest, hrun⟩ := Bool.and_eq_true_iff.mp hrun
    obtain ⟨htest, hfew⟩ := Bool.and_eq_true_iff.mp htest
    obtain ⟨htree, hnul⟩ := Bool.and_eq_true_iff.mp htest
    obtain ⟨program, htree, hs⟩ := (Option.any_eq_true _ _).mp htree
    split at hrun
    · rename_i vm hstart
      obtain ⟨⟨r, vm₁, vm'⟩, hexecute, hended⟩ := (Option.any_eq_true _ _).mp hrun
      obtain rfl : r = none := Option.isNone_iff_eq_none.mp hended
      obtain ⟨hsteps, hlast⟩ := VM.steps_of_executeFuel hexecute
      have hroom := not_overflowing hsteps (final_of_ended _ hlast) fun ⟨vm', hfull⟩ => by
        cases Eq.trans (Eq.symm hlast) hfull
      have hfragment : InFragment countingLine program := ⟨hs, of_decide_eq_true hnul⟩
      exact ⟨vm, program, ⟨_, f, s, hcompile, hstart⟩, hfragment, structured_line_agrees (.first rfl)
        hcompile htree hfragment (of_decide_eq_true hfew) hstart hroom⟩
    · cases hrun
  · cases hrun

end CppLox
