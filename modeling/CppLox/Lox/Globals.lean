import CppLox.Compiler.Evolution
import CppLox.Lox.ControlState
import CppLox.VM.Evolution

/-!
# Lox — the globals of a session

All that happens to the machine in a session lets the table of globals evolve: the index of a name stays
its index, a global that was defined or initialized stays so, and a const global keeps its value from
its definition on, whatever later lines contain and however they end.
-/

namespace CppLox

open VM

variable (P : Platform) (parseReal : ParseReal)

/-- What `run_repl` does with the machine: the compilation of a line, its start, an instruction, with
any outcome, and the clean-up after a line. -/
inductive Advances : VM → VM → Prop where
  | compile {vm : VM} {fuel : Nat} {line : Bytes} {addr : Addr} {result : Option ObjectFunction}
      {s : CompilerState}
      (hcompile : Compiler.compile parseReal fuel line vm.context addr = .ok (result, s)) :
      Advances vm { vm with context := s.context }
  | start (f : ObjectFunction) (vm : VM) : Advances vm (VM.start P f vm).vm
  | instruction (vm : VM) : Advances vm (VM.step P vm).vm
  | clear (vm : VM) : Advances vm vm.clearEvaluationStack.clearFrames

variable {P parseReal}

theorem Advances.evolves {vm vm' : VM} (h : Advances P parseReal vm vm') :
    vm.context.Evolves vm'.context := by
  cases h with
  | compile hcompile => exact Compiler.compile_evolves parseReal hcompile
  | start f =>
      have : Preserves GlobalsEvolve (VM.start P f) := by
        unfold VM.start
        infer_instance
      exact this.rel vm
  | instruction => exact (inferInstance : Preserves GlobalsEvolve (VM.step P)).rel vm
  | clear => exact .refl _

/-- From one moment of a session to a later one, in the same line or in another one, the table of
globals evolves. -/
theorem globals_evolve {vm vm' : VM} (h : Relation.ReflTransGen (Advances P parseReal) vm vm') :
    vm.context.Evolves vm'.context := by
  induction h with
  | refl => exact .refl _
  | tail _ hstep ih => exact ih.trans hstep.evolves

/-! ### The lines of a session -/

section

variable {σ σ' : Session} {line : Bytes} {e : LineEnd} {vm vm' : VM}

theorem VM.Steps.advances (h : Steps P vm vm') :
    Relation.ReflTransGen (Advances P parseReal) vm vm' := by
  induction h with
  | refl => exact .refl
  | @tail vm₁ vm₂ _ hstep ih =>
      have hadvance : Advances P parseReal vm₁ (VM.step P vm₁).vm := .instruction vm₁
      rw [show VM.step P vm₁ = .done false vm₂ from hstep] at hadvance
      exact ih.tail hadvance

theorem Started.advances (h : Started P parseReal σ line vm) :
    Relation.ReflTransGen (Advances P parseReal) σ.vm vm := by
  obtain ⟨fuel, f, s, hcompile, hstart⟩ := h
  have hadvance : Advances P parseReal (σ.compiled s).vm (VM.start P f (σ.compiled s).vm).vm :=
    .start f _
  rw [hstart] at hadvance
  exact .tail (.single (.compile hcompile)) hadvance

/-- A line, up to the clean-up after it. -/
theorem CompileAndExecute.advances (h : CompileAndExecute P parseReal σ line e σ') :
    Relation.ReflTransGen (Advances P parseReal) σ.vm σ'.cleared.vm := by
  refine .tail ?_ (.clear σ'.vm)
  cases h with
  | compileError hcompile => exact .single (.compile hcompile)
  | @ok fuel f s vm vm₁ vm' hcompile hstart hsteps hlast =>
      have hadvance : Advances P parseReal vm₁ (VM.step P vm₁).vm := .instruction vm₁
      rw [hlast] at hadvance
      exact .tail ((Started.advances ⟨fuel, f, s, hcompile, hstart⟩).trans hsteps.advances) hadvance
  | @runtimeError fuel f s vm vm₁ vm' message hcompile hstart hsteps hlast =>
      have hadvance : Advances P parseReal vm₁ (VM.step P vm₁).vm := .instruction vm₁
      rw [hlast] at hadvance
      exact .tail ((Started.advances ⟨fuel, f, s, hcompile, hstart⟩).trans hsteps.advances) hadvance

end

/-- The session of the lines `const a=1;` and `a=2;`. -/
theorem globals_evolve_const : ∃ σ σ' : Session,
    Repl barePlatform noReals (fun _ _ _ => True) σ ∧
    (∃ e, CompileAndExecute barePlatform noReals σ (ascii ['a', '=', '2', ';']) e σ') ∧
    (σ.vm.context.getInternalValue 0).isConst = true ∧
    (σ.vm.context.getInternalValue 0).defined = true ∧
    σ.vm.context.Evolves σ'.cleared.vm.context := by
  have hrun : ((runLine barePlatform noReals 40 ⟨VM.initial, 0⟩
      (ascii ['c', 'o', 'n', 's', 't', ' ', 'a', '=', '1', ';'])).any fun r =>
        (r.2.vm.context.getInternalValue 0).isConst && (r.2.vm.context.getInternalValue 0).defined &&
          (runLine barePlatform noReals 40 r.2.cleared (ascii ['a', '=', '2', ';'])).isSome) = true := by
    decide +kernel
  obtain ⟨⟨e, σ⟩, hfirst, hrun⟩ := (Option.any_eq_true _ _).mp hrun
  obtain ⟨hflags, hsecond⟩ := Bool.and_eq_true_iff.mp hrun
  obtain ⟨hconst, hdefined⟩ := Bool.and_eq_true_iff.mp hflags
  obtain ⟨⟨e', σ'⟩, hsecond⟩ := Option.isSome_iff_exists.mp hsecond
  have hexecute := compileAndExecute_of_runLine hsecond
  exact ⟨σ.cleared, σ', Repl.single (by decide) hfirst trivial, ⟨e', hexecute⟩, hconst, hdefined,
    globals_evolve hexecute.advances⟩

end CppLox
