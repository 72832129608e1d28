import CppLox.Object.Evolution
import CppLox.VM.Operands
import CppLox.VM.Run

/-!
# Virtual machine — what runs do to the globals

Whatever the code is, an instruction lets the table of globals evolve: `DEFINE_GLOBAL` and
`STORE_GLOBAL` look at the flags of a global before they write to it, and no other instruction
changes the table.
-/

namespace CppLox

open VMM

namespace VM

/-- The table of globals evolves. -/
def GlobalsEvolve (vm vm' : VM) : Prop := vm.context.Evolves vm'.context

section

variable {vm vm' : VM}

theorem GlobalsEvolve.of_eq (h : vm'.context = vm.context) : GlobalsEvolve vm vm' := by
  unfold GlobalsEvolve
  rw [h]
  exact .refl _

instance : Undisturbed GlobalsEvolve where
  refl _ := .of_eq rfl
  trans h h' := Context.Evolves.trans h h'
  stack _ _ _ := .of_eq rfl
  heap _ _ _ := .of_eq rfl
  output _ _ := .of_eq rfl
  ip _ _ _ _ _ := .of_eq rfl
  call _ _ := .of_eq rfl

instance : IndifferentMethods GlobalsEvolve where
  methods _ _ _ _ _ := .of_eq rfl

instance : IndifferentClosures GlobalsEvolve where
  closures _ _ _ := .of_eq rfl

instance : IndifferentReturns GlobalsEvolve where
  pop _ := .of_eq rfl

instance : IndifferentUpvalues GlobalsEvolve :=
  indifferentUpvalues_of (fun _ _ => .of_eq rfl) fun _ _ => .of_eq rfl

instance : UndisturbedUpvalues GlobalsEvolve where
  capture := IndifferentUpvalues.capture
  close := IndifferentUpvalues.close

end

/-- A global is marked as defined before its value is read from the stack. -/
instance (index : Nat) : Preserves GlobalsEvolve (defineGlobal index) where
  rel vm := by
    unfold defineGlobal
    rw [VMM.bind_of_done (rfl : VMM.get vm = .done vm vm)]
    split
    · exact .of_eq rfl
    dsimp only
    split
    · exact .of_eq rfl
    rename_i hfrozen
    have hfrozen := fun h => hfrozen (Bool.and_eq_true_iff.mpr h)
    obtain ⟨vm₁, hrun, hcontext⟩ : ∃ vm₁,
        modifyGlobal index (fun global => { global with defined := true }) vm = .done () vm₁ ∧
          vm₁.context = vm.context.modify index fun global => { global with defined := true } :=
      ⟨_, rfl, rfl⟩
    have hdefined : GlobalsEvolve vm vm₁ := by
      unfold GlobalsEvolve
      rw [hcontext]
      exact .modify (.of_not_frozen hfrozen id (fun _ => rfl) id)
    rw [VMM.bind_of_done hrun]
    cases hpeek : peek 0 vm₁ with
    | stopped i vm₂ =>
        rw [VMM.bind_of_stopped hpeek]
        exact hdefined.trans ((inferInstance : Preserves GlobalsEvolve (peek 0)).stopped hpeek)
    | done v vm₂ =>
        rw [VMM.bind_of_done hpeek]
        obtain ⟨rfl, -, -⟩ := peek_result hpeek
        rw [VMM.bind_of_done (rfl : modifyGlobal index _ vm₂ = .done () _)]
        refine Context.Evolves.trans ?_
          ((inferInstance : Preserves GlobalsEvolve (pop >>= fun _ => pure ())).rel _)
        change vm.context.Evolves (vm₂.context.modify index _)
        rw [hcontext]
        refine .modify_modify (.of_not_frozen hfrozen id (fun _ => rfl) fun h => ?_)
        exact Bool.or_eq_true_iff.mpr (.inl h)

instance (index : Nat) : Preserves GlobalsEvolve (storeGlobal index) where
  rel vm := by
    unfold storeGlobal
    rw [VMM.bind_of_done (rfl : VMM.get vm = .done vm vm)]
    split
    · exact (inferInstance : Preserves GlobalsEvolve (undefinedGlobal index)).rel vm
    split
    · exact .of_eq rfl
    rename_i hconst
    cases hpeek : peek 0 vm with
    | stopped i vm₁ =>
        rw [VMM.bind_of_stopped hpeek]
        exact (inferInstance : Preserves GlobalsEvolve (peek 0)).stopped hpeek
    | done v vm₁ =>
        rw [VMM.bind_of_done hpeek]
        obtain ⟨rfl, -, -⟩ := peek_result hpeek
        exact .modify (.of_not_frozen (fun h => hconst h.2) id id fun _ => rfl)

variable (P : Platform)

instance (op : OpCode) : Preserves GlobalsEvolve (execute P op) := by
  by_cases h : op ∈ disturbing
  · cases op with
    | defineGlobal =>
        unfold execute executeDefineGlobal
        infer_instance
    | storeGlobal =>
        unfold execute executeStoreGlobal
        infer_instance
    | _ => first | exact absurd h (by decide) | (unfold execute; infer_instance)
  · exact preserves_execute P h

instance : Preserves GlobalsEvolve (step P) := by
  unfold step
  refine .bind inferInstance fun b => ?_
  split <;> infer_instance

end VM

end CppLox
