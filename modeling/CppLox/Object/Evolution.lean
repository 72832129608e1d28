import CppLox.Object.Context

/-!
# Object — how the table of globals evolves

Names are added at the end of the table, a global that is const, defined or initialized stays so, and
a const global that is defined keeps its value.
-/

namespace CppLox

/-- What may become of a global. -/
structure GlobalValue.Evolves (g g' : GlobalValue) : Prop where
  isConst : g.isConst = true → g'.isConst = true
  defined : g.defined = true → g'.defined = true
  initialized : g.initialized = true → g'.initialized = true
  frozen : g.defined = true → g.isConst = true → g' = g

/-- What may become of the table. -/
structure Context.Evolves (ctx ctx' : Context) : Prop where
  names : ctx.names <+: ctx'.names
  globals : ∀ i, (ctx.getInternalValue i).Evolves (ctx'.getInternalValue i)

namespace GlobalValue.Evolves

variable {g g' g'' : GlobalValue}

theorem refl (g : GlobalValue) : g.Evolves g := ⟨id, id, id, fun _ _ => rfl⟩

theorem trans (h : g.Evolves g') (h' : g'.Evolves g'') : g.Evolves g'' where
  isConst := h'.isConst ∘ h.isConst
  defined := h'.defined ∘ h.defined
  initialized := h'.initialized ∘ h.initialized
  frozen hdefined hconst :=
    (h'.frozen (h.defined hdefined) (h.isConst hconst)).trans (h.frozen hdefined hconst)

/-- A global that is not both const and defined may change, if it keeps its flags. -/
theorem of_not_frozen (hfrozen : ¬ (g.defined = true ∧ g.isConst = true))
    (hconst : g.isConst = true → g'.isConst = true) (hdefined : g.defined = true → g'.defined = true)
    (hinitialized : g.initialized = true → g'.initialized = true) : g.Evolves g' :=
  ⟨hconst, hdefined, hinitialized, fun h h' => absurd ⟨h, h'⟩ hfrozen⟩

end GlobalValue.Evolves

namespace Context.Evolves

variable {ctx ctx' ctx'' : Context}

theorem refl (ctx : Context) : ctx.Evolves ctx := ⟨List.prefix_refl _, fun _ => .refl _⟩

theorem trans (h : ctx.Evolves ctx') (h' : ctx'.Evolves ctx'') : ctx.Evolves ctx'' :=
  ⟨h.names.trans h'.names, fun i => (h.globals i).trans (h'.globals i)⟩

/-- A new name gets a global with the default values. -/
theorem getGlobal (ctx : Context) (name : Bytes) : ctx.Evolves (ctx.getGlobal name).2 := by
  by_cases h : name ∈ ctx.names
  · rw [getGlobal_of_mem h]
    exact .refl ctx
  · refine ⟨?_, fun i => ?_⟩
    · rw [getGlobal_names_of_not_mem h]
      exact List.prefix_append _ _
    · have hsame : (ctx.getGlobal name).2.getInternalValue i = ctx.getInternalValue i := by
        unfold getInternalValue
        rw [getGlobal_values_of_not_mem h, List.getD_eq_getElem?_getD, List.getD_eq_getElem?_getD,
          List.getElem?_append]
        split
        · rfl
        · rename_i hlt
          rw [List.getElem?_eq_none (Nat.le_of_not_lt hlt), List.getElem?_singleton]
          split <;> rfl
      rw [hsame]
      exact .refl _

/-- A write to a global. -/
theorem modify {i : Nat} {f : GlobalValue → GlobalValue}
    (h : (ctx.getInternalValue i).Evolves (f (ctx.getInternalValue i))) :
    ctx.Evolves (ctx.modify i f) := by
  refine ⟨List.prefix_refl _, fun j => ?_⟩
  unfold getInternalValue Context.modify at *
  rw [List.getD_eq_getElem?_getD] at *
  dsimp only
  rw [List.getD_eq_getElem?_getD, List.getElem?_modify]
  by_cases hij : i = j
  · subst hij
    cases hi : ctx.values[i]? with
    | none => simpa using GlobalValue.Evolves.refl _
    | some g =>
        rw [hi] at h
        simpa using h
  · simpa [hij] using GlobalValue.Evolves.refl _

/-- Two writes to a global that is not both const and defined. -/
theorem modify_modify {i : Nat} {f g : GlobalValue → GlobalValue}
    (h : (ctx.getInternalValue i).Evolves (g (f (ctx.getInternalValue i)))) :
    ctx.Evolves ((ctx.modify i f).modify i g) := by
  have hcomp : (ctx.modify i f).modify i g = ctx.modify i (g ∘ f) := by
    unfold Context.modify
    simp only [List.modify_modify_eq]
  rw [hcomp]
  exact modify h

end Context.Evolves

end CppLox
