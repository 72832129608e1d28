import CppLox.Object.Value
import Mathlib.Data.List.Nodup

/-!
# Objects — the table of globals

`Context` (`include/context.hpp`): the global names in the order of their first use, with one
`GlobalValue` for each.  The hash table `global_names` maps a name to its position in `names`,
so it is the search for the name in `names`.  That names are distinct and that the two vectors
have one length are fields of the structure.
-/

namespace CppLox

/-- `Context::GlobalValue`. -/
structure GlobalValue where
  value : Value := .nil false
  defined : Bool := false
  initialized : Bool := false
  isConst : Bool := false
  isCreatedByRuntime : Bool := false

instance : Inhabited GlobalValue := ⟨{}⟩

structure Context where
  names : List Bytes
  values : List GlobalValue
  length_values : values.length = names.length
  nodup_names : names.Nodup

namespace Context

/-- A freshly constructed `Context`. -/
def empty : Context := ⟨[], [], rfl, .nil⟩

/-- `Context::get_global`: the index of `name`, added at the end when it is new. -/
def getGlobal (ctx : Context) (name : Bytes) : Nat × Context :=
  if h : name ∈ ctx.names then (ctx.names.idxOf name, ctx)
  else (ctx.names.length,
    { names := ctx.names ++ [name]
      values := ctx.values ++ [{}]
      length_values := by simp [ctx.length_values]
      nodup_names := List.nodup_append.mpr
        ⟨ctx.nodup_names, List.nodup_singleton _, by
          intro a ha b hb
          rw [List.mem_singleton.mp hb]
          rintro rfl
          exact h ha⟩ })

/-- `Context::get_internal_value`. -/
def getInternalValue (ctx : Context) (i : Nat) : GlobalValue := ctx.values.getD i {}

/-- A write through the reference `Context::get_internal_value` returns. -/
def modify (ctx : Context) (i : Nat) (f : GlobalValue → GlobalValue) : Context :=
  { ctx with
    values := ctx.values.modify i f
    length_values := by simp [ctx.length_values] }

/-- `Context::get_name`. -/
def getName (ctx : Context) (i : Nat) : Bytes := ctx.names.getD i []

/-- `Context::exists`. -/
def «exists» (ctx : Context) (i : Nat) : Bool := i < ctx.values.length

@[simp] theorem modify_names (ctx : Context) (i : Nat) (f : GlobalValue → GlobalValue) :
    (ctx.modify i f).names = ctx.names := rfl

theorem getGlobal_of_mem {ctx : Context} {name : Bytes} (h : name ∈ ctx.names) :
    ctx.getGlobal name = (ctx.names.idxOf name, ctx) := by
  simp [getGlobal, h]

theorem getGlobal_fst_of_not_mem {ctx : Context} {name : Bytes} (h : name ∉ ctx.names) :
    (ctx.getGlobal name).1 = ctx.names.length := by
  simp [getGlobal, h]

theorem getGlobal_names_of_not_mem {ctx : Context} {name : Bytes} (h : name ∉ ctx.names) :
    (ctx.getGlobal name).2.names = ctx.names ++ [name] := by
  simp [getGlobal, h]

theorem getGlobal_values_of_not_mem {ctx : Context} {name : Bytes} (h : name ∉ ctx.names) :
    (ctx.getGlobal name).2.values = ctx.values ++ [({} : GlobalValue)] := by
  simp [getGlobal, h]

end Context

end CppLox
