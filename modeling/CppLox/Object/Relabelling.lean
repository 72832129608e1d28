import CppLox.Object.Context
import Mathlib.Logic.Function.Basic

/-!
# Objects — functions under other labels

A function that is written to a file and loaded again is the same one at another address, with
another line table when the file has no debug information.  `Relabelling` changes these two labels
in all functions of a tree.
-/

namespace CppLox

/-- Other addresses and line tables of functions. -/
structure Relabelling where
  addr : Addr → Addr
  lines : List LineInfo → List LineInfo
  injective : Function.Injective addr

variable (ρ : Relabelling)

mutual

/-- A function with the functions of its tree. -/
def ObjectFunction.relabel : ObjectFunction → ObjectFunction
  | ⟨addr, arity, upvalueCount, name, code, constants, lines⟩ =>
    ⟨ρ.addr addr, arity, upvalueCount, name, code, relabelPool constants, ρ.lines lines⟩

/-- The trees among some constants. -/
def relabelPool : List (Constant ObjectFunction) → List (Constant ObjectFunction)
  | [] => []
  | .function f :: constants => .function f.relabel :: relabelPool constants
  | .nil :: constants => .nil :: relabelPool constants
  | .boolean b :: constants => .boolean b :: relabelPool constants
  | .real d :: constants => .real d :: relabelPool constants
  | .integer i :: constants => .integer i :: relabelPool constants
  | .string s :: constants => .string s :: relabelPool constants

end

def Constant.relabel : Constant ObjectFunction → Constant ObjectFunction
  | .function f => .function (f.relabel ρ)
  | c => c

/-- A function as a value; strings, native functions and references into the heap stay. -/
def Object.relabel : Object → Object
  | .function f => .function (f.relabel ρ)
  | o => o

def Value.relabel : Value → Value
  | .object o => .object (o.relabel ρ)
  | v => v

def GlobalValue.relabel (g : GlobalValue) : GlobalValue := { g with value := g.value.relabel ρ }

def Context.relabel (ctx : Context) : Context where
  names := ctx.names
  values := ctx.values.map (GlobalValue.relabel ρ)
  length_values := by rw [List.length_map, ctx.length_values]
  nodup_names := ctx.nodup_names

theorem relabelPool_eq (constants : List (Constant ObjectFunction)) :
    relabelPool ρ constants = constants.map (Constant.relabel ρ) := by
  induction constants with
  | nil => rw [relabelPool, List.map_nil]
  | cons c constants ih => cases c <;> rw [relabelPool, ih, List.map_cons] <;> rfl

namespace ObjectFunction

variable (f : ObjectFunction)

theorem relabel_eq : f.relabel ρ = ⟨ρ.addr f.addr, f.arity, f.upvalueCount, f.name, f.code,
    f.constants.map (Constant.relabel ρ), ρ.lines f.lines⟩ := by
  cases f
  rw [relabel, relabelPool_eq]

@[simp] theorem addr_relabel : (f.relabel ρ).addr = ρ.addr f.addr := by rw [relabel_eq]

@[simp] theorem arity_relabel : (f.relabel ρ).arity = f.arity := by rw [relabel_eq]

@[simp] theorem upvalueCount_relabel : (f.relabel ρ).upvalueCount = f.upvalueCount := by
  rw [relabel_eq]

@[simp] theorem name_relabel : (f.relabel ρ).name = f.name := by rw [relabel_eq]

@[simp] theorem code_relabel : (f.relabel ρ).code = f.code := by rw [relabel_eq]

@[simp] theorem constants_relabel :
    (f.relabel ρ).constants = f.constants.map (Constant.relabel ρ) := by rw [relabel_eq]

@[simp] theorem lines_relabel : (f.relabel ρ).lines = ρ.lines f.lines := by rw [relabel_eq]

end ObjectFunction

/-- The value of a constant under other labels. -/
@[simp] theorem Constant.toValue_relabel (c : Constant ObjectFunction) :
    (c.relabel ρ).toValue = c.toValue.relabel ρ := by
  cases c <;> rfl

namespace Value

@[simp] theorem relabel_nil (b : Bool) : (Value.nil b).relabel ρ = .nil b := rfl

@[simp] theorem relabel_boolean (b : Bool) : (Value.boolean b).relabel ρ = .boolean b := rfl

@[simp] theorem relabel_real (bits : UInt64) : (Value.real bits).relabel ρ = .real bits := rfl

@[simp] theorem relabel_integer (i : Int64) : (Value.integer i).relabel ρ = .integer i := rfl

@[simp] theorem relabel_string (s : Bytes) :
    (Value.object (.string s)).relabel ρ = .object (.string s) := rfl

@[simp] theorem relabel_native (i : Nat) :
    (Value.object (.native i)).relabel ρ = .object (.native i) := rfl

@[simp] theorem relabel_heap (a : Addr) :
    (Value.object (.heap a)).relabel ρ = .object (.heap a) := rfl

@[simp] theorem relabel_function (f : ObjectFunction) :
    (Value.object (.function f)).relabel ρ = .object (.function (f.relabel ρ)) := rfl

end Value

/-! ### The table of globals -/

namespace Context

variable {ρ} (ctx : Context)

theorem ext_of {ctx ctx' : Context} (hnames : ctx.names = ctx'.names)
    (hvalues : ctx.values = ctx'.values) : ctx = ctx' := by
  cases ctx
  cases ctx'
  cases hnames
  cases hvalues
  rfl

@[simp] theorem names_relabel : (ctx.relabel ρ).names = ctx.names := rfl

@[simp] theorem values_relabel : (ctx.relabel ρ).values = ctx.values.map (GlobalValue.relabel ρ) :=
  rfl

/-- Every global is as `get_global` adds it, but for its flag `is_const`. -/
def Pristine : Prop := ∀ g ∈ ctx.values, g = { isConst := g.isConst }

/-- A pristine table holds no function. -/
theorem relabel_of_pristine (h : ctx.Pristine) : ctx.relabel ρ = ctx := by
  refine ext_of rfl ?_
  rw [values_relabel]
  refine (List.map_congr_left fun g hg => ?_).trans (List.map_id _)
  rw [h g hg]
  rfl

theorem exists_relabel (i : Nat) : (ctx.relabel ρ).exists i = ctx.exists i := by
  rw [«exists», «exists», values_relabel, List.length_map]

theorem getInternalValue_relabel (i : Nat) :
    (ctx.relabel ρ).getInternalValue i = (ctx.getInternalValue i).relabel ρ := by
  rw [getInternalValue, getInternalValue, List.getD_eq_getElem?_getD, List.getD_eq_getElem?_getD,
    values_relabel, List.getElem?_map]
  cases ctx.values[i]? <;> rfl

/-- A change of a global that does not depend on labels. -/
theorem modify_relabel {i : Nat} {f f' : GlobalValue → GlobalValue}
    (h : ∀ g, f' (g.relabel ρ) = (f g).relabel ρ) :
    (ctx.relabel ρ).modify i f' = (ctx.modify i f).relabel ρ := by
  refine ext_of rfl ?_
  refine List.ext_getElem? fun j => ?_
  change ((ctx.values.map (GlobalValue.relabel ρ)).modify i f')[j]? =
    ((ctx.values.modify i f).map (GlobalValue.relabel ρ))[j]?
  rw [List.getElem?_map, List.getElem?_modify, List.getElem?_modify, List.getElem?_map]
  cases ctx.values[j]? with
  | none => rfl
  | some g =>
      change some _ = some _
      split
      · exact congrArg some (h g)
      · rfl

theorem getGlobal_relabel (name : Bytes) :
    (ctx.relabel ρ).getGlobal name =
      ((ctx.getGlobal name).1, (ctx.getGlobal name).2.relabel ρ) := by
  by_cases h : name ∈ ctx.names
  · have h' : name ∈ (ctx.relabel ρ).names := h
    rw [getGlobal_of_mem h, getGlobal_of_mem h']
    rfl
  · have h' : name ∉ (ctx.relabel ρ).names := h
    refine Prod.ext ?_ (ext_of ?_ ?_)
    · rw [getGlobal_fst_of_not_mem h, getGlobal_fst_of_not_mem h']
      rfl
    · rw [getGlobal_names_of_not_mem h']
      exact (getGlobal_names_of_not_mem h).symm
    · rw [getGlobal_values_of_not_mem h', values_relabel, values_relabel,
        getGlobal_values_of_not_mem h, List.map_append]
      rfl

end Context

end CppLox
