import CppLox.Semantics.Evaluator
import CppLox.VM.Execute

/-!
# Semantics — the values of the machine

The operations of the language on the values of the machine, as its instructions compute them.  The
objects a value refers to are in a heap of closures, which no operation changes.
-/

namespace CppLox

open VM

/-- The text of `report_error`. -/
def Fault.message : Fault → String
  | .undefinedGlobal x => "Runtime Error: Undefined global variable '" ++ quoted x ++ "'"
  | .uninitializedGlobal x =>
    "Runtime Error: Uninitialized access of global variable '" ++ quoted x ++ "'"
  | .assignedConst x => "Runtime Error: Assignment to const variable '" ++ quoted x ++ "'"
  | .redeclaredConst x => "Runtime Error: Cannot redeclare const variable '" ++ quoted x ++ "'"
  | .uninitializedLocal => "Runtime Error: Uninitialized access of local variable"
  | .operands symbol => "Expected operands of '" ++ symbol ++ "' to be numbers"
  | .unsupported => ""

namespace Value

/-- An operator on numbers: integers stay integers only if both are. -/
def numeric (symbol : String) (integers : Int64 → Int64 → Value) (reals : Float → Float → Value)
    (a b : Value) : Except Fault Value :=
  if a.isNumber && b.isNumber then
    match a, b with
    | .integer a, .integer b => .ok (integers a b)
    | _, _ => .ok (reals a.coerceReal b.coerceReal)
  else .error (.operands symbol)

/-- The sum of numbers, or strings one after the other. -/
def plus : Value → Value → Except Fault Value
  | .object (.string a), .object (.string b) => .ok (.ofString (a ++ b))
  | a, b => numeric "+" (fun a b => .integer (a + b)) (fun a b => realValue (a + b)) a b

def minus : Value → Value → Except Fault Value :=
  numeric "-" (fun a b => .integer (a - b)) fun a b => realValue (a - b)

def times : Value → Value → Except Fault Value :=
  numeric "*" (fun a b => .integer (a * b)) fun a b => realValue (a * b)

/-- Division of integers is division of reals. -/
def quotient : Value → Value → Except Fault Value :=
  numeric "/"
    (fun a b => realValue (coerceReal (.integer a) / coerceReal (.integer b)))
    fun a b => realValue (a / b)

def isGreater : Value → Value → Except Fault Value :=
  numeric ">" (fun a b => .boolean (a > b)) fun a b => .boolean (a > b)

def isLess : Value → Value → Except Fault Value :=
  numeric "<" (fun a b => .boolean (a < b)) fun a b => .boolean (a < b)

/-- Numbers of which one is a real are compared as reals. -/
def isEqual (heap : Heap) (a b : Value) : Value :=
  if a.isNumber ∧ b.isNumber ∧ (a.isReal ∨ b.isReal) then .boolean (a.coerceReal == b.coerceReal)
  else .boolean ((a.equals heap heap.length b).getD false)

/-- The value of `!`. -/
def negated (v : Value) : Value := .boolean v.isFalsey

/-- The binary operators; three of them are the negations of others. -/
def binary (heap : Heap) : BinaryOp → Value → Value → Except Fault Value
  | .add, a, b => plus a b
  | .subtract, a, b => minus a b
  | .multiply, a, b => times a b
  | .divide, a, b => quotient a b
  | .equal, a, b => .ok (isEqual heap a b)
  | .notEqual, a, b => .ok (isEqual heap a b).negated
  | .greater, a, b => isGreater a b
  | .greaterEqual, a, b => (isLess a b).map negated
  | .less, a, b => isLess a b
  | .lessEqual, a, b => (isGreater a b).map negated

/-- The operations on the values of the machine. -/
def operations (P : Platform) (heap : Heap) : Operations Value where
  nil := .nil false
  uninitialized := .nil true
  boolean := .boolean
  integer := .integer
  real := .real
  string := .ofString
  isFalsey := isFalsey
  isUninitialized := isUninitialized
  binary := binary heap
  text v := (v.toString P heap (heap.length + 1)).getD []

end Value

/-- A heap in which every object is a closure. -/
def Heap.OnlyClosures (heap : Heap) : Prop := ∀ o ∈ heap, o.isClosure = true

namespace Heap.OnlyClosures

variable {heap : Heap} (h : heap.OnlyClosures)

include h

/-- An object a value refers to is a closure. -/
theorem heapObject (v : Value) :
    v.heapObject heap = none ∨ ∃ f upvalues, v.heapObject heap = some (.closure f upvalues) := by
  cases hv : v.heapObject heap with
  | none => exact .inl rfl
  | some o =>
      unfold Value.heapObject at hv
      split at hv
      · have hclosure := h o (List.mem_of_getElem? hv)
        cases o with
        | closure f upvalues => exact .inr ⟨f, upvalues, rfl⟩
        | _ => cases hclosure
      · cases hv

/-- Equality is defined on values that refer to closures. -/
theorem isSome_equals (a b : Value) (fuel : Nat) : (a.equals heap fuel b).isSome = true := by
  cases a with
  | object o =>
      cases b with
      | object o' =>
          unfold Value.equals
          rcases h.heapObject (.object o) with ho | ⟨f, upvalues, ho⟩ <;> rw [ho] <;> rfl
      | _ => cases fuel <;> rfl
  | _ => cases b <;> cases fuel <;> rfl

/-- Values that refer to closures are printed. -/
theorem isSome_toString (P : Platform) (v : Value) (fuel : Nat) :
    (v.toString P heap fuel).isSome = true := by
  cases v with
  | object o =>
      cases o with
      | heap a =>
          unfold Value.toString
          cases ha : heap[a]? with
          | none => rfl
          | some o =>
              have hclosure := h o (List.mem_of_getElem? ha)
              cases o with
              | closure f upvalues => rfl
              | _ => cases hclosure
      | _ => cases fuel <;> rfl
  | _ => cases fuel <;> rfl

end Heap.OnlyClosures

end CppLox
