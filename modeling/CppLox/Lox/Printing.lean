import CppLox.Lox.ControlState
import CppLox.Native.Registration

/-!
# Lox — printing

`Value::to_string` with its callers: `echo`, the native functions that print or convert a value, and
the error messages with the text of a key.  All of them end for a value in which no list, map or
bound method contains itself, and none of them does for any other value.
-/

namespace CppLox

open Native

variable (P : Platform) (E : Outside)

/-- The native functions that make the text of their first argument. -/
def printingFunctions : List NativeFunction := [.print, .println, .toString]

/-- `to_string` ends on a value, and with it what prints the value. -/
structure PrintingEnds (heap : Heap) (v : Value) : Prop where
  toString : v.Prints P heap
  echo : ∀ vm : VM, vm.heap = heap → 0 < vm.stackTop → vm.stack (vm.stackTop - 1) = v →
    ∃ vm', VM.executePrint P vm = .done () vm'
  native : ∀ f ∈ printingFunctions, ∀ values : Nat → Value, values 1 = v →
    ∃ result printed, f.call P E heap 1 values = .value result heap printed
  key : ∀ vm : VM, vm.heap = heap → ∃ text, VM.keyText P v vm = .done text vm

variable {P E} {heap : Heap} {v : Value}

theorem echo_ends {text : Bytes} {vm : VM} (htop : 0 < vm.stackTop)
    (h : (vm.stack (vm.stackTop - 1)).toString P vm.heap (vm.heap.length + 1) = some text) :
    ∃ vm', VM.executePrint P vm = .done () vm' := by
  have hpop : VM.pop vm = .done (vm.stack (vm.stackTop - 1))
      { vm with stackTop := vm.stackTop - 1 } := by
    change (if vm.stackTop = 0 then _ else _ : VMM Value) vm = _
    rw [if_neg (Nat.ne_of_gt htop)]
    rfl
  refine ⟨{ vm with stackTop := vm.stackTop - 1, output := vm.output ++ text ++ [10] },
    (VMM.bind_of_done hpop _).trans ?_⟩
  have htext := @toText_apply P _ text { vm with stackTop := vm.stackTop - 1 } h
  exact (VMM.bind_of_done htext _).trans rfl

theorem printWith_ends {text ending : Bytes} {values : Nat → Value}
    (h : (values 1).toString P heap (heap.length + 1) = some text) :
    ∃ printed, printWith P ending heap 1 values = .value (.nil false) heap printed := by
  have htexts : argumentTexts P heap 1 values = some [text] := by
    simp [argumentTexts, argumentList, List.range_succ, h]
  exact ⟨_, by rw [printWith, htexts]⟩

theorem toString_ends {text : Bytes} (h : v.toString P heap (heap.length + 1) = some text) :
    ∃ result, Native.toString P heap v = .value result heap [] := by
  unfold Native.toString
  split
  · exact ⟨_, rfl⟩
  · exact ⟨_, withText_eq h⟩

/-- **When printing ends.**  Printing a value ends exactly when no list, map or bound method in it
contains itself, whether it is echoed, printed, turned into a string or named in an error.
`to_string` goes into lists, maps and receivers without a mark or a bound, and into nothing else: an
instance that refers to itself is printed. -/
theorem printing_ends_iff (P : Platform) (E : Outside) (heap : Heap) (v : Value) :
    PrintingEnds P E heap v ↔ v.NotCyclic heap := by
  constructor
  · exact fun h => (Value.prints_iff v).mp h.toString
  · intro h
    obtain ⟨text, htext⟩ := Option.isSome_iff_exists.mp ((Value.isSome_toString_iff (P := P) v).mpr h)
    refine ⟨(Value.prints_iff v).mpr h, ?_, ?_, ?_⟩
    · rintro vm rfl htop rfl
      exact echo_ends htop htext
    · rintro f hf values rfl
      simp only [printingFunctions, List.mem_cons, List.not_mem_nil, or_false] at hf
      rcases hf with rfl | rfl | rfl
      · obtain ⟨printed, hprinted⟩ := printWith_ends htext
        exact ⟨_, printed, hprinted⟩
      · obtain ⟨printed, hprinted⟩ := printWith_ends htext
        exact ⟨_, printed, hprinted⟩
      · obtain ⟨result, hresult⟩ := toString_ends htext
        exact ⟨result, [], hresult⟩
    · rintro vm rfl
      exact ⟨_, (VMM.bind_of_done (toText_apply htext) _).trans rfl⟩

/-- The value on top of the stack is a list whose only element is the list itself. -/
def VM.topHoldsItself (vm : VM) : Bool :=
  match vm.stack (vm.stackTop - 1) with
  | .object (.heap a) =>
    match vm.heap[a]? with
    | some (.list [.object (.heap b)]) => a == b
    | _ => false
  | _ => false

theorem not_notCyclic_of_topHoldsItself {vm : VM} (h : vm.topHoldsItself = true) :
    ¬ (vm.stack (vm.stackTop - 1)).NotCyclic vm.heap := by
  intro hcyclic
  unfold VM.topHoldsItself at h
  split at h
  · rename_i a hv
    split at h
    · rename_i b hlist
      obtain rfl := beq_iff_eq.mp h
      have hself : Value.Contains vm.heap a a := by
        rw [Value.Contains, Value.partsOf, hlist]
        exact List.mem_singleton_self _
      exact hcyclic a hv a .refl (.single hself)
    · cases h
  · cases h

/-- A list that is made its own element: `var a=[1];a[0]=a;echo a;`. -/
def selfLine : Bytes :=
  ascii ['v', 'a', 'r', ' ', 'a', '=', '[', '1', ']', ';', 'a', '[', '0', ']', '=', 'a', ';',
    'e', 'c', 'h', 'o', ' ', 'a', ';']

/-- The text of the list does not end. -/
theorem printing_self_list : ¬ ∀ (P : Platform) (E : Outside) (parseReal : ParseReal) (line : Bytes)
    (vm₀ vm : VM), Started P parseReal ⟨VM.initial, 0⟩ line vm₀ → VM.Steps P vm₀ vm →
    0 < vm.stackTop → PrintingEnds P E vm.heap (vm.stack (vm.stackTop - 1)) := by
  intro hall
  have hrun : ((startLine barePlatform noReals 60 ⟨VM.initial, 0⟩ selfLine).any fun vm =>
      (VM.stepsWhile barePlatform (fun _ => true) 9 vm).any fun vm =>
        decide (0 < vm.stackTop) && vm.topHoldsItself) = true := by
    decide +kernel
  obtain ⟨vm₀, hstart, hrun⟩ := (Option.any_eq_true _ _).mp hrun
  obtain ⟨vm, hsteps, hvm⟩ := (Option.any_eq_true _ _).mp hrun
  obtain ⟨htop, hself⟩ := Bool.and_eq_true_iff.mp hvm
  have hrun : VM.Steps barePlatform vm₀ vm :=
    (VM.tested_of_stepsWhile hsteps).lift id fun _ _ h => h.2
  have hends := hall barePlatform bareOutside noReals selfLine vm₀ vm (started_of_startLine hstart)
    hrun (of_decide_eq_true htop)
  exact not_notCyclic_of_topHoldsItself hself ((printing_ends_iff _ _ _ _).mp hends)

end CppLox
