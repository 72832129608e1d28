import CppLox.Native.Map
import CppLox.VM.Operands
import CppLox.VM.Run

/-!
# Virtual machine — indices of lists

`LOAD_INDEX`, `STORE_INDEX` and the native function `delete` on a list.  The machine compares the
index with the size as signed numbers and `ObjectList` compares them as unsigned ones: on indices
from 0 on the two agree, and a negative index passes the first comparison only.
-/

namespace CppLox

open VMM

/-- An index of a list of `n` elements. -/
def InBounds (index : Int64) (n : Nat) : Prop := 0 ≤ index.toInt ∧ index.toInt < n

/-- A routine reports an error and leaves the machine as it is. -/
def Reports {α : Type} (m : VMM α) (vm : VM) : Prop :=
  ∃ message, m vm = .stopped (.runtimeError (some message)) vm

namespace VM

variable (P : Platform)

/-- `LOAD_INDEX` with a list and an index on the stack. -/
def LoadIndexExact (values : List Value) (index : Int64) : Prop :=
  ∀ (vm : VM) (a : Addr), vm.heap[a]? = some (HeapObject.list values) →
    vm.OnTop [.integer index, .ofAddr a] → vm.stackTop ≤ P.capacity →
    (∀ v, 0 ≤ index.toInt → values[index.toInt.toNat]? = some v →
      executeLoadIndex P vm = .done () (vm.replaceTop 2 v)) ∧
    (¬ InBounds index values.length → Reports (executeLoadIndex P) vm)

/-- `STORE_INDEX` with a list, an index and a value on the stack. -/
def StoreIndexExact (values : List Value) (index : Int64) : Prop :=
  ∀ (vm : VM) (a : Addr) (v : Value), vm.heap[a]? = some (HeapObject.list values) →
    vm.OnTop [v, .integer index, .ofAddr a] → vm.stackTop ≤ P.capacity →
    (InBounds index values.length → executeStoreIndex P vm = .done ()
      ({ vm with heap := vm.heap.set a (.list (values.set index.toInt.toNat v)) }.replaceTop 3 v)) ∧
    (¬ InBounds index values.length → Reports (executeStoreIndex P) vm)

/-- The call `delete(list, index)`. -/
def DeleteExact (values : List Value) (index : Int64) : Prop :=
  ∀ (vm : VM) (a : Addr) (callee : Value), vm.heap[a]? = some (HeapObject.list values) →
    vm.OnTop [.integer index, .ofAddr a, callee] → vm.stackTop ≤ P.capacity →
    (InBounds index values.length → callNative P (Native.delete P) 2 vm = .done ()
      ({ vm with heap := vm.heap.set a (.list (values.eraseIdx index.toInt.toNat)) }.replaceTop 3
        (.nil false))) ∧
    (¬ InBounds index values.length → Reports (callNative P (Native.delete P) 2) vm)

/-! ### The element branches -/

theorem executeLoadIndex_list {vm : VM} {a : Addr} {values : List Value} {index : Int64}
    (ha : vm.heap[a]? = some (HeapObject.list values))
    (htop : vm.OnTop [.integer index, .ofAddr a]) :
    executeLoadIndex P vm = loadElement P values vm := by
  unfold executeLoadIndex
  rw [VMM.bind_of_done (peek_apply htop (i := 1) rfl), VMM.bind_of_done (objectOf_apply _ vm),
    heapObject_ofAddr, ha]

theorem loadElement_integer {vm : VM} {values operands : List Value} {index : Int64}
    (htop : vm.OnTop (.integer index :: operands)) :
    loadElement P values vm =
      (if index.toInt ≥ values.length then outOfRange "List" "elements" index values.length
      else if index.toInt < 0 then throwException "bad optional access"
      else match values[index.toInt.toNat]? with
        | some v => finishLoad P v
        | none => undefinedBehaviour) vm := by
  unfold loadElement
  exact (VMM.bind_of_done (peek_apply htop (i := 0) rfl) _).trans rfl

theorem executeStoreIndex_list {vm : VM} {a : Addr} {values : List Value} {index : Int64} {v : Value}
    (ha : vm.heap[a]? = some (HeapObject.list values))
    (htop : vm.OnTop [v, .integer index, .ofAddr a]) :
    executeStoreIndex P vm = storeElement P a values vm := by
  unfold executeStoreIndex
  rw [VMM.bind_of_done (peek_apply htop (i := 2) rfl), VMM.bind_of_done (objectOf_apply _ vm),
    heapObject_ofAddr, ha]
  rfl

theorem storeElement_integer {vm : VM} {a : Addr} {values operands : List Value} {index : Int64}
    {v : Value} (htop : vm.OnTop (v :: .integer index :: operands)) :
    storeElement P a values vm =
      (if index.toInt ≥ values.length then outOfRange "List" "elements" index values.length
      else do
        if 0 ≤ index.toInt then setObject a (.list (values.set index.toInt.toNat v)) else pure ()
        finishStore P v) vm := by
  unfold storeElement
  rw [VMM.bind_of_done (peek_apply htop (i := 1) rfl)]
  by_cases hge : index.toInt ≥ values.length
  · rw [if_pos hge]
    exact congrFun (if_pos hge) vm
  · rw [if_neg hge]
    exact (congrFun (if_neg hge) vm).trans (VMM.bind_of_done (peek_apply htop (i := 0) rfl) _)

theorem callNative_delete_list {vm : VM} {a : Addr} {values : List Value} {index : Int64}
    {callee : Value} (ha : vm.heap[a]? = some (HeapObject.list values))
    (htop : vm.OnTop [.integer index, .ofAddr a, callee]) :
    callNative P (Native.delete P) 2 vm =
      (match Native.deleteElement vm.heap a values (.integer index) with
      | .value v heap printed => do
        modify fun machine => { machine with
          heap, output := machine.output ++ printed, stackTop := vm.stackTop - 2 - 1 }
        push P v
      | .failed heap interrupt => do
        modify fun machine => { machine with heap }
        stop interrupt : VMM Unit) vm := by
  have hlen : 3 ≤ vm.stackTop := htop.length
  have hlist : vm.stack (vm.stackTop - 2 - 1 + 1) = .ofAddr a := by
    rw [show vm.stackTop - 2 - 1 + 1 = vm.stackTop - 1 - 1 by omega]
    exact htop.slot 1 _ rfl
  have hindex : vm.stack (vm.stackTop - 2 - 1 + 2) = .integer index := by
    rw [show vm.stackTop - 2 - 1 + 2 = vm.stackTop - 0 - 1 by omega]
    exact htop.slot 0 _ rfl
  have hresult : Native.deleteMap P vm.heap (.ofAddr a) (.integer index) =
      Native.deleteElement vm.heap a values (.integer index) := by
    unfold Native.deleteMap
    rw [heapObject_ofAddr, ha]
    rfl
  change (calleeSlot 2 >>= fun slot => _) vm = _
  rw [VMM.bind_of_done (calleeSlot_apply (by omega))]
  change (match Native.deleteMap P vm.heap (vm.stack (vm.stackTop - 2 - 1 + 1))
      (vm.stack (vm.stackTop - 2 - 1 + 2)) with
    | .value v heap printed => _
    | .failed heap interrupt => _ : VMM Unit) vm = _
  rw [hlist, hindex, hresult]

/-! ### Exactness -/

/-- A machine with a heap and some values on its stack, given from the top down. -/
def withOperands (heap : Heap) (values : List Value) : VM :=
  { VM.initial with
    heap
    stack := fun i => values.reverse.getD i (.nil false)
    stackTop := values.length }

theorem withOperands_onTop (heap : Heap) (values : List Value) :
    (withOperands heap values).OnTop values := by
  refine ⟨Nat.le_refl _, fun i v hi => ?_⟩
  obtain ⟨hlt, hv⟩ := List.getElem?_eq_some_iff.mp hi
  change values.reverse.getD (values.length - i - 1) (.nil false) = v
  rw [List.getD_eq_getElem?_getD, List.getElem?_reverse (by omega),
    show values.length - 1 - (values.length - i - 1) = i by omega, hi]
  rfl

theorem withOperands_list (values operands : List Value) :
    (withOperands [.list values] operands).heap[0]? = some (.list values) := rfl

theorem withOperands_stackTop_le (heap : Heap) {values : List Value} (h : values.length ≤ 4) :
    (withOperands heap values).stackTop ≤ P.capacity := Nat.le_add_left_of_le h

theorem loadIndexExact_iff (values : List Value) (index : Int64) :
    LoadIndexExact P values index ↔ 0 ≤ index.toInt := by
  constructor
  · intro h
    by_contra hneg
    obtain ⟨-, hout⟩ := h (withOperands [.list values] [.integer index, .ofAddr 0]) 0
      (withOperands_list _ _) (withOperands_onTop _ _) (withOperands_stackTop_le P _ (by simp))
    obtain ⟨message, hreport⟩ := hout fun hin => hneg hin.1
    rw [executeLoadIndex_list P (withOperands_list _ _) (withOperands_onTop _ _),
      loadElement_integer P (withOperands_onTop _ _), if_neg (by omega),
      if_pos (by omega)] at hreport
    cases hreport
  · intro hpos vm a ha htop hcap
    have hrun := (executeLoadIndex_list P ha htop).trans (loadElement_integer P htop)
    rw [Reports, hrun]
    constructor
    · intro v _ hv
      have hlt := (List.getElem?_eq_some_iff.mp hv).1
      rw [if_neg (by omega), if_neg (by omega), hv]
      exact pop_pop_push P htop hcap
    · intro hout
      rw [if_pos (by by_contra hlt; exact hout ⟨hpos, by omega⟩)]
      exact ⟨_, rfl⟩

theorem storeIndexExact_iff (values : List Value) (index : Int64) :
    StoreIndexExact P values index ↔ 0 ≤ index.toInt := by
  constructor
  · intro h
    by_contra hneg
    obtain ⟨-, hout⟩ := h (withOperands [.list values] [.nil false, .integer index, .ofAddr 0]) 0
      (.nil false) (withOperands_list _ _) (withOperands_onTop _ _)
      (withOperands_stackTop_le P _ (by simp))
    obtain ⟨message, hreport⟩ := hout fun hin => hneg hin.1
    rw [executeStoreIndex_list P (withOperands_list _ _) (withOperands_onTop _ _),
      storeElement_integer P (withOperands_onTop _ _), if_neg (by omega),
      if_neg (by omega)] at hreport
    have hstore := pop_pop_pop_push P (u := .nil false)
      (withOperands_onTop [.list values] [.nil false, .integer index, .ofAddr 0])
      (withOperands_stackTop_le P _ (by simp))
    exact nomatch hstore.symm.trans hreport
  · intro hpos vm a v ha htop hcap
    have hrun := (executeStoreIndex_list P ha htop).trans (storeElement_integer P htop)
    rw [Reports, hrun]
    constructor
    · intro hin
      rw [if_neg (by have := hin.2; omega), if_pos hpos]
      exact @pop_pop_pop_push P { vm with heap := _ } _ _ _ _ _ ⟨htop.length, htop.slot⟩ hcap
    · intro hout
      rw [if_pos (by by_contra hlt; exact hout ⟨hpos, by omega⟩)]
      exact ⟨_, rfl⟩

theorem deleteExact_iff (values : List Value) (index : Int64) :
    DeleteExact P values index ↔ 0 ≤ index.toInt := by
  constructor
  · intro h
    by_contra hneg
    obtain ⟨-, hout⟩ := h (withOperands [.list values] [.integer index, .ofAddr 0, .nil false]) 0
      (.nil false) (withOperands_list _ _) (withOperands_onTop _ _)
      (withOperands_stackTop_le P _ (by simp))
    obtain ⟨message, hreport⟩ := hout fun hin => hneg hin.1
    rw [callNative_delete_list P (withOperands_list _ _) (withOperands_onTop _ _)] at hreport
    unfold Native.deleteElement at hreport
    dsimp only at hreport
    rw [if_neg (by omega), if_neg hneg] at hreport
    cases hreport
  · intro hpos vm a callee ha htop hcap
    have hlen : 3 ≤ vm.stackTop := htop.length
    have hrun := callNative_delete_list P ha htop
    unfold Native.deleteElement at hrun
    dsimp only at hrun
    rw [Reports, hrun]
    constructor
    · intro hin
      rw [if_neg (by have := hin.2; omega), if_pos hpos]
      refine (@push_apply P
        { vm with heap := _, output := _, stackTop := vm.stackTop - 2 - 1 } _ ?_).trans ?_
      · change vm.stackTop - 2 - 1 < P.capacity
        omega
      · rw [List.append_nil]
        rfl
    · intro hout
      rw [if_pos (by by_contra hlt; exact hout ⟨hpos, by omega⟩)]
      exact ⟨_, rfl⟩

/-- **Indexing a list is exact from 0 on.**  `LOAD_INDEX`, `STORE_INDEX` and `delete` compare a
signed index with the size, and the list compares it as an unsigned number: a negative index passes
the first check and fails the second, and then a load throws and the other two do nothing.  So each
of the three does what it should, within the bounds and above them, exactly at the indices that are
not negative. -/
theorem listIndexing_exact_iff (values : List Value) (index : Int64) :
    (LoadIndexExact P values index ↔ 0 ≤ index.toInt) ∧
    (StoreIndexExact P values index ↔ 0 ≤ index.toInt) ∧
    (DeleteExact P values index ↔ 0 ≤ index.toInt) :=
  ⟨loadIndexExact_iff P values index, storeIndexExact_iff P values index,
    deleteExact_iff P values index⟩

/-- Index `-1` of a list of one element. -/
theorem listIndexing_minus_one : ¬ LoadIndexExact barePlatform [.integer 7] (-1) ∧
    ¬ StoreIndexExact barePlatform [.integer 7] (-1) ∧
    ¬ DeleteExact barePlatform [.integer 7] (-1) := by
  rw [loadIndexExact_iff, storeIndexExact_iff, deleteExact_iff]
  decide

end VM

end CppLox
