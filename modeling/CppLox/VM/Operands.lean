import CppLox.VM.Preserves

/-!
# Virtual machine — operands

What the stack operations do on a stack whose top is known.
-/

namespace CppLox

open VMM

/-- The closure a value refers to. -/
def Value.closureIn (heap : Heap) : Value → Option (Addr × ObjectFunction)
  | .object (.heap a) =>
    match heap[a]? with
    | some (.closure function _) => some (a, function)
    | _ => none
  | _ => none

theorem Value.heap_of_closureIn {heap : Heap} {v : Value} {a : Addr} {function : ObjectFunction}
    (h : v.closureIn heap = some (a, function)) :
    ∃ upvalues, heap[a]? = some (HeapObject.closure function upvalues) := by
  unfold closureIn at h
  split at h
  · split at h
    · rename_i ha
      cases h
      exact ⟨_, ha⟩
    · cases h
  · cases h

/-- The name and the methods of the class a value refers to. -/
def Value.classIn (heap : Heap) (v : Value) : Option (Bytes × StringTable) :=
  match v.heapObject heap with
  | some (.class name _ methods) => some (name, methods)
  | _ => none

theorem Value.eq_ofAddr_of_heapObject {heap : Heap} {v : Value} {object : HeapObject}
    (h : v.heapObject heap = some object) : ∃ a, v = .ofAddr a := by
  unfold heapObject at h
  split at h
  · exact ⟨_, rfl⟩
  · cases h

namespace VM

/-- The stack ends with some values, given from the top down. -/
structure OnTop (vm : VM) (values : List Value) : Prop where
  length : values.length ≤ vm.stackTop
  slot : ∀ i v, values[i]? = some v → vm.stack (vm.stackTop - i - 1) = v

/-- The machine with a value in place of the `n` values on top. -/
def replaceTop (vm : VM) (n : Nat) (v : Value) : VM :=
  { vm.setSlot (vm.stackTop - n) v with stackTop := vm.stackTop - n + 1 }

section

variable (P : Platform) {vm : VM} {values : List Value}

theorem OnTop.cons {v : Value} (h : vm.OnTop (v :: values)) : vm.stack (vm.stackTop - 1) = v :=
  h.slot 0 v rfl

theorem OnTop.pos {v : Value} (h : vm.OnTop (v :: values)) : vm.stackTop ≠ 0 := by
  have := h.length
  rw [List.length_cons] at this
  omega

theorem OnTop.tail {v : Value} (h : vm.OnTop (v :: values)) :
    ({ vm with stackTop := vm.stackTop - 1 } : VM).OnTop values := by
  have hlen := h.length
  rw [List.length_cons] at hlen
  refine ⟨Nat.le_sub_of_add_le hlen, fun i w hi => ?_⟩
  have := h.slot (i + 1) w hi
  change vm.stack (vm.stackTop - 1 - i - 1) = w
  rwa [show vm.stackTop - 1 - i - 1 = vm.stackTop - (i + 1) - 1 by omega]

theorem peek_of_lt {n : Nat} (h : n < vm.stackTop) :
    peek n vm = .done (vm.stack (vm.stackTop - n - 1)) vm := by
  change (if vm.stackTop < n + 1 then throwException _ else
    pure (vm.stack (vm.stackTop - n - 1)) : VMM Value) vm = _
  rw [if_neg (by omega)]
  rfl

theorem peek_result {n : Nat} {v : Value} {vm' : VM} (h : peek n vm = .done v vm') :
    vm' = vm ∧ n < vm.stackTop ∧ v = vm.stack (vm.stackTop - n - 1) := by
  by_cases hn : n < vm.stackTop
  · rw [peek_of_lt hn] at h
    cases h
    exact ⟨rfl, hn, rfl⟩
  · change (if vm.stackTop < n + 1 then throwException _ else _ : VMM Value) vm = _ at h
    rw [if_pos (by omega)] at h
    cases h

theorem peek_apply {i : Nat} {v : Value} (h : vm.OnTop values) (hi : values[i]? = some v) :
    peek i vm = .done v vm := by
  have hlen := h.length
  have hlt := (List.getElem?_eq_some_iff.mp hi).1
  rw [peek_of_lt (by omega), h.slot i v hi]

theorem pop_apply {v : Value} (h : vm.OnTop (v :: values)) :
    pop vm = .done v { vm with stackTop := vm.stackTop - 1 } := by
  have hv := h.cons
  change (if vm.stackTop = 0 then throwException _ else _ : VMM Value) vm = _
  rw [if_neg h.pos]
  subst hv
  rfl

theorem push_apply {v : Value} (h : vm.stackTop < P.capacity) :
    push P v vm = .done () { vm.setSlot vm.stackTop v with stackTop := vm.stackTop + 1 } := by
  change (if vm.stackTop = P.capacity then throwException _ else _ : VMM Unit) vm = _
  rw [if_neg h.ne]
  rfl

/-- Values are popped and one is pushed. -/
theorem pop_pop_push {v w u : Value} (h : vm.OnTop (v :: w :: values))
    (hcap : vm.stackTop ≤ P.capacity) :
    (do let _ ← pop; let _ ← pop; push P u : VMM Unit) vm = .done () (vm.replaceTop 2 u) := by
  have hlen := h.length
  simp only [List.length_cons] at hlen
  rw [VMM.bind_of_done (pop_apply h), VMM.bind_of_done (pop_apply h.tail), push_apply P]
  · rfl
  · change vm.stackTop - 1 - 1 < P.capacity
    omega

theorem pop_pop_pop_push {v w x u : Value} (h : vm.OnTop (v :: w :: x :: values))
    (hcap : vm.stackTop ≤ P.capacity) :
    (do let _ ← pop; let _ ← pop; let _ ← pop; push P u : VMM Unit) vm =
      .done () (vm.replaceTop 3 u) := by
  have hlen := h.length
  simp only [List.length_cons] at hlen
  rw [VMM.bind_of_done (pop_apply h), VMM.bind_of_done (pop_apply h.tail),
    VMM.bind_of_done (pop_apply h.tail.tail), push_apply P]
  · rfl
  · change vm.stackTop - 1 - 1 - 1 < P.capacity
    omega

theorem calleeSlot_apply {argCount : Nat} (h : argCount < vm.stackTop) :
    calleeSlot argCount vm = .done (vm.stackTop - argCount - 1) vm := by
  change (if vm.stackTop < argCount + 1 then undefinedBehaviour else
    pure (vm.stackTop - argCount - 1) : VMM Nat) vm = _
  rw [if_neg (by omega)]
  rfl

end

theorem objectAt_apply (a : Addr) (vm : VM) : objectAt a vm =
    match vm.heap[a]? with
    | some object => .done object vm
    | none => .stopped .undefined vm := by
  change (match vm.heap[a]? with
    | some object => pure object
    | none => undefinedBehaviour : VMM HeapObject) vm = _
  cases vm.heap[a]? <;> rfl

theorem objectAt_done {a : Addr} {vm vm' : VM} {object : HeapObject}
    (h : objectAt a vm = .done object vm') : vm.heap[a]? = some object ∧ vm' = vm := by
  rw [objectAt_apply] at h
  split at h
  · rename_i heq
    cases h
    exact ⟨heq, rfl⟩
  · cases h

theorem objectOf_apply (v : Value) (vm : VM) :
    objectOf v vm = .done (v.heapObject vm.heap) vm := rfl

theorem closureOf_apply (v : Value) (vm : VM) :
    closureOf v vm = match v.closureIn vm.heap with
      | some closure => .done closure vm
      | none => .stopped .undefined vm := by
  cases v with
  | object o =>
      cases o with
      | heap a =>
          have hobject := objectAt_apply a vm
          unfold Value.closureIn
          dsimp only
          cases ha : vm.heap[a]? with
          | none =>
              rw [ha] at hobject
              exact VMM.bind_of_stopped hobject _
          | some object =>
              rw [ha] at hobject
              refine (VMM.bind_of_done hobject _).trans ?_
              cases object <;> rfl
      | _ => rfl
  | _ => rfl

theorem classOf_apply (v : Value) (vm : VM) :
    classOf v vm = match v.classIn vm.heap with
      | some klass => .done klass vm
      | none => .stopped .undefined vm := by
  unfold classOf Value.classIn
  rw [VMM.bind_of_done (objectOf_apply v vm)]
  cases v.heapObject vm.heap with
  | none => rfl
  | some o => cases o <;> rfl

theorem heapObject_ofAddr (heap : Heap) (a : Addr) :
    (Value.ofAddr a).heapObject heap = heap[a]? := rfl

end VM

end CppLox
