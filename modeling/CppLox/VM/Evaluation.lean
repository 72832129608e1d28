import CppLox.Compiler.Code
import CppLox.VM.Fetch

/-!
# Virtual machine — evaluation

Runs of a piece of code from its first instruction to its end.  Such a run *pushes* some values when
it leaves them above the values that were on the stack, and leaves alone what is reserved: the slots
from a base on, and the objects that are being built.
-/

namespace CppLox

open VMM

namespace VM

variable (P : Platform)

/-- What a piece of code leaves alone: the slots in use from `base` on, and some objects. -/
structure Reserve where
  base : Nat
  building : List Addr

/-- The reserved slots and objects are as before. -/
structure Reserve.Keeps (R : Reserve) (vm vm' : VM) : Prop where
  slots : ∀ i, R.base ≤ i → i < vm.stackTop → vm'.stack i = vm.stack i
  objects : ∀ a ∈ R.building, vm'.heap[a]? = vm.heap[a]?

/-- The reserved objects are there. -/
def Reserve.Valid (R : Reserve) (vm : VM) : Prop := ∀ a ∈ R.building, a < vm.heap.length

/-- The code is run to its end. -/
structure Finishes (is : List Instr) (vm vm' : VM) : Prop where
  steps : Steps P vm vm'
  frames : vm'.frames = advanceFrames (codeSize is) vm.frames

/-- The code is run to its end, with a value on top of the stack. -/
structure Ends (is : List Instr) (vm : VM) (v : Value) (vm' : VM) : Prop
    extends Finishes P is vm vm' where
  stackTop : 0 < vm'.stackTop
  value : vm'.stack (vm'.stackTop - 1) = v

/-- One value more is on the stack, and the reserved slots and objects are as before. -/
structure Tidy (R : Reserve) (vm vm' : VM) : Prop extends R.Keeps vm vm' where
  stackTop : vm'.stackTop = vm.stackTop + 1

/-- The code is run to its end and pushes some values. -/
structure Pushes (R : Reserve) (is : List Instr) (vm : VM) (values : List Value) (vm' : VM) : Prop
    extends Finishes P is vm vm', R.Keeps vm vm' where
  stackTop : vm'.stackTop = vm.stackTop + values.length
  values : ∀ i v, values[i]? = some v → vm'.stack (vm.stackTop + i) = v

section

variable {P} {R : Reserve} {is is' : List Instr} {vm vm₁ vm₂ : VM} {values values' : List Value}

theorem advanceFrames_add (m n : Nat) (frames : List CallFrame) :
    advanceFrames n (advanceFrames m frames) = advanceFrames (m + n) frames := by
  cases frames with
  | nil => rfl
  | cons frame frames => simp only [advanceFrames, Nat.add_assoc]

theorem advanceFrames_zero (frames : List CallFrame) : advanceFrames 0 frames = frames := by
  cases frames <;> rfl

/-- The bytes ahead depend on the frames only. -/
theorem Ahead.of_frames {bytes : List UInt8} (h : vm.Ahead bytes) (hframes : vm₁.frames = vm.frames) :
    vm₁.Ahead bytes := by
  obtain ⟨frame, rest, hf, hcode⟩ := h
  exact ⟨frame, rest, hframes.trans hf, hcode⟩

theorem Finishes.refl (vm : VM) : Finishes P [] vm vm := ⟨.refl, (advanceFrames_zero _).symm⟩

theorem Finishes.trans (h : Finishes P is vm vm₁) (h' : Finishes P is' vm₁ vm₂) :
    Finishes P (is ++ is') vm vm₂ := by
  refine ⟨h.steps.trans h'.steps, ?_⟩
  rw [h'.frames, h.frames, advanceFrames_add, codeSize_append]

theorem Finishes.step {i : Instr} (h : Step P vm vm₁)
    (hframes : vm₁.frames = advanceFrames i.size vm.frames) : Finishes P [i] vm vm₁ :=
  ⟨.single h, by rw [hframes, codeSize_cons, codeSize_nil, Nat.add_zero]⟩

/-- Behind a piece of code stands what follows it. -/
theorem Finishes.ahead (h : Finishes P is vm vm₁) {bytes : List UInt8}
    (hahead : vm.Ahead (encodeAll is ++ bytes)) : vm₁.Ahead bytes := by
  have hnext := hahead.advance
  rw [length_encodeAll] at hnext
  exact hnext.of_frames h.frames

theorem Reserve.Keeps.refl (R : Reserve) (vm : VM) : R.Keeps vm vm :=
  ⟨fun _ _ _ => rfl, fun _ _ => rfl⟩

theorem Reserve.Keeps.trans (h : R.Keeps vm vm₁) (h' : R.Keeps vm₁ vm₂)
    (hle : vm.stackTop ≤ vm₁.stackTop) : R.Keeps vm vm₂ :=
  ⟨fun i hi hlt => (h'.slots i hi (Nat.lt_of_lt_of_le hlt hle)).trans (h.slots i hi hlt),
    fun a ha => (h'.objects a ha).trans (h.objects a ha)⟩

theorem Reserve.Keeps.valid (h : R.Keeps vm vm₁) (hvalid : R.Valid vm) : R.Valid vm₁ := by
  intro a ha
  have hsome := h.objects a ha
  rw [List.getElem?_eq_getElem (hvalid a ha)] at hsome
  exact (List.getElem?_eq_some_iff.mp hsome).1

theorem Pushes.refl (R : Reserve) (vm : VM) : Pushes P R [] vm [] vm where
  toFinishes := .refl vm
  toKeeps := .refl R vm
  stackTop := rfl
  values _ _ h := nomatch h

theorem Pushes.of_tidy {v : Value} (h : Ends P is vm v vm₁) (htidy : Tidy R vm vm₁) :
    Pushes P R is vm [v] vm₁ where
  toFinishes := h.toFinishes
  toKeeps := htidy.toKeeps
  stackTop := htidy.stackTop
  values i w hi := by
    have hv := h.value
    rw [htidy.stackTop, Nat.add_sub_cancel] at hv
    cases i with
    | zero => exact hv.trans (Option.some.inj hi)
    | succ i => cases hi

theorem Pushes.trans (h : Pushes P R is vm values vm₁) (h' : Pushes P R is' vm₁ values' vm₂)
    (hbase : R.base ≤ vm.stackTop) : Pushes P R (is ++ is') vm (values ++ values') vm₂ where
  toFinishes := h.toFinishes.trans h'.toFinishes
  toKeeps := h.toKeeps.trans h'.toKeeps (by rw [h.stackTop]; exact Nat.le_add_right _ _)
  stackTop := by rw [h'.stackTop, h.stackTop, List.length_append, Nat.add_assoc]
  values i v hi := by
    by_cases hlt : i < values.length
    · -- a value that was pushed first is reserved afterwards
      rw [List.getElem?_append_left hlt] at hi
      rw [h'.slots _ (by omega) (by rw [h.stackTop]; omega)]
      exact h.values i v hi
    · rw [List.getElem?_append_right (Nat.le_of_not_lt hlt)] at hi
      have := h'.values _ v hi
      rwa [h.stackTop, show vm.stackTop + values.length + (i - values.length) = vm.stackTop + i by
        omega] at this

/-- The values a piece of code pushed are on top, the last one first. -/
theorem Pushes.onTop (h : Pushes P R is vm values vm₁) : vm₁.OnTop values.reverse := by
  have htop := h.stackTop
  refine ⟨by rw [List.length_reverse]; omega, fun i v hi => ?_⟩
  have hlt : i < values.length := by
    simpa using (List.getElem?_eq_some_iff.mp hi).1
  rw [List.getElem?_reverse hlt] at hi
  have := h.values _ v hi
  rwa [show vm₁.stackTop - i - 1 = vm.stackTop + (values.length - 1 - i) by omega]

end

/-! ### Instructions that push a value -/

/-- The machine after an instruction of one byte that pushes a value. -/
def pushed (vm : VM) (v : Value) : VM :=
  { (vm.advance 1).setSlot vm.stackTop v with stackTop := vm.stackTop + 1 }

section

variable {P} {vm : VM} {op : OpCode} {v : Value} {bytes : List UInt8}

theorem step_push (hop : execute P op = push P v) (hne : op ≠ .return)
    (h : vm.Ahead (encodeAll [.op op] ++ bytes)) (hroom : vm.stackTop < P.capacity) :
    Step P vm (vm.pushed v) := by
  unfold Step
  rw [step_apply P (show vm.Ahead (op.toByte :: bytes) from h) hne, hop]
  exact (VMM.bind_of_done (@push_apply P (vm.advance 1) _ hroom) _).trans rfl

theorem pushes_push (R : Reserve) (hop : execute P op = push P v) (hne : op ≠ .return)
    (h : vm.Ahead (encodeAll [.op op] ++ bytes)) (hroom : vm.stackTop < P.capacity) :
    Pushes P R [.op op] vm [v] (vm.pushed v) where
  toFinishes := .step (step_push hop hne h hroom) rfl
  slots i _ hlt := if_neg (Nat.ne_of_lt hlt)
  objects _ _ := rfl
  stackTop := rfl
  values i w hi := by
    cases i with
    | zero => exact (if_pos rfl).trans (Option.some.inj hi)
    | succ i => cases hi

end

theorem Pushes.ends {P : Platform} {R : Reserve} {is : List Instr} {vm vm' : VM} {v : Value}
    (h : Pushes P R is vm [v] vm') : Ends P is vm v vm' where
  toFinishes := h.toFinishes
  stackTop := by rw [h.stackTop]; exact Nat.succ_pos _
  value := h.onTop.cons

theorem Pushes.tidy {P : Platform} {R : Reserve} {is : List Instr} {vm vm' : VM} {v : Value}
    (h : Pushes P R is vm [v] vm') : Tidy R vm vm' := ⟨h.toKeeps, h.stackTop⟩

/-! ### Instructions that build an object -/

/-- The machine with a new object in place of the `n` values on top. -/
def allocated (vm : VM) (n : Nat) (object : HeapObject) : VM :=
  let vm' := { vm with heap := vm.heap ++ [object] }
  vm'.replaceTop n (.ofAddr vm.heap.length)

/-- The machine with another object at an address, without the `n` values on top. -/
def changed (vm : VM) (n : Nat) (a : Addr) (object : HeapObject) : VM :=
  { vm with heap := vm.heap.set a object, stackTop := vm.stackTop - n }

section

variable {P} {R : Reserve} {is : List Instr} {vm₀ vm : VM} {values : List Value} {i : Instr} {a : Addr}
  {object : HeapObject}

theorem Pushes.allocated (h : Pushes P R is vm₀ values vm) (hvalid : R.Valid vm₀)
    (hstep : Step P vm ((vm.advance i.size).allocated values.length object)) :
    Pushes P R (is ++ [i]) vm₀ [.ofAddr vm.heap.length]
      ((vm.advance i.size).allocated values.length object) ∧
    ((vm.advance i.size).allocated values.length object).heap[vm.heap.length]? = some object := by
  have htop := h.stackTop
  have hbase : vm.stackTop - values.length = vm₀.stackTop := by omega
  refine ⟨⟨h.toFinishes.trans (.step hstep rfl), ⟨fun j hj hlt => ?_, fun b hb => ?_⟩, ?_,
    fun j v hj => ?_⟩, ?_⟩
  · change (if j = vm.stackTop - values.length then _ else vm.stack j) = _
    rw [if_neg (by omega)]
    exact h.slots j hj hlt
  · rw [← h.objects b hb]
    exact List.getElem?_append_left (h.toKeeps.valid hvalid b hb)
  · change vm.stackTop - values.length + 1 = _
    rw [hbase]
    rfl
  · cases j with
    | zero =>
        cases hj
        change (if vm₀.stackTop + 0 = vm.stackTop - values.length then _ else _) = _
        rw [if_pos (by omega)]
        rfl
    | succ j => cases hj
  · change (vm.heap ++ [object])[vm.heap.length]? = _
    rw [List.getElem?_append_right (Nat.le_refl _), Nat.sub_self]
    rfl

theorem Pushes.changed (h : Pushes P R is vm₀ (.ofAddr a :: values) vm)
    (hstep : Step P vm ((vm.advance i.size).changed values.length a object)) (ha : a < vm.heap.length)
    (hR : a ∉ R.building) :
    Pushes P R (is ++ [i]) vm₀ [.ofAddr a] ((vm.advance i.size).changed values.length a object) ∧
    ((vm.advance i.size).changed values.length a object).heap[a]? = some object := by
  have htop := h.stackTop
  refine ⟨⟨h.toFinishes.trans (.step hstep rfl), ⟨h.slots, fun b hb => ?_⟩, ?_, fun j v hj => ?_⟩, ?_⟩
  · rw [← h.objects b hb]
    refine List.getElem?_set_ne fun hab => hR ?_
    rw [hab]
    exact hb
  · change vm.stackTop - values.length = _
    rw [htop, List.length_cons]
    change _ = vm₀.stackTop + 1
    omega
  · cases j with
    | zero => exact h.values 0 v hj
    | succ j => cases hj
  · exact List.getElem?_set_self ha

end

/-! ### Literals of lists and maps -/

/-- The code of a literal whose items have some codes, after the first `n` items. -/
def literalCode (buildOp appendOp : OpCode) (threshold : Nat) : List (List Instr) → Nat → List Instr
  | [], n => buildCode buildOp threshold n
  | is :: codes, n =>
    is ++ elementCode buildOp appendOp threshold (n + 1) ++
      literalCode buildOp appendOp threshold codes (n + 1)

section

variable {buildOp appendOp : OpCode} {threshold n : Nat}

theorem elementCode_of_lt (h : n < threshold) : elementCode buildOp appendOp threshold n = [] := by
  unfold elementCode
  rw [if_neg (by omega), if_neg (by omega)]
  rfl

theorem elementCode_of_eq (h : n = threshold) :
    elementCode buildOp appendOp threshold n = [.byte buildOp n] := by
  unfold elementCode
  rw [if_neg (by omega), if_pos h]
  rfl

theorem elementCode_of_gt (h : threshold < n) :
    elementCode buildOp appendOp threshold n = [.op appendOp] := by
  unfold elementCode
  rw [if_pos h, if_neg (by omega)]
  rfl

end

/-- The run of the instruction behind the `n`-th item, if there is one. -/
inductive Settles (threshold n : Nat) : VM → VM → Prop where
  | pending {vm : VM} (h : n < threshold) : Settles threshold n vm vm
  | built {vm vm' : VM} (h : threshold ≤ n) (hstep : Step P vm vm') : Settles threshold n vm vm'

/-- The object that is being built after `n` items. -/
def beingBuilt (threshold n : Nat) (vm : VM) : List Addr :=
  if n < threshold then []
  else
    match vm.stack (vm.stackTop - 1) with
    | .object (.heap a) => [a]
    | _ => []

/-- Also the objects `as` are reserved. -/
def Reserve.with (R : Reserve) (as : List Addr) : Reserve := { R with building := as ++ R.building }

section

variable {P} {R : Reserve} {vm₀ vm vm₁ : VM} {is : List Instr}

theorem beingBuilt_of_lt {threshold n : Nat} (h : n < threshold) : beingBuilt threshold n vm = [] :=
  if_pos h

theorem beingBuilt_of_pushes {threshold n : Nat} {a : Addr} (h : threshold ≤ n)
    (hpushes : Pushes P R is vm₀ [.ofAddr a] vm) : beingBuilt threshold n vm = [a] := by
  have hv : vm.stack (vm.stackTop - 1) = .ofAddr a := hpushes.onTop.cons
  unfold beingBuilt
  rw [if_neg (Nat.not_lt.mpr h), hv]
  rfl

theorem Tidy.of_with {as : List Addr} (h : Tidy (R.with as) vm vm₁) : Tidy R vm vm₁ :=
  ⟨⟨h.slots, fun a ha => h.objects a (List.mem_append_right _ ha)⟩, h.stackTop⟩

end

end VM

end CppLox
