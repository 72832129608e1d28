import CppLox.VM.Execute

/-!
# Virtual machine — what instructions leave alone

The routines of the machine change it by writing to the stack, to the heap and to the globals, by
moving `ip` and by pushing frames; apart from that three instructions change the list of open
upvalues, and `RETURN` pops a frame.  A relation that these changes respect is one every routine
keeps to: `Preserves R m`.  `Preserves` is a class, so that it is found from the shape of a routine.
-/

namespace CppLox

open VMM

theorem VMM.bind_of_done {α β : Type} {m : VMM α} {vm vm₁ : VM} {a : α} (h : m vm = .done a vm₁)
    (f : α → VMM β) : (m >>= f) vm = f a vm₁ := by
  rw [VMM.bind_apply, h]

theorem VMM.bind_of_stopped {α β : Type} {m : VMM α} {vm vm₁ : VM} {i : Interrupt}
    (h : m vm = .stopped i vm₁) (f : α → VMM β) : (m >>= f) vm = .stopped i vm₁ := by
  rw [VMM.bind_apply, h]

theorem VMM.bind_congr {α β : Type} {m n : VMM α} {vm vm' : VM} (h : m vm = n vm')
    (f : α → VMM β) : (m >>= f) vm = (n >>= f) vm' := by
  rw [VMM.bind_apply, VMM.bind_apply, h]

theorem VMM.bind_done {α β : Type} {m : VMM α} {f : α → VMM β} {vm vm' : VM} {b : β} :
    (m >>= f) vm = .done b vm' ↔ ∃ a vm₁, m vm = .done a vm₁ ∧ f a vm₁ = .done b vm' := by
  rw [VMM.bind_apply]
  cases m vm <;> simp

theorem VMM.bind_stopped {α β : Type} {m : VMM α} {f : α → VMM β} {vm vm' : VM} {i : Interrupt} :
    (m >>= f) vm = .stopped i vm' ↔
      m vm = .stopped i vm' ∨ ∃ a vm₁, m vm = .done a vm₁ ∧ f a vm₁ = .stopped i vm' := by
  rw [VMM.bind_apply]
  cases m vm <;> simp

/-- The machine at the end of a routine. -/
def Outcome.vm {α : Type} : Outcome α → VM
  | .done _ vm | .stopped _ vm => vm

/-- The changes of the stack, of plain objects and of the output respect the relation. -/
class Indifferent (R : VM → VM → Prop) : Prop where
  refl : ∀ vm, R vm vm
  trans : ∀ {vm₁ vm₂ vm₃}, R vm₁ vm₂ → R vm₂ vm₃ → R vm₁ vm₃
  stack : ∀ (vm : VM) stack stackTop, R vm { vm with stack, stackTop }
  heap : ∀ (vm : VM) heap, vm.heap.AddsPlain heap → R vm { vm with heap }
  output : ∀ (vm : VM) output, R vm { vm with output }

/-- The changes of a global respect the relation. -/
class IndifferentGlobals (R : VM → VM → Prop) : Prop where
  global : ∀ (vm : VM) index f, (∀ global, (f global).isConst = global.isConst) →
    R vm { vm with context := vm.context.modify index f }

/-- The changes of the methods of a class respect the relation. -/
class IndifferentMethods (R : VM → VM → Prop) : Prop where
  methods : ∀ (vm : VM) a name initMethod methods,
    R vm { vm with heap := vm.heap.set a (.class name initMethod methods) }

/-- The changes of closures respect the relation. -/
class IndifferentClosures (R : VM → VM → Prop) : Prop where
  closures : ∀ (vm : VM) heap, vm.heap.Adds HeapObject.isClosure heap → R vm { vm with heap }

/-- The changes that any routine makes respect the relation. -/
class Undisturbed (R : VM → VM → Prop) : Prop extends Indifferent R where
  ip : ∀ (vm : VM) frame frames ip, vm.frames = frame :: frames →
    R vm { vm with frames := { frame with ip } :: frames }
  call : ∀ (vm : VM) frame, R vm { vm with frames := frame :: vm.frames }

/-- A routine keeps to a relation, whether it ends or is stopped. -/
class Preserves (R : VM → VM → Prop) {α : Type} (m : VMM α) : Prop where
  rel : ∀ vm, R vm (m vm).vm

/-- The routines on open upvalues keep to the relation, too. -/
class IndifferentUpvalues (R : VM → VM → Prop) : Prop extends Indifferent R where
  capture : ∀ slot, Preserves R (VM.captureUpvalue slot)
  close : ∀ P lastValue, Preserves R (VM.closeUpvalues P lastValue)

/-- The frames and the open upvalues may change. -/
class UndisturbedUpvalues (R : VM → VM → Prop) : Prop
    extends Undisturbed R, IndifferentUpvalues R

/-- A frame may be popped. -/
class IndifferentReturns (R : VM → VM → Prop) : Prop where
  pop : ∀ vm : VM, R vm { vm with frames := vm.frames.tail }

/-- Every instruction other than `RETURN` keeps to the relation. -/
class Untouched (R : VM → VM → Prop) : Prop
    extends UndisturbedUpvalues R, IndifferentGlobals R, IndifferentMethods R, IndifferentClosures R

namespace Heap.Adds

variable {kind : HeapObject → Bool} {heap : Heap} {object : HeapObject}

theorem append (h : kind object = true) : heap.Adds kind (heap ++ [object]) := by
  intro a o ha ho
  rcases Nat.lt_trichotomy a heap.length with hlt | rfl | hgt
  · rwa [List.getElem?_append_left hlt] at ha
  · rw [List.getElem?_append_right (Nat.le_refl _), Nat.sub_self] at ha
    cases ha
    rw [h] at ho
    cases ho
  · rw [List.getElem?_eq_none (by rw [List.length_append, List.length_singleton]; omega)] at ha
    cases ha

theorem set {b : Addr} (h : kind object = true) : heap.Adds kind (heap.set b object) := by
  intro a o ha ho
  by_cases hab : b = a
  · subst hab
    by_cases hlt : b < heap.length
    · rw [List.getElem?_set_self hlt] at ha
      cases ha
      rw [h] at ho
      cases ho
    · rwa [List.set_eq_of_length_le (Nat.le_of_not_lt hlt)] at ha
  · rwa [List.getElem?_set_ne hab] at ha

end Heap.Adds

namespace Heap.AddsPlain

theorem refl (heap : Heap) : heap.AddsPlain heap := fun _ _ h _ => h

theorem append {heap : Heap} {object : HeapObject} (h : object.isPlain = true) :
    heap.AddsPlain (heap ++ [object]) := Adds.append h

theorem set {heap : Heap} {b : Addr} {object : HeapObject} (h : object.isPlain = true) :
    heap.AddsPlain (heap.set b object) := Adds.set h

theorem opensNone {heap heap' : Heap} (h : heap.AddsPlain heap') : heap.OpensNone heap' :=
  fun a _ ha => h a _ ha rfl

end Heap.AddsPlain

namespace Preserves

variable {R : VM → VM → Prop} {α β : Type}

theorem done {m : VMM α} (h : Preserves R m) {vm vm' : VM} {a : α} (hrun : m vm = .done a vm') :
    R vm vm' := by
  have := h.rel vm
  rwa [hrun] at this

theorem stopped {m : VMM α} (h : Preserves R m) {vm vm' : VM} {i : Interrupt}
    (hrun : m vm = .stopped i vm') : R vm vm' := by
  have := h.rel vm
  rwa [hrun] at this

variable [Indifferent R]

/-- A routine that leaves the machine as it is. -/
theorem of_eq {m : VMM α} (h : ∀ vm, (m vm).vm = vm) : Preserves R m := by
  refine ⟨fun vm => ?_⟩
  rw [h]
  exact Indifferent.refl vm

theorem bind {m : VMM α} {f : α → VMM β} (hm : Preserves R m) (hf : ∀ a, Preserves R (f a)) :
    Preserves R (m >>= f) := by
  refine ⟨fun vm => ?_⟩
  change R vm (match m vm with
    | .done a vm' => f a vm'
    | .stopped i vm' => .stopped i vm').vm
  split
  · rename_i a vm' heq
    exact Indifferent.trans (hm.done heq) ((hf a).rel vm')
  · rename_i i vm' heq
    exact hm.stopped heq

instance (a : α) : Preserves R (pure a : VMM α) := of_eq fun _ => rfl

instance (m : VMM α) (f : α → VMM β) [Preserves R m] [∀ a, Preserves R (f a)] : Preserves R (m >>= f) :=
  bind inferInstance inferInstance

instance (c : Prop) [Decidable c] (m n : VMM α) [Preserves R m] [Preserves R n] :
    Preserves R (if c then m else n) := by
  split <;> infer_instance

instance (i : Interrupt) : Preserves R (stop i : VMM α) := of_eq fun _ => rfl

instance (message : String) : Preserves R (runtimeError message : VMM α) := of_eq fun _ => rfl

instance (message : String) : Preserves R (throwException message : VMM α) := of_eq fun _ => rfl

instance : Preserves R (undefinedBehaviour : VMM α) := of_eq fun _ => rfl

instance : Preserves R VMM.get := of_eq fun _ => rfl

omit [Indifferent R] in
theorem modify {f : VM → VM} (h : ∀ vm, R vm (f vm)) : Preserves R (VMM.modify f) := ⟨h⟩

end Preserves

namespace VM

section

variable {R : VM → VM → Prop} [Indifferent R] (P : Platform)

/-! ### Primitives -/

instance (v : Value) : Preserves R (push P v) := by
  have : Preserves R (VMM.modify fun vm : VM =>
      { vm.setSlot vm.stackTop v with stackTop := vm.stackTop + 1 }) :=
    .modify fun vm => Indifferent.stack vm _ _
  unfold push
  infer_instance

instance : Preserves R pop := by
  have : Preserves R (VMM.modify fun vm : VM => { vm with stackTop := vm.stackTop - 1 }) :=
    .modify fun vm => Indifferent.stack vm _ _
  unfold pop
  infer_instance

instance (offset : Nat) : Preserves R (peek offset) := by
  unfold peek
  infer_instance

instance (i : Nat) : Preserves R (readSlot P i) := by
  unfold readSlot
  infer_instance

theorem preserves_setSlot (i : VM → Nat) (v : Value) : Preserves R (VMM.modify fun vm => vm.setSlot (i vm) v) :=
  .modify fun vm => Indifferent.stack vm _ _

instance (i : Nat) (v : Value) : Preserves R (writeSlot P i v) := by
  have := preserves_setSlot (R := R) (fun _ => i) v
  unfold writeSlot
  infer_instance

instance : Preserves R currentFrame := by
  refine .of_eq fun vm => ?_
  unfold currentFrame
  cases h : vm.frames <;> simp [bind, VMM.get, h, undefinedBehaviour, stop, pure, Outcome.vm]

instance (index : Nat) : Preserves R (constant index) := by
  unfold constant
  refine .bind inferInstance fun frame => ?_
  split <;> infer_instance

theorem preserves_allocate {object : HeapObject} (h : object.isPlain = true) :
    Preserves R (allocate object) := by
  have : Preserves R (VMM.modify fun vm : VM => { vm with heap := vm.heap ++ [object] }) :=
    .modify fun vm => Indifferent.heap vm _ (.append h)
  unfold allocate
  infer_instance

theorem preserves_setObject {a : Addr} {object : HeapObject} (h : object.isPlain = true) :
    Preserves R (setObject a object) :=
  .modify fun vm => Indifferent.heap vm _ (.set h)

instance [IndifferentClosures R] (function : ObjectFunction) (upvalues : List (Option Addr)) :
    Preserves R (allocate (.closure function upvalues)) := by
  have : Preserves R (VMM.modify fun vm : VM =>
      { vm with heap := vm.heap ++ [.closure function upvalues] }) :=
    .modify fun vm => IndifferentClosures.closures vm _ (.append rfl)
  unfold allocate
  infer_instance

instance (name : Bytes) : Preserves R (allocate (.class name (.nil false) [])) :=
  preserves_allocate rfl

instance (klass : Addr) (fields : StringTable) : Preserves R (allocate (.instance klass fields)) :=
  preserves_allocate rfl

instance (receiver : Value) (method : Addr) : Preserves R (allocate (.boundMethod receiver method)) :=
  preserves_allocate rfl

instance (values : List Value) : Preserves R (allocate (.list values)) := preserves_allocate rfl

instance (table : HashMap Value Value) : Preserves R (allocate (.map table)) :=
  preserves_allocate rfl

omit [Indifferent R] in
instance [IndifferentClosures R] (a : Addr) (function : ObjectFunction)
    (upvalues : List (Option Addr)) : Preserves R (setObject a (.closure function upvalues)) :=
  .modify fun vm => IndifferentClosures.closures vm _ (.set rfl)

instance (a : Addr) (v : Value) : Preserves R (setObject a (.upvalue (.closed v))) :=
  preserves_setObject rfl

instance (a klass : Addr) (fields : StringTable) :
    Preserves R (setObject a (.instance klass fields)) := preserves_setObject rfl

instance (a : Addr) (values : List Value) : Preserves R (setObject a (.list values)) :=
  preserves_setObject rfl

instance (a : Addr) (table : HashMap Value Value) : Preserves R (setObject a (.map table)) :=
  preserves_setObject rfl

instance (a : Addr) : Preserves R (objectAt a) := by
  unfold objectAt
  refine .bind inferInstance fun vm => ?_
  split <;> infer_instance

instance (v : Value) : Preserves R (objectOf v) := by
  unfold objectOf
  infer_instance

instance (v : Value) : Preserves R (stringOf v) := by
  unfold stringOf
  split <;> infer_instance

instance (v : Value) : Preserves R (classOf v) := by
  unfold classOf
  refine .bind inferInstance fun o => ?_
  split <;> infer_instance

instance (a : Addr) : Preserves R (classAt a) := by
  unfold classAt
  infer_instance

instance (v : Value) : Preserves R (closureOf v) := by
  unfold closureOf
  split
  · refine .bind inferInstance fun o => ?_
    split <;> infer_instance
  · infer_instance

instance (argCount : Nat) : Preserves R (calleeSlot argCount) := by
  unfold calleeSlot
  infer_instance

instance (a : Addr) : Preserves R (locationAt a) := by
  unfold locationAt
  refine .bind inferInstance fun o => ?_
  split <;> infer_instance

instance (index : Nat) : Preserves R (upvalueOf index) := by
  unfold upvalueOf
  refine .bind inferInstance fun frame => .bind inferInstance fun o => ?_
  split
  · split <;> infer_instance
  · infer_instance

instance (native : Native) (argCount : Nat) : Preserves R (callNative P native argCount) := by
  unfold callNative
  split
  · infer_instance
  · refine .bind inferInstance fun slot => ⟨fun vm => ?_⟩
    have hplain := native.addsPlain vm.heap argCount fun i => vm.stack (slot + i)
    change R vm (Outcome.vm ((match native.function vm.heap argCount (fun i => vm.stack (slot + i))
      with
      | .value v heap printed => _
      | .failed heap interrupt => _ : VMM Unit) vm))
    generalize native.function vm.heap argCount (fun i => vm.stack (slot + i)) = result at hplain ⊢
    cases result with
    | value v heap printed =>
        refine Indifferent.trans (Indifferent.trans (Indifferent.trans
          (Indifferent.heap vm heap hplain) (Indifferent.output _ (vm.output ++ printed)))
          (Indifferent.stack { vm with heap, output := vm.output ++ printed } vm.stack slot)) ?_
        exact (inferInstance : Preserves R (push P v)).rel _
    | failed heap interrupt => exact Indifferent.heap vm heap hplain

/-! ### Instructions -/

instance (symbol : String) (integers : Int64 → Int64 → Value) (reals : Float → Float → Value) :
    Preserves R (binaryOp P symbol integers reals) := by
  unfold binaryOp
  refine .bind inferInstance fun b => ?_
  split
  · infer_instance
  · refine .bind inferInstance fun a => ?_
    split
    · infer_instance
    · refine .bind inferInstance fun b => .bind inferInstance fun a => ?_
      split <;> infer_instance

instance : Preserves R executeNegate := by
  have hset : ∀ v, Preserves R (VMM.modify fun vm => vm.setSlot (vm.stackTop - 1) v) :=
    fun v => preserves_setSlot (fun vm => vm.stackTop - 1) v
  unfold executeNegate
  refine .bind inferInstance fun v => ?_
  split <;> infer_instance

instance : Preserves R (addNumbers P) := by
  unfold addNumbers
  infer_instance

instance (a b : List Value) : Preserves R (addLists P a b) := by
  unfold addLists
  infer_instance

instance (a b : Bytes) : Preserves R (addStrings P a b) := by
  unfold addStrings
  infer_instance

instance : Preserves R (executeAdd P) := by
  unfold executeAdd
  refine .bind inferInstance fun b => .bind inferInstance fun o => ?_
  split
  · refine .bind inferInstance fun a => .bind inferInstance fun o => ?_
    split <;> infer_instance
  · refine .bind inferInstance fun a => ?_
    split <;> infer_instance
  · infer_instance

instance : Preserves R (executeSubtract P) := by
  unfold executeSubtract
  infer_instance

instance : Preserves R (executeMultiply P) := by
  unfold executeMultiply
  infer_instance

instance : Preserves R (executeDivide P) := by
  unfold executeDivide
  infer_instance

instance : Preserves R (executeGreater P) := by
  unfold executeGreater
  infer_instance

instance : Preserves R (executeLess P) := by
  unfold executeLess
  infer_instance

instance : Preserves R (executeNot P) := by
  unfold executeNot
  infer_instance

instance : Preserves R (executeEqual P) := by
  unfold executeEqual
  refine .bind inferInstance fun b => .bind inferInstance fun a => ?_
  split
  · infer_instance
  · refine .bind inferInstance fun vm => ?_
    split <;> infer_instance

instance (v : Value) : Preserves R (toText P v) := by
  unfold toText
  refine .bind inferInstance fun vm => ?_
  split <;> infer_instance

instance : Preserves R (executePrint P) := by
  have : ∀ text : Bytes, Preserves R (VMM.modify fun vm : VM =>
      { vm with output := vm.output ++ text ++ [10] }) := fun text => .modify fun vm => by
    rw [List.append_assoc]
    exact Indifferent.output vm _
  unfold executePrint
  infer_instance

instance : Preserves R executePopTop := by
  unfold executePopTop
  infer_instance

instance : Preserves R (executeDupTop P) := by
  unfold executeDupTop
  infer_instance

instance (index : Nat) : Preserves R (undefinedGlobal index) := by
  unfold undefinedGlobal
  infer_instance

instance (index : Nat) : Preserves R (loadGlobal P index) := by
  unfold loadGlobal
  infer_instance

instance (slot : Nat) : Preserves R (loadLocal P slot) := by
  unfold loadLocal
  infer_instance

instance (slot : Nat) : Preserves R (storeLocal P slot) := by
  unfold storeLocal
  infer_instance

instance (index : Nat) : Preserves R (loadUpvalue P index) := by
  unfold loadUpvalue
  refine .bind inferInstance fun a => .bind inferInstance fun location => ?_
  split <;> infer_instance

instance (index : Nat) : Preserves R (storeUpvalue P index) := by
  unfold storeUpvalue
  refine .bind inferInstance fun a => .bind inferInstance fun v =>
    .bind inferInstance fun location => ?_
  split <;> infer_instance

instance [IndifferentClosures R] (function : ObjectFunction) : Preserves R (newClosure function) := by
  unfold newClosure
  infer_instance

instance (v : Value) : Preserves R (makeClass P v) := by
  unfold makeClass
  split <;> infer_instance

instance (method : Value) : Preserves R (bindMethod P method) := by
  unfold bindMethod
  infer_instance

instance (klass : Addr) (fields : StringTable) (property : Bytes) :
    Preserves R (loadProperty P klass fields property) := by
  unfold loadProperty
  split
  · infer_instance
  · refine .bind inferInstance fun klass => ?_
    split
    split <;> infer_instance

instance : Preserves R (replaceByNil P) := by
  unfold replaceByNil
  infer_instance

instance (klass : Addr) (fields : StringTable) (property : Bytes) :
    Preserves R (loadPropertySafe P klass fields property) := by
  unfold loadPropertySafe
  split
  · infer_instance
  · refine .bind inferInstance fun klass => ?_
    split
    split <;> infer_instance

instance (a klass : Addr) (fields : StringTable) (property : Bytes) :
    Preserves R (storeProperty P a klass fields property) := by
  unfold storeProperty
  infer_instance

instance (v : Value) : Preserves R (instanceClassName v) := by
  unfold instanceClassName
  refine .bind inferInstance fun o => ?_
  split <;> infer_instance

instance (name : Bytes) : Preserves R (loadSuper P name) := by
  unfold loadSuper
  refine .bind inferInstance fun v => .bind inferInstance fun klass => ?_
  split
  refine .bind inferInstance fun receiver => ?_
  split <;> infer_instance

instance (n : Nat) (values : List Value) : Preserves R (popList n values) := by
  induction n generalizing values with
  | zero =>
      unfold popList
      infer_instance
  | succ n ih =>
      unfold popList
      infer_instance

instance (length : Nat) : Preserves R (buildList P length) := by
  unfold buildList
  infer_instance

instance : Preserves R executeListAppend := by
  unfold executeListAppend
  refine .bind inferInstance fun target => .bind inferInstance fun o => ?_
  split <;> infer_instance

instance (table : HashMap Value Value) (key v : Value) : Preserves R (mapSet P table key v) := by
  unfold mapSet
  refine .bind inferInstance fun vm => ?_
  split
  · infer_instance
  · dsimp only
    split <;> infer_instance

instance (table : HashMap Value Value) (key : Value) : Preserves R (mapGet P table key) := by
  unfold mapGet
  refine .bind inferInstance fun vm => ?_
  dsimp only
  split <;> infer_instance

instance (key : Value) : Preserves R (keyText P key) := by
  unfold keyText
  infer_instance

instance (n : Nat) (table : HashMap Value Value) : Preserves R (popEntries P n table) := by
  induction n generalizing table with
  | zero =>
      unfold popEntries
      infer_instance
  | succ n ih =>
      unfold popEntries
      infer_instance

instance (length : Nat) : Preserves R (buildMap P length) := by
  unfold buildMap
  infer_instance

instance : Preserves R (executeMapAdd P) := by
  unfold executeMapAdd
  refine .bind inferInstance fun target => .bind inferInstance fun o => ?_
  split <;> infer_instance

instance (v : Value) : Preserves R (finishStore P v) := by
  unfold finishStore
  infer_instance

instance (a : Addr) (table : HashMap Value Value) : Preserves R (storeKey P a table) := by
  unfold storeKey
  infer_instance

instance (kind what : String) (index : Int64) (size : Nat) :
    Preserves R (outOfRange kind what index size) := by
  unfold outOfRange
  infer_instance

instance (a : Addr) (values : List Value) : Preserves R (storeElement P a values) := by
  unfold storeElement
  refine .bind inferInstance fun v => ?_
  split <;> infer_instance

instance : Preserves R (executeStoreIndex P) := by
  unfold executeStoreIndex
  refine .bind inferInstance fun target => .bind inferInstance fun o => ?_
  split <;> infer_instance

instance (v : Value) : Preserves R (finishLoad P v) := by
  unfold finishLoad
  infer_instance

instance (table : HashMap Value Value) : Preserves R (loadKey P table) := by
  unfold loadKey
  refine .bind inferInstance fun key => .bind inferInstance fun found =>
    .bind inferInstance fun vm => ?_
  split
  · infer_instance
  · split <;> infer_instance

instance (values : List Value) : Preserves R (loadElement P values) := by
  unfold loadElement
  refine .bind inferInstance fun v => ?_
  split
  · split
    · infer_instance
    · split
      · infer_instance
      · split <;> infer_instance
  · infer_instance

instance (s : Bytes) : Preserves R (loadCharacter P s) := by
  unfold loadCharacter
  refine .bind inferInstance fun v => ?_
  split
  · split <;> infer_instance
  · infer_instance

instance : Preserves R (executeLoadIndex P) := by
  unfold executeLoadIndex
  refine .bind inferInstance fun target => .bind inferInstance fun o => ?_
  split <;> infer_instance

end

section

variable {R : VM → VM → Prop} [Undisturbed R] (P : Platform)

/-! ### Operands and calls -/

instance (ip : Nat) : Preserves R (setIp ip) := by
  refine .modify fun vm => ?_
  split
  · exact Indifferent.refl vm
  · rename_i frame frames heq
    exact Undisturbed.ip vm frame frames ip heq

instance : Preserves R readByte := by
  unfold readByte
  refine .bind inferInstance fun frame => ?_
  split <;> infer_instance

instance : Preserves R readUint16Le := by
  unfold readUint16Le
  infer_instance

instance : Preserves R readConstant := by
  unfold readConstant
  infer_instance

instance : Preserves R readConstantLong := by
  unfold readConstantLong
  infer_instance

instance (closure : Addr × ObjectFunction) (argCount : Nat) : Preserves R (call closure argCount) := by
  have : ∀ slots, Preserves R (VMM.modify fun vm : VM =>
      { vm with frames := ⟨closure.1, closure.2, 0, slots⟩ :: vm.frames }) :=
    fun slots => .modify fun vm => Undisturbed.call vm _
  unfold call
  infer_instance

instance (a : Addr) (name : Bytes) (initMethod : Value) (argCount : Nat) :
    Preserves R (callClass P a name initMethod argCount) := by
  unfold callClass
  refine .bind inferInstance fun inst => .bind inferInstance fun slot =>
    .bind inferInstance fun _ => ?_
  split <;> infer_instance

instance (callee : Value) (argCount : Nat) : Preserves R (callValue P callee argCount) := by
  unfold callValue
  split
  · infer_instance
  · split <;> infer_instance
  · refine .bind inferInstance fun o => ?_
    split <;> infer_instance
  · infer_instance

instance (klass : Bytes × StringTable) (name : Bytes) (argCount : Nat) :
    Preserves R (invokeFromClass klass name argCount) := by
  unfold invokeFromClass
  split <;> infer_instance

instance (name : Bytes) (argCount : Nat) : Preserves R (invoke P name argCount) := by
  unfold invoke
  refine .bind inferInstance fun receiver => .bind inferInstance fun o => ?_
  split
  · split <;> infer_instance
  · infer_instance

/-! ### Instructions with operands -/

instance (offset : Nat) : Preserves R (jumpForward offset) := by
  unfold jumpForward
  infer_instance

instance (offset : Nat) : Preserves R (jumpBackward offset) := by
  unfold jumpBackward
  infer_instance

instance (condition : Bool) (offset : Nat) : Preserves R (jumpIf condition offset) := by
  unfold jumpIf
  infer_instance

instance : Preserves R executeJumpIfFalse := by
  unfold executeJumpIfFalse
  infer_instance

instance : Preserves R executeJumpIfTrue := by
  unfold executeJumpIfTrue
  infer_instance

instance : Preserves R executePopJumpIfFalse := by
  unfold executePopJumpIfFalse
  infer_instance

instance : Preserves R executeJumpForward := by
  unfold executeJumpForward
  infer_instance

instance : Preserves R executeJumpBackward := by
  unfold executeJumpBackward
  infer_instance

instance : Preserves R (executeLoadGlobal P) := by
  unfold executeLoadGlobal
  infer_instance

instance : Preserves R (executeLoadLocal P) := by
  unfold executeLoadLocal
  infer_instance

instance : Preserves R (executeStoreLocal P) := by
  unfold executeStoreLocal
  infer_instance

instance : Preserves R (executeLoadUpvalue P) := by
  unfold executeLoadUpvalue
  infer_instance

instance : Preserves R (executeStoreUpvalue P) := by
  unfold executeStoreUpvalue
  infer_instance

instance : Preserves R (executeCall P) := by
  unfold executeCall
  infer_instance

instance : Preserves R (executeInvoke P) := by
  unfold executeInvoke
  infer_instance

instance : Preserves R executeSuperInvoke := by
  unfold executeSuperInvoke
  infer_instance

instance : Preserves R (executeClass P) := by
  unfold executeClass
  infer_instance

instance : Preserves R (executeLoadProperty P) := by
  unfold executeLoadProperty
  refine .bind inferInstance fun v => .bind inferInstance fun o => ?_
  split <;> infer_instance

instance : Preserves R (executeLoadPropertySafe P) := by
  unfold executeLoadPropertySafe
  refine .bind inferInstance fun v => .bind inferInstance fun o => ?_
  split <;> infer_instance

instance : Preserves R (executeStoreProperty P) := by
  unfold executeStoreProperty
  refine .bind inferInstance fun target => .bind inferInstance fun o => ?_
  split <;> infer_instance

instance : Preserves R (executeLoadSuper P) := by
  unfold executeLoadSuper
  infer_instance

instance : Preserves R (executeList P) := by
  unfold executeList
  infer_instance

instance : Preserves R (executeMap P) := by
  unfold executeMap
  infer_instance

/-- The instructions that change globals, methods or the list of open upvalues, and `RETURN`. -/
def disturbing : List OpCode :=
  [.defineGlobal, .storeGlobal, .method, .inherit, .closure, .closeUpvalue, .return]

/-- An instruction that is not among these. -/
theorem preserves_execute {op : OpCode} (h : op ∉ disturbing) : Preserves R (execute P op) := by
  cases op <;> first | exact absurd (by decide) h | (unfold execute; infer_instance)

end

/-! ### Globals -/

section

variable {R : VM → VM → Prop} [IndifferentGlobals R]

theorem preserves_modifyGlobal (index : Nat) {f : GlobalValue → GlobalValue}
    (h : ∀ global, (f global).isConst = global.isConst) : Preserves R (modifyGlobal index f) :=
  .modify fun vm => IndifferentGlobals.global vm index f h

variable [Indifferent R]

instance (index : Nat) : Preserves R (defineGlobal index) := by
  have : Preserves R (modifyGlobal index fun global => { global with defined := true }) :=
    preserves_modifyGlobal index fun _ => rfl
  have : ∀ v : Value, Preserves R (modifyGlobal index fun global =>
      { global with value := v, initialized := global.initialized || !v.isUninitialized }) :=
    fun v => preserves_modifyGlobal index fun _ => rfl
  unfold defineGlobal
  infer_instance

instance (index : Nat) : Preserves R (storeGlobal index) := by
  have : ∀ v : Value, Preserves R (modifyGlobal index fun global =>
      { global with value := v, initialized := true }) :=
    fun v => preserves_modifyGlobal index fun _ => rfl
  unfold storeGlobal
  infer_instance

end

section

variable {R : VM → VM → Prop} [Undisturbed R] [IndifferentGlobals R]

instance : Preserves R executeDefineGlobal := by
  unfold executeDefineGlobal
  infer_instance

instance : Preserves R executeStoreGlobal := by
  unfold executeStoreGlobal
  infer_instance

end

/-! ### Methods -/

section

variable {R : VM → VM → Prop} [IndifferentMethods R]

instance (a : Addr) (name : Bytes) (initMethod : Value) (methods : StringTable) :
    Preserves R (setObject a (.class name initMethod methods)) :=
  .modify fun vm => IndifferentMethods.methods vm a name initMethod methods

variable [Indifferent R]

instance (v : Value) : Preserves R (addMethod v) := by
  unfold addMethod
  split
  · refine .bind inferInstance fun method => .bind inferInstance fun klass =>
      .bind inferInstance fun o => ?_
    split <;> infer_instance
  · infer_instance

instance : Preserves R executeInherit := by
  unfold executeInherit
  refine .bind inferInstance fun v => .bind inferInstance fun o => ?_
  split
  · refine .bind inferInstance fun subclass => .bind inferInstance fun o => ?_
    split <;> infer_instance
  · infer_instance

end

section

variable {R : VM → VM → Prop} [Undisturbed R] [IndifferentMethods R]

instance : Preserves R executeMethod := by
  unfold executeMethod
  infer_instance

end

/-- An instruction other than the three on open upvalues and `RETURN`. -/
theorem preserves_execute_of_ne {R : VM → VM → Prop} [Undisturbed R] [IndifferentGlobals R]
    [IndifferentMethods R] (P : Platform) {op : OpCode} (h : op ≠ .closure)
    (h' : op ≠ .closeUpvalue) : Preserves R (execute P op) := by
  by_cases hop : op ∈ disturbing
  · cases op <;>
      first
      | exact absurd rfl h
      | exact absurd rfl h'
      | exact absurd hop (by decide)
      | (unfold execute; infer_instance)
  · exact preserves_execute P hop

/-! ### Open upvalues -/

section

variable {R : VM → VM → Prop} [Indifferent R] (P : Platform)

theorem preserves_closeUpvaluesFrom (hopen : ∀ (vm : VM) openUpvalues, R vm { vm with openUpvalues })
    (lastValue : Nat) (l : List Addr) : Preserves R (closeUpvaluesFrom P lastValue l) := by
  have : ∀ l, Preserves R (VMM.modify fun vm : VM => { vm with openUpvalues := l }) :=
    fun l => .modify fun vm => hopen vm l
  induction l with
  | nil =>
      unfold closeUpvaluesFrom
      infer_instance
  | cons a rest ih =>
      unfold closeUpvaluesFrom
      refine .bind inferInstance fun location => ?_
      split <;> infer_instance

theorem preserves_captureFrom
    (hupvalue : ∀ (vm : VM) slot, R vm { vm with heap := vm.heap ++ [.upvalue (.slot slot)] })
    (slot : Nat) (l : List Addr) : Preserves R (captureFrom slot l) := by
  have : Preserves R (allocate (.upvalue (.slot slot))) := by
    have : Preserves R (VMM.modify fun vm : VM =>
        { vm with heap := vm.heap ++ [.upvalue (.slot slot)] }) :=
      .modify fun vm => hupvalue vm slot
    unfold allocate
    infer_instance
  induction l with
  | nil =>
      unfold captureFrom
      infer_instance
  | cons current rest ih =>
      unfold captureFrom
      refine .bind inferInstance fun location => ?_
      split <;> infer_instance

/-- A relation that depends neither on new upvalues nor on the list of open ones. -/
theorem indifferentUpvalues_of
    (hupvalue : ∀ (vm : VM) slot, R vm { vm with heap := vm.heap ++ [.upvalue (.slot slot)] })
    (hopen : ∀ (vm : VM) openUpvalues, R vm { vm with openUpvalues }) :
    IndifferentUpvalues R where
  capture slot := by
    have := preserves_captureFrom hupvalue slot
    have : ∀ l, Preserves R (VMM.modify fun vm : VM => { vm with openUpvalues := l }) :=
      fun l => .modify fun vm => hopen vm l
    unfold captureUpvalue
    infer_instance
  close P lastValue := by
    have := preserves_closeUpvaluesFrom P hopen lastValue
    unfold closeUpvalues
    infer_instance

end

section

variable {R : VM → VM → Prop} [IndifferentUpvalues R] (P : Platform)

instance (slot : Nat) : Preserves R (captureUpvalue slot) := IndifferentUpvalues.capture slot

instance (lastValue : Nat) : Preserves R (closeUpvalues P lastValue) :=
  IndifferentUpvalues.close P lastValue

instance (isLocal : Bool) (index : Nat) : Preserves R (captureOne isLocal index) := by
  unfold captureOne
  infer_instance

instance : Preserves R (executeCloseUpvalue P) := by
  unfold executeCloseUpvalue
  infer_instance

instance [IndifferentReturns R] : Preserves R (executeReturn P) := by
  have : Preserves R (VMM.modify fun vm : VM => { vm with frames := vm.frames.tail }) :=
    .modify fun vm => IndifferentReturns.pop vm
  have : ∀ stackTop, Preserves R (VMM.modify fun vm : VM => { vm with stackTop }) :=
    fun stackTop => .modify fun vm => Indifferent.stack vm vm.stack stackTop
  unfold executeReturn
  refine .bind inferInstance fun result => .bind inferInstance fun frame =>
    .bind inferInstance fun _ => .bind inferInstance fun _ => .bind inferInstance fun vm => ?_
  split <;> infer_instance

end

section

variable {R : VM → VM → Prop} [UndisturbedUpvalues R] [IndifferentClosures R] (P : Platform)

instance (closure : Addr) (n i : Nat) : Preserves R (captureAll closure n i) := by
  induction n generalizing i with
  | zero =>
      unfold captureAll
      infer_instance
  | succ n ih =>
      unfold captureAll
      refine .bind inferInstance fun isLocal => .bind inferInstance fun index =>
        .bind inferInstance fun a => .bind inferInstance fun o => ?_
      split <;> infer_instance

instance (v : Value) : Preserves R (makeClosure P v) := by
  unfold makeClosure
  split <;> infer_instance

instance : Preserves R (executeClosure P) := by
  unfold executeClosure
  infer_instance

end

section

variable {R : VM → VM → Prop} [Untouched R] (P : Platform)

instance (op : OpCode) : Preserves R (execute P op) := by
  by_cases h : op ∈ disturbing
  · cases op <;> first | exact absurd h (by decide) | (unfold execute; infer_instance)
  · exact preserves_execute P h

instance [IndifferentReturns R] : Preserves R (step P) := by
  unfold step
  refine .bind inferInstance fun b => ?_
  split <;> infer_instance

end

section

variable (P : Platform)

/-! ### Outcomes -/

theorem currentFrame_done {vm vm' : VM} {frame : CallFrame}
    (h : currentFrame vm = .done frame vm') : vm' = vm ∧ ∃ frames, vm.frames = frame :: frames := by
  unfold currentFrame at h
  obtain ⟨_, _, hget, h⟩ := VMM.bind_done.mp h
  cases hget
  cases hframes : vm.frames with
  | nil =>
      rw [hframes] at h
      cases h
  | cons f frames =>
      rw [hframes] at h
      cases h
      exact ⟨rfl, frames, rfl⟩

theorem pop_done {vm vm' : VM} {v : Value} (h : pop vm = .done v vm') :
    vm.stackTop ≠ 0 ∧ v = vm.stack (vm.stackTop - 1) ∧
      vm' = { vm with stackTop := vm.stackTop - 1 } := by
  change (if vm.stackTop = 0 then throwException "Stack underflow" else _ : VMM Value) vm = _ at h
  split at h
  · cases h
  · rename_i hne
    cases h
    exact ⟨hne, rfl, rfl⟩

theorem push_done {v : Value} {vm vm' : VM} {u : Unit} (h : push P v vm = .done u vm') :
    vm' = { vm.setSlot vm.stackTop v with stackTop := vm.stackTop + 1 } := by
  change (if vm.stackTop = P.capacity then throwException "Stack overflow" else _ : VMM Unit) vm = _
    at h
  split at h
  · cases h
  · cases h
    rfl

theorem peek_done {offset : Nat} {vm vm' : VM} {v : Value} (h : peek offset vm = .done v vm') :
    vm' = vm := by
  change (if vm.stackTop < offset + 1 then throwException _ else pure _ : VMM Value) vm = _ at h
  split at h
  · cases h
  · cases h
    rfl

theorem stringOf_done {v : Value} {vm vm' : VM} {s : Bytes} (h : stringOf v vm = .done s vm') :
    vm' = vm := by
  unfold stringOf at h
  split at h
  · cases h
    rfl
  · cases h

theorem allocate_done {object : HeapObject} {vm vm' : VM} {a : Addr}
    (h : allocate object vm = .done a vm') :
    a = vm.heap.length ∧ vm' = { vm with heap := vm.heap ++ [object] } := by
  cases h
  exact ⟨rfl, rfl⟩

theorem call_done {closure : Addr × ObjectFunction} {argCount : Nat} {vm vm' : VM}
    (h : call closure argCount vm = .done () vm') :
    vm' = { vm with frames :=
      ⟨closure.1, closure.2, 0, vm.stackTop - argCount - 1⟩ :: vm.frames } := by
  change (if argCount ≠ closure.2.arity then runtimeError _ else _ : VMM Unit) vm = _ at h
  split at h
  · cases h
  change (if vm.frames.length = maxFrameSize then runtimeError _ else _ : VMM Unit) vm = _ at h
  split at h
  · cases h
  obtain ⟨slots, vm₁, h₁, h⟩ := VMM.bind_done.mp h
  change (if vm.stackTop < argCount + 1 then undefinedBehaviour else pure _ : VMM Nat) vm = _ at h₁
  split at h₁
  · cases h₁
  · cases h₁
    cases h
    rfl

/-- An instruction, after its opcode is read. -/
theorem step_cases {vm : VM} {o : Outcome Bool} (h : step P vm = o) :
    (∃ i vm₁, readByte vm = .stopped i vm₁ ∧ o = .stopped i vm₁) ∨
    ∃ b vm₁, readByte vm = .done b vm₁ ∧
      (OpCode.ofByte b = none ∧ o = .stopped (.exception "Invalid instruction") vm₁ ∨
      OpCode.ofByte b = some .return ∧ executeReturn P vm₁ = o ∨
      ∃ op, OpCode.ofByte b = some op ∧ op ≠ .return ∧
        ((∃ vm₂, execute P op vm₁ = .done () vm₂ ∧ o = .done false vm₂) ∨
          ∃ i vm₂, execute P op vm₁ = .stopped i vm₂ ∧ o = .stopped i vm₂)) := by
  unfold step at h
  cases hread : readByte vm with
  | stopped i vm₁ =>
      rw [VMM.bind_of_stopped hread] at h
      exact .inl ⟨i, vm₁, rfl, h.symm⟩
  | done b vm₁ =>
      rw [VMM.bind_of_done hread] at h
      refine .inr ⟨b, vm₁, rfl, ?_⟩
      cases hop : OpCode.ofByte b with
      | none =>
          rw [hop] at h
          exact .inl ⟨rfl, h.symm⟩
      | some op =>
          rw [hop] at h
          by_cases hret : op = .return
          · subst hret
            exact .inr (.inl ⟨rfl, h⟩)
          · change (if op = .return then _ else _ : VMM Bool) vm₁ = o at h
            rw [if_neg hret] at h
            refine .inr (.inr ⟨op, rfl, hret, ?_⟩)
            cases hrun : execute P op vm₁ with
            | done u vm₂ =>
                rw [VMM.bind_of_done hrun] at h
                exact .inl ⟨vm₂, rfl, h.symm⟩
            | stopped i vm₂ =>
                rw [VMM.bind_of_stopped hrun] at h
                exact .inr ⟨i, vm₂, rfl, h.symm⟩

end

end VM

end CppLox
