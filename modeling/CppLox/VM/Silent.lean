import CppLox.VM.Preserves

/-!
# Virtual machine — routines that report no error

A stopped routine of these ends with an exception or with undefined behaviour.  `Silent` is a class,
so that it is found from the shape of a routine.
-/

namespace CppLox

open VMM

set_option synthInstance.maxSize 10000

namespace VM

variable (P : Platform)

/-- A routine that does not report an error. -/
class Silent {α : Type} (m : VMM α) : Prop where
  ne : ∀ vm vm' message, m vm ≠ .stopped (.runtimeError message) vm'

namespace Silent

variable {α β : Type}

theorem bind {m : VMM α} {f : α → VMM β} (hm : Silent m) (hf : ∀ a, Silent (f a)) :
    Silent (m >>= f) := by
  refine ⟨fun vm vm' message h => ?_⟩
  rcases VMM.bind_stopped.mp h with h | ⟨a, vm₁, -, h⟩
  · exact hm.ne _ _ _ h
  · exact (hf a).ne _ _ _ h

instance (m : VMM α) (f : α → VMM β) [Silent m] [∀ a, Silent (f a)] : Silent (m >>= f) :=
  bind inferInstance inferInstance

instance (c : Prop) [Decidable c] (m n : VMM α) [Silent m] [Silent n] :
    Silent (if c then m else n) := by
  split <;> infer_instance

instance (a : α) : Silent (pure a : VMM α) := ⟨fun _ _ _ => nofun⟩

instance : Silent VMM.get := ⟨fun _ _ _ => nofun⟩

instance (f : VM → VM) : Silent (VMM.modify f) := ⟨fun _ _ _ => nofun⟩

instance (message : String) : Silent (throwException message : VMM α) := ⟨fun _ _ _ => nofun⟩

instance : Silent (undefinedBehaviour : VMM α) := ⟨fun _ _ _ => nofun⟩

end Silent

instance (v : Value) : Silent (push P v) := by
  unfold push
  infer_instance

instance : Silent pop := by
  unfold pop
  infer_instance

instance (offset : Nat) : Silent (peek offset) := by
  unfold peek
  infer_instance

instance (i : Nat) : Silent (readSlot P i) := by
  unfold readSlot
  infer_instance

instance (i : Nat) (v : Value) : Silent (writeSlot P i v) := by
  unfold writeSlot
  infer_instance

instance : Silent currentFrame := by
  unfold currentFrame
  refine .bind inferInstance fun vm => ?_
  split <;> infer_instance

instance : Silent readByte := by
  unfold readByte setIp
  refine .bind inferInstance fun frame => ?_
  split <;> infer_instance

instance : Silent readUint16Le := by
  unfold readUint16Le
  infer_instance

instance (index : Nat) : Silent (constant index) := by
  unfold constant
  refine .bind inferInstance fun frame => ?_
  split <;> infer_instance

instance : Silent readConstant := by
  unfold readConstant
  infer_instance

instance : Silent readConstantLong := by
  unfold readConstantLong
  infer_instance

instance (object : HeapObject) : Silent (allocate object) := by
  unfold allocate
  infer_instance

instance (a : Addr) (object : HeapObject) : Silent (setObject a object) := by
  unfold setObject
  infer_instance

instance (a : Addr) : Silent (objectAt a) := by
  unfold objectAt
  refine .bind inferInstance fun vm => ?_
  split <;> infer_instance

instance (v : Value) : Silent (objectOf v) := by
  unfold objectOf
  infer_instance

instance (v : Value) : Silent (stringOf v) := by
  unfold stringOf
  split <;> infer_instance

instance (v : Value) : Silent (classOf v) := by
  unfold classOf
  refine .bind inferInstance fun o => ?_
  split <;> infer_instance

instance (a : Addr) : Silent (classAt a) := by
  unfold classAt
  infer_instance

instance (v : Value) : Silent (closureOf v) := by
  unfold closureOf
  split
  · refine .bind inferInstance fun o => ?_
    split <;> infer_instance
  · infer_instance

instance (argCount : Nat) : Silent (calleeSlot argCount) := by
  unfold calleeSlot
  infer_instance

instance (a : Addr) : Silent (locationAt a) := by
  unfold locationAt
  refine .bind inferInstance fun o => ?_
  split <;> infer_instance

instance (index : Nat) : Silent (upvalueOf index) := by
  unfold upvalueOf
  refine .bind inferInstance fun frame => .bind inferInstance fun o => ?_
  split
  · split <;> infer_instance
  · infer_instance

/-! ### Jumps -/

instance (condition : Bool) (offset : Nat) : Silent (jumpIf condition offset) := by
  unfold jumpIf jumpForward setIp
  infer_instance

instance (offset : Nat) : Silent (jumpBackward offset) := by
  unfold jumpBackward setIp
  infer_instance

instance : Silent executeJumpIfFalse := by
  unfold executeJumpIfFalse
  infer_instance

instance : Silent executeJumpIfTrue := by
  unfold executeJumpIfTrue
  infer_instance

instance : Silent executePopJumpIfFalse := by
  unfold executePopJumpIfFalse
  infer_instance

instance : Silent executeJumpForward := by
  unfold executeJumpForward jumpForward setIp
  infer_instance

instance : Silent executeJumpBackward := by
  unfold executeJumpBackward
  infer_instance

/-! ### Routines on open upvalues -/

instance (lastValue : Nat) (l : List Addr) : Silent (closeUpvaluesFrom P lastValue l) := by
  induction l with
  | nil =>
      unfold closeUpvaluesFrom
      infer_instance
  | cons a rest ih =>
      unfold closeUpvaluesFrom
      refine .bind inferInstance fun location => ?_
      split <;> infer_instance

instance (lastValue : Nat) : Silent (closeUpvalues P lastValue) := by
  unfold closeUpvalues
  infer_instance

instance (slot : Nat) (l : List Addr) : Silent (captureFrom slot l) := by
  induction l with
  | nil =>
      unfold captureFrom
      infer_instance
  | cons current rest ih =>
      unfold captureFrom
      refine .bind inferInstance fun location => ?_
      split <;> infer_instance

instance (slot : Nat) : Silent (captureUpvalue slot) := by
  unfold captureUpvalue
  infer_instance

instance (isLocal : Bool) (index : Nat) : Silent (captureOne isLocal index) := by
  unfold captureOne
  infer_instance

instance (closure : Addr) (n i : Nat) : Silent (captureAll closure n i) := by
  induction n generalizing i with
  | zero =>
      unfold captureAll
      infer_instance
  | succ n ih =>
      unfold captureAll
      refine .bind inferInstance fun isLocal => .bind inferInstance fun index =>
        .bind inferInstance fun a => .bind inferInstance fun o => ?_
      split <;> infer_instance

instance (v : Value) : Silent (makeClosure P v) := by
  unfold makeClosure newClosure
  split <;> infer_instance

instance : Silent (executeClosure P) := by
  unfold executeClosure
  infer_instance

instance : Silent (executeCloseUpvalue P) := by
  unfold executeCloseUpvalue
  infer_instance

instance : Silent (executeReturn P) := by
  unfold executeReturn
  infer_instance

end VM

end CppLox
