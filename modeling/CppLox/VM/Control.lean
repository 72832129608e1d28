import CppLox.VM.Operands
import CppLox.VM.Run

/-!
# Virtual machine — control

What an instruction does to the frames: it moves `ip` of the current frame past its operands or to
the target of a jump, a call may push the frame of a closure above it, and `RETURN` alone pops it.
-/

namespace CppLox

open VMM

set_option synthInstance.maxSize 10000

namespace VM

variable (P : Platform)

/-! ### Routines that leave the frames alone -/

/-- The frames are left alone. -/
def SameFrames (vm vm' : VM) : Prop := vm'.frames = vm.frames

instance : Indifferent SameFrames where
  refl _ := rfl
  trans h h' := Eq.trans h' h
  stack _ _ _ := rfl
  heap _ _ _ := rfl
  output _ _ := rfl

instance : IndifferentGlobals SameFrames where
  global _ _ _ _ := rfl

instance : IndifferentMethods SameFrames where
  methods _ _ _ _ _ := rfl

instance : IndifferentClosures SameFrames where
  closures _ _ _ := rfl

instance : IndifferentUpvalues SameFrames :=
  indifferentUpvalues_of (fun _ _ => rfl) fun _ _ => rfl

/-! ### Where a routine takes the current frame -/

/-- A routine takes `ip` of the current frame to an `ip'` with `S ip ip'`. -/
def Moves (S : Nat → Nat → Prop) {α : Type} (m : VMM α) : Prop :=
  ∀ vm vm' a frame rest, vm.frames = frame :: rest → m vm = .done a vm' →
    ∃ ip', S frame.ip ip' ∧ vm'.frames = { frame with ip := ip' } :: rest

/-- The frames that are pushed: none, or the one of a closure, at its first instruction. -/
def Entered (heap : Heap) (pushed : List CallFrame) : Prop :=
  pushed = [] ∨ ∃ (a : Addr) (function : ObjectFunction) (upvalues : List (Option Addr)) (slots : Nat),
    heap[a]? = some (HeapObject.closure function upvalues) ∧ pushed = [⟨a, function, 0, slots⟩]

theorem Entered.length_le {heap : Heap} {pushed : List CallFrame} (h : Entered heap pushed) :
    pushed.length ≤ 1 := by
  rcases h with rfl | ⟨a, function, upvalues, slots, -, rfl⟩
  · exact Nat.zero_le 1
  · exact Nat.le_refl 1

/-- A routine takes `ip` of the current frame to an `ip'` with `S ip ip'`, and may enter a closure. -/
def Goes (S : Nat → Nat → Prop) {α : Type} (m : VMM α) : Prop :=
  ∀ vm vm' a frame rest, vm.frames = frame :: rest → m vm = .done a vm' →
    ∃ pushed ip', Entered vm'.heap pushed ∧ S frame.ip ip' ∧
      vm'.frames = pushed ++ { frame with ip := ip' } :: rest

/-- `n` bytes on. -/
def On (n : Nat) (ip ip' : Nat) : Prop := ip' = ip + n

/-- The 16 bits at an offset of the code. -/
def OperandAt (code : List UInt8) (ip n : Nat) : Prop :=
  ∃ low high : UInt8, code[ip]? = some low ∧ code[ip + 1]? = some high ∧
    n = low.toNat + 256 * high.toNat

section

variable {α β : Type} {S : Nat → Nat → Prop} {n k : Nat}

theorem moves_zero (m : VMM α) [h : Preserves SameFrames m] : Moves (On 0) m := by
  intro vm vm' a frame rest hframes hrun
  exact ⟨frame.ip, rfl, (h.done hrun : _ = _).trans hframes⟩

theorem Moves.goes {m : VMM α} (h : Moves S m) : Goes S m := by
  intro vm vm' a frame rest hframes hrun
  obtain ⟨ip', hS, hframes'⟩ := h vm vm' a frame rest hframes hrun
  exact ⟨[], ip', .inl rfl, hS, hframes'⟩

theorem goes_zero (m : VMM α) [Preserves SameFrames m] : Goes (On 0) m := (moves_zero m).goes

theorem Goes.mono {S' : Nat → Nat → Prop} {m : VMM α} (h : Goes S m)
    (hS : ∀ ip ip', S ip ip' → S' ip ip') : Goes S' m := by
  intro vm vm' a frame rest hframes hrun
  obtain ⟨pushed, ip', hentered, hip, hframes'⟩ := h vm vm' a frame rest hframes hrun
  exact ⟨pushed, ip', hentered, hS _ _ hip, hframes'⟩

/-- First `n` bytes on, then as the rest goes. -/
theorem Moves.bind_goes {S' : Nat → Nat → Prop} {m : VMM α} {f : α → VMM β}
    (hm : Moves S m) (hf : ∀ a, Goes S' (f a)) :
    Goes (fun ip ip' => ∃ ip₁, S ip ip₁ ∧ S' ip₁ ip') (m >>= f) := by
  intro vm vm' b frame rest hframes hrun
  obtain ⟨a, vm₁, h₁, h₂⟩ := VMM.bind_done.mp hrun
  obtain ⟨ip₁, hS, hframes₁⟩ := hm vm vm₁ a frame rest hframes h₁
  obtain ⟨pushed, ip', hentered, hS', hframes'⟩ := hf a vm₁ vm' b _ rest hframes₁ h₂
  exact ⟨pushed, ip', hentered, ⟨ip₁, hS, hS'⟩, hframes'⟩

theorem Moves.bind {m : VMM α} {f : α → VMM β} (hm : Moves (On n) m)
    (hf : ∀ a, Moves (On k) (f a)) : Moves (On (n + k)) (m >>= f) := by
  intro vm vm' b frame rest hframes hrun
  obtain ⟨a, vm₁, h₁, h₂⟩ := VMM.bind_done.mp hrun
  obtain ⟨ip₁, rfl, hframes₁⟩ := hm vm vm₁ a frame rest hframes h₁
  obtain ⟨ip', rfl, hframes'⟩ := hf a vm₁ vm' b _ rest hframes₁ h₂
  exact ⟨_, Nat.add_assoc .., hframes'⟩

/-- `n` bytes on and then no further. -/
theorem Moves.then {m : VMM α} {f : α → VMM β} (hm : Moves (On n) m)
    (hf : ∀ a, Goes (On 0) (f a)) : Goes (On n) (m >>= f) :=
  (hm.bind_goes hf).mono fun _ _ ⟨_, h, h'⟩ => h'.trans h

theorem Moves.after {m : VMM α} [Preserves SameFrames m] {f : α → VMM β}
    (hf : ∀ a, Moves (On n) (f a)) : Moves (On n) (m >>= f) := by
  have := (moves_zero m).bind hf
  rwa [Nat.zero_add] at this

/-- A routine that leaves the frames alone comes first. -/
theorem Goes.after {m : VMM α} [Preserves SameFrames m] {f : α → VMM β}
    (hf : ∀ a, Goes S (f a)) : Goes S (m >>= f) :=
  ((moves_zero m).bind_goes hf).mono fun ip ip' ⟨ip₁, h, h'⟩ => by
    rwa [show ip₁ = ip from h] at h'

end

/-! ### Operands -/

theorem currentFrame_apply {vm : VM} {frame : CallFrame} {rest : List CallFrame}
    (h : vm.frames = frame :: rest) : currentFrame vm = .done frame vm := by
  rw [currentFrame, VMM.bind_of_done (rfl : VMM.get vm = .done vm vm), h]
  rfl

theorem setIp_apply {vm : VM} {frame : CallFrame} {rest : List CallFrame} (ip : Nat)
    (h : vm.frames = frame :: rest) :
    setIp ip vm = .done () { vm with frames := { frame with ip } :: rest } := by
  rw [setIp, VMM.modify, h]

theorem readByte_done {vm vm' : VM} {b : UInt8} {frame : CallFrame} {rest : List CallFrame}
    (hframes : vm.frames = frame :: rest) (h : readByte vm = .done b vm') :
    frame.function.code[frame.ip]? = some b ∧
      vm' = { vm with frames := { frame with ip := frame.ip + 1 } :: rest } := by
  unfold readByte at h
  rw [VMM.bind_of_done (currentFrame_apply hframes)] at h
  cases hbyte : frame.function.code[frame.ip]? with
  | none =>
      rw [hbyte] at h
      cases h
  | some byte =>
      rw [hbyte] at h
      change (setIp (frame.ip + 1) >>= fun _ => pure byte) vm = _ at h
      rw [VMM.bind_of_done (setIp_apply _ hframes)] at h
      cases h
      exact ⟨rfl, rfl⟩

theorem frames_of_readByte {vm vm' : VM} {b : UInt8} (h : readByte vm = .done b vm') :
    ∃ frame rest, vm.frames = frame :: rest := by
  obtain ⟨frame, vm₁, hcurrent, -⟩ := VMM.bind_done.mp h
  obtain ⟨-, rest, hframes⟩ := currentFrame_done hcurrent
  exact ⟨frame, rest, hframes⟩

theorem readUint16Le_done {vm vm' : VM} {n : Nat} {frame : CallFrame} {rest : List CallFrame}
    (hframes : vm.frames = frame :: rest) (h : readUint16Le vm = .done n vm') :
    OperandAt frame.function.code frame.ip n ∧
      vm' = { vm with frames := { frame with ip := frame.ip + 2 } :: rest } := by
  unfold readUint16Le at h
  obtain ⟨low, vm₁, h₁, h⟩ := VMM.bind_done.mp h
  obtain ⟨high, vm₂, h₂, h⟩ := VMM.bind_done.mp h
  obtain ⟨hlow, rfl⟩ := readByte_done hframes h₁
  obtain ⟨hhigh, rfl⟩ := readByte_done rfl h₂
  cases h
  exact ⟨⟨low, high, hlow, hhigh, rfl⟩, rfl⟩

theorem moves_readByte : Moves (On 1) readByte := by
  intro vm vm' b frame rest hframes hrun
  obtain ⟨-, rfl⟩ := readByte_done hframes hrun
  exact ⟨_, rfl, rfl⟩

theorem moves_readUint16Le : Moves (On 2) readUint16Le := by
  intro vm vm' n frame rest hframes hrun
  obtain ⟨-, rfl⟩ := readUint16Le_done hframes hrun
  exact ⟨_, rfl, rfl⟩

theorem moves_readConstant : Moves (On 1) readConstant :=
  moves_readByte.bind fun _ => moves_zero _

theorem moves_readConstantLong : Moves (On 2) readConstantLong :=
  moves_readUint16Le.bind fun _ => moves_zero _

/-! ### Calls -/

theorem goes_stop {α : Type} {S : Nat → Nat → Prop} (i : Interrupt) : Goes S (stop i : VMM α) :=
  fun _ _ _ _ _ _ => nofun

/-- The call of a closure in the heap. -/
theorem call_goes {a : Addr} {function : ObjectFunction} {upvalues : List (Option Addr)}
    {argCount : Nat} {vm vm' : VM} {frame : CallFrame} {rest : List CallFrame}
    (ha : vm.heap[a]? = some (HeapObject.closure function upvalues))
    (hframes : vm.frames = frame :: rest) (h : call (a, function) argCount vm = .done () vm') :
    ∃ pushed ip', Entered vm'.heap pushed ∧ On 0 frame.ip ip' ∧
      vm'.frames = pushed ++ { frame with ip := ip' } :: rest := by
  rw [call_done h]
  exact ⟨[_], frame.ip, .inr ⟨a, function, upvalues, _, ha, rfl⟩, rfl, congrArg (_ :: ·) hframes⟩

theorem goes_closureOf (v : Value) (argCount : Nat) : Goes (On 0) (do
    let closure ← closureOf v
    call closure argCount) := by
  intro vm vm' u frame rest hframes hrun
  obtain ⟨⟨a, function⟩, vm₁, h₁, h₂⟩ := VMM.bind_done.mp hrun
  rw [closureOf_apply] at h₁
  split at h₁
  · rename_i closure hclosure
    cases h₁
    obtain ⟨upvalues, ha⟩ := Value.heap_of_closureIn hclosure
    exact call_goes ha hframes h₂
  · cases h₁

theorem goes_callClass (a : Addr) (name : Bytes) (initMethod : Value) (argCount : Nat) :
    Goes (On 0) (callClass P a name initMethod argCount) := by
  unfold callClass
  refine .after fun inst => .after fun slot => .after fun _ => ?_
  split
  · exact goes_zero _
  · exact goes_closureOf _ argCount

theorem goes_callValue (callee : Value) (argCount : Nat) :
    Goes (On 0) (callValue P callee argCount) := by
  unfold callValue
  split
  · exact goes_stop _
  · split <;> exact goes_zero _
  · intro vm vm' u frame rest hframes hrun
    obtain ⟨o, vm₁, h₁, h₂⟩ := VMM.bind_done.mp hrun
    obtain ⟨ha, rfl⟩ := objectAt_done h₁
    cases o with
    | closure function upvalues => exact call_goes ha hframes h₂
    | boundMethod receiver method =>
        exact (Goes.after fun slot => .after fun _ => goes_closureOf (.ofAddr method) argCount :
          Goes (On 0) _) _ _ _ _ _ hframes h₂
    | «class» name initMethod methods =>
        exact goes_callClass P _ _ _ _ _ _ _ _ _ hframes h₂
    | _ => cases h₂
  · exact goes_stop _

theorem goes_invokeFromClass (klass : Bytes × StringTable) (name : Bytes) (argCount : Nat) :
    Goes (On 0) (invokeFromClass klass name argCount) := by
  unfold invokeFromClass
  split
  · exact goes_stop _
  · exact goes_closureOf _ argCount

theorem goes_invoke (name : Bytes) (argCount : Nat) : Goes (On 0) (invoke P name argCount) := by
  unfold invoke
  refine .after fun receiver => .after fun o => ?_
  split
  · split
    · exact .after fun slot => .after fun _ => goes_callValue P _ _
    · exact .after fun klass => goes_invokeFromClass klass name argCount
  · exact goes_stop _

/-! ### Instructions -/

/-- The number of bytes of operands of an instruction other than `CLOSURE`. -/
def operandBytes : OpCode → Nat
  | .loadConstant | .call | .list | .map => 1
  | .loadConstantLong | .defineGlobal | .storeGlobal | .loadGlobal | .storeLocal | .loadLocal
  | .storeUpvalue | .loadUpvalue | .storeProperty | .loadProperty | .loadPropertySafe
  | .loadSuper | .jumpIfFalse | .jumpIfTrue | .popJumpIfFalse | .jumpForward | .jumpBackward
  | .class | .method => 2
  | .invoke | .superInvoke => 3
  | _ => 0

/-- The opcodes of jumps. -/
def jumps : List OpCode := [.jumpIfFalse, .jumpIfTrue, .popJumpIfFalse, .jumpForward, .jumpBackward]

theorem goes_executeInvoke : Goes (On 3) (executeInvoke P) := by
  unfold executeInvoke
  refine (moves_readConstantLong.bind_goes fun v => .after fun name =>
    moves_readByte.then fun n => goes_invoke P name n.toNat).mono ?_
  rintro ip ip' ⟨ip₁, rfl, rfl⟩
  exact Nat.add_assoc ..

theorem goes_executeSuperInvoke : Goes (On 3) executeSuperInvoke := by
  unfold executeSuperInvoke
  refine (moves_readConstantLong.bind_goes fun v => .after fun name =>
    moves_readByte.then fun n => .after fun v => .after fun klass =>
      goes_invokeFromClass klass name n.toNat).mono ?_
  rintro ip ip' ⟨ip₁, rfl, rfl⟩
  exact Nat.add_assoc ..

theorem goes_executeCall : Goes (On 1) (executeCall P) := by
  unfold executeCall
  exact moves_readByte.then fun n => .after fun callee => goes_callValue P callee n.toNat

/-- The opcodes of calls. -/
def calls : List OpCode := [.call, .invoke, .superInvoke]

theorem moves_stop {α : Type} {S : Nat → Nat → Prop} (i : Interrupt) : Moves S (stop i : VMM α) :=
  fun _ _ _ _ _ _ => nofun

theorem moves_executeLoadProperty : Moves (On 2) (executeLoadProperty P) := by
  unfold executeLoadProperty
  refine .after fun v => .after fun o => ?_
  split
  · exact moves_readConstantLong.bind fun v => moves_zero _
  · exact moves_stop _

theorem moves_executeLoadPropertySafe : Moves (On 2) (executeLoadPropertySafe P) := by
  unfold executeLoadPropertySafe
  refine .after fun v => .after fun o => ?_
  split <;> exact moves_readConstantLong.bind fun v => moves_zero _

theorem moves_executeStoreProperty : Moves (On 2) (executeStoreProperty P) := by
  unfold executeStoreProperty
  refine .after fun target => .after fun o => ?_
  split
  · exact moves_readConstantLong.bind fun v => moves_zero _
  · split <;> exact moves_stop _

/-- An instruction with operands that it reads first. -/
theorem moves_short {body : Nat → VMM Unit} [∀ n, Preserves SameFrames (body n)] :
    Moves (On 2) (readUint16Le >>= body) :=
  moves_readUint16Le.bind fun n => moves_zero (body n)

theorem moves_long {body : Value → VMM Unit} [∀ v, Preserves SameFrames (body v)] :
    Moves (On 2) (readConstantLong >>= body) :=
  moves_readConstantLong.bind fun v => moves_zero (body v)

/-- An instruction other than a call, a jump, `CLOSURE` and `RETURN` goes on with the next one. -/
theorem moves_execute {op : OpCode} (hcall : op ∉ calls) (hjump : op ∉ jumps)
    (hclosure : op ≠ .closure) : Moves (On (operandBytes op)) (execute P op) := by
  cases op
  case loadConstant => exact moves_readConstant.bind fun v => moves_zero _
  case list => exact moves_readByte.bind fun n => moves_zero _
  case map => exact moves_readByte.bind fun n => moves_zero _
  case call => simp [calls] at hcall
  case invoke => simp [calls] at hcall
  case superInvoke => simp [calls] at hcall
  case loadProperty => exact moves_executeLoadProperty P
  case loadPropertySafe => exact moves_executeLoadPropertySafe P
  case storeProperty => exact moves_executeStoreProperty P
  case loadSuper => exact moves_readConstantLong.bind fun v => .after fun name => moves_zero _
  case closure => exact absurd rfl hclosure
  case jumpIfFalse => simp [jumps] at hjump
  case jumpIfTrue => simp [jumps] at hjump
  case popJumpIfFalse => simp [jumps] at hjump
  case jumpForward => simp [jumps] at hjump
  case jumpBackward => simp [jumps] at hjump
  case loadConstantLong => exact moves_long
  case «class» => exact moves_long
  case method => exact moves_long
  case defineGlobal => exact moves_short
  case storeGlobal => exact moves_short
  case loadGlobal => exact moves_short
  case storeLocal => exact moves_short
  case loadLocal => exact moves_short
  case storeUpvalue => exact moves_short
  case loadUpvalue => exact moves_short
  all_goals (unfold execute; exact moves_zero _)

/-- A call goes on with the next instruction or enters a closure. -/
theorem goes_execute {op : OpCode} (hcall : op ∈ calls) :
    Goes (On (operandBytes op)) (execute P op) := by
  simp only [calls, List.mem_cons, List.not_mem_nil, or_false] at hcall
  rcases hcall with rfl | rfl | rfl
  · exact goes_executeCall P
  · exact goes_executeInvoke P
  · exact goes_executeSuperInvoke

end VM

end CppLox
