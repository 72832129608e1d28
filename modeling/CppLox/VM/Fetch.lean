import CppLox.VM.Control
import CppLox.VM.Operands

/-!
# Virtual machine — instructions in the code

The bytes that follow `ip` in the code of the current frame, and what the machine reads of them.
-/

namespace CppLox

open VMM

namespace VM

/-- Some bytes stand in the code of a frame at an offset. -/
def CodeAt (frame : CallFrame) (ip : Nat) (bytes : List UInt8) : Prop :=
  bytes <+: frame.function.code.drop ip

/-- The code of the current frame goes on with some bytes. -/
def Ahead (vm : VM) (bytes : List UInt8) : Prop :=
  ∃ frame rest, vm.frames = frame :: rest ∧ CodeAt frame frame.ip bytes

/-- The frames with `ip` of the current one `n` bytes on. -/
def advanceFrames (n : Nat) : List CallFrame → List CallFrame
  | [] => []
  | frame :: frames => { frame with ip := frame.ip + n } :: frames

/-- `ip` of the current frame, `n` bytes on. -/
def advance (vm : VM) (n : Nat) : VM := { vm with frames := advanceFrames n vm.frames }

theorem CodeAt.drop {frame : CallFrame} {ip : Nat} {xs ys : List UInt8}
    (h : CodeAt frame ip (xs ++ ys)) : CodeAt frame (ip + xs.length) ys := by
  obtain ⟨tail, h⟩ := h
  refine ⟨tail, ?_⟩
  rw [← List.drop_drop, ← h, List.append_assoc, List.drop_left]

theorem CodeAt.left {frame : CallFrame} {ip : Nat} {xs ys : List UInt8}
    (h : CodeAt frame ip (xs ++ ys)) : CodeAt frame ip xs :=
  (List.prefix_append xs ys).trans h

theorem CodeAt.head {frame : CallFrame} {ip : Nat} {b : UInt8} {bytes : List UInt8}
    (h : CodeAt frame ip (b :: bytes)) : frame.function.code[ip]? = some b := by
  obtain ⟨tail, h⟩ := h
  have := congrArg (·[0]?) h
  simpa using this.symm

section

variable {vm : VM} {bytes xs ys : List UInt8}

theorem advance_advance (vm : VM) (m n : Nat) : (vm.advance m).advance n = vm.advance (m + n) := by
  unfold advance
  cases vm.frames with
  | nil => rfl
  | cons frame frames => simp only [advanceFrames, Nat.add_assoc]

theorem advance_of_frames {frame : CallFrame} {rest : List CallFrame}
    (h : vm.frames = frame :: rest) (n : Nat) :
    vm.advance n = { vm with frames := { frame with ip := frame.ip + n } :: rest } := by
  unfold advance
  rw [h]
  rfl

theorem advance_frames {frame : CallFrame} {rest : List CallFrame}
    (h : vm.frames = frame :: rest) (n : Nat) :
    (vm.advance n).frames = { frame with ip := frame.ip + n } :: rest := by
  rw [advance_of_frames h]

theorem Ahead.left (h : vm.Ahead (xs ++ ys)) : vm.Ahead xs := by
  obtain ⟨frame, rest, hframes, hcode⟩ := h
  exact ⟨frame, rest, hframes, hcode.left⟩

theorem Ahead.advance (h : vm.Ahead (xs ++ ys)) : (vm.advance xs.length).Ahead ys := by
  obtain ⟨frame, rest, hframes, hcode⟩ := h
  rw [advance_of_frames hframes]
  exact ⟨_, rest, rfl, hcode.drop⟩

theorem readByte_apply {b : UInt8} (h : vm.Ahead (b :: bytes)) :
    readByte vm = .done b (vm.advance 1) := by
  obtain ⟨frame, rest, hframes, hcode⟩ := h
  unfold readByte
  rw [VMM.bind_of_done (currentFrame_apply hframes), hcode.head, advance_of_frames hframes]
  change (setIp (frame.ip + 1) >>= fun _ => pure b) vm = _
  rw [VMM.bind_of_done (setIp_apply _ hframes)]
  rfl

theorem uint16Bytes_eq (n : Nat) : uint16Bytes n = [UInt8.ofNat n, UInt8.ofNat (n / 256)] := rfl

theorem readUint16Le_apply {n : Nat} (hn : n ≤ 0xFFFF) (h : vm.Ahead (uint16Bytes n ++ bytes)) :
    readUint16Le vm = .done n (vm.advance 2) := by
  rw [uint16Bytes_eq] at h
  have hlow := readByte_apply h
  have hahead : (vm.advance 1).Ahead (UInt8.ofNat (n / 256) :: bytes) :=
    @Ahead.advance vm [UInt8.ofNat n] _ h
  have hhigh := readByte_apply hahead
  unfold readUint16Le
  rw [VMM.bind_of_done hlow, VMM.bind_of_done hhigh, advance_advance]
  refine congrArg (fun k => Outcome.done k _) ?_
  simp only [UInt8.toNat_ofNat']
  omega

theorem constant_apply {frame : CallFrame} {rest : List CallFrame} {k : Nat}
    {c : Constant ObjectFunction} (hframes : vm.frames = frame :: rest)
    (hc : frame.function.constants[k]? = some c) : constant k vm = .done c.toValue vm := by
  unfold constant
  rw [VMM.bind_of_done (currentFrame_apply hframes), hc]
  rfl

/-- A constant that is read stands at the index of the operand. -/
theorem readConstantLong_done {frame : CallFrame} {rest : List CallFrame} {vm' : VM} {v : Value}
    (hframes : vm.frames = frame :: rest) (h : readConstantLong vm = .done v vm') :
    ∃ k c, OperandAt frame.function.code frame.ip k ∧ frame.function.constants[k]? = some c ∧
      v = c.toValue ∧ vm' = vm.advance 2 := by
  obtain ⟨k, vm₁, h₁, h⟩ := VMM.bind_done.mp h
  obtain ⟨hk, rfl⟩ := readUint16Le_done hframes h₁
  rw [← advance_of_frames hframes] at h
  cases hc : frame.function.constants[k]? with
  | none =>
      unfold constant at h
      rw [VMM.bind_of_done (currentFrame_apply (advance_frames hframes 2)), hc] at h
      cases h
  | some c =>
      rw [constant_apply (advance_frames hframes 2) hc] at h
      cases h
      exact ⟨k, c, hk, hc, rfl, rfl⟩

theorem OperandAt.unique {code : List UInt8} {ip m n : Nat} (h : OperandAt code ip m)
    (h' : OperandAt code ip n) : m = n := by
  obtain ⟨low, high, hlow, hhigh, rfl⟩ := h
  obtain ⟨low', high', hlow', hhigh', rfl⟩ := h'
  rw [hlow] at hlow'
  rw [hhigh] at hhigh'
  rw [Option.some.inj hlow', Option.some.inj hhigh']

/-- The next instruction has an opcode. -/
def OpAt (vm : VM) (op : OpCode) : Prop :=
  ∃ frame rest, vm.frames = frame :: rest ∧ frame.function.code[frame.ip]? = some op.toByte

theorem OpAt.unique {op op' : OpCode} (h : vm.OpAt op) (h' : vm.OpAt op') : op = op' := by
  obtain ⟨frame, rest, hframes, hop⟩ := h
  obtain ⟨frame', rest', hframes', hop'⟩ := h'
  rw [hframes] at hframes'
  cases hframes'
  rw [hop] at hop'
  exact Option.some.inj ((OpCode.ofByte_toByte op).symm.trans
    ((congrArg OpCode.ofByte (Option.some.inj hop')).trans (OpCode.ofByte_toByte op')))

/-- The opcode that is read. -/
theorem opAt_of_readByte {vm' : VM} {b : UInt8} {op : OpCode} (h : readByte vm = .done b vm')
    (hop : OpCode.ofByte b = some op) : vm.OpAt op := by
  obtain ⟨frame, rest, hframes⟩ := frames_of_readByte h
  obtain ⟨hcode, -⟩ := readByte_done hframes h
  rw [← OpCode.toByte_of_ofByte hop] at hcode
  exact ⟨frame, rest, hframes, hcode⟩

variable (P : Platform)

theorem opAt_of_step_done {vm' : VM} {b : Bool} (h : step P vm = .done b vm') :
    ∃ op, vm.OpAt op := by
  obtain ⟨i, vm₁, -, ho⟩ | ⟨byte, vm₁, hread, hrest⟩ := step_cases P h
  · cases ho
  obtain ⟨-, ho⟩ | ⟨hop, -⟩ | ⟨op, hop, -⟩ := hrest
  · cases ho
  · exact ⟨_, opAt_of_readByte hread hop⟩
  · exact ⟨op, opAt_of_readByte hread hop⟩

/-- What an instruction after which the script goes on does. -/
theorem Step.cases {vm' : VM} (h : Step P vm vm') :
    ∃ op, vm.OpAt op ∧ (op = .return ∧ executeReturn P (vm.advance 1) = .done false vm' ∨
      op ≠ .return ∧ execute P op (vm.advance 1) = .done () vm') := by
  obtain ⟨i, vm₁, -, ho⟩ | ⟨b, vm₁, hread, hrest⟩ := step_cases P h
  · cases ho
  obtain ⟨frame, rest, hframes⟩ := frames_of_readByte hread
  obtain ⟨hcode, rfl⟩ := readByte_done hframes hread
  rw [← advance_of_frames hframes 1] at hrest
  obtain ⟨-, ho⟩ | ⟨hop, hreturn⟩ | ⟨op, hop, hne, ⟨vm₂, hrun, ho⟩ | ⟨i, vm₂, -, ho⟩⟩ := hrest
  · cases ho
  · rw [← OpCode.toByte_of_ofByte hop] at hcode
    exact ⟨.return, ⟨frame, rest, hframes, hcode⟩, .inl ⟨rfl, hreturn⟩⟩
  · cases ho
    rw [← OpCode.toByte_of_ofByte hop] at hcode
    exact ⟨op, ⟨frame, rest, hframes, hcode⟩, .inr ⟨hne, hrun⟩⟩
  · cases ho

/-- The instruction at `ip` is executed. -/
theorem step_apply {op : OpCode} (h : vm.Ahead (op.toByte :: bytes)) (hop : op ≠ .return) :
    step P vm = (do execute P op; return false) (vm.advance 1) := by
  unfold step
  rw [VMM.bind_of_done (readByte_apply h), OpCode.ofByte_toByte]
  exact congrFun (if_neg hop) _

end

end VM

end CppLox
