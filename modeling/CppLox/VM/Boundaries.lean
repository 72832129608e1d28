import CppLox.Bytecode.Layout
import CppLox.VM.Fetch

/-!
# Virtual machine — instruction boundaries

Where instructions start in a chunk, by the operands the machine reads: `CLOSURE` alone reads as many
bytes as the function it makes a closure of has upvalues.  Unless it is a jump or `RETURN`, an
instruction leaves `ip` after its operands; a jump is taken from there.
-/

namespace CppLox

open VMM

namespace VM

variable (P : Platform)

/-- The function among the constants whose index stands at an offset. -/
def functionAt (f : ObjectFunction) (offset : Nat) : Option ObjectFunction :=
  match f.code[offset]?, f.code[offset + 1]? with
  | some low, some high =>
    match f.constants[low.toNat + 256 * high.toNat]? with
    | some (.function function) => some function
    | _ => none
  | _, _ => none

/-- The number of bytes of operands the instruction at an offset reads. -/
def operandBytesAt (f : ObjectFunction) (offset : Nat) : OpCode → Nat
  | .closure =>
    match functionAt f (offset + 1) with
    | some function => 2 + 3 * function.upvalueCount
    | none => 2
  | op => operandBytes op

/-- The offsets at which instructions start, and the one after the last. -/
inductive Boundary (f : ObjectFunction) : Nat → Prop where
  | start : Boundary f 0
  | next {offset : Nat} {op : OpCode} (h : Boundary f offset)
      (hop : f.code[offset]? = some op.toByte) :
      Boundary f (offset + 1 + operandBytesAt f offset op)

/-- Whether a jump is taken, by the value on top of the stack. -/
def jumpTaken (op : OpCode) (v : Value) : Bool :=
  match op with
  | .jumpIfFalse | .popJumpIfFalse => v.isFalsey
  | .jumpIfTrue => !v.isFalsey
  | _ => true

theorem functionAt_of_operandAt {f g : ObjectFunction} {offset k : Nat}
    (hk : OperandAt f.code offset k) (hg : f.constants[k]? = some (.function g)) :
    functionAt f offset = some g := by
  obtain ⟨low, high, hlow, hhigh, rfl⟩ := hk
  simp only [functionAt, hlow, hhigh, hg]

/-! ### `CLOSURE` -/

theorem captureAll_done {closure : Addr} {n i : Nat} {u : Unit} {vm vm' : VM} {frame : CallFrame}
    {rest : List CallFrame} (hframes : vm.frames = frame :: rest)
    (h : captureAll closure n i vm = .done u vm') :
    vm'.frames = { frame with ip := frame.ip + 3 * n } :: rest := by
  induction n generalizing i vm frame with
  | zero =>
      cases h
      exact hframes
  | succ n ih =>
      obtain ⟨isLocal, vm₁, h₁, h'⟩ := VMM.bind_done.mp h
      obtain ⟨-, hvm₁⟩ := readByte_done hframes h₁
      obtain ⟨index, vm₂, h₂, h'⟩ := VMM.bind_done.mp h'
      obtain ⟨-, hvm₂⟩ := readUint16Le_done (by rw [hvm₁]) h₂
      obtain ⟨a, vm₃, h₃, h'⟩ := VMM.bind_done.mp h'
      have hframes₃ := (inferInstance : Preserves SameFrames (captureOne (isLocal ≠ 0) index)).done h₃
      obtain ⟨o, vm₄, h₄, h'⟩ := VMM.bind_done.mp h'
      have hframes₄ := (inferInstance : Preserves SameFrames (objectAt closure)).done h₄
      split at h'
      · rename_i function upvalues
        obtain ⟨_, vm₅, h₅, h'⟩ := VMM.bind_done.mp h'
        have hframes₅ := (inferInstance : Preserves SameFrames
          (setObject closure (.closure function (upvalues.set i (some a))))).done h₅
        rw [ih (hframes₅.trans (hframes₄.trans (hframes₃.trans (by rw [hvm₂])))) h']
        have hip : frame.ip + 1 + 2 + 3 * n = frame.ip + 3 * (n + 1) := by omega
        rw [← hip]
      · cases h'

theorem executeClosure_done {u : Unit} {vm vm' : VM} {frame : CallFrame} {rest : List CallFrame}
    (hframes : vm.frames = frame :: rest) (h : executeClosure P vm = .done u vm') :
    ∃ k g, OperandAt frame.function.code frame.ip k ∧
      frame.function.constants[k]? = some (.function g) ∧
      vm'.frames = { frame with ip := frame.ip + (2 + 3 * g.upvalueCount) } :: rest := by
  obtain ⟨v, vm₁, h₁, h'⟩ := VMM.bind_done.mp h
  obtain ⟨k, c, hk, hc, hv, hvm₁⟩ := readConstantLong_done hframes h₁
  rw [hv] at h'
  cases c with
  | function g =>
      obtain ⟨closure, vm₂, h₂, h'⟩ := VMM.bind_done.mp h'
      obtain ⟨_, vm₃, h₃, h'⟩ := VMM.bind_done.mp h'
      have hframes₁ : vm₁.frames = { frame with ip := frame.ip + 2 } :: rest := by
        rw [hvm₁, advance_frames hframes]
      have hframes₂ := (inferInstance : Preserves SameFrames (newClosure g)).done h₂
      have hframes₃ := (inferInstance : Preserves SameFrames (push P (.ofAddr closure))).done h₃
      refine ⟨k, g, hk, hc, ?_⟩
      rw [captureAll_done (hframes₃.trans (hframes₂.trans hframes₁)) h', ← Nat.add_assoc]
  | _ => cases h'

/-! ### Jumps -/

theorem jumpIf_done (condition : Bool) {offset : Nat} {u : Unit} {vm vm' : VM} {frame : CallFrame}
    {rest : List CallFrame} (hframes : vm.frames = frame :: rest)
    (h : jumpIf condition offset vm = .done u vm') :
    vm'.frames = { frame with ip := if condition then frame.ip + offset else frame.ip } :: rest := by
  cases condition with
  | true =>
      change jumpForward offset vm = _ at h
      obtain ⟨_, vm₁, h₁, h'⟩ := VMM.bind_done.mp h
      rw [currentFrame_apply hframes] at h₁
      cases h₁
      rw [setIp_apply _ hframes] at h'
      cases h'
      rfl
  | false =>
      cases h
      exact hframes

theorem jumpBackward_done {offset : Nat} {u : Unit} {vm vm' : VM} {frame : CallFrame}
    {rest : List CallFrame} (hframes : vm.frames = frame :: rest)
    (h : jumpBackward offset vm = .done u vm') :
    offset ≤ frame.ip ∧ vm'.frames = { frame with ip := frame.ip - offset } :: rest := by
  obtain ⟨_, vm₁, h₁, h'⟩ := VMM.bind_done.mp h
  rw [currentFrame_apply hframes] at h₁
  cases h₁
  change (if frame.ip < offset then undefinedBehaviour else setIp (frame.ip - offset)) vm = _ at h'
  split at h'
  · cases h'
  · rename_i hle
    rw [setIp_apply _ hframes] at h'
    cases h'
    exact ⟨by omega, rfl⟩

/-- Where a jump by `n` goes from the end of its operand. -/
def jumpTarget (op : OpCode) (ip n : Nat) : Nat := if op = .jumpBackward then ip - n else ip + n

/-- A conditional jump, whose condition is on the value on top of the stack. -/
theorem conditionalJump_done {top : VMM Value} (condition : Value → Bool)
    (htop : ∀ {vm v vm'}, top vm = .done v vm' →
      v = vm.stack (vm.stackTop - 1) ∧ vm'.frames = vm.frames) {u : Unit} {vm vm' : VM}
    {frame : CallFrame} {rest : List CallFrame} (hframes : vm.frames = frame :: rest)
    (h : (do
      let offset ← readUint16Le
      let v ← top
      jumpIf (condition v) offset) vm = .done u vm') :
    ∃ n, OperandAt frame.function.code frame.ip n ∧ vm'.frames = { frame with
      ip := if condition (vm.stack (vm.stackTop - 1)) then frame.ip + 2 + n
        else frame.ip + 2 } :: rest := by
  obtain ⟨n, vm₁, h₁, h'⟩ := VMM.bind_done.mp h
  obtain ⟨hn, hvm₁⟩ := readUint16Le_done hframes h₁
  obtain ⟨v, vm₂, h₂, h'⟩ := VMM.bind_done.mp h'
  obtain ⟨hv, hframes₂⟩ := htop h₂
  rw [hvm₁] at hv hframes₂
  refine ⟨n, hn, ?_⟩
  rw [jumpIf_done _ hframes₂ h', hv]

/-- A jump reads its operand and goes on from there or from its target. -/
theorem execute_jump_done {op : OpCode} (hjump : op.isJump = true) {u : Unit} {vm vm' : VM}
    {frame : CallFrame} {rest : List CallFrame} (hframes : vm.frames = frame :: rest)
    (h : execute P op vm = .done u vm') :
    ∃ n, OperandAt frame.function.code frame.ip n ∧ (op = .jumpBackward → n ≤ frame.ip + 2) ∧
      vm'.frames = { frame with
        ip := if jumpTaken op (vm.stack (vm.stackTop - 1)) then jumpTarget op (frame.ip + 2) n
          else frame.ip + 2 } :: rest := by
  have hpeek : ∀ {vm v vm'}, peek 0 vm = .done v vm' →
      v = vm.stack (vm.stackTop - 1) ∧ vm'.frames = vm.frames := by
    intro vm v vm' h
    obtain ⟨rfl, -, hv⟩ := peek_result h
    exact ⟨hv, rfl⟩
  have hpop : ∀ {vm v vm'}, pop vm = .done v vm' →
      v = vm.stack (vm.stackTop - 1) ∧ vm'.frames = vm.frames := by
    intro vm v vm' h
    obtain ⟨-, hv, rfl⟩ := pop_done h
    exact ⟨hv, rfl⟩
  cases op with
  | jumpIfFalse =>
      obtain ⟨n, hn, hframes'⟩ := conditionalJump_done Value.isFalsey hpeek hframes h
      exact ⟨n, hn, nofun, hframes'⟩
  | jumpIfTrue =>
      obtain ⟨n, hn, hframes'⟩ :=
        conditionalJump_done (fun v => !v.isFalsey) hpeek hframes h
      exact ⟨n, hn, nofun, hframes'⟩
  | popJumpIfFalse =>
      obtain ⟨n, hn, hframes'⟩ := conditionalJump_done Value.isFalsey hpop hframes h
      exact ⟨n, hn, nofun, hframes'⟩
  | jumpForward =>
      obtain ⟨n, vm₁, h₁, h'⟩ := VMM.bind_done.mp h
      obtain ⟨hn, hvm₁⟩ := readUint16Le_done hframes h₁
      exact ⟨n, hn, nofun, jumpIf_done true (by rw [hvm₁]) h'⟩
  | jumpBackward =>
      obtain ⟨n, vm₁, h₁, h'⟩ := VMM.bind_done.mp h
      obtain ⟨hn, hvm₁⟩ := readUint16Le_done hframes h₁
      obtain ⟨hle, hframes'⟩ := jumpBackward_done (by rw [hvm₁]) h'
      exact ⟨n, hn, fun _ => hle, hframes'⟩
  | _ => cases hjump

/-! ### Every instruction -/

/-- An instruction other than a jump and `RETURN` leaves `ip` after its operands, below the frame
that a call may push. -/
theorem execute_sequential_done {op : OpCode} (hjump : op.isJump = false) {u : Unit} {vm vm' : VM}
    {frame : CallFrame} {rest : List CallFrame} {ip : Nat} (hframes : vm.frames = frame :: rest)
    (hip : frame.ip = ip + 1) (h : execute P op vm = .done u vm') :
    ∃ pushed, (pushed = [] ∨ op ∈ calls) ∧ Entered vm'.heap pushed ∧ vm'.frames = pushed ++
      { frame with ip := ip + 1 + operandBytesAt frame.function ip op } :: rest := by
  by_cases hclosure : op = .closure
  · subst hclosure
    obtain ⟨k, g, hk, hg, hframes'⟩ := executeClosure_done P hframes h
    rw [hip] at hk hframes'
    refine ⟨[], .inl rfl, .inl rfl, ?_⟩
    simp only [operandBytesAt, functionAt_of_operandAt hk hg]
    exact hframes'
  · have hjumps : op ∉ jumps := by
      intro hmem
      simp only [jumps, List.mem_cons, List.not_mem_nil, or_false] at hmem
      rcases hmem with rfl | rfl | rfl | rfl | rfl <;> cases hjump
    have hbytes : operandBytesAt frame.function ip op = operandBytes op := by
      unfold operandBytesAt
      split
      · exact absurd rfl hclosure
      · rfl
    rw [hbytes, ← hip]
    by_cases hcall : op ∈ calls
    · obtain ⟨pushed, ip', hentered, hip', hframes'⟩ :=
        goes_execute P hcall vm vm' u frame rest hframes h
      exact ⟨pushed, .inr hcall, hentered, hframes'.trans (by rw [show ip' = _ from hip'])⟩
    · obtain ⟨ip', hip', hframes'⟩ :=
        moves_execute P hcall hjumps hclosure vm vm' u frame rest hframes h
      exact ⟨[], .inl rfl, .inl rfl, hframes'.trans (by rw [show ip' = _ from hip']; rfl)⟩

/-- `RETURN` pops the frame. -/
theorem executeReturn_frames {vm vm' : VM} {ended : Bool} (h : executeReturn P vm = .done ended vm') :
    vm'.frames = vm.frames.tail := by
  obtain ⟨v, vm₁, h₁, h'⟩ := VMM.bind_done.mp h
  obtain ⟨frame, vm₂, h₂, h'⟩ := VMM.bind_done.mp h'
  obtain ⟨_, vm₃, h₃, h'⟩ := VMM.bind_done.mp h'
  have hframes₁ := (inferInstance : Preserves SameFrames pop).done h₁
  have hframes₂ := (inferInstance : Preserves SameFrames currentFrame).done h₂
  have hframes₃ := (inferInstance : Preserves SameFrames (closeUpvalues P frame.slots)).done h₃
  have hframes := hframes₃.trans (hframes₂.trans hframes₁)
  obtain ⟨_, vm₄, h₄, h'⟩ := VMM.bind_done.mp h'
  obtain ⟨_, vm₅, h₅, h'⟩ := VMM.bind_done.mp h'
  cases h₄
  cases h₅
  rw [← show vm₃.frames = vm.frames from hframes]
  dsimp only at h'
  split at h'
  · obtain ⟨_, vm₆, h₆, h'⟩ := VMM.bind_done.mp h'
    cases h'
    exact (inferInstance : Preserves SameFrames pop).done h₆
  · obtain ⟨_, vm₆, h₆, h'⟩ := VMM.bind_done.mp h'
    obtain ⟨_, vm₇, h₇, hend⟩ := VMM.bind_done.mp h'
    cases h₆
    cases hend
    exact (inferInstance : Preserves SameFrames (push P v)).done h₇

/-- A machine at an instruction executes it. -/
theorem step_done_of_opcode {vm vm' : VM} {b : Bool} {frame : CallFrame} {rest : List CallFrame}
    {op : OpCode} (hframes : vm.frames = frame :: rest)
    (hop : frame.function.code[frame.ip]? = some op.toByte) (h : step P vm = .done b vm') :
    op = .return ∧ executeReturn P (vm.advance 1) = .done b vm' ∨
      op ≠ .return ∧ execute P op (vm.advance 1) = .done () vm' := by
  obtain ⟨i, vm₁, -, ho⟩ | ⟨byte, vm₁, hread, hrest⟩ := step_cases P h
  · cases ho
  obtain ⟨hbyte, hvm₁⟩ := readByte_done hframes hread
  rw [hop] at hbyte
  cases hbyte
  rw [← advance_of_frames hframes 1] at hvm₁
  rw [OpCode.ofByte_toByte, hvm₁] at hrest
  obtain ⟨hnone, -⟩ | ⟨hreturn, hrun⟩ | ⟨op', hop', hne, ⟨vm₂, hrun, ho⟩ | ⟨i, vm₂, -, ho⟩⟩ := hrest
  · cases hnone
  · exact .inl ⟨Option.some.inj hreturn, hrun⟩
  · cases hop'
    cases ho
    exact .inr ⟨hne, hrun⟩
  · cases ho

/-- Where an instruction leaves `ip` when the script goes on. -/
theorem step_frames {vm vm' : VM} {b : Bool} {frame : CallFrame} {rest : List CallFrame}
    {op : OpCode} (hframes : vm.frames = frame :: rest)
    (hop : frame.function.code[frame.ip]? = some op.toByte) (h : step P vm = .done b vm') :
    if op = .return then vm'.frames = rest
    else if op.isJump then ∃ n, OperandAt frame.function.code (frame.ip + 1) n ∧
      (op = .jumpBackward → n ≤ frame.ip + 3) ∧ vm'.frames = { frame with
        ip := if jumpTaken op (vm.stack (vm.stackTop - 1)) then jumpTarget op (frame.ip + 3) n
          else frame.ip + 3 } :: rest
    else ∃ pushed, (pushed = [] ∨ op ∈ calls) ∧ Entered vm'.heap pushed ∧
      vm'.frames = pushed ++ { frame with
        ip := frame.ip + 1 + operandBytesAt frame.function frame.ip op } :: rest := by
  have hframes₁ := advance_frames hframes 1
  obtain ⟨rfl, hrun⟩ | ⟨hne, hrun⟩ := step_done_of_opcode P hframes hop h
  · rw [if_pos rfl, executeReturn_frames P hrun, hframes₁, List.tail_cons]
  · rw [if_neg hne]
    cases hjump : op.isJump with
    | true => exact execute_jump_done P hjump hframes₁ hrun
    | false =>
        obtain ⟨pushed, hcall, hentered, hframes'⟩ :=
          execute_sequential_done P hjump hframes₁ rfl hrun
        exact ⟨pushed, hcall, hentered, hframes'⟩

end VM

end CppLox
