import CppLox.VM.Boundaries
import CppLox.VM.Silent

/-!
# Virtual machine — reported errors

`report_error` (`include/vm.hpp`) records a line for each frame, from the byte before `ip` of the
frame, and one for the message, from the byte at `ip` of the current frame.  An instruction has read
its operands when it reports an error, except for the two on properties of a value that is no
instance: these have read their opcode alone.
-/

namespace CppLox

open VMM

set_option synthInstance.maxSize 10000

namespace VM

variable (P : Platform)

/-! ### `report_error` -/

/-- What `report_error` hands to the reporter: a line and a text for each frame, the innermost first,
and the line of the message with the message. -/
structure ErrorReport where
  stackTrace : List (Int32 × String)
  line : Int32
  message : String

/-- The entry of a frame in the stack trace. -/
def traceEntry (frame : CallFrame) : Int32 × String :=
  let instruction : Int := frame.ip - 1
  (Chunk.getLineNumber frame.function instruction,
    if frame.function.name = [] then "in script" else "in " ++ quoted frame.function.name ++ "()")

/-- `VM::report_error`. -/
def reportError (message : String) (vm : VM) : Option ErrorReport :=
  match vm.frames with
  | [] => none
  | frame :: rest =>
    some ⟨(frame :: rest).map traceEntry, Chunk.getLineNumber frame.function frame.ip, message⟩

/-- A value on the stack, counted from its top, is an instance. -/
def isInstanceAt (vm : VM) (offset : Nat) : Bool :=
  match (vm.stack (vm.stackTop - offset - 1)).heapObject vm.heap with
  | some (.instance _ _) => true
  | _ => false

/-- The number of bytes of operands an instruction has read when it reports an error. -/
def operandsRead (vm : VM) : OpCode → Nat
  | .loadProperty => if vm.isInstanceAt 0 then operandBytes .loadProperty else 0
  | .storeProperty => if vm.isInstanceAt 1 then operandBytes .storeProperty else 0
  | op => operandBytes op

/-! ### Where an error is reported -/

/-- An error is reported with `ip` of the current frame `n` bytes on. -/
def Reports (n : Nat) {α : Type} (m : VMM α) : Prop :=
  ∀ vm message vm' frame rest, vm.frames = frame :: rest →
    m vm = .stopped (.runtimeError (some message)) vm' →
    vm'.frames = { frame with ip := frame.ip + n } :: rest

section

variable {α β : Type} {n k : Nat}

theorem reports_silent (m : VMM α) [h : Silent m] : Reports n m :=
  fun vm _ vm' _ _ _ hrun => absurd hrun (h.ne vm vm' _)

theorem reports_zero (m : VMM α) [h : Preserves SameFrames m] : Reports 0 m :=
  fun _ _ _ _ _ hframes hrun => (h.stopped hrun : _ = _).trans hframes

/-- First `n` bytes on without an error, then as the rest reports it. -/
theorem Moves.bind_reports {m : VMM α} {f : α → VMM β} [hs : Silent m] (hm : Moves (On n) m)
    (hf : ∀ a, Reports k (f a)) : Reports (n + k) (m >>= f) := by
  intro vm message vm' frame rest hframes hrun
  rcases VMM.bind_stopped.mp hrun with h | ⟨a, vm₁, h₁, h₂⟩
  · exact absurd h (hs.ne _ _ _)
  · obtain ⟨ip₁, rfl, hframes₁⟩ := hm vm vm₁ a frame rest hframes h₁
    rw [hf a vm₁ message vm' _ rest hframes₁ h₂, Nat.add_assoc]

/-- An error is reported with no byte read, or after `n` bytes as the rest reports it. -/
theorem Reports.after {m : VMM α} [hs : Silent m] [Preserves SameFrames m] {f : α → VMM β}
    (hf : ∀ a, Reports n (f a)) : Reports n (m >>= f) := by
  have := (moves_zero m).bind_reports hf
  rwa [Nat.zero_add] at this

end

/-! ### Calls -/

theorem reports_call (closure : Addr × ObjectFunction) (argCount : Nat) :
    Reports 0 (call closure argCount) := by
  intro vm message vm' frame rest hframes hrun
  change (if argCount ≠ closure.2.arity then runtimeError _ else _ : VMM Unit) vm = _ at hrun
  split at hrun
  · cases hrun
    exact hframes
  change (if vm.frames.length = maxFrameSize then runtimeError _ else _ : VMM Unit) vm = _ at hrun
  split at hrun
  · cases hrun
    exact hframes
  · exact reports_silent _ vm message vm' frame rest hframes hrun

theorem reports_callClass (a : Addr) (name : Bytes) (initMethod : Value) (argCount : Nat) :
    Reports 0 (callClass P a name initMethod argCount) := by
  unfold callClass
  refine .after fun inst => .after fun slot => .after fun _ => ?_
  split
  · exact reports_zero _
  · exact .after fun closure => reports_call closure argCount

theorem reports_callValue (callee : Value) (argCount : Nat) :
    Reports 0 (callValue P callee argCount) := by
  unfold callValue
  split
  · exact reports_zero _
  · split <;> exact reports_zero _
  · refine .after fun o => ?_
    split
    · exact reports_call _ _
    · exact .after fun slot => .after fun _ => .after fun closure => reports_call closure argCount
    · exact reports_callClass P _ _ _ _
    · exact reports_zero _
  · exact reports_zero _

theorem reports_invokeFromClass (klass : Bytes × StringTable) (name : Bytes) (argCount : Nat) :
    Reports 0 (invokeFromClass klass name argCount) := by
  unfold invokeFromClass
  split
  · exact reports_zero _
  · exact .after fun closure => reports_call closure argCount

theorem reports_invoke (name : Bytes) (argCount : Nat) : Reports 0 (invoke P name argCount) := by
  unfold invoke
  refine .after fun receiver => .after fun o => ?_
  split
  · split
    · exact .after fun slot => .after fun _ => reports_callValue P _ _
    · exact .after fun klass => reports_invokeFromClass klass name argCount
  · exact reports_zero _

/-! ### Instructions -/

theorem reports_executeInvoke : Reports 3 (executeInvoke P) :=
  moves_readConstantLong.bind_reports fun _ => .after fun name =>
    moves_readByte.bind_reports fun n => reports_invoke P name n.toNat

theorem reports_executeSuperInvoke : Reports 3 executeSuperInvoke :=
  moves_readConstantLong.bind_reports fun _ => .after fun name =>
    moves_readByte.bind_reports fun n => .after fun _ => .after fun klass =>
      reports_invokeFromClass klass name n.toNat

/-- An instruction with operands that it reads first. -/
theorem reports_short {body : Nat → VMM Unit} [∀ n, Preserves SameFrames (body n)] :
    Reports 2 (readUint16Le >>= body) :=
  moves_readUint16Le.bind_reports fun n => reports_zero (body n)

theorem reports_long (body : Value → VMM Unit) [∀ v, Preserves SameFrames (body v)] :
    Reports 2 (readConstantLong >>= body) :=
  moves_readConstantLong.bind_reports fun v => reports_zero (body v)

theorem isInstanceAt_eq_true {vm : VM} {offset : Nat} : vm.isInstanceAt offset = true ↔
    ∃ klass fields, (vm.stack (vm.stackTop - offset - 1)).heapObject vm.heap =
      some (.instance klass fields) := by
  unfold isInstanceAt
  constructor
  · intro h
    split at h
    · exact ⟨_, _, ‹_›⟩
    · cases h
  · rintro ⟨klass, fields, hobject⟩
    rw [hobject]

theorem executeLoadProperty_reports {vm vm' : VM} {message : String} {frame : CallFrame}
    {rest : List CallFrame} (hframes : vm.frames = frame :: rest)
    (h : executeLoadProperty P vm = .stopped (.runtimeError (some message)) vm') :
    vm'.frames = { frame with ip := frame.ip + operandsRead vm .loadProperty } :: rest := by
  rcases VMM.bind_stopped.mp h with hpeek | ⟨v, vm₁, hpeek, hrun⟩
  · exact absurd hpeek ((inferInstance : Silent (peek 0)).ne _ _ _)
  obtain ⟨rfl, -, hv⟩ := peek_result hpeek
  rw [VMM.bind_of_done (objectOf_apply _ _)] at hrun
  unfold operandsRead
  by_cases hinstance : vm₁.isInstanceAt 0 = true
  · obtain ⟨klass, fields, hobject⟩ := isInstanceAt_eq_true.mp hinstance
    rw [← hv] at hobject
    rw [hobject] at hrun
    rw [if_pos hinstance]
    exact reports_long (fun name => do
      loadProperty P klass fields (← stringOf name)) _ _ _ _ _ hframes hrun
  · rw [if_neg hinstance]
    generalize hobject : v.heapObject vm₁.heap = o at hrun
    split at hrun
    · exact absurd (isInstanceAt_eq_true.mpr ⟨_, _, hv ▸ hobject⟩) hinstance
    · cases hrun
      exact hframes

theorem executeStoreProperty_reports {vm vm' : VM} {message : String} {frame : CallFrame}
    {rest : List CallFrame} (hframes : vm.frames = frame :: rest)
    (h : executeStoreProperty P vm = .stopped (.runtimeError (some message)) vm') :
    vm'.frames = { frame with ip := frame.ip + operandsRead vm .storeProperty } :: rest := by
  rcases VMM.bind_stopped.mp h with hpeek | ⟨v, vm₁, hpeek, hrun⟩
  · exact absurd hpeek ((inferInstance : Silent (peek 1)).ne _ _ _)
  obtain ⟨rfl, -, hv⟩ := peek_result hpeek
  rw [VMM.bind_of_done (objectOf_apply _ _)] at hrun
  unfold operandsRead
  by_cases hinstance : vm₁.isInstanceAt 1 = true
  · obtain ⟨klass, fields, hobject⟩ := isInstanceAt_eq_true.mp hinstance
    rw [← hv] at hobject
    obtain ⟨a, rfl⟩ := Value.eq_ofAddr_of_heapObject hobject
    rw [hobject] at hrun
    rw [if_pos hinstance]
    exact reports_long (fun name => do
      storeProperty P a klass fields (← stringOf name)) _ _ _ _ _ hframes hrun
  · rw [if_neg hinstance]
    generalize hobject : v.heapObject vm₁.heap = o at hrun
    split at hrun
    · exact absurd (isInstanceAt_eq_true.mpr ⟨_, _, hv ▸ hobject⟩) hinstance
    · split at hrun
      · cases hrun
        exact hframes
      · cases hrun
        exact hframes

/-- An instruction other than those on properties has read its operands. -/
theorem reports_execute {op : OpCode} (hload : op ≠ .loadProperty) (hstore : op ≠ .storeProperty) :
    Reports (operandBytes op) (execute P op) := by
  cases op
  case loadConstant => exact moves_readConstant.bind_reports fun v => reports_zero _
  case list => exact moves_readByte.bind_reports fun n => reports_zero _
  case map => exact moves_readByte.bind_reports fun n => reports_zero _
  case call =>
    exact moves_readByte.bind_reports fun n => .after fun callee => reports_callValue P callee n.toNat
  case invoke => exact reports_executeInvoke P
  case superInvoke => exact reports_executeSuperInvoke
  case loadProperty => exact absurd rfl hload
  case storeProperty => exact absurd rfl hstore
  case loadPropertySafe =>
    refine .after fun v => .after fun o => ?_
    split <;> exact moves_readConstantLong.bind_reports fun v => reports_zero _
  case loadSuper =>
    exact moves_readConstantLong.bind_reports fun v => .after fun name => reports_zero _
  case closure => exact reports_silent (executeClosure P)
  case jumpIfFalse => exact reports_silent executeJumpIfFalse
  case jumpIfTrue => exact reports_silent executeJumpIfTrue
  case popJumpIfFalse => exact reports_silent executePopJumpIfFalse
  case jumpForward => exact reports_silent executeJumpForward
  case jumpBackward => exact reports_silent executeJumpBackward
  case loadConstantLong => exact reports_long _
  case «class» => exact reports_long _
  case method => exact reports_long _
  case defineGlobal => exact reports_short
  case storeGlobal => exact reports_short
  case loadGlobal => exact reports_short
  case storeLocal => exact reports_short
  case loadLocal => exact reports_short
  case storeUpvalue => exact reports_short
  case loadUpvalue => exact reports_short
  all_goals (unfold execute; exact reports_zero _)

theorem execute_reports {op : OpCode} {vm vm' : VM} {message : String} {frame : CallFrame}
    {rest : List CallFrame} (hframes : vm.frames = frame :: rest)
    (h : execute P op vm = .stopped (.runtimeError (some message)) vm') :
    vm'.frames = { frame with ip := frame.ip + operandsRead vm op } :: rest := by
  by_cases hload : op = .loadProperty
  · subst hload
    exact executeLoadProperty_reports P hframes h
  by_cases hstore : op = .storeProperty
  · subst hstore
    exact executeStoreProperty_reports P hframes h
  have hread : operandsRead vm op = operandBytes op := by
    unfold operandsRead
    split
    · exact absurd rfl hload
    · exact absurd rfl hstore
    · rfl
  rw [hread]
  exact reports_execute P hload hstore vm message vm' frame rest hframes h

/-- An error is reported by an instruction. -/
theorem opAt_of_report {vm vm' : VM} {message : String}
    (h : step P vm = .stopped (.runtimeError (some message)) vm') : ∃ op, vm.OpAt op := by
  obtain ⟨i, vm₁, hread, ho⟩ | ⟨byte, vm₁, hread, hrest⟩ := step_cases P h
  · cases ho
    exact absurd hread ((inferInstance : Silent readByte).ne _ _ _)
  obtain ⟨-, ho⟩ | ⟨hop, -⟩ | ⟨op, hop, -⟩ := hrest
  · cases ho
  · exact ⟨_, opAt_of_readByte hread hop⟩
  · exact ⟨op, opAt_of_readByte hread hop⟩

/-- Where `ip` of the current frame is when an instruction reports an error. -/
theorem step_reports {op : OpCode} {vm vm' : VM} {message : String} {frame : CallFrame}
    {rest : List CallFrame} (hframes : vm.frames = frame :: rest)
    (hop : frame.function.code[frame.ip]? = some op.toByte)
    (h : step P vm = .stopped (.runtimeError (some message)) vm') :
    vm'.frames = { frame with ip := frame.ip + 1 + operandsRead vm op } :: rest := by
  obtain ⟨i, vm₁, hread, ho⟩ | ⟨byte, vm₁, hread, hrest⟩ := step_cases P h
  · cases ho
    exact absurd hread ((inferInstance : Silent readByte).ne _ _ _)
  obtain ⟨hbyte, hvm₁⟩ := readByte_done hframes hread
  rw [hop] at hbyte
  cases hbyte
  rw [OpCode.ofByte_toByte, hvm₁] at hrest
  obtain ⟨hnone, -⟩ | ⟨-, hrun⟩ | ⟨op', hop', -, ⟨vm₂, -, ho⟩ | ⟨i, vm₂, hrun, ho⟩⟩ := hrest
  · cases hnone
  · exact absurd hrun ((inferInstance : Silent (executeReturn P)).ne _ _ _)
  · cases ho
  · cases hop'
    cases ho
    exact execute_reports P rfl hrun

end VM

end CppLox
