import CppLox.VM.Fetch

/-!
# Virtual machine — properties and methods

`INVOKE`, `SUPER_INVOKE` and `LOAD_PROPERTY_SAFE` beside the instructions they stand for:
`LOAD_PROPERTY` and `CALL`, `LOAD_SUPER` and `CALL`, and `LOAD_PROPERTY`.  The plain instructions
allocate a bound method where the others call the closure at once.
-/

namespace CppLox

open VMM

/-- The outcome with other frames. -/
def Outcome.withFrames {α : Type} (frames : List CallFrame) : Outcome α → Outcome α
  | .done a vm => .done a { vm with frames }
  | .stopped i vm => .stopped i { vm with frames }

namespace VM

variable (P : Platform)

/-! ### Calls and the frames below -/

/-- Two outcomes that differ in the frames below the ones that were pushed. -/
inductive Reframed (frames frames' : List CallFrame) {α : Type} : Outcome α → Outcome α → Prop where
  | done (a : α) (vm : VM) (pushed : List CallFrame) :
      Reframed frames frames' (.done a { vm with frames := pushed ++ frames })
        (.done a { vm with frames := pushed ++ frames' })
  | stopped (i : Interrupt) (vm : VM) (pushed : List CallFrame) :
      Reframed frames frames' (.stopped i { vm with frames := pushed ++ frames })
        (.stopped i { vm with frames := pushed ++ frames' })

/-- A routine that reads no more of the frames than their number. -/
class FrameBlind {α : Type} (m : VMM α) : Prop where
  reframed : ∀ (vm : VM) frames frames', frames.length = frames'.length →
    Reframed frames frames' (m { vm with frames }) (m { vm with frames := frames' })

namespace FrameBlind

variable {α β : Type}

/-- A routine that does not read the frames. -/
theorem of_withFrames {m : VMM α}
    (h : ∀ (vm : VM) frames, m { vm with frames } = (m vm).withFrames frames) : FrameBlind m := by
  refine ⟨fun vm frames frames' _ => ?_⟩
  rw [h vm frames, h vm frames']
  cases m vm with
  | done a vm => exact .done a vm []
  | stopped i vm => exact .stopped i vm []

theorem bind {m : VMM α} {f : α → VMM β} (hm : FrameBlind m) (hf : ∀ a, FrameBlind (f a)) :
    FrameBlind (m >>= f) := by
  refine ⟨fun vm frames frames' hlen => ?_⟩
  have h := hm.reframed vm frames frames' hlen
  generalize hr : m { vm with frames } = r at h
  generalize hr' : m { vm with frames := frames' } = r' at h
  cases h with
  | done a vm₁ pushed =>
      rw [VMM.bind_of_done hr, VMM.bind_of_done hr']
      have h' := (hf a).reframed vm₁ (pushed ++ frames) (pushed ++ frames') (by simp [hlen])
      generalize f a { vm₁ with frames := pushed ++ frames } = s at h' ⊢
      generalize f a { vm₁ with frames := pushed ++ frames' } = s' at h' ⊢
      cases h' with
      | done b vm₂ pushed' =>
          rw [← List.append_assoc, ← List.append_assoc]
          exact .done b vm₂ _
      | stopped i vm₂ pushed' =>
          rw [← List.append_assoc, ← List.append_assoc]
          exact .stopped i vm₂ _
  | stopped i vm₁ pushed =>
      rw [VMM.bind_of_stopped hr, VMM.bind_of_stopped hr']
      exact .stopped i vm₁ pushed

instance (a : α) : FrameBlind (pure a : VMM α) := of_withFrames fun _ _ => rfl

instance (m : VMM α) (f : α → VMM β) [FrameBlind m] [∀ a, FrameBlind (f a)] :
    FrameBlind (m >>= f) := bind inferInstance inferInstance

instance (c : Prop) [Decidable c] (m n : VMM α) [FrameBlind m] [FrameBlind n] :
    FrameBlind (if c then m else n) := by
  split <;> infer_instance

instance (i : Interrupt) : FrameBlind (stop i : VMM α) := of_withFrames fun _ _ => rfl

instance (message : String) : FrameBlind (runtimeError message : VMM α) :=
  of_withFrames fun _ _ => rfl

instance (message : String) : FrameBlind (throwException message : VMM α) :=
  of_withFrames fun _ _ => rfl

instance : FrameBlind (undefinedBehaviour : VMM α) := of_withFrames fun _ _ => rfl

end FrameBlind

instance (v : Value) : FrameBlind (push P v) := by
  refine .of_withFrames fun vm frames => ?_
  change (if vm.stackTop = P.capacity then throwException _ else _ : VMM Unit) _ =
    ((if vm.stackTop = P.capacity then throwException _ else _ : VMM Unit) vm).withFrames frames
  split <;> rfl

instance (argCount : Nat) : FrameBlind (calleeSlot argCount) := by
  refine .of_withFrames fun vm frames => ?_
  change (if vm.stackTop < argCount + 1 then undefinedBehaviour else _ : VMM Nat) _ =
    ((if vm.stackTop < argCount + 1 then undefinedBehaviour else _ : VMM Nat) vm).withFrames frames
  split <;> rfl

instance (i : Nat) (v : Value) : FrameBlind (writeSlot P i v) := by
  refine .of_withFrames fun vm frames => ?_
  unfold writeSlot
  split <;> rfl

instance (object : HeapObject) : FrameBlind (allocate object) := .of_withFrames fun _ _ => rfl

instance (a : Addr) : FrameBlind (objectAt a) := by
  refine .of_withFrames fun vm frames => ?_
  rw [objectAt_apply, objectAt_apply]
  cases vm.heap[a]? <;> rfl

instance (v : Value) : FrameBlind (closureOf v) := by
  unfold closureOf
  split
  · refine .bind inferInstance fun o => ?_
    split <;> infer_instance
  · infer_instance

instance (closure : Addr × ObjectFunction) (argCount : Nat) : FrameBlind (call closure argCount) := by
  obtain ⟨a, function⟩ := closure
  refine ⟨fun vm frames frames' hlen => ?_⟩
  unfold call
  dsimp only
  by_cases harity : argCount ≠ function.arity
  · rw [if_pos harity]
    exact .stopped _ vm []
  · rw [if_neg harity]
    change Reframed frames frames'
      ((if frames.length = maxFrameSize then runtimeError _ else calleeSlot argCount >>= _ :
        VMM Unit) _)
      ((if frames'.length = maxFrameSize then runtimeError _ else calleeSlot argCount >>= _ :
        VMM Unit) _)
    rw [hlen]
    by_cases hfull : frames'.length = maxFrameSize
    · rw [if_pos hfull]
      exact .stopped _ vm []
    · rw [if_neg hfull]
      have hpush : FrameBlind (calleeSlot argCount >>= fun slots =>
          modify fun vm => { vm with frames := ⟨a, function, 0, slots⟩ :: vm.frames }) :=
        .bind inferInstance fun slots => ⟨fun vm frames frames' _ => .done () vm [_]⟩
      exact hpush.reframed vm frames frames' hlen

instance (a : Addr) (name : Bytes) (initMethod : Value) (argCount : Nat) :
    FrameBlind (callClass P a name initMethod argCount) := by
  unfold callClass
  refine .bind inferInstance fun inst => .bind inferInstance fun slot =>
    .bind inferInstance fun _ => ?_
  split <;> infer_instance

instance (native : Native) (argCount : Nat) : FrameBlind (callNative P native argCount) := by
  unfold callNative
  split
  · infer_instance
  · refine .bind inferInstance fun slot => ⟨fun vm frames frames' hlen => ?_⟩
    change Reframed frames frames'
      ((match native.function vm.heap argCount (fun i => vm.stack (slot + i)) with
        | .value v heap printed => _
        | .failed heap interrupt => _ : VMM Unit) _)
      ((match native.function vm.heap argCount (fun i => vm.stack (slot + i)) with
        | .value v heap printed => _
        | .failed heap interrupt => _ : VMM Unit) _)
    cases native.function vm.heap argCount (fun i => vm.stack (slot + i)) with
    | value v heap printed =>
        exact (inferInstance : FrameBlind (push P v)).reframed
          { vm with heap, output := vm.output ++ printed, stackTop := slot } frames frames' hlen
    | failed heap interrupt => exact .stopped interrupt { vm with heap } []

instance (callee : Value) (argCount : Nat) : FrameBlind (callValue P callee argCount) := by
  unfold callValue
  split
  · infer_instance
  · split <;> infer_instance
  · refine .bind inferInstance fun o => ?_
    split <;> infer_instance
  · infer_instance

/-! ### Arguments on the stack -/

/-- Values are pushed, the last one on top. -/
def pushAll : List Value → VMM Unit
  | [] => pure ()
  | v :: values => do
    push P v
    pushAll values

/-- The machine with some arguments above its stack. -/
def withArguments (vm : VM) (args : List Value) : VM :=
  { vm with
    stack := fun j => if j < vm.stackTop then vm.stack j else args.getD (j - vm.stackTop) (vm.stack j)
    stackTop := vm.stackTop + args.length }

theorem pushAll_apply {args : List Value} : ∀ {vm : VM}, vm.stackTop + args.length ≤ P.capacity →
    pushAll P args vm = .done () (vm.withArguments args) := by
  induction args with
  | nil =>
      intro vm _
      refine congrArg (Outcome.done ()) ?_
      have hstack : vm.stack = fun j => if j < vm.stackTop then vm.stack j else
          ([] : List Value).getD (j - vm.stackTop) (vm.stack j) := by
        funext j
        split <;> rfl
      unfold withArguments
      rw [← hstack]
      rfl
  | cons v args ih =>
      intro vm hroom
      rw [List.length_cons] at hroom
      unfold pushAll
      rw [VMM.bind_of_done (push_apply P (by omega)), ih (by change vm.stackTop + 1 + _ ≤ _; omega)]
      refine congrArg (Outcome.done ()) ?_
      unfold withArguments
      congr 1
      · funext j
        change (if j < vm.stackTop + 1 then if j = vm.stackTop then v else vm.stack j else
          args.getD (j - (vm.stackTop + 1)) (if j = vm.stackTop then v else vm.stack j)) = _
        rcases Nat.lt_trichotomy j vm.stackTop with hlt | rfl | hgt
        · rw [if_pos (by omega), if_neg (by omega), if_pos hlt]
        · simp
        · rw [if_neg (by omega), if_neg (by omega), if_neg (by omega),
            show j - vm.stackTop = j - (vm.stackTop + 1) + 1 by omega, List.getD_cons_succ]
      · change vm.stackTop + 1 + args.length = vm.stackTop + (args.length + 1)
        omega

theorem withArguments_stack {vm : VM} {args : List Value} {j : Nat} (h : j < vm.stackTop) :
    (vm.withArguments args).stack j = vm.stack j := if_pos h

theorem withArguments_setSlot {vm : VM} {args : List Value} {j : Nat} (v : Value)
    (h : j < vm.stackTop) :
    (vm.setSlot j v).withArguments args = (vm.withArguments args).setSlot j v := by
  unfold withArguments setSlot
  congr 1
  funext k
  change (if k < vm.stackTop then if k = j then v else vm.stack k else
    args.getD (k - vm.stackTop) (if k = j then v else vm.stack k)) = if k = j then v else _
  by_cases hk : k = j
  · rw [if_pos hk, if_pos hk, if_pos (hk ▸ h)]
  · rw [if_neg hk, if_neg hk]

/-! ### Agreement -/

/-- The second heap has at most a bound method more. -/
def SameButBound (heap heap' : Heap) : Prop :=
  heap' = heap ∨ ∃ receiver method, heap' = heap ++ [HeapObject.boundMethod receiver method]

/-- Two machines agree outside of the stack and the frames. -/
structure SameEffects (vm vm' : VM) : Prop where
  heap : SameButBound vm.heap vm'.heap
  openUpvalues : vm'.openUpvalues = vm.openUpvalues
  context : vm'.context = vm.context
  output : vm'.output = vm.output

/-- Two machines agree, and `frame`, from which both have gone on, continues at `ip` in the one and
at `ip'` in the other. -/
structure SameState (frame : CallFrame) (rest : List CallFrame) (ip ip' : Nat) (vm vm' : VM) : Prop
    extends SameEffects vm vm' where
  stackTop : vm'.stackTop = vm.stackTop
  stack : ∀ j < vm.stackTop, vm'.stack j = vm.stack j
  frames : ∃ pushed, vm.frames = pushed ++ { frame with ip } :: rest ∧
    vm'.frames = pushed ++ { frame with ip := ip' } :: rest

/-- Two interrupts that differ at most in the message of a `RUNTIME_ERROR`. -/
def SameInterrupt : Interrupt → Interrupt → Prop
  | .runtimeError _, .runtimeError _ => True
  | i, j => i = j

/-- Two instructions have the same outcome. -/
inductive SameOutcome (frame : CallFrame) (rest : List CallFrame) (ip ip' : Nat) :
    Outcome Bool → Outcome Bool → Prop where
  | done {vm vm' : VM} (h : SameState frame rest ip ip' vm vm') :
      SameOutcome frame rest ip ip' (.done false vm) (.done false vm')
  | stopped {i j : Interrupt} {vm vm' : VM} (hi : SameInterrupt i j) (h : SameEffects vm vm') :
      SameOutcome frame rest ip ip' (.stopped i vm) (.stopped j vm')

/-- A constant of a frame is a name, with an index that fits an operand. -/
def NameAt (frame : CallFrame) (k : Nat) (name : Bytes) : Prop :=
  k ≤ 0xFFFF ∧ frame.function.constants[k]? = some (.string name)

/-- The instruction at an offset is executed. -/
def stepAt (ip : Nat) : VMM Bool := do
  setIp ip
  step P

/-- `INVOKE` of a method of the receiver on top of the stack, on some arguments. -/
def invokeOn (args : List Value) (ip : Nat) : VMM Bool := do
  pushAll P args
  stepAt P ip

/-- An instruction that loads a callee, and its `CALL` on some arguments. -/
def loadAndCall (args : List Value) (loadIp callIp : Nat) : VMM Bool := do
  let _ ← stepAt P loadIp
  pushAll P args
  stepAt P callIp

/-- `SUPER_INVOKE` of a method of a superclass on the receiver on top of the stack. -/
def superInvokeOn (superclass : Value) (args : List Value) (ip : Nat) : VMM Bool := do
  pushAll P args
  push P superclass
  stepAt P ip

/-- `LOAD_SUPER` and `CALL` in place of `SUPER_INVOKE`. -/
def loadSuperAndCall (superclass : Value) (args : List Value) (loadIp callIp : Nat) : VMM Bool := do
  push P superclass
  loadAndCall P args loadIp callIp

/-- `INVOKE` has the outcome of `LOAD_PROPERTY` and `CALL`. -/
def InvokeAgrees : Prop :=
  ∀ (vm : VM) (frame : CallFrame) (rest : List CallFrame) (name : Bytes) (args : List Value)
    (ip loadIp callIp k k' : Nat),
    vm.frames = frame :: rest → NameAt frame k name → NameAt frame k' name →
    CodeAt frame ip (Instr.shortByte .invoke k args.length).encode →
    CodeAt frame loadIp (Instr.short .loadProperty k').encode →
    CodeAt frame callIp (Instr.byte .call args.length).encode →
    args.length ≤ 255 → 0 < vm.stackTop → vm.stackTop + args.length ≤ P.capacity →
    SameOutcome frame rest (ip + 4) (callIp + 2) (invokeOn P args ip vm)
      (loadAndCall P args loadIp callIp vm)

/-- An instance of a class. -/
def IsInstance (heap : Heap) (v : Value) : Prop :=
  ∃ klass fields name initMethod methods, v.heapObject heap = some (.instance klass fields) ∧
    heap[klass]? = some (HeapObject.class name initMethod methods)

/-- `SUPER_INVOKE` has the outcome of `LOAD_SUPER` and `CALL`. -/
def SuperInvokeAgrees : Prop :=
  ∀ (vm : VM) (frame : CallFrame) (rest : List CallFrame) (name : Bytes) (superclass : Value)
    (args : List Value) (ip loadIp callIp k k' : Nat),
    vm.frames = frame :: rest → NameAt frame k name → NameAt frame k' name →
    CodeAt frame ip (Instr.shortByte .superInvoke k args.length).encode →
    CodeAt frame loadIp (Instr.short .loadSuper k').encode →
    CodeAt frame callIp (Instr.byte .call args.length).encode →
    args.length ≤ 255 → 0 < vm.stackTop → IsInstance vm.heap (vm.stack (vm.stackTop - 1)) →
    vm.stackTop + args.length + 1 ≤ P.capacity →
    SameOutcome frame rest (ip + 4) (callIp + 2) (superInvokeOn P superclass args ip vm)
      (loadSuperAndCall P superclass args loadIp callIp vm)

/-- What `LOAD_PROPERTY_SAFE` ends with, given what `LOAD_PROPERTY` ends with: the same when that
succeeds, and nil when it reports an error. -/
def safeOutcome (vm : VM) (frame : CallFrame) (rest : List CallFrame) (ip : Nat) :
    Outcome Bool → Outcome Bool
  | .done b vm' => .done b { vm' with frames := { frame with ip } :: rest }
  | .stopped (.runtimeError _) _ =>
    .done false ({ vm with frames := { frame with ip } :: rest }.replaceTop 1 (.nil false))
  | .stopped i vm' => .stopped i { vm' with frames := { frame with ip } :: rest }

/-- `LOAD_PROPERTY_SAFE` yields what `LOAD_PROPERTY` does, and nil where that reports an error. -/
def LoadPropertySafeAgrees : Prop :=
  ∀ (vm : VM) (frame : CallFrame) (rest : List CallFrame) (name : Bytes) (ip loadIp k k' : Nat),
    vm.frames = frame :: rest → NameAt frame k name → NameAt frame k' name →
    CodeAt frame ip (Instr.short .loadPropertySafe k).encode →
    CodeAt frame loadIp (Instr.short .loadProperty k').encode →
    0 < vm.stackTop → vm.stackTop ≤ P.capacity →
    stepAt P ip vm = safeOutcome vm frame rest (ip + 3) (stepAt P loadIp vm) ∧
      ∀ message vm', stepAt P ip vm ≠ .stopped (.runtimeError message) vm'

/-! ### Instructions at an offset -/

/-- The machine with `frame` at an offset on top of other frames. -/
def goto (vm : VM) (frame : CallFrame) (rest : List CallFrame) (ip : Nat) : VM :=
  { vm with frames := { frame with ip } :: rest }

section

variable {vm : VM} {frame : CallFrame} {rest : List CallFrame} {name : Bytes} {ip k n : Nat}

theorem stepAt_apply {op : OpCode} {operands : List UInt8} (hframes : vm.frames = frame :: rest)
    (hcode : CodeAt frame ip (op.toByte :: operands)) (hop : op ≠ .return) :
    stepAt P ip vm = (do execute P op; return false) (vm.goto frame rest (ip + 1)) := by
  unfold stepAt
  rw [VMM.bind_of_done (setIp_apply ip hframes)]
  exact step_apply P ⟨{ frame with ip }, rest, rfl, hcode⟩ hop

/-- The name that is the operand of an instruction. -/
theorem readConstantLong_name {operands : List UInt8} (hname : NameAt frame k name)
    (hcode : CodeAt frame ip (uint16Bytes k ++ operands)) :
    readConstantLong (vm.goto frame rest ip) = .done (.ofString name) (vm.goto frame rest (ip + 2)) := by
  have hread := readUint16Le_apply hname.1
    (show (vm.goto frame rest ip).Ahead _ from ⟨{ frame with ip }, rest, rfl, hcode⟩)
  unfold readConstantLong
  rw [VMM.bind_of_done hread]
  exact @constant_apply (vm.goto frame rest (ip + 2)) _ _ k (.string name) rfl hname.2

theorem readByte_count (hn : n ≤ 255) (hcode : CodeAt frame ip [n.toUInt8]) :
    readByte (vm.goto frame rest ip) = .done n.toUInt8 (vm.goto frame rest (ip + 1)) ∧
      n.toUInt8.toNat = n :=
  ⟨readByte_apply ⟨{ frame with ip }, rest, rfl, hcode⟩, by simp; omega⟩

theorem codeAt_tail {b : UInt8} {bytes : List UInt8} (h : CodeAt frame ip (b :: bytes)) :
    CodeAt frame (ip + 1) bytes :=
  @CodeAt.drop frame ip [b] bytes h

/-- The value on top of the stack. -/
theorem peek_top (htop : 0 < vm.stackTop) :
    peek 0 (vm.goto frame rest ip) =
      .done (vm.stack (vm.stackTop - 1)) (vm.goto frame rest ip) :=
  @peek_of_lt (vm.goto frame rest ip) 0 htop

/-! ### The bodies of the instructions -/

theorem executeInvoke_goto (hn : n ≤ 255) (hname : NameAt frame k name)
    (hcode : CodeAt frame ip (uint16Bytes k ++ [n.toUInt8])) :
    executeInvoke P (vm.goto frame rest ip) = invoke P name n (vm.goto frame rest (ip + 3)) := by
  obtain ⟨hbyte, hcount⟩ := @readByte_count vm _ rest _ _ hn hcode.drop
  unfold executeInvoke
  rw [VMM.bind_of_done (readConstantLong_name hname hcode)]
  refine (VMM.bind_of_done (m := stringOf (.ofString name)) rfl _).trans ?_
  refine (VMM.bind_of_done hbyte _).trans ?_
  rw [hcount]
  rfl

theorem executeSuperInvoke_goto (hn : n ≤ 255) (hname : NameAt frame k name)
    (hcode : CodeAt frame ip (uint16Bytes k ++ [n.toUInt8])) :
    executeSuperInvoke (vm.goto frame rest ip) =
      (do
        let superclass ← classOf (← pop)
        invokeFromClass superclass name n) (vm.goto frame rest (ip + 3)) := by
  obtain ⟨hbyte, hcount⟩ := @readByte_count vm _ rest _ _ hn hcode.drop
  unfold executeSuperInvoke
  rw [VMM.bind_of_done (readConstantLong_name hname hcode)]
  refine (VMM.bind_of_done (m := stringOf (.ofString name)) rfl _).trans ?_
  refine (VMM.bind_of_done hbyte _).trans ?_
  rw [hcount]
  rfl

theorem executeCall_goto (hn : n ≤ 255) (hcode : CodeAt frame ip [n.toUInt8])
    (htop : n < vm.stackTop) :
    executeCall P (vm.goto frame rest ip) =
      callValue P (vm.stack (vm.stackTop - n - 1)) n (vm.goto frame rest (ip + 1)) := by
  obtain ⟨hbyte, hcount⟩ := @readByte_count vm _ rest _ _ hn hcode
  unfold executeCall
  rw [VMM.bind_of_done hbyte, hcount]
  exact VMM.bind_of_done (@peek_of_lt (vm.goto frame rest (ip + 1)) n htop) _

theorem executeLoadSuper_goto (hname : NameAt frame k name)
    (hcode : CodeAt frame ip (uint16Bytes k)) :
    executeLoadSuper P (vm.goto frame rest ip) = loadSuper P name (vm.goto frame rest (ip + 2)) := by
  unfold executeLoadSuper
  rw [← List.append_nil (uint16Bytes k)] at hcode
  rw [VMM.bind_of_done (readConstantLong_name hname hcode)]
  rfl

/-- A property of the instance on top of the stack. -/
theorem executeLoadProperty_goto {klass : Addr} {fields : StringTable}
    (hname : NameAt frame k name) (hcode : CodeAt frame ip (uint16Bytes k))
    (htop : 0 < vm.stackTop)
    (h : (vm.stack (vm.stackTop - 1)).heapObject vm.heap = some (.instance klass fields)) :
    executeLoadProperty P (vm.goto frame rest ip) =
      loadProperty P klass fields name (vm.goto frame rest (ip + 2)) := by
  rw [← List.append_nil (uint16Bytes k)] at hcode
  unfold executeLoadProperty
  rw [VMM.bind_of_done (peek_top htop)]
  refine (VMM.bind_of_done (objectOf_apply _ _) _).trans ?_
  rw [show (vm.goto frame rest ip).heap = vm.heap from rfl, h]
  refine (VMM.bind_of_done (readConstantLong_name hname hcode) _).trans ?_
  rfl

/-- A value on top of the stack that is no instance. -/
theorem executeLoadProperty_other (htop : 0 < vm.stackTop)
    (h : ∀ klass fields,
      (vm.stack (vm.stackTop - 1)).heapObject vm.heap ≠ some (.instance klass fields)) :
    executeLoadProperty P (vm.goto frame rest ip) =
      .stopped (.runtimeError (some "Runtime Error: Can only access properties on instances"))
        (vm.goto frame rest ip) := by
  unfold executeLoadProperty
  rw [VMM.bind_of_done (peek_top htop)]
  refine (VMM.bind_of_done (objectOf_apply _ _) _).trans ?_
  rw [show (vm.goto frame rest ip).heap = vm.heap from rfl]
  cases ho : (vm.stack (vm.stackTop - 1)).heapObject vm.heap with
  | none => rfl
  | some o =>
      cases o with
      | «instance» klass fields => exact absurd ho (h klass fields)
      | _ => rfl

end

section

variable {vm : VM}

theorem closureIn_append {heap tail : Heap} {v : Value} {closure : Addr × ObjectFunction}
    (h : v.closureIn heap = some closure) : v.closureIn (heap ++ tail) = some closure := by
  unfold Value.closureIn at h ⊢
  split at h
  · rename_i a
    split at h
    · rename_i function upvalues ha
      have hlt := (List.getElem?_eq_some_iff.mp ha).1
      rw [List.getElem?_append_left hlt, ha]
      exact h
    · cases h
  · cases h

theorem closureIn_ofAddr {heap : Heap} {v : Value} {closure : Addr × ObjectFunction}
    (h : v.closureIn heap = some closure) :
    (Value.ofAddr closure.1).closureIn heap = some closure := by
  unfold Value.closureIn at h
  split at h
  · rename_i a
    split at h
    · rename_i function upvalues ha
      cases h
      unfold Value.closureIn Value.ofAddr
      dsimp only
      rw [ha]
    · cases h
  · cases h

/-! ### What the plain instructions do -/

theorem pop_push_apply (v : Value) (htop : 0 < vm.stackTop) (hcap : vm.stackTop ≤ P.capacity) :
    (do let _ ← pop; push P v : VMM Unit) vm = .done () (vm.replaceTop 1 v) := by
  have hpop : pop vm = .done (vm.stack (vm.stackTop - 1)) { vm with stackTop := vm.stackTop - 1 } := by
    change (if vm.stackTop = 0 then throwException _ else _ : VMM Value) vm = _
    rw [if_neg (by omega)]
    rfl
  rw [VMM.bind_of_done hpop, push_apply P]
  · rfl
  · change vm.stackTop - 1 < P.capacity
    omega

/-- A method that is bound to the instance on top of the stack. -/
def boundTo (vm : VM) (closure : Addr) : VM :=
  { vm with
    heap := vm.heap ++ [HeapObject.boundMethod (vm.stack (vm.stackTop - 1)) closure] }.replaceTop 1
    (.ofAddr vm.heap.length)

theorem bindMethod_apply (method : Value) (htop : 0 < vm.stackTop)
    (hcap : vm.stackTop ≤ P.capacity) :
    bindMethod P method vm = match method.closureIn vm.heap with
      | some closure => .done () (vm.boundTo closure.1)
      | none => .stopped .undefined vm := by
  have hpeek := peek_of_lt htop
  unfold bindMethod
  rw [VMM.bind_of_done hpeek]
  have hclosure := closureOf_apply method vm
  cases hc : method.closureIn vm.heap with
  | none =>
      rw [hc] at hclosure
      exact VMM.bind_of_stopped hclosure _
  | some closure =>
      rw [hc] at hclosure
      refine (VMM.bind_of_done hclosure _).trans ?_
      exact @pop_push_apply P { vm with heap := _ } (.ofAddr vm.heap.length) htop hcap

/-- The call of a bound method puts the receiver in the slot of the callee. -/
theorem callValue_boundMethod {b method : Addr} {receiver : Value} {function : ObjectFunction}
    {n : Nat} (hb : vm.heap[b]? = some (HeapObject.boundMethod receiver method))
    (hmethod : (Value.ofAddr method).closureIn vm.heap = some (method, function))
    (hn : n < vm.stackTop) (hcap : vm.stackTop ≤ P.capacity) :
    callValue P (.ofAddr b) n vm =
      call (method, function) n (vm.setSlot (vm.stackTop - n - 1) receiver) := by
  have hobject := objectAt_apply b vm
  rw [hb] at hobject
  have hwrite : writeSlot P (vm.stackTop - n - 1) receiver vm =
      .done () (vm.setSlot (vm.stackTop - n - 1) receiver) := by
    unfold writeSlot
    rw [if_pos (by omega)]
    rfl
  have hclosure := closureOf_apply (.ofAddr method) (vm.setSlot (vm.stackTop - n - 1) receiver)
  rw [show (vm.setSlot (vm.stackTop - n - 1) receiver).heap = vm.heap from rfl, hmethod] at hclosure
  unfold callValue
  refine (VMM.bind_of_done hobject _).trans ?_
  refine (VMM.bind_of_done (calleeSlot_apply hn) _).trans ?_
  exact (VMM.bind_of_done hwrite _).trans (VMM.bind_of_done hclosure _)

theorem call_apply {closure : Addr × ObjectFunction} {n : Nat} (hn : n < vm.stackTop) :
    call closure n vm =
      if n ≠ closure.2.arity then
        .stopped (.runtimeError (some ("Expected " ++ toString closure.2.arity ++
          " arguments to call " ++ quoted closure.2.name ++ "(), got " ++ toString n))) vm
      else if vm.frames.length = maxFrameSize then
        .stopped (.runtimeError (some "Stack overflow: too many frames")) vm
      else .done ()
        { vm with frames := ⟨closure.1, closure.2, 0, vm.stackTop - n - 1⟩ :: vm.frames } := by
  unfold call
  dsimp only
  by_cases harity : n ≠ closure.2.arity
  · rw [if_pos harity, if_pos harity]
    rfl
  · rw [if_neg harity, if_neg harity]
    change (if vm.frames.length = maxFrameSize then runtimeError _ else calleeSlot n >>= _ :
      VMM Unit) vm = _
    by_cases hfull : vm.frames.length = maxFrameSize
    · rw [if_pos hfull, if_pos hfull]
      rfl
    · rw [if_neg hfull, if_neg hfull]
      exact VMM.bind_of_done (calleeSlot_apply hn) _

theorem replaceTop_one (v : Value) (htop : 0 < vm.stackTop) :
    vm.replaceTop 1 v = vm.setSlot (vm.stackTop - 1) v := by
  unfold replaceTop
  rw [Nat.sub_add_cancel htop]
  rfl

/-- The field or the method that `invoke` calls. -/
theorem invoke_instance {name : Bytes} {n : Nat} {klass : Addr} {fields : StringTable}
    (hn : n < vm.stackTop) (hcap : vm.stackTop ≤ P.capacity)
    (h : (vm.stack (vm.stackTop - n - 1)).heapObject vm.heap = some (.instance klass fields)) :
    invoke P name n vm = match fields.lookup name with
      | some v => callValue P v n (vm.setSlot (vm.stackTop - n - 1) v)
      | none => (do
          let klass ← classAt klass
          invokeFromClass klass name n) vm := by
  have hpeek := peek_of_lt hn
  have hobject := objectOf_apply (vm.stack (vm.stackTop - n - 1)) vm
  rw [h] at hobject
  unfold invoke
  refine (VMM.bind_of_done hpeek _).trans ((VMM.bind_of_done hobject _).trans ?_)
  dsimp only
  cases fields.lookup name with
  | none => rfl
  | some v =>
      have hwrite : writeSlot P (vm.stackTop - n - 1) v vm =
          .done () (vm.setSlot (vm.stackTop - n - 1) v) := by
        unfold writeSlot
        rw [if_pos (by omega)]
        rfl
      exact (VMM.bind_of_done (calleeSlot_apply hn) _).trans (VMM.bind_of_done hwrite _)

theorem invoke_other {name : Bytes} {n : Nat} (hn : n < vm.stackTop)
    (h : ∀ klass fields,
      (vm.stack (vm.stackTop - n - 1)).heapObject vm.heap ≠ some (.instance klass fields)) :
    invoke P name n vm =
      .stopped (.runtimeError (some "Runtime Error: Can only invoke methods on instances")) vm := by
  have hpeek := peek_of_lt hn
  unfold invoke
  refine (VMM.bind_of_done hpeek _).trans ((VMM.bind_of_done (objectOf_apply _ vm) _).trans ?_)
  cases ho : (vm.stack (vm.stackTop - n - 1)).heapObject vm.heap with
  | none => rfl
  | some o =>
      cases o with
      | «instance» klass fields => exact absurd ho (h klass fields)
      | _ => rfl

/-! ### Agreement of the calls -/

variable {frame : CallFrame} {rest : List CallFrame} {ip ip' : Nat}

/-- A call from two frames that differ in `ip`. -/
theorem sameOutcome_of_frameBlind (m : VMM Unit) [FrameBlind m] (vm : VM) :
    SameOutcome frame rest ip ip' ((do m; return false) (vm.goto frame rest ip))
      ((do m; return false) (vm.goto frame rest ip')) := by
  have h := (inferInstance : FrameBlind m).reframed vm ({ frame with ip } :: rest)
    ({ frame with ip := ip' } :: rest) rfl
  unfold goto
  generalize hr : m { vm with frames := { frame with ip } :: rest } = r at h
  generalize hr' : m { vm with frames := { frame with ip := ip' } :: rest } = r' at h
  cases h with
  | done a vm₁ pushed =>
      rw [VMM.bind_of_done hr, VMM.bind_of_done hr']
      exact .done ⟨⟨.inl rfl, rfl, rfl, rfl⟩, rfl, fun _ _ => rfl, pushed, rfl, rfl⟩
  | stopped i vm₁ pushed =>
      rw [VMM.bind_of_stopped hr, VMM.bind_of_stopped hr']
      refine .stopped ?_ ⟨.inl rfl, rfl, rfl, rfl⟩
      cases i <;> trivial

/-- A closure is called in two machines that agree. -/
theorem SameState.call {vm' : VM} {closure : Addr × ObjectFunction} {n : Nat}
    (h : SameState frame rest ip ip' vm vm') (hn : n < vm.stackTop) :
    SameOutcome frame rest ip ip' ((do VM.call closure n; return false) vm)
      ((do VM.call closure n; return false) vm') := by
  obtain ⟨pushed, hframes, hframes'⟩ := h.frames
  have hrun := @call_apply _ closure _ hn
  have hrun' := @call_apply _ closure _ (h.stackTop ▸ hn)
  have hlen : vm'.frames.length = vm.frames.length := by
    rw [hframes, hframes', List.length_append, List.length_append]
    rfl
  rw [hlen, h.stackTop] at hrun'
  by_cases harity : n ≠ closure.2.arity
  · rw [if_pos harity] at hrun hrun'
    rw [VMM.bind_of_stopped hrun, VMM.bind_of_stopped hrun']
    exact .stopped trivial h.toSameEffects
  · rw [if_neg harity] at hrun hrun'
    by_cases hfull : vm.frames.length = maxFrameSize
    · rw [if_pos hfull] at hrun hrun'
      rw [VMM.bind_of_stopped hrun, VMM.bind_of_stopped hrun']
      exact .stopped trivial h.toSameEffects
    · rw [if_neg hfull] at hrun hrun'
      rw [VMM.bind_of_done hrun, VMM.bind_of_done hrun']
      refine .done ⟨⟨h.heap, h.openUpvalues, h.context, h.output⟩, rfl, h.stack, _ :: pushed,
        congrArg (_ :: ·) hframes, congrArg (_ :: ·) hframes'⟩

/-- A callee is loaded and called. -/
theorem loadAndCall_apply {vm₁ : VM} {args : List Value} {loadIp callIp j : Nat}
    (hload : stepAt P loadIp vm = .done false (vm₁.goto frame rest j))
    (hcall : CodeAt frame callIp (Instr.byte .call args.length).encode) (hn : args.length ≤ 255)
    (htop : 0 < vm₁.stackTop) (hroom : vm₁.stackTop + args.length ≤ P.capacity) :
    loadAndCall P args loadIp callIp vm =
      (do callValue P (vm₁.stack (vm₁.stackTop - 1)) args.length; return false)
        ((vm₁.withArguments args).goto frame rest (callIp + 2)) := by
  have hargs := @pushAll_apply P args (vm₁.goto frame rest j) hroom
  have hstep := @stepAt_apply P ((vm₁.goto frame rest j).withArguments args) { frame with ip := j }
    rest callIp .call _ rfl hcall (by decide)
  have hrun := @executeCall_goto P (vm₁.withArguments args) frame rest (callIp + 1) _ hn
    (codeAt_tail hcall) (show _ < vm₁.stackTop + args.length by omega)
  have hcallee : (vm₁.withArguments args).stack
      ((vm₁.withArguments args).stackTop - args.length - 1) = vm₁.stack (vm₁.stackTop - 1) := by
    change (vm₁.withArguments args).stack (vm₁.stackTop + args.length - args.length - 1) = _
    rw [Nat.add_sub_cancel, withArguments_stack (by omega)]
  rw [hcallee] at hrun
  unfold loadAndCall
  refine (VMM.bind_of_done hload _).trans ((VMM.bind_of_done hargs _).trans (hstep.trans ?_))
  exact VMM.bind_congr hrun _

/-- The instance on top of the stack, an argument list and the instruction `INVOKE`. -/
theorem invokeOn_apply {name : Bytes} {args : List Value} {k : Nat}
    (hframes : vm.frames = frame :: rest) (hname : NameAt frame k name)
    (hcode : CodeAt frame ip (Instr.shortByte .invoke k args.length).encode)
    (hn : args.length ≤ 255) (hroom : vm.stackTop + args.length ≤ P.capacity) :
    invokeOn P args ip vm = (do invoke P name args.length; return false)
      ((vm.withArguments args).goto frame rest (ip + 4)) := by
  have hstep := @stepAt_apply P (vm.withArguments args) frame rest ip .invoke _ hframes hcode
    (by decide)
  unfold invokeOn
  refine (VMM.bind_of_done (pushAll_apply P hroom) _).trans (hstep.trans ?_)
  exact VMM.bind_congr (executeInvoke_goto P hn hname (codeAt_tail hcode)) _

/-- What the plain instruction finds in an instance: a field, a method to bind, or neither. -/
theorem loadProperty_apply {klass : Addr} {fields : StringTable} {name : Bytes}
    (htop : 0 < vm.stackTop) (hcap : vm.stackTop ≤ P.capacity) :
    loadProperty P klass fields name vm = match fields.lookup name with
      | some v => .done () (vm.replaceTop 1 v)
      | none => match (Value.ofAddr klass).classIn vm.heap with
        | none => .stopped .undefined vm
        | some (className, methods) => match methods.lookup name with
          | none => .stopped (.runtimeError (some ("Runtime Error: Instance of class '" ++
              quoted className ++ "' has no property '" ++ quoted name ++ "'"))) vm
          | some method => bindMethod P method vm := by
  unfold loadProperty
  cases fields.lookup name with
  | some v => exact pop_push_apply P v htop hcap
  | none =>
      have hclass := classOf_apply (.ofAddr klass) vm
      dsimp only
      cases hc : (Value.ofAddr klass).classIn vm.heap with
      | none =>
          rw [hc] at hclass
          exact VMM.bind_of_stopped hclass _
      | some found =>
          rw [hc] at hclass
          refine (VMM.bind_of_done hclass _).trans ?_
          dsimp only
          cases found.2.lookup name <;> rfl

theorem invokeFromClass_apply (klass : Bytes × StringTable) (name : Bytes) (n : Nat) :
    invokeFromClass klass name n vm = match klass.2.lookup name with
      | none => .stopped (.runtimeError (some ("Runtime Error: Instance of class '" ++
          quoted klass.1 ++ "' has no method '" ++ quoted name ++ "'"))) vm
      | some method => match method.closureIn vm.heap with
        | some closure => call closure n vm
        | none => .stopped .undefined vm := by
  unfold invokeFromClass
  cases klass.2.lookup name with
  | none => rfl
  | some method =>
      have hclosure := closureOf_apply method vm
      dsimp only
      cases hc : method.closureIn vm.heap with
      | none =>
          rw [hc] at hclosure
          exact VMM.bind_of_stopped hclosure _
      | some closure =>
          rw [hc] at hclosure
          exact VMM.bind_of_done hclosure _

/-- A method is looked up in the class of an instance. -/
theorem invokeMethod_apply (a : Addr) (name : Bytes) (n : Nat) :
    (do let klass ← classAt a; invokeFromClass klass name n : VMM Unit) vm =
      match (Value.ofAddr a).classIn vm.heap with
      | none => .stopped .undefined vm
      | some klass => invokeFromClass klass name n vm := by
  have hclass := classOf_apply (.ofAddr a) vm
  cases hc : (Value.ofAddr a).classIn vm.heap with
  | none =>
      rw [hc] at hclass
      exact VMM.bind_of_stopped hclass _
  | some klass =>
      rw [hc] at hclass
      exact VMM.bind_of_done hclass _

/-- A bound method is called with arguments: its closure is called on the receiver. -/
theorem callValue_boundTo {args : List Value} {closure : Addr × ObjectFunction} {method : Value}
    (hmethod : method.closureIn vm.heap = some closure) (htop : 0 < vm.stackTop)
    (hroom : vm.stackTop + args.length ≤ P.capacity) :
    callValue P ((vm.boundTo closure.1).stack ((vm.boundTo closure.1).stackTop - 1)) args.length
        (((vm.boundTo closure.1).withArguments args).goto frame rest ip) =
      call closure args.length
        ((((vm.boundTo closure.1).withArguments args).setSlot (vm.stackTop - 1)
          (vm.stack (vm.stackTop - 1))).goto frame rest ip) := by
  have hstackTop : (vm.boundTo closure.1).stackTop = vm.stackTop := Nat.sub_add_cancel htop
  have hcallee : (vm.boundTo closure.1).stack ((vm.boundTo closure.1).stackTop - 1) =
      .ofAddr vm.heap.length := by
    rw [hstackTop]
    exact if_pos rfl
  have hbound : (vm.boundTo closure.1).heap[vm.heap.length]? =
      some (.boundMethod (vm.stack (vm.stackTop - 1)) closure.1) := by
    change (vm.heap ++ [_])[vm.heap.length]? = _
    rw [List.getElem?_append_right (Nat.le_refl _), Nat.sub_self]
    rfl
  have hclosure : (Value.ofAddr closure.1).closureIn (vm.boundTo closure.1).heap = some closure :=
    closureIn_append (closureIn_ofAddr hmethod)
  have hslot : (vm.boundTo closure.1).stackTop + args.length - args.length - 1 =
      vm.stackTop - 1 := by
    rw [hstackTop]
    omega
  rw [hcallee]
  refine (@callValue_boundMethod P (((vm.boundTo closure.1).withArguments args).goto frame rest ip)
    vm.heap.length closure.1 _ closure.2 args.length hbound hclosure ?_ ?_).trans ?_
  · change _ < (vm.boundTo closure.1).stackTop + args.length
    omega
  · change (vm.boundTo closure.1).stackTop + args.length ≤ P.capacity
    omega
  · change call closure args.length (setSlot _ ((vm.boundTo closure.1).stackTop + _ - _ - 1) _) = _
    rw [hslot]
    rfl

/-- The slots in use of a stack on which a method has been bound, with the receiver back in place. -/
theorem boundTo_stack {args : List Value} {closure : Addr} {j : Nat} (htop : 0 < vm.stackTop) :
    (((vm.boundTo closure).withArguments args).setSlot (vm.stackTop - 1)
      (vm.stack (vm.stackTop - 1))).stack j = (vm.withArguments args).stack j := by
  have hstackTop : (vm.boundTo closure).stackTop = vm.stackTop := Nat.sub_add_cancel htop
  have hstack : (vm.boundTo closure).stack j =
      if j = vm.stackTop - 1 then .ofAddr vm.heap.length else vm.stack j := rfl
  change (if j = vm.stackTop - 1 then vm.stack (vm.stackTop - 1) else
    if j < (vm.boundTo closure).stackTop then (vm.boundTo closure).stack j else
      args.getD (j - (vm.boundTo closure).stackTop) ((vm.boundTo closure).stack j)) =
    if j < vm.stackTop then vm.stack j else args.getD (j - vm.stackTop) (vm.stack j)
  rw [hstackTop, hstack]
  by_cases hj : j = vm.stackTop - 1
  · rw [if_pos hj, if_pos (by omega), hj]
  · rw [if_neg hj, if_neg hj]

/-- A method of a class is looked up and called at once, and it is looked up, bound to the value on
top of the stack and called. -/
theorem sameOutcome_method {vm vm₁ : VM} {m : VMM Unit} {found : Bytes × StringTable} {name : Bytes}
    {args : List Value} {loadIp callIp j : Nat}
    (hload : stepAt P loadIp vm = (do m; return false) (vm₁.goto frame rest j))
    (hnone : found.2.lookup name = none →
      ∃ message, m (vm₁.goto frame rest j) = .stopped (.runtimeError message) (vm₁.goto frame rest j))
    (hsome : ∀ method, found.2.lookup name = some method →
      m (vm₁.goto frame rest j) = bindMethod P method (vm₁.goto frame rest j))
    (hcall : CodeAt frame callIp (Instr.byte .call args.length).encode) (hn : args.length ≤ 255)
    (htop : 0 < vm₁.stackTop) (hroom : vm₁.stackTop + args.length ≤ P.capacity)
    {fast : VM} (hfast : SameState frame rest ip (callIp + 2) (fast.goto frame rest ip)
      ((vm₁.withArguments args).goto frame rest (callIp + 2)))
    (hheap : vm₁.heap = fast.heap) :
    SameOutcome frame rest ip (callIp + 2)
      ((do invokeFromClass found name args.length; return false) (fast.goto frame rest ip))
      (loadAndCall P args loadIp callIp vm) := by
  have hinvoke := @invokeFromClass_apply (fast.goto frame rest ip) found name args.length
  have heffects : SameEffects (fast.goto frame rest ip) (vm₁.goto frame rest j) :=
    ⟨hfast.heap, hfast.openUpvalues, hfast.context, hfast.output⟩
  cases hlookup : found.2.lookup name with
  -- both report the same undefined property
  | none =>
      rw [hlookup] at hinvoke
      obtain ⟨message, hm⟩ := hnone hlookup
      rw [VMM.bind_of_stopped hinvoke]
      unfold loadAndCall
      rw [VMM.bind_of_stopped (hload.trans (VMM.bind_of_stopped hm _))]
      exact .stopped trivial heffects
  | some method =>
      have hm := (hsome method hlookup).trans (bindMethod_apply P method htop (by
        change vm₁.stackTop ≤ _
        omega))
      rw [hlookup] at hinvoke
      change _ = match method.closureIn vm₁.heap with
        | some closure => _
        | none => _ at hm
      change _ = match method.closureIn fast.heap with
        | some closure => _
        | none => _ at hinvoke
      rw [← hheap] at hinvoke
      cases hclosure : method.closureIn vm₁.heap with
      | none =>
          rw [hclosure] at hinvoke hm
          rw [VMM.bind_of_stopped hinvoke]
          unfold loadAndCall
          rw [VMM.bind_of_stopped (hload.trans (VMM.bind_of_stopped hm _))]
          exact .stopped rfl heffects
      | some closure =>
          rw [hclosure] at hinvoke hm
          have hbound : stepAt P loadIp vm = .done false ((vm₁.boundTo closure.1).goto frame rest j) :=
            hload.trans (VMM.bind_of_done hm _)
          have hstackTop : (vm₁.boundTo closure.1).stackTop = vm₁.stackTop := Nat.sub_add_cancel htop
          have hcalled := loadAndCall_apply P hbound hcall hn (hstackTop ▸ htop)
            (hstackTop ▸ hroom)
          rw [hcalled, VMM.bind_congr hinvoke,
            VMM.bind_congr (callValue_boundTo P hclosure htop hroom)]
          -- the plain load has allocated one object more, the bound method
          refine SameState.call ⟨⟨?_, hfast.openUpvalues, hfast.context, hfast.output⟩, ?_, ?_,
            [], rfl, rfl⟩ ?_
          · exact .inr ⟨_, _, congrArg (· ++ [_]) hheap⟩
          · exact (congrArg (· + args.length) hstackTop).trans hfast.stackTop
          · intro j hj
            exact (boundTo_stack htop).trans (hfast.stack j hj)
          · have := hfast.stackTop
            change vm₁.stackTop + args.length = fast.stackTop at this
            change args.length < fast.stackTop
            omega

end

/-- `LOAD_PROPERTY` of the instance on top of the stack. -/
theorem stepAt_loadProperty {vm : VM} {frame : CallFrame} {rest : List CallFrame} {name : Bytes}
    {loadIp k : Nat} {klass : Addr} {fields : StringTable} (hframes : vm.frames = frame :: rest)
    (hname : NameAt frame k name) (hload : CodeAt frame loadIp (Instr.short .loadProperty k).encode)
    (htop : 0 < vm.stackTop)
    (hobject : (vm.stack (vm.stackTop - 1)).heapObject vm.heap = some (.instance klass fields)) :
    stepAt P loadIp vm = (do loadProperty P klass fields name; return false)
      (vm.goto frame rest (loadIp + 3)) :=
  (stepAt_apply P hframes hload (by decide)).trans
    (VMM.bind_congr (executeLoadProperty_goto P hname (codeAt_tail hload) htop hobject) _)

theorem invokeAgrees : InvokeAgrees P := by
  intro vm frame rest name args ip loadIp callIp k k' hframes hname hname' hcode hload hcall hn htop
    hroom
  have hslot : vm.stackTop + args.length - args.length - 1 = vm.stackTop - 1 := by omega
  have hlt : args.length < ((vm.withArguments args).goto frame rest (ip + 4)).stackTop := by
    change _ < vm.stackTop + args.length
    omega
  have hreceiver : ((vm.withArguments args).goto frame rest (ip + 4)).stack
      (((vm.withArguments args).goto frame rest (ip + 4)).stackTop - args.length - 1) =
        vm.stack (vm.stackTop - 1) := by
    change (vm.withArguments args).stack (vm.stackTop + args.length - args.length - 1) = _
    rw [hslot, withArguments_stack (by omega)]
  rw [invokeOn_apply P hframes hname hcode hn hroom]
  by_cases hinst : ∃ klass fields,
      (vm.stack (vm.stackTop - 1)).heapObject vm.heap = some (.instance klass fields)
  · obtain ⟨klass, fields, hobject⟩ := hinst
    have hinvoke := @invoke_instance P ((vm.withArguments args).goto frame rest (ip + 4)) name _
      klass fields hlt hroom (hreceiver.symm ▸ hobject)
    have hstep := stepAt_loadProperty P hframes hname' hload htop hobject
    have hplain := @loadProperty_apply P (vm.goto frame rest (loadIp + 3)) klass fields name htop
      (by change vm.stackTop ≤ _; omega)
    cases hfield : fields.lookup name with
    | some v =>
        -- both call the value of the field in the slot of the receiver
        rw [hfield] at hinvoke hplain
        have hloaded : stepAt P loadIp vm =
            .done false ((vm.replaceTop 1 v).goto frame rest (loadIp + 3)) :=
          hstep.trans (VMM.bind_of_done hplain _)
        rw [replaceTop_one v htop] at hloaded
        have hcallee : (vm.setSlot (vm.stackTop - 1) v).stack (vm.stackTop - 1) = v := if_pos rfl
        have hcalled := loadAndCall_apply P hloaded hcall hn htop hroom
        rw [show (vm.setSlot (vm.stackTop - 1) v).stackTop - 1 = vm.stackTop - 1 from rfl, hcallee,
          withArguments_setSlot v (by omega)] at hcalled
        rw [hcalled, VMM.bind_congr hinvoke]
        change SameOutcome frame rest (ip + 4) (callIp + 2) ((callValue P v args.length >>= _)
          (((vm.withArguments args).setSlot (vm.stackTop + args.length - args.length - 1) v).goto
            frame rest (ip + 4))) _
        rw [hslot]
        exact sameOutcome_of_frameBlind (callValue P v args.length) _
    | none =>
        -- both look the method up in the class of the instance
        rw [hfield] at hinvoke hplain
        have hmethod := hinvoke.trans (invokeMethod_apply klass name args.length)
        change invoke P name args.length _ =
          match (Value.ofAddr klass).classIn vm.heap with
          | none => _
          | some klass => _ at hmethod
        change loadProperty P klass fields name _ = match (Value.ofAddr klass).classIn vm.heap with
          | none => _
          | some (className, methods) => _ at hplain
        cases hclass : (Value.ofAddr klass).classIn vm.heap with
        | none =>
            rw [hclass] at hmethod hplain
            rw [VMM.bind_of_stopped hmethod]
            unfold loadAndCall
            rw [VMM.bind_of_stopped (hstep.trans (VMM.bind_of_stopped hplain _))]
            exact .stopped rfl ⟨.inl rfl, rfl, rfl, rfl⟩
        | some found =>
            rw [hclass] at hmethod hplain
            rw [VMM.bind_congr hmethod]
            refine sameOutcome_method P hstep ?_ ?_ hcall hn htop hroom
              ⟨⟨.inl rfl, rfl, rfl, rfl⟩, rfl, fun _ _ => rfl, [], rfl, rfl⟩ rfl
            · intro hlookup
              dsimp only at hplain
              rw [hlookup] at hplain
              exact ⟨_, hplain⟩
            · intro method hlookup
              dsimp only at hplain
              rw [hlookup] at hplain
              exact hplain
  · have hother : ∀ klass fields,
        (vm.stack (vm.stackTop - 1)).heapObject vm.heap ≠ some (.instance klass fields) :=
      fun klass fields h => hinst ⟨klass, fields, h⟩
    have hinvoke := @invoke_other P ((vm.withArguments args).goto frame rest (ip + 4)) name _ hlt
      (hreceiver.symm ▸ hother)
    have hplain := (stepAt_apply P hframes hload (by decide)).trans
      (VMM.bind_of_stopped (executeLoadProperty_other P htop hother) _)
    rw [VMM.bind_of_stopped hinvoke]
    unfold loadAndCall
    rw [VMM.bind_of_stopped hplain]
    exact .stopped trivial ⟨.inl rfl, rfl, rfl, rfl⟩

section

variable {vm : VM} {superclass : Value} {name : Bytes}

/-- The machine with a superclass on the stack. -/
def withSuper (vm : VM) (superclass : Value) : VM :=
  { vm.setSlot vm.stackTop superclass with stackTop := vm.stackTop + 1 }

theorem pop_withSuper (vm : VM) (superclass : Value) :
    pop (vm.withSuper superclass) = .done superclass (vm.setSlot vm.stackTop superclass) := by
  change (if vm.stackTop + 1 = 0 then throwException "Stack underflow" else _ : VMM Value)
    (vm.withSuper superclass) = _
  rw [if_neg (Nat.succ_ne_zero _)]
  exact congrArg (fun v => Outcome.done v _) (if_pos rfl)

theorem loadSuper_noClass (h : superclass.classIn vm.heap = none) :
    loadSuper P name (vm.withSuper superclass) =
      .stopped .undefined (vm.setSlot vm.stackTop superclass) := by
  have hclass := classOf_apply superclass (vm.setSlot vm.stackTop superclass)
  rw [show (vm.setSlot vm.stackTop superclass).heap = vm.heap from rfl, h] at hclass
  unfold loadSuper
  exact (VMM.bind_of_done (pop_withSuper vm superclass) _).trans (VMM.bind_of_stopped hclass _)

/-- `LOAD_SUPER` with a superclass above the receiver. -/
theorem loadSuper_class {found : Bytes × StringTable} (h : superclass.classIn vm.heap = some found)
    (htop : 0 < vm.stackTop) :
    loadSuper P name (vm.withSuper superclass) = (match found.2.lookup name with
      | some method => bindMethod P method
      | none => do
        let className ← instanceClassName (vm.stack (vm.stackTop - 1))
        runtimeError ("Runtime Error: Instance of class '" ++ quoted className ++
          "', which is a subclass of class '" ++ quoted found.1 ++ "' has no method '" ++
          quoted name ++ "'")) (vm.setSlot vm.stackTop superclass) := by
  have hclass := classOf_apply superclass (vm.setSlot vm.stackTop superclass)
  rw [show (vm.setSlot vm.stackTop superclass).heap = vm.heap from rfl, h] at hclass
  have hpeek := @peek_of_lt (vm.setSlot vm.stackTop superclass) 0 htop
  have hreceiver : (vm.setSlot vm.stackTop superclass).stack (vm.stackTop - 0 - 1) =
      vm.stack (vm.stackTop - 1) := if_neg (by omega)
  rw [show (vm.setSlot vm.stackTop superclass).stackTop = vm.stackTop from rfl, hreceiver] at hpeek
  unfold loadSuper
  refine (VMM.bind_of_done (pop_withSuper vm superclass) _).trans ?_
  exact (VMM.bind_of_done hclass _).trans (VMM.bind_of_done hpeek _)

/-- The name of the class of an instance. -/
theorem instanceClassName_apply {v : Value} (h : IsInstance vm.heap v) :
    ∃ className, instanceClassName v vm = .done className vm := by
  obtain ⟨klass, fields, className, initMethod, methods, hobject, hklass⟩ := h
  refine ⟨className, ?_⟩
  have hclass := classOf_apply (.ofAddr klass) vm
  unfold Value.classIn at hclass
  rw [heapObject_ofAddr, hklass] at hclass
  unfold instanceClassName
  refine (VMM.bind_of_done (objectOf_apply v vm) _).trans ?_
  rw [hobject]
  exact VMM.bind_of_done hclass _

end

/-- The body of `SUPER_INVOKE` with a superclass on top of the stack. -/
theorem superInvoke_apply {vm : VM} {superclass : Value} {name : Bytes} {n : Nat} :
    (do let superclass ← classOf (← pop); invokeFromClass superclass name n : VMM Unit)
        (vm.withSuper superclass) =
      match superclass.classIn vm.heap with
      | none => .stopped .undefined (vm.setSlot vm.stackTop superclass)
      | some found => invokeFromClass found name n (vm.setSlot vm.stackTop superclass) := by
  have hclass := classOf_apply superclass (vm.setSlot vm.stackTop superclass)
  have hheap : (vm.setSlot vm.stackTop superclass).heap = vm.heap := rfl
  rw [hheap] at hclass
  refine (VMM.bind_of_done (pop_withSuper vm superclass) _).trans ?_
  cases h : superclass.classIn vm.heap with
  | none =>
      rw [h] at hclass
      exact VMM.bind_of_stopped hclass _
  | some found =>
      rw [h] at hclass
      exact VMM.bind_of_done hclass _

theorem superInvokeAgrees : SuperInvokeAgrees P := by
  intro vm frame rest name superclass args ip loadIp callIp k k' hframes hname hname' hcode hload
    hcall hn htop hinst hroom
  -- the plain instructions find the superclass above the receiver, `SUPER_INVOKE` above the arguments
  have hpush : push P superclass vm = .done () (vm.withSuper superclass) := push_apply P (by omega)
  have hpush' : push P superclass (vm.withArguments args) =
      .done () ((vm.withArguments args).withSuper superclass) :=
    push_apply P (by change vm.stackTop + args.length < _; omega)
  have hstep := @stepAt_apply P ((vm.withArguments args).withSuper superclass) frame rest ip
    .superInvoke _ hframes hcode (by decide)
  have hargs : pushAll P args vm = .done () (vm.withArguments args) := pushAll_apply P (by omega)
  have hfast := hstep.trans (VMM.bind_congr (executeSuperInvoke_goto hn hname (codeAt_tail hcode)) _)
  have hstepSuper := (@stepAt_apply P (vm.withSuper superclass) frame rest loadIp .loadSuper _ hframes
    hload (by decide)).trans (VMM.bind_congr (executeLoadSuper_goto P hname' (codeAt_tail hload)) _)
  unfold loadSuperAndCall superInvokeOn
  rw [VMM.bind_of_done hpush, VMM.bind_of_done hargs, VMM.bind_of_done hpush', hfast]
  have hbody := @superInvoke_apply ((vm.withArguments args).goto frame rest (ip + 4)) superclass name
    args.length
  change _ = match superclass.classIn vm.heap with
    | none => _
    | some found => _ at hbody
  cases hclass : superclass.classIn vm.heap with
  | none =>
      rw [hclass] at hbody
      have hplain := @loadSuper_noClass P (vm.goto frame rest (loadIp + 3)) superclass name hclass
      unfold loadAndCall
      rw [VMM.bind_of_stopped (hstepSuper.trans (VMM.bind_of_stopped hplain _))]
      refine (VMM.bind_of_stopped hbody _).symm ▸ ?_
      exact .stopped rfl ⟨.inl rfl, rfl, rfl, rfl⟩
  | some found =>
      rw [hclass] at hbody
      have hplain := @loadSuper_class P (vm.goto frame rest (loadIp + 3)) superclass name found hclass
        htop
      have hstate : SameState frame rest (ip + 4) (callIp + 2)
          (((vm.withArguments args).setSlot (vm.stackTop + args.length) superclass).goto frame rest
            (ip + 4))
          (((vm.setSlot vm.stackTop superclass).withArguments args).goto frame rest (callIp + 2)) := by
        refine ⟨⟨.inl rfl, rfl, rfl, rfl⟩, rfl, fun j hj => ?_, [], rfl, rfl⟩
        change j < vm.stackTop + args.length at hj
        change (if j < vm.stackTop then (if j = vm.stackTop then superclass else vm.stack j) else
            args.getD (j - vm.stackTop) (if j = vm.stackTop then superclass else vm.stack j)) =
          if j = vm.stackTop + args.length then superclass else
            if j < vm.stackTop then vm.stack j else args.getD (j - vm.stackTop) (vm.stack j)
        rw [if_neg (Nat.ne_of_lt hj)]
        split
        · rw [if_neg (by omega)]
        · have hlt : j - vm.stackTop < args.length := by omega
          simp only [List.getD_eq_getElem?_getD, List.getElem?_eq_getElem hlt, Option.getD_some]
      have hagree := @sameOutcome_method P frame rest (ip + 4) (vm.withSuper superclass)
        (vm.setSlot vm.stackTop superclass) _ found name args loadIp callIp (loadIp + 3)
        (hstepSuper.trans (VMM.bind_congr hplain _)) ?_ ?_ hcall hn htop
        (show vm.stackTop + args.length ≤ _ by omega) _ hstate rfl
      · exact (congrArg (fun o => SameOutcome frame rest _ _ o _) (VMM.bind_congr hbody _)).mpr hagree
      · intro hlookup
        obtain ⟨className, hname⟩ := @instanceClassName_apply
          ((vm.setSlot vm.stackTop superclass).goto frame rest (loadIp + 3)) _ hinst
        rw [hlookup]
        exact ⟨_, VMM.bind_of_done hname _⟩
      · intro method hlookup
        rw [hlookup]

/-! ### The safe load -/

theorem loadPropertySafe_apply {vm : VM} {klass : Addr} {fields : StringTable} {name : Bytes}
    (htop : 0 < vm.stackTop) (hcap : vm.stackTop ≤ P.capacity) :
    loadPropertySafe P klass fields name vm = match fields.lookup name with
      | some v => .done () (vm.replaceTop 1 v)
      | none => match (Value.ofAddr klass).classIn vm.heap with
        | none => .stopped .undefined vm
        | some (_, methods) => match methods.lookup name with
          | none => .done () (vm.replaceTop 1 (.nil false))
          | some method => bindMethod P method vm := by
  unfold loadPropertySafe
  cases fields.lookup name with
  | some v => exact pop_push_apply P v htop hcap
  | none =>
      have hclass := classOf_apply (.ofAddr klass) vm
      dsimp only
      cases hc : (Value.ofAddr klass).classIn vm.heap with
      | none =>
          rw [hc] at hclass
          exact VMM.bind_of_stopped hclass _
      | some found =>
          rw [hc] at hclass
          refine (VMM.bind_of_done hclass _).trans ?_
          dsimp only
          cases found.2.lookup name with
          | none => exact pop_push_apply P (.nil false) htop hcap
          | some method => rfl

section

variable {vm : VM} {frame : CallFrame} {rest : List CallFrame} {name : Bytes} {ip k : Nat}

/-- `LOAD_PROPERTY_SAFE` of the instance on top of the stack. -/
theorem stepAt_loadPropertySafe {klass : Addr} {fields : StringTable}
    (hframes : vm.frames = frame :: rest) (hname : NameAt frame k name)
    (hcode : CodeAt frame ip (Instr.short .loadPropertySafe k).encode) (htop : 0 < vm.stackTop)
    (hobject : (vm.stack (vm.stackTop - 1)).heapObject vm.heap = some (.instance klass fields)) :
    stepAt P ip vm = (do loadPropertySafe P klass fields name; return false)
      (vm.goto frame rest (ip + 3)) := by
  have hoperand := codeAt_tail hcode
  rw [← List.append_nil (uint16Bytes k)] at hoperand
  refine (stepAt_apply P hframes hcode (by decide)).trans (VMM.bind_congr ?_ _)
  change executeLoadPropertySafe P _ = _
  unfold executeLoadPropertySafe
  rw [VMM.bind_of_done (peek_top htop)]
  refine (VMM.bind_of_done (objectOf_apply _ _) _).trans ?_
  rw [show (vm.goto frame rest (ip + 1)).heap = vm.heap from rfl, hobject]
  exact VMM.bind_of_done (readConstantLong_name hname hoperand) _

/-- `LOAD_PROPERTY_SAFE` of a value that is no instance. -/
theorem stepAt_loadPropertySafe_other (hframes : vm.frames = frame :: rest)
    (hname : NameAt frame k name)
    (hcode : CodeAt frame ip (Instr.short .loadPropertySafe k).encode) (htop : 0 < vm.stackTop)
    (hcap : vm.stackTop ≤ P.capacity)
    (hother : ∀ klass fields,
      (vm.stack (vm.stackTop - 1)).heapObject vm.heap ≠ some (.instance klass fields)) :
    stepAt P ip vm = .done false ((vm.goto frame rest (ip + 3)).replaceTop 1 (.nil false)) := by
  have hoperand := codeAt_tail hcode
  rw [← List.append_nil (uint16Bytes k)] at hoperand
  have hnil : (do let _ ← readConstantLong; replaceByNil P : VMM Unit) (vm.goto frame rest (ip + 1)) =
      .done () ((vm.goto frame rest (ip + 3)).replaceTop 1 (.nil false)) :=
    (VMM.bind_of_done (readConstantLong_name hname hoperand) _).trans
      (@pop_push_apply P (vm.goto frame rest (ip + 3)) (.nil false) htop hcap)
  refine (stepAt_apply P hframes hcode (by decide)).trans
    ((VMM.bind_congr ?_ _).trans (VMM.bind_of_done hnil _))
  change executeLoadPropertySafe P _ = _
  unfold executeLoadPropertySafe
  rw [VMM.bind_of_done (peek_top htop)]
  refine (VMM.bind_of_done (objectOf_apply _ _) _).trans ?_
  rw [show (vm.goto frame rest (ip + 1)).heap = vm.heap from rfl]
  cases ho : (vm.stack (vm.stackTop - 1)).heapObject vm.heap with
  | none => rfl
  | some o =>
      cases o with
      | «instance» klass fields => exact absurd ho (hother klass fields)
      | _ => rfl

end

theorem stepAt_safe {vm : VM} {frame : CallFrame} {rest : List CallFrame} {name : Bytes}
    {ip loadIp k k' : Nat} (hframes : vm.frames = frame :: rest) (hname : NameAt frame k name)
    (hname' : NameAt frame k' name)
    (hcode : CodeAt frame ip (Instr.short .loadPropertySafe k).encode)
    (hload : CodeAt frame loadIp (Instr.short .loadProperty k').encode)
    (htop : 0 < vm.stackTop) (hcap : vm.stackTop ≤ P.capacity) :
    stepAt P ip vm = safeOutcome vm frame rest (ip + 3) (stepAt P loadIp vm) := by
  by_cases hinst : ∃ klass fields,
      (vm.stack (vm.stackTop - 1)).heapObject vm.heap = some (.instance klass fields)
  · obtain ⟨klass, fields, hobject⟩ := hinst
    have hsafe := @loadPropertySafe_apply P (vm.goto frame rest (ip + 3)) klass fields name htop hcap
    have hplain := @loadProperty_apply P (vm.goto frame rest (loadIp + 3)) klass fields name htop hcap
    rw [stepAt_loadPropertySafe P hframes hname hcode htop hobject,
      stepAt_loadProperty P hframes hname' hload htop hobject]
    cases hfield : fields.lookup name with
    -- a field: both replace the instance by its value
    | some v =>
        rw [hfield] at hsafe hplain
        rw [VMM.bind_of_done hsafe, VMM.bind_of_done hplain]
        rfl
    | none =>
        rw [hfield] at hsafe hplain
        change loadPropertySafe P klass fields name _ =
          match (Value.ofAddr klass).classIn vm.heap with
          | none => _
          | some (_, methods) => _ at hsafe
        change loadProperty P klass fields name _ = match (Value.ofAddr klass).classIn vm.heap with
          | none => _
          | some (className, methods) => _ at hplain
        cases hclass : (Value.ofAddr klass).classIn vm.heap with
        | none =>
            rw [hclass] at hsafe hplain
            rw [VMM.bind_of_stopped hsafe, VMM.bind_of_stopped hplain]
            rfl
        | some found =>
            rw [hclass] at hsafe hplain
            dsimp only at hsafe hplain
            cases hlookup : found.2.lookup name with
            | none =>
                rw [hlookup] at hsafe hplain
                -- the only difference: nil where the plain load reports an error
                rw [VMM.bind_of_done hsafe, VMM.bind_of_stopped hplain]
                rfl
            | some method =>
                rw [hlookup] at hsafe hplain
                have hsafe := hsafe.trans (bindMethod_apply P method htop hcap)
                have hplain := hplain.trans (bindMethod_apply P method htop hcap)
                change _ = match method.closureIn vm.heap with
                  | some closure => _
                  | none => _ at hsafe hplain
                cases hclosure : method.closureIn vm.heap with
                | none =>
                    rw [hclosure] at hsafe hplain
                    rw [VMM.bind_of_stopped hsafe, VMM.bind_of_stopped hplain]
                    rfl
                | some closure =>
                    rw [hclosure] at hsafe hplain
                    rw [VMM.bind_of_done hsafe, VMM.bind_of_done hplain]
                    rfl
  -- anything but an instance is an error of the plain load
  · have hother : ∀ klass fields,
        (vm.stack (vm.stackTop - 1)).heapObject vm.heap ≠ some (.instance klass fields) :=
      fun klass fields h => hinst ⟨klass, fields, h⟩
    rw [stepAt_loadPropertySafe_other P hframes hname hcode htop hcap hother,
      (stepAt_apply P hframes hload (by decide)).trans
        (VMM.bind_of_stopped (executeLoadProperty_other P htop hother) _)]
    rfl

theorem safeOutcome_ne {vm : VM} {frame : CallFrame} {rest : List CallFrame} {ip : Nat}
    (o : Outcome Bool) (message : Option String) (vm' : VM) :
    safeOutcome vm frame rest ip o ≠ .stopped (.runtimeError message) vm' := by
  cases o with
  | done b vm => nofun
  | stopped i vm => cases i <;> nofun

theorem loadPropertySafeAgrees : LoadPropertySafeAgrees P := by
  intro vm frame rest name ip loadIp k k' hframes hname hname' hcode hload htop hcap
  have h := stepAt_safe P hframes hname hname' hcode hload htop hcap
  exact ⟨h, fun message vm' => h ▸ safeOutcome_ne _ message vm'⟩

/-- **The fast paths agree with the plain ones**: `INVOKE` and `SUPER_INVOKE` up to the bound
methods that the plain instructions allocate, and `LOAD_PROPERTY_SAFE` up to the errors that it
replaces by nil.  The lookups are written out in each of the instructions, fields before methods and
the class before its constructor, and the frame that is entered sees its caller only through
`return` (`FrameBlind`), so that the two callers may stand at different instructions. -/
theorem propertyPaths_agree : InvokeAgrees P ∧ SuperInvokeAgrees P ∧ LoadPropertySafeAgrees P :=
  ⟨invokeAgrees P, superInvokeAgrees P, loadPropertySafeAgrees P⟩

/-- A method `m` of one parameter. -/
def methodFunction : ObjectFunction :=
  ⟨1, 1, 0, [109], encodeAll [.op .nil, .op .return], [], []⟩

/-- A function with the instructions that load and call `m`: the fast ones at the offsets 0 and 9, the
plain ones at 4, 13 and 7. -/
def invokingFrame : CallFrame :=
  ⟨3, ⟨0, 0, 0, [], encodeAll [.shortByte .invoke 0 1, .short .loadProperty 0, .byte .call 1,
    .shortByte .superInvoke 0 1, .short .loadSuper 0], [.string [109]], []⟩, 0, 0⟩

/-- A machine with an instance of a class that has the method on its stack. -/
def invokingVM : VM :=
  { VM.initial with
    stack := fun _ => .ofAddr 0
    stackTop := 1
    frames := [invokingFrame]
    heap := [.instance 1 [], .class [65] (.nil false) [([109], .ofAddr 2)],
      .closure methodFunction []] }

/-- `INVOKE` and `SUPER_INVOKE` enter the method, as the plain instructions do. -/
theorem propertyPaths_agree_method :
    (∃ vm, invokeOn barePlatform [.integer 1] 0 invokingVM = .done false vm ∧ vm.frames.length = 2) ∧
    SameOutcome invokingFrame [] 4 9 (invokeOn barePlatform [.integer 1] 0 invokingVM)
      (loadAndCall barePlatform [.integer 1] 4 7 invokingVM) ∧
    (∃ vm, superInvokeOn barePlatform (.ofAddr 1) [.integer 1] 9 invokingVM = .done false vm ∧
      vm.frames.length = 2) ∧
    SameOutcome invokingFrame [] 13 9
      (superInvokeOn barePlatform (.ofAddr 1) [.integer 1] 9 invokingVM)
      (loadSuperAndCall barePlatform (.ofAddr 1) [.integer 1] 13 7 invokingVM) := by
  obtain ⟨hinvoke, hsuper, -⟩ := propertyPaths_agree barePlatform
  have hname : NameAt invokingFrame 0 [109] := ⟨by decide, rfl⟩
  have hcode : ∀ ip bytes, List.isPrefixOf bytes (invokingFrame.function.code.drop ip) = true →
      CodeAt invokingFrame ip bytes := fun _ _ h => List.isPrefixOf_iff_prefix.mp h
  have hinst : IsInstance invokingVM.heap (invokingVM.stack (invokingVM.stackTop - 1)) :=
    ⟨1, [], [65], .nil false, [([109], .ofAddr 2)], rfl, rfl⟩
  refine ⟨⟨_, rfl, rfl⟩, ?_, ⟨_, rfl, rfl⟩, ?_⟩
  · exact hinvoke invokingVM invokingFrame [] [109] [.integer 1] 0 4 7 0 0 rfl hname hname
      (hcode _ _ rfl) (hcode _ _ rfl) (hcode _ _ rfl) (by decide) (by decide) (by decide)
  · exact hsuper invokingVM invokingFrame [] [109] (.ofAddr 1) [.integer 1] 9 13 7 0 0 rfl hname hname
      (hcode _ _ rfl) (hcode _ _ rfl) (hcode _ _ rfl) (by decide) (by decide) hinst (by decide)

end VM

end CppLox
