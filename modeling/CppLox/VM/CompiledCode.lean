import CppLox.Bytecode.Disassembler
import CppLox.Bytecode.Lines
import CppLox.VM.Boundaries

/-!
# Virtual machine — compiled code

A machine whose closures are of compiled functions is at the start of an instruction in its current
frame, and right after a call in every frame below.
-/

namespace CppLox

open VMM Disassembler

namespace VM

variable {f : ObjectFunction} {is : List Instr}

/-! ### Where the machine starts an instruction -/

theorem operandAt_of_readU16Le {offset n : Nat} (h : readU16Le f offset = some n) :
    OperandAt f.code offset n := by
  simp only [readU16Le, readU8Le, Option.bind_eq_bind, Option.bind_eq_some_iff, Option.map_eq_some_iff,
    Option.pure_def, Option.some.injEq] at h
  obtain ⟨_, ⟨low, hlow, rfl⟩, _, ⟨high, hhigh, rfl⟩, rfl⟩ := h
  exact ⟨low, high, hlow, hhigh, rfl⟩

theorem operandBytes_of_operands (i : Instr) {op : OpCode} (h : op.operands = some i.operands)
    (hclosure : op ≠ .closure) : 1 + operandBytes op = i.size := by
  cases i <;> cases op <;> first | exact absurd rfl hclosure | rfl | cases h

/-- The machine reads the bytes of an instruction that fits. -/
theorem operandBytesAt_of_code {i : Instr} (pre : List UInt8) {bytes : List UInt8}
    (hfits : i.Fits f.constants) (h : f.code = pre ++ (i.encode ++ bytes)) :
    pre.length + 1 + operandBytesAt f pre.length i.opcode = pre.length + i.size := by
  by_cases hclosure : i.opcode = .closure
  · have hoperands := hfits.operands
    rw [hclosure] at hoperands
    cases i with
    | closure k U =>
        obtain ⟨hk, g, hg, hcount⟩ := hfits
        have hread := readU16Le_of_code (pre ++ [OpCode.closure.toByte]) k
          (U.flatMap Instr.captureBytes ++ bytes) (by rw [h]; simp [Instr.encode])
        rw [List.length_append, List.length_singleton, Nat.mod_eq_of_lt (by omega)] at hread
        simp only [operandBytesAt, Instr.opcode, Instr.size,
          functionAt_of_operandAt (operandAt_of_readU16Le hread) hg, hcount]
        omega
    | op o => cases hoperands
    | byte o b => cases hoperands
    | short o n => cases hoperands
    | shortByte o n b => cases hoperands
  · have hbytes : operandBytesAt f pre.length i.opcode = operandBytes i.opcode := by
      unfold operandBytesAt
      split
      · exact absurd ‹_› hclosure
      · rfl
    rw [hbytes, Nat.add_assoc, operandBytes_of_operands i hfits.operands hclosure]

theorem getElem?_code {a b : List Instr} {i : Instr} (h : f.code = encodeAll (a ++ i :: b)) :
    f.code[codeSize a]? = some i.opcode.toByte := by
  obtain ⟨bytes, hbytes⟩ := i.encode_eq
  rw [h, encodeAll_append, encodeAll_cons, hbytes, ← length_encodeAll]
  simp

/-- The machine starts an instruction where one is encoded. -/
theorem boundary_iff (hfits : ∀ i ∈ is, i.Fits f.constants) (h : f.code = encodeAll is) {o : Nat} :
    Boundary f o ↔ o ∈ cuts 0 is := by
  have hnext : ∀ {a b : List Instr} {i : Instr}, is = a ++ i :: b →
      f.code[codeSize a]? = some i.opcode.toByte ∧
        codeSize a + 1 + operandBytesAt f (codeSize a) i.opcode = codeSize (a ++ [i]) := by
    intro a b i his
    rw [his] at h
    refine ⟨getElem?_code h, ?_⟩
    rw [encodeAll_append, encodeAll_cons] at h
    have hsize := operandBytesAt_of_code (encodeAll a) (hfits i (by simp [his])) h
    rw [length_encodeAll] at hsize
    rw [hsize, codeSize_append]
    rfl
  constructor
  · intro ho
    induction ho with
    | start => exact start_mem_cuts 0 is
    | @next offset op ho hop ih =>
        obtain ⟨a, b, his, rfl⟩ := mem_cuts_iff.mp ih
        rw [Nat.zero_add] at hop ⊢
        cases b with
        | nil =>
            -- no instruction starts at the end
            rw [h, his, List.append_nil, ← length_encodeAll,
              List.getElem?_eq_none (Nat.le_refl _)] at hop
            cases hop
        | cons i b =>
            obtain ⟨hbyte, hsize⟩ := hnext his
            rw [hbyte] at hop
            rw [← OpCode.toByte_injective (Option.some.inj hop), hsize]
            exact mem_cuts_iff.mpr ⟨a ++ [i], b, by simpa using his, (Nat.zero_add _).symm⟩
  · intro ho
    obtain ⟨a, b, his, rfl⟩ := mem_cuts_iff.mp ho
    rw [Nat.zero_add]
    clear ho
    induction a using List.reverseRecOn generalizing b with
    | nil => exact .start
    | append_singleton a i ih =>
        have his' : is = a ++ i :: b := by rw [his, List.append_assoc, List.singleton_append]
        obtain ⟨hbyte, hsize⟩ := hnext his'
        rw [← hsize]
        exact .next (ih _ his') hbyte

/-- A jump has the operand that is encoded. -/
theorem jump_of_code {i : Instr} (pre : List UInt8) {bytes : List UInt8}
    (hfits : i.Fits f.constants) (hjump : i.opcode.isJump = true)
    (h : f.code = pre ++ (i.encode ++ bytes)) :
    ∃ n, i = .short i.opcode n ∧ readU16Le f (pre.length + 1) = some (n % 0x10000) := by
  have hoperands := hfits.operands
  rw [operands_of_isJump hjump] at hoperands
  cases i with
  | short o n =>
      have hread := readU16Le_of_code (pre ++ [o.toByte]) n bytes
        (by rw [h]; simp [Instr.encode])
      rw [List.length_append, List.length_singleton] at hread
      exact ⟨n, rfl, hread⟩
  | op o => cases hoperands
  | byte o b => cases hoperands
  | shortByte o n b => cases hoperands
  | closure k U => cases hoperands

theorem jumpTarget_of_jumpsTo {op : OpCode} {S : Nat → Prop} {p n : Nat} (hjump : op.isJump = true)
    (h : (Instr.short op n).JumpsTo S p) :
    n ≤ 0xFFFF ∧ S (jumpTarget op (p + 3) n) ∧
      ((jumpTarget op (p + 3) n : Nat) : Int) =
        ((p + 3 : Nat) : Int) + (if op = .jumpBackward then -1 else 1) * (n : Int) := by
  obtain ⟨hn, htarget⟩ := h hjump
  unfold jumpTarget
  split at htarget
  · rename_i hback
    obtain ⟨hle, hS⟩ := htarget
    rw [if_pos hback, if_pos hback]
    exact ⟨hn, hS, by omega⟩
  · rename_i hback
    rw [if_neg hback, if_neg hback]
    exact ⟨hn, htarget, by omega⟩

/-! ### Compiled functions -/

/-- The instruction at a boundary of a compiled function. -/
theorem exists_instr (h : Compiled f) {p : Nat} {op : OpCode} (hp : Boundary f p)
    (hop : f.code[p]? = some op.toByte) : ∃ (a b : List Instr) (i : Instr) (lines : List Int32),
      f.code = encodeAll (a ++ i :: b) ∧ WellFormedCode f.constants (a ++ i :: b) ∧
      lines.length = (a ++ i :: b).length ∧
      f.lines = Chunk.addLines [] 0 (lineBlocks (a ++ i :: b) lines) ∧ p = codeSize a ∧
      i.opcode = op := by
  cases h with
  | intro is lines code wellFormed length table functions =>
      obtain ⟨a, b, rfl, hcut⟩ := mem_cuts_iff.mp ((boundary_iff wellFormed.fits code).mp hp)
      rw [Nat.zero_add] at hcut
      subst hcut
      cases b with
      | nil =>
          -- no instruction starts at the end
          rw [code, List.append_nil, ← length_encodeAll, List.getElem?_eq_none (Nat.le_refl _)] at hop
          cases hop
      | cons i b =>
          rw [getElem?_code code] at hop
          exact ⟨a, b, i, lines, code, wellFormed, length, table, rfl,
            OpCode.toByte_injective (Option.some.inj hop)⟩

/-- A jump ends where an instruction starts. -/
theorem boundary_jumpTarget (h : Compiled f) {p n : Nat} {op : OpCode} (hp : Boundary f p)
    (hop : f.code[p]? = some op.toByte) (hjump : op.isJump = true) (hn : OperandAt f.code (p + 1) n) :
    Boundary f (jumpTarget op (p + 3) n) := by
  obtain ⟨a, b, i, lines, code, wellFormed, -, -, rfl, rfl⟩ := exists_instr h hp hop
  have hfits := wellFormed.fits i (by simp)
  have hjumps := wellFormed.jumps.jumpsTo.mono fun t ht =>
    (boundary_iff wellFormed.fits code).mpr ht
  have hcode := code
  rw [encodeAll_append, encodeAll_cons] at hcode
  obtain ⟨k, hi, hread⟩ := jump_of_code (encodeAll a) hfits hjump hcode
  rw [hi] at hjumps
  obtain ⟨hk, htarget, -⟩ := jumpTarget_of_jumpsTo hjump hjumps
  rw [Nat.mod_eq_of_lt (by omega), length_encodeAll] at hread
  rwa [hn.unique (operandAt_of_readU16Le hread)]

/-- All bytes of an instruction have one line. -/
theorem getLineNumber_eq (h : Compiled f) (hsize : f.code.length < 2 ^ 31) {p k : Nat} {op : OpCode}
    (hp : Boundary f p) (hop : f.code[p]? = some op.toByte) (hk : k ≤ operandBytesAt f p op) :
    Chunk.getLineNumber f (p + k : Nat) = Chunk.getLineNumber f p := by
  obtain ⟨a, b, i, lines, code, wellFormed, length, table, rfl, rfl⟩ := exists_instr h hp hop
  have hcode := code
  rw [encodeAll_append, encodeAll_cons] at hcode
  have hbytes := operandBytesAt_of_code (encodeAll a) (wellFormed.fits i (by simp)) hcode
  rw [length_encodeAll] at hbytes
  refine getLineNumber_of_code table length ?_ (by omega)
  rwa [code, length_encodeAll] at hsize

/-! ### Closures of compiled functions -/

/-- The closures are ones from before, or of compiled functions. -/
def AddsCompiled (vm vm' : VM) : Prop :=
  ∀ (a : Addr) function upvalues, vm'.heap[a]? = some (HeapObject.closure function upvalues) →
    Compiled function ∨
      ∃ upvalues', vm.heap[a]? = some (HeapObject.closure function upvalues')

/-- Every closure is of a compiled function. -/
def ClosuresCompiled (vm : VM) : Prop :=
  ∀ (a : Addr) function upvalues, vm.heap[a]? = some (HeapObject.closure function upvalues) →
    Compiled function

theorem AddsCompiled.closuresCompiled {vm vm' : VM} (h : AddsCompiled vm vm')
    (hvm : ClosuresCompiled vm) : ClosuresCompiled vm' := by
  intro a function upvalues ha
  rcases h a function upvalues ha with hcompiled | ⟨upvalues', ha⟩
  · exact hcompiled
  · exact hvm a function upvalues' ha

/-- Objects that are no closures are added. -/
theorem AddsCompiled.of_adds {vm vm' : VM}
    (h : vm.heap.Adds (fun object => !object.isClosure) vm'.heap) : AddsCompiled vm vm' :=
  fun a _ upvalues ha => .inr ⟨upvalues, h a _ ha rfl⟩

theorem AddsCompiled.of_heap {vm vm' : VM} (h : vm'.heap = vm.heap) : AddsCompiled vm vm' :=
  fun _ _ upvalues ha => .inr ⟨upvalues, h ▸ ha⟩

instance : Undisturbed AddsCompiled where
  refl _ := .of_heap rfl
  trans h h' a function upvalues ha := by
    rcases h' a function upvalues ha with hcompiled | ⟨upvalues', ha⟩
    · exact .inl hcompiled
    · exact h a function upvalues' ha
  stack _ _ _ := .of_heap rfl
  heap _ _ hplain _ _ upvalues ha := .inr ⟨upvalues, hplain _ _ ha rfl⟩
  output _ _ := .of_heap rfl
  ip _ _ _ _ _ := .of_heap rfl
  call _ _ := .of_heap rfl

instance : IndifferentGlobals AddsCompiled where
  global _ _ _ _ := .of_heap rfl

instance : IndifferentMethods AddsCompiled where
  methods _ _ _ _ _ := .of_adds (.set rfl)

instance : IndifferentReturns AddsCompiled where
  pop _ := .of_heap rfl

instance : IndifferentUpvalues AddsCompiled :=
  indifferentUpvalues_of (fun _ _ => .of_adds (.append rfl)) fun _ _ => .of_heap rfl

/-- A closure that keeps its function. -/
theorem addsCompiled_setClosure {vm : VM} {a : Addr} {function : ObjectFunction}
    {upvalues : List (Option Addr)} (h : vm.heap[a]? = some (HeapObject.closure function upvalues))
    (upvalues' : List (Option Addr)) :
    AddsCompiled vm { vm with heap := vm.heap.set a (.closure function upvalues') } := by
  intro b function' captured hb
  by_cases hab : a = b
  · subst hab
    rw [List.getElem?_set_self (List.getElem?_eq_some_iff.mp h).1] at hb
    cases hb
    exact .inr ⟨upvalues, h⟩
  · rw [List.getElem?_set_ne hab] at hb
    exact .inr ⟨captured, hb⟩

instance (closure : Addr) (n i : Nat) : Preserves AddsCompiled (captureAll closure n i) := by
  induction n generalizing i with
  | zero =>
      unfold captureAll
      infer_instance
  | succ n ih =>
      unfold captureAll
      refine .bind inferInstance fun isLocal => .bind inferInstance fun index =>
        .bind inferInstance fun a => ⟨fun vm => ?_⟩
      cases hclosure : vm.heap[closure]? with
      | none =>
          rw [VMM.bind_of_stopped ((objectAt_apply closure vm).trans (by rw [hclosure]))]
          exact .of_heap rfl
      | some object =>
          rw [VMM.bind_of_done ((objectAt_apply closure vm).trans (by rw [hclosure]))]
          cases object with
          | closure function upvalues =>
              exact Indifferent.trans (addsCompiled_setClosure hclosure _) ((ih (i + 1)).rel _)
          | _ => exact .of_heap rfl

theorem preserves_newClosure (hf : Compiled f) : Preserves AddsCompiled (newClosure f) := by
  refine ⟨fun vm a function upvalues ha => ?_⟩
  change (vm.heap ++ [HeapObject.closure f (List.replicate f.upvalueCount none)])[a]? = _ at ha
  rcases Nat.lt_trichotomy a vm.heap.length with hlt | rfl | hgt
  · rw [List.getElem?_append_left hlt] at ha
    exact .inr ⟨upvalues, ha⟩
  · rw [List.getElem?_append_right (Nat.le_refl _), Nat.sub_self] at ha
    cases ha
    exact .inl hf
  · rw [List.getElem?_eq_none (by rw [List.length_append, List.length_singleton]; omega)] at ha
    cases ha

variable (P : Platform)

theorem preserves_start (hf : Compiled f) : Preserves AddsCompiled (start P f) := by
  have := preserves_newClosure hf
  unfold start
  infer_instance

/-- The functions among the constants of a compiled function are compiled. -/
theorem executeClosure_addsCompiled {vm : VM} {frame : CallFrame} {rest : List CallFrame}
    (hframes : vm.frames = frame :: rest) (hf : Compiled frame.function) :
    AddsCompiled vm (executeClosure P vm).vm := by
  change AddsCompiled vm ((readConstantLong >>= _) vm).vm
  cases hread : readConstantLong vm with
  | stopped i vm₁ =>
      rw [VMM.bind_of_stopped hread]
      exact (inferInstance : Preserves AddsCompiled readConstantLong).stopped hread
  | done v vm₁ =>
      rw [VMM.bind_of_done hread]
      obtain ⟨k, c, -, hc, rfl, -⟩ := readConstantLong_done hframes hread
      refine Indifferent.trans
        ((inferInstance : Preserves AddsCompiled readConstantLong).done hread) ?_
      cases c with
      | function g =>
          have hg : Compiled g := by
            cases hf with
            | intro is lines code wellFormed length table functions =>
                exact functions g (List.mem_of_getElem? hc)
          have := preserves_newClosure hg
          have hmake : Preserves AddsCompiled (makeClosure P (.object (.function g))) := by
            unfold makeClosure
            infer_instance
          exact hmake.rel vm₁
      | _ => exact Indifferent.refl _

/-- The closures after an instruction, whether it ends or is stopped. -/
theorem step_addsCompiled {vm : VM}
    (hcurrent : ∀ frame ∈ vm.frames.head?, Compiled frame.function) :
    AddsCompiled vm (step P vm).vm := by
  obtain ⟨i, vm₁, hread, ho⟩ | ⟨byte, vm₁, hread, hrest⟩ :=
    step_cases P (rfl : step P vm = _)
  · rw [ho]
    exact (inferInstance : Preserves AddsCompiled readByte).stopped hread
  have hbyte := (inferInstance : Preserves AddsCompiled readByte).done hread
  have hexecute : ∀ op, AddsCompiled vm₁ (execute P op vm₁).vm := by
    intro op
    by_cases hclosure : op = .closure
    · subst hclosure
      obtain ⟨frame, rest, hframes⟩ := frames_of_readByte hread
      obtain ⟨-, rfl⟩ := readByte_done hframes hread
      exact executeClosure_addsCompiled P rfl (hcurrent frame (by rw [hframes]; rfl))
    · by_cases hclose : op = .closeUpvalue
      · subst hclose
        exact (inferInstance : Preserves AddsCompiled (executeCloseUpvalue P)).rel vm₁
      · exact (preserves_execute_of_ne P hclosure hclose).rel vm₁
  refine Indifferent.trans hbyte ?_
  obtain ⟨-, ho⟩ | ⟨-, ho⟩ | ⟨op, -, -, ⟨vm₂, hrun, ho⟩ | ⟨i, vm₂, hrun, ho⟩⟩ := hrest
  · rw [ho]
    exact Indifferent.refl _
  · rw [← ho]
    exact (inferInstance : Preserves AddsCompiled (executeReturn P)).rel vm₁
  · have := hexecute op
    rw [hrun] at this
    rw [ho]
    exact this
  · have := hexecute op
    rw [hrun] at this
    rw [ho]
    exact this

/-! ### Frames of compiled functions -/

/-- The call a frame below the current one waits for: the one that ends at its `ip`. -/
structure PendingCall (frame : CallFrame) (offset : Nat) : Prop where
  boundary : Boundary frame.function offset
  call : ∃ op ∈ calls, frame.function.code[offset]? = some op.toByte ∧
    frame.ip = offset + 1 + operandBytes op

/-- The current frame is at the start of an instruction, and each one below waits for a call. -/
def Aligned : List CallFrame → Prop
  | [] => True
  | frame :: rest => (Compiled frame.function ∧ Boundary frame.function frame.ip) ∧
    ∀ below ∈ rest, Compiled below.function ∧ ∃ offset, PendingCall below offset

/-- A machine that runs compiled code. -/
structure RunsCompiled (vm : VM) : Prop where
  closures : ClosuresCompiled vm
  frames : Aligned vm.frames

theorem RunsCompiled.current {vm : VM} (h : RunsCompiled vm) :
    ∀ frame ∈ vm.frames.head?, Compiled frame.function := by
  intro frame hframe
  obtain ⟨rest, hframes⟩ := List.head?_eq_some_iff.mp hframe
  have haligned := h.frames
  rw [hframes] at haligned
  exact haligned.1.1

theorem operandBytesAt_of_mem_calls {op : OpCode} (h : op ∈ calls) (f : ObjectFunction)
    (offset : Nat) : operandBytesAt f offset op = operandBytes op := by
  simp only [calls, List.mem_cons, List.not_mem_nil, or_false] at h
  rcases h with rfl | rfl | rfl <;> rfl

/-- A frame goes on after the call it waits for. -/
theorem PendingCall.next {frame : CallFrame} {offset : Nat} (h : PendingCall frame offset) :
    Boundary frame.function frame.ip := by
  obtain ⟨op, hcall, hop, hip⟩ := h.call
  have := h.boundary.next hop
  rwa [operandBytesAt_of_mem_calls hcall, ← hip] at this

theorem operandBytesAt_of_isJump {op : OpCode} (h : op.isJump = true) (f : ObjectFunction)
    (offset : Nat) : operandBytesAt f offset op = 2 := by
  cases op <;> first | rfl | cases h

/-- The frames after an instruction after which the script goes on or ends. -/
theorem step_aligned {vm vm' : VM} {b : Bool} (hvm : RunsCompiled vm)
    (hclosures : ClosuresCompiled vm') (h : step P vm = .done b vm') : Aligned vm'.frames := by
  obtain ⟨op, frame, rest, hframes, hop⟩ := opAt_of_step_done P h
  have haligned := hvm.frames
  rw [hframes] at haligned
  obtain ⟨⟨hcompiled, hboundary⟩, hbelow⟩ := haligned
  have hframes' := step_frames P hframes hop h
  split at hframes'
  · -- the frame below goes on after its call
    rw [hframes']
    cases rest with
    | nil => trivial
    | cons below rest =>
        obtain ⟨hcompiled', offset, hpending⟩ := hbelow below List.mem_cons_self
        exact ⟨⟨hcompiled', hpending.next⟩, fun f hf => hbelow f (List.mem_cons_of_mem _ hf)⟩
  · split at hframes'
    · rename_i hjump
      obtain ⟨n, hn, -, hframes'⟩ := hframes'
      rw [hframes']
      refine ⟨⟨hcompiled, ?_⟩, hbelow⟩
      dsimp only
      split
      · exact boundary_jumpTarget hcompiled hboundary hop hjump hn
      · have := hboundary.next hop
        rwa [operandBytesAt_of_isJump hjump] at this
    · obtain ⟨pushed, hcall, hentered, hframes'⟩ := hframes'
      rw [hframes']
      rcases hentered with rfl | ⟨a, function, upvalues, slots, ha, rfl⟩
      · exact ⟨⟨hcompiled, hboundary.next hop⟩, hbelow⟩
      · -- the current frame waits for the call
        have hcall := hcall.resolve_left (List.cons_ne_nil _ _)
        refine ⟨⟨hclosures a function upvalues ha, .start⟩, fun f hf => ?_⟩
        rcases List.mem_cons.mp hf with rfl | hf
        · exact ⟨hcompiled, frame.ip, hboundary, op, hcall, hop,
            by rw [operandBytesAt_of_mem_calls hcall]⟩
        · exact hbelow f hf

theorem step_runsCompiled {vm vm' : VM} {b : Bool} (hvm : RunsCompiled vm)
    (h : step P vm = .done b vm') : RunsCompiled vm' := by
  have hadds := step_addsCompiled P hvm.current
  rw [h] at hadds
  have hclosures := hadds.closuresCompiled hvm.closures
  exact ⟨hclosures, step_aligned P hvm hclosures h⟩

theorem Steps.runsCompiled {vm vm' : VM} (h : Steps P vm vm') (hvm : RunsCompiled vm) :
    RunsCompiled vm' := by
  induction h with
  | refl => exact hvm
  | tail _ hstep ih => exact step_runsCompiled P ih hstep

/-- A script that is called on a machine without frames. -/
theorem start_runsCompiled {vm vm' : VM} (hf : Compiled f) (hclosures : ClosuresCompiled vm)
    (hframes : vm.frames = []) (h : start P f vm = .done () vm') : RunsCompiled vm' := by
  refine ⟨((preserves_start P hf).done h).closuresCompiled hclosures, ?_⟩
  obtain ⟨_, vm₁, h₁, h⟩ := VMM.bind_done.mp h
  obtain ⟨a, vm₂, h₂, h⟩ := VMM.bind_done.mp h
  obtain ⟨_, vm₃, h₃, h⟩ := VMM.bind_done.mp h
  obtain ⟨_, vm₄, h₄, h⟩ := VMM.bind_done.mp h
  have e₁ := push_done P h₁
  have e₂ := (allocate_done h₂).2
  have e₃ := (pop_done h₃).2.2
  have e₄ := push_done P h₄
  have hframes₄ : vm₄.frames = [] := by
    rw [e₄, e₃, e₂, e₁]
    exact hframes
  rw [call_done h, hframes₄]
  exact ⟨⟨hf, .start⟩, nofun⟩

end VM

end CppLox
