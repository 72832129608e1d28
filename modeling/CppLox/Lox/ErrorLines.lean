import CppLox.Compiler.ProgramCode
import CppLox.Lox.ControlState
import CppLox.VM.CompiledCode
import CppLox.VM.Reports

/-!
# Lox — the lines of a runtime error

The stack trace takes the line of the last byte a frame has read, which is the line of the
instruction that fails or of the call the frame waits for.  The message takes the line of the byte
after it: when the operands are read, that is the line of the next instruction.
-/

namespace CppLox

open VMM

namespace VM

/-- The line of the instruction a frame is at. -/
def currentLine (frame : CallFrame) : Int32 := Chunk.getLineNumber frame.function frame.ip

/-- The line of the call a frame waits for. -/
def PendingLine (frame : CallFrame) (line : Int32) : Prop :=
  ∃ offset, PendingCall frame offset ∧ line = Chunk.getLineNumber frame.function offset

/-- The entries of the stack trace have the lines of the instruction the machine is at and of the
pending calls. -/
def TraceAttributed (vm : VM) (report : ErrorReport) : Prop :=
  ∃ frame rest lines, vm.frames = frame :: rest ∧
    report.stackTrace.map Prod.fst = currentLine frame :: lines ∧ List.Forall₂ PendingLine rest lines

/-- The message has the line of the instruction the machine is at. -/
def MessageAttributed (vm : VM) (report : ErrorReport) : Prop :=
  ∃ frame rest, vm.frames = frame :: rest ∧ report.line = currentLine frame

/-- An error is attributed to the instruction the machine is at. -/
def Attributed (vm : VM) (report : ErrorReport) : Prop :=
  MessageAttributed vm report ∧ TraceAttributed vm report

/-- An access to a property of a value that is no instance. -/
def AccessesNoInstance (vm : VM) (op : OpCode) : Prop :=
  op = .loadProperty ∧ vm.isInstanceAt 0 = false ∨ op = .storeProperty ∧ vm.isInstanceAt 1 = false

/-- The instruction the machine is at accesses a property of a value that is no instance, or the one
after it has its line. -/
def NextOnLine (vm : VM) : Prop :=
  ∃ frame rest op, vm.frames = frame :: rest ∧
    frame.function.code[frame.ip]? = some (OpCode.toByte op) ∧
    (AccessesNoInstance vm op ∨ Chunk.getLineNumber frame.function
      (frame.ip + 1 + operandBytes op : Nat) = currentLine frame)

/-- The offsets of the code of every frame fit `int`. -/
def OffsetsFit (vm : VM) : Prop := ∀ frame ∈ vm.frames, frame.function.code.length < 2 ^ 31

theorem operandsRead_of_accessesNoInstance {vm : VM} {op : OpCode} (h : AccessesNoInstance vm op) :
    operandsRead vm op = 0 ∧ operandBytes op = 2 := by
  rcases h with ⟨rfl, h⟩ | ⟨rfl, h⟩
  · exact ⟨if_neg (by rw [h]; nofun), rfl⟩
  · exact ⟨if_neg (by rw [h]; nofun), rfl⟩

theorem operandsRead_of_not {vm : VM} {op : OpCode} (h : ¬ AccessesNoInstance vm op) :
    operandsRead vm op = operandBytes op := by
  unfold operandsRead
  split
  · exact if_pos (Bool.not_eq_false _ ▸ fun hfalse => h (.inl ⟨rfl, hfalse⟩))
  · exact if_pos (Bool.not_eq_false _ ▸ fun hfalse => h (.inr ⟨rfl, hfalse⟩))
  · rfl

theorem operandsRead_le (vm : VM) (op : OpCode) : operandsRead vm op ≤ operandBytes op := by
  by_cases h : AccessesNoInstance vm op
  · rw [(operandsRead_of_accessesNoInstance h).1]
    exact Nat.zero_le _
  · exact (operandsRead_of_not h).le

theorem operandBytes_le_operandBytesAt (f : ObjectFunction) (offset : Nat) (op : OpCode) :
    operandBytes op ≤ operandBytesAt f offset op := by
  unfold operandBytesAt
  split
  · exact Nat.zero_le _
  · exact Nat.le_refl _

/-- The line of a stack trace is the one of the byte before `ip`. -/
theorem traceEntry_line {frame : CallFrame} {k : Nat} (h : frame.ip = k + 1) :
    (traceEntry frame).1 = Chunk.getLineNumber frame.function k := by
  refine congrArg (Chunk.getLineNumber frame.function) ?_
  rw [h]
  omega

/-- The entry of a frame that waits for a call. -/
theorem traceEntry_pendingLine {frame : CallFrame} (hcompiled : Compiled frame.function)
    (hpending : ∃ offset, PendingCall frame offset) (hsize : frame.function.code.length < 2 ^ 31) :
    PendingLine frame (traceEntry frame).1 := by
  obtain ⟨offset, h⟩ := hpending
  obtain ⟨op, hcall, hop, hip⟩ := h.call
  refine ⟨offset, h, ?_⟩
  have hline := getLineNumber_eq hcompiled hsize h.boundary hop (k := operandBytes op)
    (operandBytesAt_of_mem_calls hcall _ _).ge
  rw [← hline]
  exact traceEntry_line (hip.trans (Nat.add_right_comm offset 1 _))

theorem messageAttributed_iff {vm : VM} {frame : CallFrame} {rest : List CallFrame}
    (hframes : vm.frames = frame :: rest) {report : ErrorReport} :
    MessageAttributed vm report ↔ report.line = currentLine frame := by
  constructor
  · rintro ⟨frame', rest', hframes', hline⟩
    rw [hframes] at hframes'
    cases hframes'
    exact hline
  · exact fun hline => ⟨frame, rest, hframes, hline⟩

/-- What is reported by a machine that runs compiled code. -/
theorem report_lines (P : Platform) {vm vm' : VM} {message : String} (hvm : RunsCompiled vm)
    (hsize : OffsetsFit vm) (h : step P vm = .stopped (.runtimeError (some message)) vm') :
    ∃ report, reportError message vm' = some report ∧ TraceAttributed vm report ∧
      (MessageAttributed vm report ↔ NextOnLine vm) := by
  obtain ⟨op, frame, rest, hframes, hop⟩ := opAt_of_report P h
  have hframes' := step_reports P hframes hop h
  have haligned := hvm.frames
  rw [hframes] at haligned
  obtain ⟨⟨hcompiled, hboundary⟩, hbelow⟩ := haligned
  have hfits := hsize frame (by rw [hframes]; exact List.mem_cons_self)
  have hline : ∀ {k}, k ≤ operandBytes op →
      Chunk.getLineNumber frame.function (frame.ip + k : Nat) = currentLine frame := fun hk =>
    getLineNumber_eq hcompiled hfits hboundary hop
      (hk.trans (operandBytes_le_operandBytesAt frame.function frame.ip op))
  rw [reportError, hframes']
  refine ⟨_, rfl, ⟨frame, rest, rest.map fun f => (traceEntry f).1, hframes, ?_, ?_⟩, ?_⟩
  · rw [List.map_cons, List.map_cons, List.map_map]
    refine congrArg (· :: _) ?_
    rw [← hline (operandsRead_le vm op)]
    exact traceEntry_line (Nat.add_right_comm frame.ip 1 _)
  · rw [List.forall₂_map_right_iff, List.forall₂_same]
    intro f hf
    exact traceEntry_pendingLine (hbelow f hf).1 (hbelow f hf).2
      (hsize f (by rw [hframes]; exact List.mem_cons_of_mem _ hf))
  · rw [messageAttributed_iff hframes]
    dsimp only
    by_cases haccess : AccessesNoInstance vm op
    · -- the operand is not read: the byte at `ip` is one of the instruction
      obtain ⟨hread, hbytes⟩ := operandsRead_of_accessesNoInstance haccess
      refine iff_of_true ?_ ⟨frame, rest, op, hframes, hop, .inl haccess⟩
      rw [hread]
      exact hline (by omega)
    · rw [operandsRead_of_not haccess]
      constructor
      · exact fun hnext => ⟨frame, rest, op, hframes, hop, .inr hnext⟩
      · rintro ⟨frame', rest', op', hframes₁, hop', hnext⟩
        rw [hframes] at hframes₁
        cases hframes₁
        rw [hop] at hop'
        obtain rfl := OpCode.toByte_injective (Option.some.inj hop')
        exact hnext.resolve_left haccess

end VM

variable {P : Platform} {parseReal : ParseReal}

/-! ### Runs of a session -/

/-- What holds of the machine at the start of a line. -/
structure CompiledSession (vm : VM) : Prop where
  closures : VM.ClosuresCompiled vm
  frames : vm.frames = []

theorem CompiledSession.start {σ : Session} (hσ : CompiledSession σ.vm) {fuel : Nat} {line : Bytes}
    {f : ObjectFunction} {s : CompilerState} {vm : VM}
    (hcompile : Compiler.compile parseReal fuel line σ.vm.context σ.nextAddress = .ok (some f, s))
    (hstart : VM.start P f (σ.compiled s).vm = .done () vm) : VM.RunsCompiled vm :=
  VM.start_runsCompiled P (Compiler.compile_compiled parseReal hcompile)
    (show VM.ClosuresCompiled (σ.compiled s).vm from hσ.closures) hσ.frames hstart

/-- The closures at the end of a line, whichever way it ends. -/
theorem closuresCompiled_of_step {vm : VM} (hvm : VM.RunsCompiled vm) {o : Outcome Bool}
    (h : VM.step P vm = o) : VM.ClosuresCompiled o.vm :=
  h ▸ (VM.step_addsCompiled P hvm.current).closuresCompiled hvm.closures

theorem compiledSession_cleared {σ σ' : Session} {line : Bytes} {e : LineEnd}
    (hσ : CompiledSession σ.vm) (hrun : CompileAndExecute P parseReal σ line e σ') :
    CompiledSession σ'.cleared.vm := by
  refine ⟨?_, rfl⟩
  cases hrun with
  | compileError hcompile => exact hσ.closures
  | ok hcompile hstart hsteps hlast =>
      exact closuresCompiled_of_step (hsteps.runsCompiled P (hσ.start hcompile hstart)) hlast
  | runtimeError hcompile hstart hsteps hlast =>
      exact closuresCompiled_of_step (hsteps.runsCompiled P (hσ.start hcompile hstart)) hlast

theorem compiledSession {C : Session → Bytes → LineEnd → Prop} {σ : Session}
    (h : Repl P parseReal C σ) : CompiledSession σ.vm := by
  induction h with
  | first hregister =>
      obtain ⟨-, hframes, -, hheap⟩ := VM.registerFrom_done P hregister
      refine ⟨fun a function upvalues ha => ?_, hframes⟩
      rw [hheap] at ha
      cases ha
  | next _ _ hrun _ ih => exact compiledSession_cleared ih hrun

/-- **Which line an error gets.**  An error of a program whose code has less than `2 ^ 31` bytes is
attributed to the instruction that fails, in the stack trace and in the message, exactly when the
next instruction has its line or it accesses a property of a value that is no instance.  The stack
trace is right in any case: it looks up `ip - 1`, within the instruction, and the message looks up
`ip`, behind it, but in the two reports about properties. -/
theorem runtimeError_attributed_iff {C : Session → Bytes → LineEnd → Prop} {σ : Session}
    {line : Bytes} {vm₀ vm vm' : VM} {message : String} (hσ : Repl P parseReal C σ)
    (hstarted : Started P parseReal σ line vm₀) (hsteps : VM.Steps P vm₀ vm)
    (hsize : vm.OffsetsFit) (h : VM.step P vm = .stopped (.runtimeError (some message)) vm') :
    ∃ report, VM.reportError message vm' = some report ∧ VM.TraceAttributed vm report ∧
      (VM.Attributed vm report ↔ vm.NextOnLine) := by
  obtain ⟨fuel, f, s, hcompile, hstart⟩ := hstarted
  have hvm := hsteps.runsCompiled P ((compiledSession hσ).start hcompile hstart)
  obtain ⟨report, hreport, htrace, hmessage⟩ := VM.report_lines P hvm hsize h
  exact ⟨report, hreport, htrace, (and_iff_left htrace).trans hmessage⟩

/-- The machine stops at a reported error. -/
def reportsError : Option Interrupt → Bool
  | some (.runtimeError (some _)) => true
  | _ => false

theorem exists_message_of_reportsError {r : Option Interrupt} (h : reportsError r = true) :
    ∃ message, r = some (.runtimeError (some message)) := by
  unfold reportsError at h
  split at h
  · exact ⟨_, rfl⟩
  · cases h

/-- The next instruction is on the line of the one the machine is at. -/
def VM.staysOnLine (vm : VM) : Bool :=
  match vm.frames with
  | [] => false
  | frame :: _ =>
    match (frame.function.code[frame.ip]?).bind OpCode.ofByte with
    | some op => Chunk.getLineNumber frame.function (frame.ip + 1 + VM.operandBytes op : Nat) =
        VM.currentLine frame
    | none => false

theorem VM.nextOnLine_of_staysOnLine {vm : VM} (h : vm.staysOnLine = true) : vm.NextOnLine := by
  unfold VM.staysOnLine at h
  split at h
  · cases h
  · rename_i frame rest hframes
    split at h
    · rename_i op hop
      obtain ⟨byte, hbyte, hop⟩ := Option.bind_eq_some_iff.mp hop
      rw [← OpCode.toByte_of_ofByte hop] at hbyte
      exact ⟨frame, rest, op, hframes, hbyte, .inr (of_decide_eq_true h)⟩
    · cases h

/-- A line of one statement that fails. -/
theorem runtimeError_attributed_negation : ∃ (vm₀ vm vm' : VM) (message : String)
    (report : VM.ErrorReport),
    Started barePlatform noReals ⟨VM.initial, 0⟩ (ascii ['-', 'n', 'i', 'l', ';']) vm₀ ∧
      VM.Steps barePlatform vm₀ vm ∧
      VM.step barePlatform vm = .stopped (.runtimeError (some message)) vm' ∧
      VM.reportError message vm' = some report ∧ VM.Attributed vm report := by
  have hrun : ((startLine barePlatform noReals 60 ⟨VM.initial, 0⟩
      (ascii ['-', 'n', 'i', 'l', ';'])).any fun vm₀ =>
        (VM.executeFuel barePlatform 60 vm₀).any fun r =>
          reportsError r.1 && (r.2.1.staysOnLine &&
            r.2.1.frames.all fun frame => decide (frame.function.code.length < 2 ^ 31))) = true := by
    decide +kernel
  obtain ⟨vm₀, hstart, hrun⟩ := (Option.any_eq_true _ _).mp hrun
  obtain ⟨⟨r, vm, vm'⟩, hexecute, hrun⟩ := (Option.any_eq_true _ _).mp hrun
  obtain ⟨hr, hrun⟩ := Bool.and_eq_true_iff.mp hrun
  obtain ⟨hline, hsize⟩ := Bool.and_eq_true_iff.mp hrun
  obtain ⟨message, rfl⟩ := exists_message_of_reportsError hr
  obtain ⟨hsteps, hlast⟩ := VM.steps_of_executeFuel hexecute
  have hstarted := started_of_startLine hstart
  obtain ⟨report, hreport, -, hiff⟩ := runtimeError_attributed_iff
    (.first (C := fun _ _ _ => True) rfl) hstarted hsteps
    (fun frame hframe => of_decide_eq_true (List.all_eq_true.mp hsize frame hframe)) hlast
  exact ⟨vm₀, vm, vm', message, report, hstarted, hsteps, hlast, hreport,
    hiff.mpr (VM.nextOnLine_of_staysOnLine hline)⟩

/-- The message has another line than the instruction. -/
def VM.messageOffLine (vm vm' : VM) : Bool :=
  match VM.reportError "" vm', vm.frames with
  | some report, frame :: _ => report.line != VM.currentLine frame
  | _, _ => false

theorem VM.not_messageAttributed_of_offLine {vm vm' : VM} {message : String} {report : VM.ErrorReport}
    (h : VM.messageOffLine vm vm' = true) (hreport : VM.reportError message vm' = some report) :
    ¬ VM.MessageAttributed vm report := by
  rintro ⟨frame, rest, hframes, hline⟩
  unfold VM.messageOffLine VM.reportError at h
  unfold VM.reportError at hreport
  rw [hframes] at h
  split at hreport
  · cases hreport
  · rename_i hframes'
    cases hreport
    rw [hframes'] at h
    exact absurd hline (bne_iff_ne.mp h)

/-- An operand that is no number, with the end of its statement on the next line. -/
def negationOverLines : Bytes := ascii ['-', 'n', 'i', 'l', '\n', ';']

theorem runtimeError_next_line : ¬ ∀ (P : Platform) (parseReal : ParseReal)
    (C : Session → Bytes → LineEnd → Prop) (σ : Session) (line : Bytes) (vm₀ vm vm' : VM)
    (message : String), Repl P parseReal C σ → Started P parseReal σ line vm₀ →
    VM.Steps P vm₀ vm → VM.step P vm = .stopped (.runtimeError (some message)) vm' →
    ∃ report, VM.reportError message vm' = some report ∧ VM.Attributed vm report := by
  intro hall
  have hrun : ((startLine barePlatform noReals 60 ⟨VM.initial, 0⟩ negationOverLines).any fun vm₀ =>
      (VM.executeFuel barePlatform 60 vm₀).any fun r =>
        reportsError r.1 && VM.messageOffLine r.2.1 r.2.2) = true := by
    decide +kernel
  obtain ⟨vm₀, hstart, hrun⟩ := (Option.any_eq_true _ _).mp hrun
  obtain ⟨⟨r, vm, vm'⟩, hexecute, hrun⟩ := (Option.any_eq_true _ _).mp hrun
  obtain ⟨hr, hoff⟩ := Bool.and_eq_true_iff.mp hrun
  obtain ⟨message, rfl⟩ := exists_message_of_reportsError hr
  obtain ⟨hsteps, hlast⟩ := VM.steps_of_executeFuel hexecute
  obtain ⟨report, hreport, hattributed⟩ := hall barePlatform noReals (fun _ _ _ => True)
    ⟨VM.initial, 0⟩ negationOverLines vm₀ vm vm' message (.first rfl) (started_of_startLine hstart)
    hsteps hlast
  exact VM.not_messageAttributed_of_offLine hoff hreport hattributed.1

end CppLox
