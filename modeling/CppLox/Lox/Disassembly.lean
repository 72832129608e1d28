import CppLox.Compiler.LongPrograms
import CppLox.Compiler.ProgramCode
import CppLox.Lox.ControlState
import CppLox.VM.CompiledCode

/-!
# Programs — the disassembler and the machine

`decode_chunk` goes through the chunks of a compiled program from one instruction the machine
executes to the next, and prints the targets the machine jumps to.
-/

namespace CppLox

open VMM Disassembler

namespace VM

variable {f : ObjectFunction}

/-! ### What the machine does at an instruction -/

/-- The machine goes from the instruction at an offset where its decoding says. -/
structure Executes (P : Platform) (f : ObjectFunction) (d : DecodedInstruction) : Prop where
  sequential {vm vm' : VM} {ended : Bool} {frame : CallFrame} {rest : List CallFrame}
    (hjump : d.opcode.isJump = false) (hreturn : d.opcode ≠ .return)
    (hframes : vm.frames = frame :: rest) (hfunction : frame.function = f)
    (hip : frame.ip = d.offset) (h : step P vm = .done ended vm') :
    ∃ pushed, pushed.length ≤ 1 ∧ vm'.frames = pushed ++ { frame with ip := d.nextOffset } :: rest
  «return» {vm vm' : VM} {ended : Bool} {frame : CallFrame} {rest : List CallFrame}
    (hreturn : d.opcode = .return) (hframes : vm.frames = frame :: rest)
    (hfunction : frame.function = f) (hip : frame.ip = d.offset) (h : step P vm = .done ended vm') :
    vm'.frames = rest
  jump (hjump : d.opcode.isJump = true) : ∃ target : Nat,
    printJumpTarget f d = some ((target : Int), Chunk.getLineNumber f target) ∧
      Boundary f target ∧
      ∀ {vm vm' : VM} {ended : Bool} {frame : CallFrame} {rest : List CallFrame},
        vm.frames = frame :: rest → frame.function = f → frame.ip = d.offset →
        step P vm = .done ended vm' → vm'.frames = { frame with
          ip := if jumpTaken d.opcode (vm.stack (vm.stackTop - 1)) then target
            else d.nextOffset } :: rest

/-- The machine does an instruction that fits as it is decoded. -/
theorem executes_of_decodes (P : Platform) {i : Instr} {d : DecodedInstruction} {pre bytes : List UInt8}
    (hfits : i.Fits f.constants) (h : f.code = pre ++ (i.encode ++ bytes))
    (hjumps : i.JumpsTo (Boundary f) pre.length) (hd : Decodes f pre.length i d) :
    Executes P f d := by
  have hcode : ∀ {frame : CallFrame}, frame.function = f → frame.ip = d.offset →
      frame.function.code[frame.ip]? = some d.opcode.toByte := by
    intro frame hfunction hip
    obtain ⟨opcodeBytes, hbytes⟩ := i.encode_eq
    rw [hfunction, hip, hd.offset, hd.opcode, h, hbytes]
    simp
  refine ⟨?_, ?_, ?_⟩
  · intro vm vm' ended frame rest hjump hreturn hframes hfunction hip hstep
    have hframes' := step_frames P hframes (hcode hfunction hip) hstep
    subst hfunction
    rw [if_neg hreturn, if_neg (by rw [hjump]; nofun), hip, hd.offset, hd.opcode,
      operandBytesAt_of_code pre hfits h, ← hd.nextOffset] at hframes'
    obtain ⟨pushed, -, hentered, hframes'⟩ := hframes'
    exact ⟨pushed, hentered.length_le, hframes'⟩
  · intro vm vm' ended frame rest hreturn hframes hfunction hip hstep
    have hframes' := step_frames P hframes (hcode hfunction hip) hstep
    rwa [if_pos hreturn] at hframes'
  · intro hjump
    rw [hd.opcode] at hjump
    obtain ⟨n, hi, hread⟩ := jump_of_code pre hfits hjump h
    obtain ⟨k, hk, hoperands⟩ := hd.jump hjump
    rw [hi] at hjumps
    obtain ⟨hn, htarget, hprinted⟩ := jumpTarget_of_jumpsTo hjump hjumps
    rw [hread, Nat.mod_eq_of_lt (by omega)] at hk
    cases hk
    have hsize : d.nextOffset = pre.length + 3 := by rw [hd.nextOffset, hi]; rfl
    refine ⟨_, ?_, htarget, ?_⟩
    · rw [printJumpTarget, hoperands]
      simp only [hd.opcode, hjump, hsize, hprinted, Bool.not_true, Bool.false_eq_true, ↓reduceIte]
    · intro vm vm' ended frame rest hframes hfunction hip hstep
      have hframes' := step_frames P hframes (hcode hfunction hip) hstep
      subst hfunction
      rw [hd.opcode, if_neg (by rintro hreturn; rw [hreturn] at hjump; cases hjump),
        if_pos hjump, hip, hd.offset] at hframes'
      obtain ⟨m, hm, -, hframes'⟩ := hframes'
      rw [Nat.mod_eq_of_lt (by omega)] at hread
      rw [hm.unique (operandAt_of_readU16Le hread)] at hframes'
      rw [hframes', hd.opcode, hsize]

end VM

/-- `decode_chunk` goes from 0 to the end of the code by the boundaries of the machine's
instructions; what it decodes there is the machine's opcode with the machine's operands, and the
machine goes on where the decoding says. -/
def Disassembler.DecodesAsExecuted (P : Platform) (context : Context) (g : ObjectFunction) : Prop :=
  ∃ ds, decodeChunk context g = some ds ∧
    ds.map DecodedInstruction.offset ++ [g.code.length] =
      0 :: ds.map DecodedInstruction.nextOffset ∧
    (∀ o, VM.Boundary g o ↔ o ∈ ds.map DecodedInstruction.offset ++ [g.code.length]) ∧
    ∀ d ∈ ds, d.opcode ≠ .invalid ∧ g.code[d.offset]? = some d.opcode.toByte ∧
      d.nextOffset = d.offset + 1 + VM.operandBytesAt g d.offset d.opcode ∧
      VM.Executes P g d

/-- **The disassembler and the machine agree** on every function of every accepted program whose code
has less than `2 ^ 31` bytes.  The widths of the operands are written down three times, in the
emitters, in the machine and in the table of decoders; one that differed would put all decoding after
it out of step.  The bound is that of `int`, in which `decode_chunk` counts. -/
theorem Disassembler.decodeChunk_of_compile (P : Platform) (parseReal : ParseReal)
    {fuel : Nat} {source : Bytes} {context : Context} {addr : Addr} {f g : ObjectFunction}
    {s : CompilerState}
    (h : Compiler.compile parseReal fuel source context addr = .ok (some f, s))
    (hg : FunctionOf f g) (hsize : g.code.length < 2 ^ 31) (context' : Context) :
    DecodesAsExecuted P context' g := by
  cases (Compiler.compile_compiled parseReal h).functionOf hg with
  | intro is lines code wellFormed length table functions =>
      obtain ⟨ds, hds, hoffsets, hnexts, hall⟩ := decodeChunk_spec context' hsize wellFormed.fits code
      refine ⟨ds, hds, hoffsets.trans hnexts.symm, fun o => ?_, fun d hd => ?_⟩
      · rw [VM.boundary_iff wellFormed.fits code, hoffsets]
      · obtain ⟨a, i, b, rfl, hdecodes⟩ := hall d hd
        have hfits := wellFormed.fits i (by simp)
        have hjumps := wellFormed.jumps.jumpsTo.mono fun t ht =>
          (VM.boundary_iff wellFormed.fits code).mpr ht
        rw [encodeAll_append, encodeAll_cons] at code
        rw [← length_encodeAll] at hdecodes hjumps
        obtain ⟨opcodeBytes, hbytes⟩ := i.encode_eq
        have hoperands := hfits.operands
        rw [← hdecodes.opcode] at hoperands
        refine ⟨?_, ?_, ?_, VM.executes_of_decodes P hfits code hjumps hdecodes⟩
        · intro hinvalid
          rw [hinvalid] at hoperands
          cases hoperands
        · rw [hdecodes.offset, hdecodes.opcode, code, hbytes]
          simp
        · rw [hdecodes.nextOffset, hdecodes.offset, hdecodes.opcode,
            VM.operandBytesAt_of_code _ hfits code]

/-- A loop in a function: `fun f(){while(1)2;}`. -/
def loopSource : Bytes :=
  ascii ['f', 'u', 'n', ' ', 'f', '(', ')', '{', 'w', 'h', 'i', 'l', 'e', '(', '1', ')', '2', ';', '}']

/-- The functions among the constants of the function that is compiled. -/
def compiledFunctions (parseReal : ParseReal) (fuel : Nat) (source : Bytes) : List ObjectFunction :=
  match Compiler.compile parseReal fuel source .empty 0 with
  | .ok (some f, _) => f.constants.filterMap fun
    | .function g => some g
    | _ => none
  | _ => []

theorem compile_of_mem_compiledFunctions {parseReal : ParseReal} {fuel : Nat} {source : Bytes}
    {g : ObjectFunction} (h : g ∈ compiledFunctions parseReal fuel source) :
    ∃ f s, Compiler.compile parseReal fuel source .empty 0 = .ok (some f, s) ∧ FunctionOf f g := by
  unfold compiledFunctions at h
  split at h
  · rename_i f s hcompile
    obtain ⟨c, hc, hg⟩ := List.mem_filterMap.mp h
    cases c with
    | function g' =>
        cases hg
        exact ⟨f, s, hcompile, .nested .script hc⟩
    | _ => cases hg
  · cases h

theorem Disassembler.decodeChunk_of_compile_loop : ∃ (f g : ObjectFunction) (s : CompilerState)
    (ds : List DecodedInstruction),
    Compiler.compile noReals 60 loopSource .empty 0 = .ok (some f, s) ∧ FunctionOf f g ∧
      decodeChunk .empty g = some ds ∧
      ds.map DecodedInstruction.opcode = [.one, .popJumpIfFalse, .loadConstant, .popTop,
        .jumpBackward, .nil, .return] ∧
      (∀ o, VM.Boundary g o ↔ o ∈ [0, 1, 4, 6, 7, 10, 11, 12]) ∧
      ∀ d ∈ ds, VM.Executes barePlatform g d := by
  have hrun : ((compiledFunctions noReals 60 loopSource).any fun g =>
      (decodeChunk .empty g).any fun ds =>
        decide (ds.map DecodedInstruction.opcode = [.one, .popJumpIfFalse, .loadConstant, .popTop,
          .jumpBackward, .nil, .return]) &&
        decide (ds.map DecodedInstruction.offset ++ [g.code.length] =
          [0, 1, 4, 6, 7, 10, 11, 12] ∧ g.code.length < 100)) = true := by
    decide +kernel
  obtain ⟨g, hmem, hrun⟩ := List.any_eq_true.mp hrun
  obtain ⟨ds, hds, hrun⟩ := (Option.any_eq_true _ _).mp hrun
  obtain ⟨hopcodes, hrun⟩ := Bool.and_eq_true_iff.mp hrun
  obtain ⟨hoffsets, hsize⟩ := of_decide_eq_true hrun
  obtain ⟨f, s, hcompile, hg⟩ := compile_of_mem_compiledFunctions hmem
  obtain ⟨ds', hds', -, hboundary, hall⟩ :=
    decodeChunk_of_compile barePlatform noReals hcompile hg (by omega) .empty
  rw [hds] at hds'
  cases hds'
  refine ⟨f, g, s, ds, hcompile, hg, hds, of_decide_eq_true hopcodes, fun o => ?_, fun d hd =>
    (hall d hd).2.2.2⟩
  rw [hboundary o, hoffsets]

/-- Nothing is decoded when the size of the code is negative as an `int`. -/
theorem Disassembler.decodeChunk_of_neg {g : ObjectFunction}
    (h : (Int32.ofNat g.code.length).toInt ≤ 0) (context : Context) :
    decodeChunk context g = some [] := by
  rw [decodeChunk, decodeFrom, if_neg (by omega)]

/-- The script of `2 ^ 30` statements `0;` has too much code. -/
theorem Disassembler.not_decodeChunk_of_compile :
    ¬ ∀ (P : Platform) (parseReal : ParseReal) (fuel : Nat) (source : Bytes) (context : Context)
      (addr : Addr) (f g : ObjectFunction) (s : CompilerState),
      Compiler.compile parseReal fuel source context addr = .ok (some f, s) → FunctionOf f g →
      ∀ context', DecodesAsExecuted P context' g := by
  intro hall
  obtain ⟨n, hn⟩ : ∃ n, n = 2 ^ 30 := ⟨_, rfl⟩
  obtain ⟨f, s, hcompile, hlength⟩ := Compiler.compile_zeros noReals n
  obtain ⟨ds, hds, hoffsets, -⟩ := hall barePlatform noReals _ _ _ _ f f s hcompile .script .empty
  have hneg : (Int32.ofNat f.code.length).toInt ≤ 0 := by
    rw [hlength, hn]
    decide
  rw [decodeChunk_of_neg hneg] at hds
  cases hds
  rw [List.map_nil, List.nil_append, List.map_nil, List.cons.injEq] at hoffsets
  omega

end CppLox
