import CppLox.Compiler.Addresses
import CppLox.Lox.ControlState
import CppLox.Native.Relabelling
import CppLox.Serialization.FileHeader
import CppLox.Serialization.Reload
import CppLox.VM.Observation

/-!
# Lox — compiled programs

`Lox::run_source`, `Lox::compile_file` and `Lox::run_file` (`src/lox/lox.cpp`).  A source is compiled
with an empty table of globals and its function is written; what runs is the function that is loaded
from there, on a machine whose native functions are registered after the load.  A run shows what a run
of the function that was compiled shows: its functions have other addresses, and no line table when the
file has no debug information.
-/

namespace CppLox

/-- How `run_source`, `compile_file` or `run_file` ends before a machine runs. -/
inductive LoxError where
  | compileError
  | compiler (e : CompilerError)
  | serializer (message : String)
  | fileHeader (e : FileHeader.ReadError)
  | deserializer (e : LoadError)

namespace Lox

variable (codec : DoubleCodec) (parseReal : ParseReal) (P : Platform)

/-- The first half of `run_source` and of `compile_file`: a source is compiled and written. -/
def compileSource (debug : Bool) (fuel : Nat) (addr : Addr) (source : Bytes) :
    Except LoxError SerializedBytecode :=
  match Compiler.compile parseReal fuel source .empty addr with
  | .error e => .error (.compiler e)
  | .ok (none, _) => .error .compileError
  | .ok (some f, s) =>
    match Serializer.serializeProgram codec debug f s.context with
    | .error message => .error (.serializer message)
    | .ok bytecode => .ok bytecode

/-- The second half of `run_source`: a program is loaded and run, for `n` instructions at most. -/
def runBytecode (fuel n : Nat) (addr : Addr) (bytecode : SerializedBytecode) :
    Except LoxError Observation :=
  match Deserializer.deserializeProgram codec fuel bytecode addr .empty with
  | .error e => .error (.deserializer e)
  | .ok (f, context) => .ok (VM.runFor P n f { VM.initial with context }).observe

/-- `Lox::run_source`, which always writes debug information. -/
def runSource (compileFuel loadFuel n : Nat) (addr loadAddr : Addr) (source : Bytes) :
    Except LoxError Observation := do
  let bytecode ← compileSource codec parseReal true compileFuel addr source
  runBytecode codec P loadFuel n loadAddr bytecode

/-- `Lox::compile_file`: the bytes of the file it writes. -/
def compileFile (debug : Bool) (fuel : Nat) (addr : Addr) (source : Bytes) :
    Except LoxError (List UInt8) := do
  let bytecode ← compileSource codec parseReal debug fuel addr source
  return FileHeader.write bytecode

/-- The branch of `run_file` for a source: the native functions are registered first. -/
def runSourceFile (fuel n : Nat) (addr : Addr) (source : Bytes) : Except LoxError Observation :=
  match VM.registerNativeFunctions P VM.initial with
  | .stopped i vm => .ok (Outcome.stopped i vm).observe
  | .done () vm =>
    match Compiler.compile parseReal fuel source vm.context addr with
    | .error e => .error (.compiler e)
    | .ok (none, _) => .error .compileError
    | .ok (some f, s) =>
      .ok ((do VM.start P f; VM.executeFor P n : VMM Bool) { vm with context := s.context }).observe

/-- `Lox::run_file` on the bytes of a file. -/
def runFile (fuel n : Nat) (addr : Addr) (file : List UInt8) : Except LoxError Observation :=
  if FileHeader.isCompiledLoxProgram file then
    match FileHeader.read file with
    | .error e => .error (.fileHeader e)
    | .ok bytecode => runBytecode codec P fuel n addr bytecode
  else runSourceFile parseReal P fuel n addr file

end Lox

/-! ### Platforms under other labels -/

/-- The platform with the native functions of the source. -/
def Platform.withNatives (P : Platform) (E : Outside) : Platform :=
  { P with natives := NativeFunction.registered P E }

/-- The platform on which an object has the number that it has on `P` under other labels. -/
def Platform.readdressed (P : Platform) (ρ : Relabelling) : Platform :=
  { P with address := fun o => P.address (o.relabel ρ) }

/-- The capacities of vectors do not depend on the labels of functions. -/
def Outside.IgnoresLabels (E : Outside) : Prop :=
  ∀ ρ heap a, E.capacity (Heap.relabel ρ heap) a = E.capacity heap a

theorem Platform.readdresses_readdressed (P : Platform) (ρ : Relabelling) :
    (P.readdressed ρ).Readdresses ρ P := ⟨rfl, fun _ => rfl, rfl⟩

theorem Platform.relabels_readdressed (P : Platform) (ρ : Relabelling) {E : Outside}
    (hE : E.IgnoresLabels) : ((P.readdressed ρ).withNatives E).Relabels ρ (P.withNatives E) where
  valueStackMax := rfl
  address _ := rfl
  formatReal := rfl
  natives := NativeFunction.relabels_registered (P.readdresses_readdressed ρ) (hE ρ)

/-- A run of a function as it was compiled, for `n` instructions at most, where objects have the numbers
that they have under other labels. -/
def Lox.runCompiled (P : Platform) (E : Outside) (ρ : Relabelling) (n : Nat) (f : ObjectFunction)
    (context : Context) : Outcome Bool :=
  VM.runFor ((P.readdressed ρ).withNatives E) n f { VM.initial with context }

/-- A new machine has no labels but those of its globals. -/
theorem VM.initial_relabel (ρ : Relabelling) {context : Context} (h : context.Pristine) :
    VM.relabel ρ { VM.initial with context } = { VM.initial with context } := by
  have hcontext : context.relabel ρ = context := context.relabel_of_pristine h
  exact congrArg (fun context => { VM.initial with context }) hcontext

/-! ### Runs of compiled programs -/

section

variable {codec : DoubleCodec} {parseReal : ParseReal} {debug : Bool} {f : ObjectFunction}
  {context : Context}

/-- A program that was written shows what it shows before. -/
theorem runBytecode_imageOf (P : Platform) {E : Outside} (hE : E.IgnoresLabels)
    (hexact : ExactOn codec f) (hcounts : CountsFit f context)
    (hstrings : stringsSize f context < uint32Max) (hbytes : bytecodeSize debug f < uint32Max)
    (hnodup : f.addresses.Nodup) (hpristine : context.Pristine) {fuel : Nat}
    (hfuel : stringsSize f context ≤ fuel ∧ bytecodeSize debug f ≤ fuel) (n : Nat) (addr : Addr) :
    Lox.runBytecode codec (P.withNatives E) fuel n addr
        (Serializer.imageOf codec debug f context) =
      .ok ((Lox.runCompiled P E (f.reloading addr debug) n f context).relabel
        (f.reloading addr debug) id).observe := by
  have hrun := VM.relabels_runFor (P.relabels_readdressed (f.reloading addr debug) hE) n f
    { VM.initial with context }
  rw [VM.initial_relabel _ hpristine] at hrun
  unfold Lox.runBytecode
  rw [deserializeProgram_relabel codec debug fuel addr hexact hcounts hstrings hbytes hnodup
    hpristine hfuel]
  exact congrArg (fun o => Except.ok o.observe) hrun

/-- A source that is accepted is written, if its counts fit. -/
theorem compileSource_eq {fuel : Nat} {addr : Addr} {source : Bytes} {s : CompilerState}
    (hcompile : Compiler.compile parseReal fuel source .empty addr = .ok (some f, s))
    (hcounts : CountsFit f s.context) (hlengths : StringsFit f s.context)
    (hstrings : stringsSize f s.context < uint32Max) (hbytes : bytecodeSize debug f < uint32Max) :
    Lox.compileSource codec parseReal debug fuel addr source =
      .ok (Serializer.imageOf codec debug f s.context) := by
  unfold Lox.compileSource
  rw [hcompile]
  dsimp only
  rcases Serializer.serializeProgram_spec codec debug f s.context with ⟨-, hok⟩ | ⟨hover, -⟩
  · rw [hok]
  · exact absurd hover (not_overflows (Nat.le_of_lt hcounts.functions) hlengths hstrings hbytes)

/-- **`run_source` runs what it compiled.**  After any number of instructions the run of the loaded
program has shown what a run of the compiled function shows, with the globals of its compilation and
each object at the address it has in the loaded program. -/
theorem runSource_observe (P : Platform) {E : Outside} (hE : E.IgnoresLabels)
    {compileFuel loadFuel : Nat} {addr : Addr} {source : Bytes} {s : CompilerState}
    (hcompile : Compiler.compile parseReal compileFuel source .empty addr = .ok (some f, s))
    (hexact : ExactOn codec f) (hcounts : CountsFit f s.context) (hlengths : StringsFit f s.context)
    (hstrings : stringsSize f s.context < uint32Max) (hbytes : bytecodeSize true f < uint32Max)
    (hfuel : stringsSize f s.context ≤ loadFuel ∧ bytecodeSize true f ≤ loadFuel)
    (loadAddr : Addr) (n : Nat) :
    Lox.runSource codec parseReal (P.withNatives E) compileFuel loadFuel n addr loadAddr source =
      .ok (Lox.runCompiled P E (f.reloading loadAddr true) n f s.context).observe := by
  unfold Lox.runSource
  rw [compileSource_eq hcompile hcounts hlengths hstrings hbytes, Except.ok_bind,
    runBytecode_imageOf P hE hexact hcounts hstrings hbytes
      (Compiler.compile_nodup parseReal hcompile) (Compiler.compile_pristine parseReal hcompile) hfuel,
    Outcome.observe_relabel (f.lines_reloading_true _)]

instance (f : ObjectFunction) (context : Context) : Decidable (CountsFit f context) :=
  decidable_of_iff
    ((∀ g ∈ f.preorder, g.constants.length ≤ 65535) ∧ f.preorder.length < 65535 ∧
      context.names.length ≤ 65534 ∧ (∀ g ∈ f.preorder, g.arity ≤ 255) ∧
      ∀ g ∈ f.preorder, g.upvalueCount ≤ 65535)
    ⟨fun h => ⟨h.1, h.2.1, h.2.2.1, h.2.2.2.1, h.2.2.2.2⟩,
      fun h => ⟨h.constants, h.functions, h.names, h.arity, h.upvalueCount⟩⟩

/-- `fun f(){return 2;}print(f());` -/
def callSource : Bytes :=
  ascii ['f', 'u', 'n', ' ', 'f', '(', ')', '\x7b', 'r', 'e', 't', 'u', 'r', 'n', ' ', '2', ';', '\x7d',
    'p', 'r', 'i', 'n', 't', '(', 'f', '(', ')', ')', ';']

/-- The source is accepted, small, and prints `2`. -/
theorem compile_callSource : ∃ f s,
    Compiler.compile noReals 60 callSource .empty 0 = .ok (some f, s) ∧
    CountsFit f s.context ∧ StringsFit f s.context ∧ stringsSize f s.context ≤ 200 ∧
    bytecodeSize true f ≤ 200 ∧ bytecodeSize false f ≤ 200 ∧ s.context.names.length ≤ 100 ∧
    ∀ debug, (Lox.runCompiled barePlatform bareOutside (f.reloading 7 debug) 30 f s.context).observe.output =
      ascii ['2'] := by
  have hrun : ((Compiler.compile noReals 60 callSource .empty 0).toOption.any fun r => r.1.any fun f =>
      decide (CountsFit f r.2.context ∧ StringsFit f r.2.context ∧ stringsSize f r.2.context ≤ 200 ∧
        bytecodeSize true f ≤ 200 ∧ bytecodeSize false f ≤ 200 ∧ r.2.context.names.length ≤ 100 ∧
        ∀ debug, (Lox.runCompiled barePlatform bareOutside (f.reloading 7 debug) 30 f
          r.2.context).observe.output = ascii ['2'])) = true := by
    decide +kernel
  obtain ⟨⟨result, s⟩, hcompile, hrun⟩ := (Option.any_eq_true _ _).mp hrun
  obtain ⟨f, hf, hrun⟩ := (Option.any_eq_true _ _).mp hrun
  refine ⟨f, s, ?_, of_decide_eq_true hrun⟩
  cases hresult : Compiler.compile noReals 60 callSource .empty 0 with
  | error e =>
      rw [hresult] at hcompile
      cases hcompile
  | ok r =>
      rw [hresult] at hcompile
      cases hcompile
      exact congrArg (fun result => Except.ok (result, s)) hf

theorem runSource_observe_call : ∃ o, Lox.runSource ⟨id, id⟩ noReals
    (barePlatform.withNatives bareOutside) 60 200 30 0 7 callSource = .ok o ∧ o.output = ascii ['2'] := by
  obtain ⟨f, s, hcompile, hcounts, hlengths, hstrings, hbytes, -, -, houtput⟩ := compile_callSource
  exact ⟨_, runSource_observe barePlatform (fun _ _ _ => rfl) hcompile (fun _ _ _ _ => rfl) hcounts hlengths
    (Nat.lt_of_le_of_lt hstrings (by decide)) (Nat.lt_of_le_of_lt hbytes (by decide))
    ⟨hstrings, hbytes⟩ 7 30, houtput true⟩

/-! ### Files -/

/-- The sections of the image of a program, with the header of a file before them, have sizes of 32
bits. -/
def fileSize (debug : Bool) (f : ObjectFunction) (context : Context) : Nat :=
  32 + bytecodeSize debug f + (4 + 8 * context.names.length) + stringsSize f context

theorem fits_imageOf (hcounts : CountsFit f context) (hsize : fileSize debug f context < 2 ^ 32) :
    FileHeader.Fits (Serializer.imageOf codec debug f context) where
  chunkCount := Nat.lt_succ_of_lt hcounts.functions
  sections := by
    rw [length_imageOf_bytecode, length_imageOf_globals, length_imageOf_strings]
    exact hsize

/-- A file that is written is read back, and it is one that `run_file` takes for a compiled program. -/
theorem runFile_write (P : Platform) {bytecode : SerializedBytecode} (h : FileHeader.Fits bytecode)
    (fuel n : Nat) (addr : Addr) :
    Lox.runFile codec parseReal P fuel n addr (FileHeader.write bytecode) =
      Lox.runBytecode codec P fuel n addr bytecode := by
  have hlength := FileHeader.length_write h
  have hmagic : FileHeader.isCompiledLoxProgram (FileHeader.write bytecode) = true := by
    unfold FileHeader.isCompiledLoxProgram
    rw [if_neg (by omega), FileHeader.write_eq h]
    rfl
  have hordered := @FileHeader.ordered_headerOf bytecode (Crc32.computeBuf 0 (FileHeader.payload bytecode))
  rw [← hlength] at hordered
  have hread : FileHeader.read (FileHeader.write bytecode) = .ok bytecode := by
    rw [FileHeader.read_of_passes (FileHeader.passes_write h), FileHeader.decodeHeader_write h,
      FileHeader.readSections_of_ordered hordered (by rw [hlength]; exact h.sections),
      FileHeader.slices_write h]
  unfold Lox.runFile
  rw [if_pos hmagic, hread]

/-- **A compiled file runs as what was compiled.**  `compile_file` writes a file, and after any number
of instructions `run_file` on it has shown what a run of the compiled function shows, but for lines when
there is no debug information. -/
theorem runFile_compileFile (debug : Bool) {compileFuel : Nat} {addr : Addr} {source : Bytes}
    {s : CompilerState}
    (hcompile : Compiler.compile parseReal compileFuel source .empty addr = .ok (some f, s))
    (hexact : ExactOn codec f) (hcounts : CountsFit f s.context) (hlengths : StringsFit f s.context)
    (hsize : fileSize debug f s.context < 2 ^ 32) :
    ∃ file, Lox.compileFile codec parseReal debug compileFuel addr source = .ok file ∧
      ∀ (P : Platform) (E : Outside), E.IgnoresLabels → ∀ fuel ≥ file.length, ∀ n loadAddr,
        ∃ o, Lox.runFile codec parseReal (P.withNatives E) fuel n loadAddr file = .ok o ∧
          (debug = true →
            o = (Lox.runCompiled P E (f.reloading loadAddr debug) n f s.context).observe) ∧
          o.withoutLines =
            (Lox.runCompiled P E (f.reloading loadAddr debug) n f s.context).observe.withoutLines := by
  have hsum := hsize
  unfold fileSize at hsum
  have hstrings : stringsSize f s.context < uint32Max := by
    unfold uint32Max
    omega
  have hbytes : bytecodeSize debug f < uint32Max := by
    unfold uint32Max
    omega
  have hfits : FileHeader.Fits (Serializer.imageOf codec debug f s.context) :=
    fits_imageOf hcounts hsize
  refine ⟨FileHeader.write (Serializer.imageOf codec debug f s.context), ?_,
    fun P E hE fuel hfuel n loadAddr => ?_⟩
  · unfold Lox.compileFile
    rw [compileSource_eq hcompile hcounts hlengths hstrings hbytes, Except.ok_bind]
    rfl
  · -- each section is shorter than the file
    rw [FileHeader.length_write hfits, length_imageOf_bytecode, length_imageOf_globals,
      length_imageOf_strings] at hfuel
    have hload : stringsSize f s.context ≤ fuel ∧ bytecodeSize debug f ≤ fuel :=
      ⟨by omega, by omega⟩
    have hrun := runBytecode_imageOf P hE hexact hcounts hstrings hbytes
      (Compiler.compile_nodup parseReal hcompile) (Compiler.compile_pristine parseReal hcompile)
      hload n loadAddr
    refine ⟨_, (runFile_write _ hfits fuel n loadAddr).trans hrun, ?_, ?_⟩
    · rintro rfl
      exact Outcome.observe_relabel (f.lines_reloading_true _) _
    · exact Outcome.observe_relabel_withoutLines _

theorem runFile_compileFile_call : ∃ file o,
    Lox.compileFile ⟨id, id⟩ noReals false 60 0 callSource = .ok file ∧
    Lox.runFile ⟨id, id⟩ noReals (barePlatform.withNatives bareOutside) file.length 30 7 file = .ok o ∧
    o.output = ascii ['2'] := by
  obtain ⟨f, s, hcompile, hcounts, hlengths, hstrings, -, hbytes, hnames, houtput⟩ := compile_callSource
  have hsize : fileSize false f s.context < 2 ^ 32 := by
    unfold fileSize
    omega
  obtain ⟨file, hfile, hruns⟩ := @runFile_compileFile ⟨id, id⟩ noReals f false _ _ _ _ hcompile
    (fun _ _ _ _ => rfl) hcounts hlengths hsize
  obtain ⟨o, ho, -, hsame⟩ := hruns barePlatform bareOutside (fun _ _ _ => rfl) file.length
    (Nat.le_refl _) 30 7
  have hsame := congrArg Observation.output hsame
  rw [Observation.output_withoutLines, Observation.output_withoutLines, houtput false] at hsame
  exact ⟨file, o, hfile, ho, hsame⟩

end

end CppLox
