import CppLox.Serialization.LoaderSpec
import Mathlib.Algebra.Order.BigOperators.Group.List

/-!
# Serialization — round trips and limits

`Isomorphic` is equality of function trees up to the addresses of the functions and, without
debug information, up to line tables.

* `serialize_deserialize`: a program whose counts fit their header fields, whose strings are
  shorter than `2 ^ 31 - 4` bytes and whose sections are shorter than `2 ^ 32 - 1` bytes is
  written, accepted by the loader and read back isomorphic.
* `limitsAgree_iff`: the writer either throws or returns an image with true counts that the
  loader accepts, exactly when a limit it checks is exceeded or no field of a header is.
-/

namespace CppLox

open LittleEndian Serializer Deserializer

variable {codec : DoubleCodec} {debug : Bool}

/-! ### Images of programs -/

theorem recordsSize_programStrings (f : ObjectFunction) (context : Context) :
    8 + recordsSize (programStrings f context) = stringsSize f context := by
  rw [stringsSize, programStrings, recordsSize_intern]

theorem length_programStrings_le (f : ObjectFunction) (context : Context) :
    (programStrings f context).length ≤ recordsSize (programStrings f context) := by
  generalize programStrings f context = rs
  induction rs with
  | nil => exact Nat.le_refl 0
  | cons r rs ih =>
      have hsize : recordsSize (r :: rs) = 4 + r.length + recordsSize rs := by
        simp [recordsSize]
      rw [List.length_cons, hsize]
      omega

@[simp] theorem length_imageOf_bytecode (f : ObjectFunction) (context : Context) :
    (imageOf codec debug f context).bytecode.length = bytecodeSize debug f :=
  length_chunksOf ..

@[simp] theorem length_imageOf_strings (f : ObjectFunction) (context : Context) :
    (imageOf codec debug f context).strings.length = stringsSize f context := by
  rw [← recordsSize_programStrings]
  simp only [imageOf, List.length_append, length_leBytes, length_flatMap_stringRecord]

theorem length_imageOf_globals (codec : DoubleCodec) (debug : Bool) (f : ObjectFunction) (context : Context) :
    (imageOf codec debug f context).globals.length = 4 + 8 * context.names.length := by
  simp only [imageOf, List.length_append, length_leBytes, length_symbolRecords, List.length_zip,
    context.length_values, Nat.min_self]

/-- The image of a program whose counts fit is accepted, and what the loader returns is related
to the program by every relation that the loader's treatment of a single chunk preserves, given the
address it allocates the function at. -/
theorem deserializeProgram_imageOf_at {R : ObjectFunction → ObjectFunction → Prop}
    (codec : DoubleCodec) (debug : Bool) (fuel : Nat) (nextAddr : Addr)
    {f : ObjectFunction} {context : Context}
    (hfs : f.preorder.length ≤ uint16Max) (hstrings : stringsSize f context < uint32Max)
    (hbytes : bytecodeSize debug f < uint32Max) (hnames : context.names.length ≤ 65534)
    (hcounts : ∀ g ∈ f.preorder, g.upvalueCount ≤ 65535 ∧ g.constants.length ≤ 65535)
    (hfuel : stringsSize f context ≤ fuel ∧ bytecodeSize debug f ≤ fuel)
    (hR : ∀ i g, At f.preorder i g → ∀ pool,
      List.Forall₂ (LoadsConstant codec R) g.constants pool →
      R g (loadedFunction debug (nextAddr + (f.preorder.length - (i + 1))) g pool)) :
    ∃ g context', deserializeProgram codec fuel (imageOf codec debug f context) nextAddr .empty =
        .ok (g, context') ∧ R f g ∧ context'.names = context.names ∧
      context'.values = context.values.map fun v => { isConst := v.isConst } := by
  have hsmax : stringsSize f context < 4294967295 := hstrings
  have hsize := recordsSize_programStrings f context
  have hrs : 8 + recordsSize (programStrings f context) < uint32Max := by omega
  have hfuel' : 8 + recordsSize (programStrings f context) ≤ fuel := by omega
  obtain ⟨strings, hread, hlookup⟩ := deserializeStrings_spec (programStrings f context) hrs hfuel'
    (rfl : (imageOf codec debug f context).strings = _)
  -- every string of the program is found at the offset it was written at
  have hδ : ∀ s ∈ f.strings ++ context.names,
      strings.lookup (offsetOf 8 (programStrings f context) s) = some s ∧
      offsetOf 8 (programStrings f context) s < uint32Max := by
    intro s hs
    have hmem : s ∈ programStrings f context := mem_intern.mpr (.inr hs)
    have := (offsetOf_lt hmem 8).2
    exact ⟨hlookup s hmem, by omega⟩
  obtain ⟨context', hglobals, hn, hv⟩ := deserializeGlobalTable_spec strings context
    (by omega) (fun name hname => ⟨(hδ name (List.mem_append_right _ hname)).1,
      Nat.lt_trans (hδ name (List.mem_append_right _ hname)).2 (by decide)⟩)
    (rfl : (imageOf codec debug f context).globals = _)
  have hlen : (imageOf codec debug f context).bytecode.length < uint32Max := by simpa using hbytes
  have hmax16 : uint16Max < uint32Max := by decide
  obtain ⟨st, offset, hreach, ho, -, -, hsome⟩ := reaches_chunks strings nextAddr R
    (L := f.preorder) hlen rfl (by omega) (fun i hi => (at_preorder f).exists_at f 0 i (Nat.zero_le i) (by omega))
    (fun g hg s hs => hδ s
      (List.mem_append_left _ (strings_subset_of_mem_preorder f g hg hs)))
    hcounts hR f.preorder.length 0 (by omega)
  obtain ⟨g, hmain, hRg⟩ := hsome 0 f (Nat.le_refl 0) (at_preorder f)
  refine ⟨g, context', ?_, hRg, hn, hv⟩
  -- the loop over the chunks ends at the end of the section
  have hloop : deserializeChunks codec fuel strings (imageOf codec debug f context).bytecode
      (imageOf codec debug f context).bytecode.length ⟨[], nextAddr⟩ = .ok (offset, st) := by
    refine Except.whileE_eq_ok (deserializeChunks_ne_outOfFuel hlen ?_ strings _) hreach ?_
    · simpa using hfuel.2
    · rw [ho, length_imageOf_bytecode, List.drop_zero, bytecodeSize]
      simp
  have hgl := length_imageOf_globals codec debug f context
  unfold deserializeProgram
  rw [if_neg (by rw [length_imageOf_strings]; omega), hread, Except.ok_bind,
    if_neg (by rw [hgl]; simp only [uint16Max]; omega), hglobals, Except.ok_bind,
    if_neg (by omega), hloop, Except.ok_bind]
  dsimp only
  rw [hmain]
  rfl

/-- The image of a program whose counts fit is accepted, and what the loader returns is related
to the program by every relation that the loader's treatment of a single chunk preserves. -/
theorem deserializeProgram_imageOf {R : ObjectFunction → ObjectFunction → Prop}
    (codec : DoubleCodec) (debug : Bool) (fuel : Nat) (nextAddr : Addr)
    {f : ObjectFunction} {context : Context}
    (hfs : f.preorder.length ≤ uint16Max) (hstrings : stringsSize f context < uint32Max)
    (hbytes : bytecodeSize debug f < uint32Max) (hnames : context.names.length ≤ 65534)
    (hcounts : ∀ g ∈ f.preorder, g.upvalueCount ≤ 65535 ∧ g.constants.length ≤ 65535)
    (hfuel : stringsSize f context ≤ fuel ∧ bytecodeSize debug f ≤ fuel)
    (hR : ∀ g ∈ f.preorder, ∀ g', Loads codec debug R g g' → R g g') :
    ∃ g context', deserializeProgram codec fuel (imageOf codec debug f context) nextAddr .empty =
        .ok (g, context') ∧ R f g ∧ context'.names = context.names ∧
      context'.values = context.values.map fun v => { isConst := v.isConst } :=
  deserializeProgram_imageOf_at codec debug fuel nextAddr hfs hstrings hbytes hnames hcounts hfuel
    fun _ g hat _ hpool => hR g (List.mem_of_getElem? hat.getElem?) _ (loads_loadedFunction _ hpool)

/-! ### The round trip -/

/-- Constants that are equal, functions being related by `R`. -/
inductive ConstantIso (R : ObjectFunction → ObjectFunction → Prop) :
    Constant ObjectFunction → Constant ObjectFunction → Prop where
  | nil : ConstantIso R .nil .nil
  | boolean (b : Bool) : ConstantIso R (.boolean b) (.boolean b)
  | real (d : UInt64) : ConstantIso R (.real d) (.real d)
  | integer (i : Int64) : ConstantIso R (.integer i) (.integer i)
  | string (s : Bytes) : ConstantIso R (.string s) (.string s)
  | function {f g : ObjectFunction} : R f g → ConstantIso R (.function f) (.function g)

/-- Function trees that differ in the addresses of their functions only, and in their line tables
when there is no debug information. -/
inductive Isomorphic (debug : Bool) : ObjectFunction → ObjectFunction → Prop where
  | intro {f g : ObjectFunction} (arity : g.arity = f.arity)
      (upvalueCount : g.upvalueCount = f.upvalueCount) (name : g.name = f.name)
      (code : g.code = f.code) (lines : debug = true → g.lines = f.lines)
      (constants : List.Forall₂ (ConstantIso (Isomorphic debug)) f.constants g.constants) :
      Isomorphic debug f g

/-- The counts of a program fit their header fields. -/
structure CountsFit (f : ObjectFunction) (context : Context) : Prop where
  constants : ∀ g ∈ f.preorder, g.constants.length ≤ 65535
  functions : f.preorder.length < 65535
  names : context.names.length ≤ 65534
  arity : ∀ g ∈ f.preorder, g.arity ≤ 255
  upvalueCount : ∀ g ∈ f.preorder, g.upvalueCount ≤ 65535

/-- Every string of a program can be written: `serialize_string` takes the size of its record for
an `int`, so that a string of `2 ^ 31 - 4` bytes or more is an error. -/
def StringsFit (f : ObjectFunction) (context : Context) : Prop :=
  ∀ s ∈ f.strings ++ context.names, s.length ≤ 2147483643

instance (f : ObjectFunction) (context : Context) : Decidable (StringsFit f context) :=
  inferInstanceAs (Decidable (∀ s ∈ f.strings ++ context.names, s.length ≤ 2147483643))

/-- The codec for doubles is exact on the reals of a program. -/
def ExactOn (codec : DoubleCodec) (f : ObjectFunction) : Prop :=
  ∀ g ∈ f.preorder, ∀ d, .real d ∈ g.constants → codec.unpack (codec.pack d) = d

/-- Writing the program and loading the image into an empty context, with enough fuel, returns an
isomorphic tree and the same global names at the same indices with the same `is_const` flags. -/
def RoundTrips (codec : DoubleCodec) (debug : Bool) (f : ObjectFunction) (context : Context) :
    Prop :=
  ∃ image, serializeProgram codec debug f context = .ok image ∧
    ∃ bound, ∀ fuel ≥ bound, ∀ nextAddr, ∃ g context',
      deserializeProgram codec fuel image nextAddr .empty = .ok (g, context') ∧
      Isomorphic debug f g ∧ context'.names = context.names ∧
      context'.values.map GlobalValue.isConst = context.values.map GlobalValue.isConst

/-- What the loader makes of a chunk is isomorphic to it when the arity fits and the reals are
exact. -/
theorem isomorphic_of_loads {f g : ObjectFunction} (harity : f.arity ≤ 255)
    (hexact : ∀ d, .real d ∈ f.constants → codec.unpack (codec.pack d) = d)
    (h : Loads codec debug (Isomorphic debug) f g) : Isomorphic debug f g := by
  refine .intro ?_ h.upvalueCount h.name h.code h.lines ?_
  · rw [h.arity, Nat.mod_eq_of_lt (by omega)]
  · have hconstants := h.constants
    generalize f.constants = cs at hexact hconstants
    generalize g.constants = cs' at hconstants
    induction hconstants with
    | nil => exact .nil
    | cons hc _ ih =>
        refine .cons ?_ (ih fun d hd => hexact d (List.mem_cons_of_mem _ hd))
        cases hc with
        | nil => exact .nil
        | boolean b => exact .boolean b
        | real d =>
            rw [hexact d List.mem_cons_self]
            exact .real d
        | integer i => exact .integer i
        | string s => exact .string s
        | function hR => exact .function hR

theorem chunkSize_le_bytecodeSize (debug : Bool) {f g : ObjectFunction} (h : g ∈ f.preorder) :
    chunkSize debug g ≤ bytecodeSize debug f :=
  List.single_le_sum (by simp) _ (List.mem_map_of_mem h)

theorem mem_programStrings {f : ObjectFunction} {context : Context} {s : Bytes} :
    s ∈ programStrings f context ↔ s ∈ f.strings ++ context.names := by
  rw [programStrings, mem_intern]
  simp

/-- A program that fits is not refused: a line table in a chunk shorter than `2 ^ 32` has fewer
lines. -/
theorem not_overflows {f : ObjectFunction} {context : Context}
    (hfs : f.preorder.length ≤ uint16Max) (hlengths : StringsFit f context)
    (hstrings : stringsSize f context < uint32Max) (hbytes : bytecodeSize debug f < uint32Max) :
    ¬ Overflows debug 0 f.preorder (programStrings f context) := by
  have hsize := recordsSize_programStrings f context
  rintro (h | ⟨hd, g, hg, hl⟩ | h | ⟨s, hs, hl⟩)
  · omega
  · have hle := chunkSize_le_bytecodeSize debug hg
    rw [chunkSize, if_pos hd] at hle
    omega
  · omega
  · exact Nat.not_lt.mpr (hlengths s (mem_programStrings.mp hs)) hl

/-- **The round trip.**  A program whose counts fit their header fields, whose strings can be
written and whose sections are shorter than `2 ^ 32 - 1` bytes is written and loaded back
isomorphic, with the same globals.  The bounds are those that the writer and the loader check; the
last two are one short of what a field of four bytes holds, since `UINT32_MAX` itself is refused.
The codec for doubles has to be exact on the reals of the program, and on no others. -/
theorem serialize_deserialize (codec : DoubleCodec) (debug : Bool) (f : ObjectFunction)
    (context : Context) (hexact : ExactOn codec f) (hcounts : CountsFit f context)
    (hlengths : StringsFit f context) (hstrings : stringsSize f context < 4294967295)
    (hbytes : bytecodeSize debug f < 4294967295) : RoundTrips codec debug f context := by
  have hfs : f.preorder.length ≤ uint16Max := Nat.le_of_lt hcounts.functions
  rcases serializeProgram_spec codec debug f context with
    ⟨-, hok⟩ | ⟨hover, -⟩
  · refine ⟨_, hok, stringsSize f context + bytecodeSize debug f, fun fuel hfuel nextAddr => ?_⟩
    obtain ⟨g, context', hload, hiso, hn, hv⟩ :=
      deserializeProgram_imageOf (R := Isomorphic debug) codec debug fuel nextAddr
        hfs hstrings hbytes hcounts.names
        (fun g hg => ⟨hcounts.upvalueCount g hg, hcounts.constants g hg⟩)
        ⟨by omega, by omega⟩
        (fun g hg g' h => isomorphic_of_loads (hcounts.arity g hg) (hexact g hg) h)
    refine ⟨g, context', hload, hiso, hn, ?_⟩
    rw [hv, List.map_map]
    rfl
  · exact absurd hover (not_overflows hfs hlengths hstrings hbytes)

/-- A script with the constants `2`, `"a"` and a function, and the global `a`. -/
def sampleProgram : ObjectFunction :=
  ⟨0, 0, 0, [], [2, 0, 17, 9, 1],
    [.integer 2, .string [97], .function ⟨1, 1, 0, [102], [9, 1], [.real 4611686018427387904], []⟩],
    [⟨0, 1⟩]⟩

def sampleContext : Context := (Context.empty.getGlobal [97]).2

theorem serialize_deserialize_sample : RoundTrips ⟨id, id⟩ true sampleProgram sampleContext :=
  serialize_deserialize ⟨id, id⟩ true sampleProgram sampleContext (fun _ _ _ _ => rfl)
    ⟨by decide, by decide, by decide, by decide, by decide⟩ (by decide) (by decide) (by decide)

/-- A script whose name has `n` bytes. -/
def scriptNamed (n : Nat) : ObjectFunction := ⟨0, 0, 0, List.replicate n 0, [9, 1], [], [⟨0, 1⟩]⟩

theorem preorder_scriptNamed (n : Nat) : (scriptNamed n).preorder = [scriptNamed n] := by
  rw [ObjectFunction.preorder_eq]
  rfl

theorem stringsSize_scriptNamed (n : Nat) : stringsSize (scriptNamed n) .empty = 12 + n := by
  simp [stringsSize, ObjectFunction.strings_eq, scriptNamed, Context.empty, recordsSize]
  omega

theorem countsFit_scriptNamed (n : Nat) : CountsFit (scriptNamed n) .empty := by
  have hpre := preorder_scriptNamed n
  refine ⟨?_, ?_, by decide, ?_, ?_⟩
  all_goals
    rw [hpre]
    simp [scriptNamed]

/-- A string section of exactly `2 ^ 32 - 1` bytes is refused by the writer. -/
theorem serialize_deserialize_scriptNamed :
    ¬ ∀ (codec : DoubleCodec) (debug : Bool) (f : ObjectFunction) (context : Context),
      ExactOn codec f → CountsFit f context → stringsSize f context < 4294967296 →
      bytecodeSize debug f < 4294967296 → RoundTrips codec debug f context := by
  intro h
  obtain ⟨n, hn⟩ : ∃ n, n = 4294967283 := ⟨_, rfl⟩
  obtain ⟨image, hok, -⟩ := h ⟨id, id⟩ false (scriptNamed n) .empty (fun _ _ _ _ => rfl)
    (countsFit_scriptNamed n) (by rw [stringsSize_scriptNamed]; omega)
    (by rw [bytecodeSize, preorder_scriptNamed]; simp [chunkSize, scriptNamed])
  rcases serializeProgram_spec ⟨id, id⟩ false (scriptNamed n) .empty with
    ⟨hover, -⟩ | ⟨-, e, he⟩
  · refine hover (.inr (.inr (.inl ?_)))
    rw [recordsSize_programStrings, stringsSize_scriptNamed, uint32Max]
    omega
  · rw [hok] at he
    cases he

/-! ### Limits -/

/-- The count fields of an image hold the true counts. -/
structure CountsTrue (debug : Bool) (f : ObjectFunction) (context : Context)
    (image : SerializedBytecode) : Prop where
  constants : ∀ i g, f.preorder[i]? = some g →
    fieldAt image.bytecode (chunkOffset debug f.preorder i + 8) 2 = g.constants.length
  upvalueCount : ∀ i g, f.preorder[i]? = some g →
    fieldAt image.bytecode (chunkOffset debug f.preorder i + 6) 2 = g.upvalueCount
  code : ∀ i g, f.preorder[i]? = some g →
    fieldAt image.bytecode (chunkOffset debug f.preorder i + 10) 4 = g.code.length
  id : ∀ i < f.preorder.length,
    fieldAt image.bytecode (chunkOffset debug f.preorder i + 15) 4 = i
  names : fieldAt image.globals 0 2 = context.names.length
  strings : fieldAt image.strings 0 4 = (f.strings ++ context.names).dedup.length

/-- With enough fuel the loader accepts the image. -/
def Accepted (codec : DoubleCodec) (image : SerializedBytecode) : Prop :=
  ∃ bound, ∀ fuel ≥ bound, ∀ nextAddr, ∃ r,
    deserializeProgram codec fuel image nextAddr .empty = .ok r

/-- The writer throws, or returns an image with true counts that the loader accepts. -/
def LimitsAgree (codec : DoubleCodec) (debug : Bool) (f : ObjectFunction) (context : Context) :
    Prop :=
  (∃ e, serializeProgram codec debug f context = .error e) ∨
  ∃ image, serializeProgram codec debug f context = .ok image ∧
    CountsTrue debug f context image ∧ Accepted codec image

/-- The program exceeds one of the limits the writer checks. -/
def Refused (debug : Bool) (f : ObjectFunction) (context : Context) : Prop :=
  65535 < f.preorder.length ∨
  (debug = true ∧ ∃ g ∈ f.preorder, 4294967295 ≤ g.lines.length) ∨
  4294967295 ≤ stringsSize f context ∨ ¬ StringsFit f context

/-- The counts the writer does not check fit, and the loader's limits are kept. -/
def Loadable (debug : Bool) (f : ObjectFunction) (context : Context) : Prop :=
  (∀ g ∈ f.preorder, g.constants.length ≤ 65535 ∧ g.upvalueCount ≤ 65535) ∧
  context.names.length ≤ 65534 ∧ bytecodeSize debug f < 4294967295

theorem overflows_iff_refused (f : ObjectFunction) (context : Context) :
    Overflows debug 0 f.preorder (programStrings f context) ↔ Refused debug f context := by
  have hfit : (∃ s ∈ programStrings f context, stringMax < s.length) ↔
      ¬ StringsFit f context := by
    simp only [StringsFit, mem_programStrings, stringMax, not_forall, Nat.not_le, exists_prop]
  rw [Overflows, Refused, recordsSize_programStrings, Nat.zero_add, hfit]
  rfl

/-- The header fields of the chunks of an image, modulo their widths. -/
theorem headerAt_imageOf (codec : DoubleCodec) (debug : Bool) (context : Context)
    {f g : ObjectFunction} {i : Nat} (h : f.preorder[i]? = some g) :
    headerAt (imageOf codec debug f context).bytecode (chunkOffset debug f.preorder i) =
      ⟨70, offsetOf 8 (programStrings f context) g.name % 256 ^ 4, g.arity % 256,
        g.upvalueCount % 256 ^ 2, g.constants.length % 256 ^ 2, g.code.length % 256 ^ 4,
        debug.toNat, i % 256 ^ 4⟩ := by
  have hblock := blockAt_chunksOf codec debug (offsetOf 8 (programStrings f context)) h
  exact headerAt_chunkOf hblock.left.left.left

theorem fieldAt_imageOf_names (f : ObjectFunction) (context : Context) :
    fieldAt (imageOf codec debug f context).globals 0 2 = context.names.length % 256 ^ 2 := by
  have hblock : BlockAt (imageOf codec debug f context).globals 0
      (leBytes 2 context.names.length ++ leBytes 2 0) := .of_append _ _
  exact hblock.left.leVal_slice

theorem fieldAt_imageOf_strings {f : ObjectFunction} {context : Context}
    (h : stringsSize f context < 4294967295) :
    fieldAt (imageOf codec debug f context).strings 0 4 =
      (f.strings ++ context.names).dedup.length := by
  have hblock : BlockAt (imageOf codec debug f context).strings 0
      (leBytes 4 (u32 (programStrings f context).length) ++
        leBytes 4 (8 + recordsSize (programStrings f context))) := .of_append _ _
  have hle := length_programStrings_le f context
  have hsize := recordsSize_programStrings f context
  have hlen : (programStrings f context).length = (f.strings ++ context.names).dedup.length :=
    (intern_perm_dedup _).length_eq
  rw [fieldAt, hblock.left.leVal_slice, u32_of_lt (by omega), Nat.mod_eq_of_lt (by omega), hlen]

/-- An image with true counts that the loader accepts is that of a program whose counts fit. -/
theorem loadable_of_limitsAgree {f : ObjectFunction} {context : Context}
    (hover : ¬ Overflows debug 0 f.preorder (programStrings f context))
    (h : LimitsAgree codec debug f context) : Loadable debug f context := by
  rcases serializeProgram_spec codec debug f context with
    ⟨-, hok⟩ | ⟨hover', -⟩
  swap
  · exact absurd hover' hover
  rcases h with ⟨e, he⟩ | ⟨image, hok', htrue, bound, haccept⟩
  · rw [hok] at he
    cases he
  rw [hok] at hok'
  cases hok'
  obtain ⟨r, hr⟩ := haccept bound (Nat.le_refl _) 0
  unfold deserializeProgram at hr
  -- the loader's two checks of section sizes bound the names and the bytecode
  split at hr
  · cases hr
  obtain ⟨strings, -, hr⟩ := Except.bind_eq_ok.mp hr
  split at hr
  · cases hr
  rename_i hglobals
  obtain ⟨context', -, hr⟩ := Except.bind_eq_ok.mp hr
  split at hr
  · cases hr
  rename_i hbytes
  rw [length_imageOf_globals, uint16Max] at hglobals
  rw [length_imageOf_bytecode, uint32Max] at hbytes
  refine ⟨fun g hg => ?_, by omega, by omega⟩
  obtain ⟨i, hi⟩ := List.mem_iff_getElem?.mp hg
  have hheader := headerAt_imageOf codec debug context hi
  have hc := congrArg ChunkHeader.constantPoolSize hheader
  have hu := congrArg ChunkHeader.upvalueCount hheader
  simp only [headerAt] at hc hu
  rw [htrue.constants i g hi] at hc
  rw [htrue.upvalueCount i g hi] at hu
  omega

/-- The counts of an image are true when they fit. -/
theorem countsTrue_imageOf {f : ObjectFunction} {context : Context}
    (hfs : f.preorder.length ≤ 65535) (hstrings : stringsSize f context < 4294967295)
    (h : Loadable debug f context) :
    CountsTrue debug f context (imageOf codec debug f context) := by
  obtain ⟨hcounts, hnames, hbytes⟩ := h
  have hheader := fun i g (hi : f.preorder[i]? = some g) =>
    headerAt_imageOf codec debug context hi
  refine ⟨fun i g hi => ?_, fun i g hi => ?_, fun i g hi => ?_, fun i hi => ?_, ?_,
    fieldAt_imageOf_strings hstrings⟩
  · have hc := congrArg ChunkHeader.constantPoolSize (hheader i g hi)
    have := (hcounts g (List.mem_of_getElem? hi)).1
    exact hc.trans (Nat.mod_eq_of_lt (by omega))
  · have hu := congrArg ChunkHeader.upvalueCount (hheader i g hi)
    have := (hcounts g (List.mem_of_getElem? hi)).2
    exact hu.trans (Nat.mod_eq_of_lt (by omega))
  · have hl := congrArg ChunkHeader.codeLength (hheader i g hi)
    have := chunkSize_le_bytecodeSize debug (List.mem_of_getElem? hi)
    rw [chunkSize] at this
    exact hl.trans (Nat.mod_eq_of_lt (by omega))
  · have hid := congrArg ChunkHeader.id (hheader i _ (List.getElem?_eq_getElem hi))
    exact hid.trans (Nat.mod_eq_of_lt (by omega))
  · rw [fieldAt_imageOf_names]
    exact Nat.mod_eq_of_lt (by omega)

/-- **The limits of writer and loader.**  The writer throws or returns an image with true counts
that the loader accepts, exactly when one of the writer's own limits is exceeded or the counts it
does not check fit.  The three bounds of `Loadable` are those the writer leaves to the casts of
`write_chunk_header` and `serialize_symbol_table`, or to the loader: a program over one of them
that is under the limits of `Refused` becomes a file that is not the program. -/
theorem limitsAgree_iff (codec : DoubleCodec) (debug : Bool) (f : ObjectFunction)
    (context : Context) :
    LimitsAgree codec debug f context ↔ Refused debug f context ∨ Loadable debug f context := by
  rw [← overflows_iff_refused]
  rcases serializeProgram_spec codec debug f context with
    ⟨hover, hok⟩ | ⟨hover, he⟩
  · refine ⟨fun h => .inr (loadable_of_limitsAgree hover h), ?_⟩
    rintro (h | h)
    · exact absurd h hover
    have hrefused := mt (overflows_iff_refused f context).mpr hover
    simp only [Refused, not_or] at hrefused
    obtain ⟨hfs, -, hstrings, -⟩ := hrefused
    have hstrings' : stringsSize f context < 4294967295 := by omega
    refine .inr ⟨_, hok, countsTrue_imageOf (by omega) hstrings' h,
      stringsSize f context + bytecodeSize debug f, fun fuel hfuel nextAddr => ?_⟩
    obtain ⟨hcounts, hnames, hbytes⟩ := h
    obtain ⟨g, context', hload, -⟩ := deserializeProgram_imageOf
      (R := fun _ _ => True) codec debug fuel nextAddr (by simp only [uint16Max]; omega) hstrings' hbytes hnames
      (fun g hg => ⟨(hcounts g hg).2, (hcounts g hg).1⟩) ⟨by omega, by omega⟩
      fun _ _ _ _ => trivial
    exact ⟨_, hload⟩
  · exact ⟨fun _ => .inl hover, fun _ => .inl he⟩

/-- What the compiler makes of `n` statements `0.5;` on one line: a pool with `n` reals. -/
def scriptOfReals (n : Nat) : ObjectFunction :=
  ⟨0, 0, 0, [], (List.range n).flatMap (fun i =>
      (if i ≤ 255 then [2, UInt8.ofNat i] else 3 :: leBytes 2 i) ++ [18]) ++ [9, 1],
    List.replicate n (.real 4602678819172646912), [⟨0, 1⟩]⟩

/-- At 65536 constants, which `add_constant` permits, the field of the pool's size is 0. -/
theorem limitsAgree_fails_at_65536 : ¬ ∀ (codec : DoubleCodec) (debug : Bool)
    (f : ObjectFunction) (context : Context),
    (∀ g ∈ f.preorder, g.constants.length ≤ 65536) → LimitsAgree codec debug f context := by
  intro h
  obtain ⟨n, hn⟩ : ∃ n, n = 65536 := ⟨_, rfl⟩
  have hpool : ∀ m, poolPreorder (List.replicate m (.real 4602678819172646912)) = [] ∧
      poolStrings (List.replicate m (.real 4602678819172646912)) = [] := by
    intro m
    induction m with
    | zero => simp
    | succ m ih => simp [List.replicate_succ, ih, Constant.preorder, Constant.strings]
  have hpre : (scriptOfReals n).preorder = [scriptOfReals n] := by
    rw [ObjectFunction.preorder_eq]
    exact congrArg _ (hpool n).1
  have hnames : (scriptOfReals n).strings = [[]] := by
    rw [ObjectFunction.strings_eq]
    exact congrArg _ (hpool n).2
  have hstrings : stringsSize (scriptOfReals n) .empty = 12 := by
    rw [stringsSize, hnames]
    rfl
  have hlen : (scriptOfReals n).constants.length = n := List.length_replicate
  have hagree := h ⟨id, id⟩ false (scriptOfReals n) .empty (by
    rw [hpre, List.forall_mem_singleton, hlen]
    omega)
  have hover : ¬ Overflows false 0 (scriptOfReals n).preorder
      (programStrings (scriptOfReals n) .empty) := by
    rw [overflows_iff_refused, Refused, hpre, hstrings]
    simp [StringsFit, hnames, Context.empty]
  have := ((loadable_of_limitsAgree hover hagree).1 (scriptOfReals n) (by simp [hpre])).1
  omega

end CppLox
