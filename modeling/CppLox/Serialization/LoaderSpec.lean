import CppLox.Serialization.LoaderSafety
import CppLox.Serialization.WriterSpec

/-!
# Serialization — what the loader reads back

The loader on blocks of the layout.  Each lemma assumes that a block of the layout stands at the
offset the loader is at, and says what the loader makes of it: a string record gives its string,
a symbol record its global, a chunk its function.

`Loads codec debug R f g` says that `g` is what the loader makes of the chunk of `f`, the functions
among the constants being related by `R`; the fields are those of `f` after a trip through the
fields of the header.  `deserializeProgram_imageOf` is the main result: the image of a program is
accepted, and any relation `R` that holds of what the loader makes of a chunk as soon as it holds
of the functions in its pool relates the program to the function the loader returns.
-/

namespace CppLox.Deserializer

open LittleEndian

variable {buffer : List UInt8} {codec : DoubleCodec} {debug : Bool}

/-! ### Blocks -/

theorem decode_blockAt {offset n v : Nat} (h : BlockAt buffer offset (leBytes n v)) :
    decode buffer offset n = .ok (v % 256 ^ n) := by
  have hle := h.le_length
  rw [length_leBytes] at hle
  rw [decode_of_le hle, h.leVal_slice]

theorem readBytes_blockAt {offset : Nat} {bytes : List UInt8} (h : BlockAt buffer offset bytes) :
    readBytes buffer offset bytes.length = .ok bytes := by
  rw [readBytes_of_le h.le_length, h.slice_eq]

/-! ### Strings -/

theorem stringsBody_blockAt {offset : Nat} {s : Bytes} (acc : List (Nat × Bytes))
    (hsz : buffer.length < uint32Max) (h : BlockAt buffer offset (stringRecord s)) :
    stringsBody buffer buffer.length (offset, acc) =
      .ok (offset + (4 + s.length), (offset, s) :: acc) := by
  have hmax : buffer.length < 4294967295 := hsz
  have hle := h.le_length
  rw [length_stringRecord] at hle
  have hlen := decode_blockAt h.left
  rw [Nat.mod_eq_of_lt (by omega)] at hlen
  have hbytes := readBytes_blockAt h.right
  rw [length_leBytes] at hbytes
  unfold stringsBody readString
  rw [u32_of_lt (by omega), if_neg (by omega), hlen, Except.ok_bind]
  dsimp only
  rw [u32_of_lt (by omega), if_neg (by omega), hbytes, Nat.add_assoc]
  rfl

/-- The string loop over the records of `rs`: every string is found at its offset. -/
theorem reaches_strings (hsz : buffer.length < uint32Max) (rs : List Bytes) :
    ∀ offset acc, BlockAt buffer offset (rs.flatMap stringRecord) →
      ∃ strings, Except.Reaches (fun st => decide (st.1 < buffer.length))
          (stringsBody buffer buffer.length) (offset, acc) (offset + recordsSize rs, strings) ∧
        (∀ s ∈ rs, strings.lookup (offsetOf offset rs s) = some s) ∧
        ∀ key < offset, strings.lookup key = acc.lookup key := by
  induction rs with
  | nil => exact fun offset acc _ => ⟨acc, .refl _, by simp, fun _ _ => rfl⟩
  | cons r rs ih =>
      intro offset acc h
      rw [List.flatMap_cons] at h
      have hle := h.left.le_length
      have hrest := h.right
      rw [length_stringRecord] at hle hrest
      obtain ⟨strings, hreach, hfound, hold⟩ := ih _ ((offset, r) :: acc) hrest
      have hsize : recordsSize (r :: rs) = 4 + r.length + recordsSize rs := by
        simp [recordsSize]
      refine ⟨strings, .head (by simp; omega) (stringsBody_blockAt acc hsz h.left) ?_, ?_, ?_⟩
      · rwa [hsize, show offset + (4 + r.length + recordsSize rs) =
          offset + (4 + r.length) + recordsSize rs by omega]
      · intro s hs
        rw [offsetOf]
        by_cases hsr : s = r
        · rw [if_pos hsr, hold offset (by omega), hsr]
          simp
        · rw [if_neg hsr]
          exact hfound s ((List.mem_cons.mp hs).resolve_left hsr)
      · intro key hkey
        rw [hold key (by omega), List.lookup_cons, beq_false_of_ne (by omega)]

/-- The string section of an image is read back. -/
theorem deserializeStrings_spec {fuel count : Nat} (rs : List Bytes)
    (hsz : 8 + recordsSize rs < uint32Max) (hfuel : 8 + recordsSize rs ≤ fuel)
    (hbuf : buffer = leBytes 4 count ++ leBytes 4 (8 + recordsSize rs) ++
      rs.flatMap stringRecord) :
    ∃ strings, deserializeStrings fuel buffer buffer.length = .ok strings ∧
      ∀ s ∈ rs, strings.lookup (offsetOf 8 rs s) = some s := by
  have hlen : buffer.length = 8 + recordsSize rs := by
    rw [hbuf]
    simp only [List.length_append, length_leBytes, length_flatMap_stringRecord]
  have hblock : BlockAt buffer 8 (rs.flatMap stringRecord) :=
    ⟨leBytes 4 count ++ leBytes 4 (8 + recordsSize rs), [], by simp [hbuf], by simp⟩
  have hsize : BlockAt buffer 4 (leBytes 4 (8 + recordsSize rs)) :=
    ⟨leBytes 4 count, rs.flatMap stringRecord, by simp [hbuf], by simp⟩
  have hheader : StringHeaderOk buffer := by
    refine ⟨by omega, ?_⟩
    rw [fieldAt, hsize.leVal_slice, hlen, Nat.mod_eq_of_lt]
    simp only [uint32Max] at hsz
    omega
  obtain ⟨strings, hreach, hfound, -⟩ := reaches_strings (by omega) rs 8 [] hblock
  refine ⟨strings, ?_, hfound⟩
  rw [deserializeStrings_of_header hheader]
  have hloop : readStrings fuel buffer buffer.length = .ok (8 + recordsSize rs, strings) :=
    Except.whileE_eq_ok (readStrings_ne_outOfFuel (by omega) (by omega)) hreach
      (by simp [hlen])
  rw [hloop, Except.ok_bind]

/-! ### Globals -/

theorem Context.getGlobal_modify_values {context : Context} {name : Bytes}
    (h : name ∉ context.names) (f : GlobalValue → GlobalValue) :
    ((context.getGlobal name).2.modify context.names.length f).values =
      context.values ++ [f {}] := by
  simp only [Context.modify, Context.getGlobal_values_of_not_mem h]
  rw [← context.length_values, List.modify_eq_take_cons_drop (by simp)]
  simp

/-- The loop over the symbol table adds the names in order. -/
theorem readGlobals_spec (strings : List (Nat × Bytes)) {δ : Bytes → Nat}
    (hsz : buffer.length < uint32Max) (symbols : List (Bytes × GlobalValue))
    (hδ : ∀ p ∈ symbols, strings.lookup (δ p.1) = some p.1 ∧ δ p.1 < 4294967296) :
    ∀ (offset : Nat) (context : Context),
      (context.names ++ symbols.map Prod.fst).Nodup →
      BlockAt buffer offset (symbolRecords δ symbols) →
      ∃ context', readGlobals strings buffer symbols.length context.names.length offset context =
          .ok context' ∧
        context'.names = context.names ++ symbols.map Prod.fst ∧
        context'.values =
          context.values ++ symbols.map fun p => { isConst := p.2.isConst } := by
  have hmax : buffer.length < 4294967295 := hsz
  induction symbols with
  | nil => exact fun offset context _ _ => ⟨context, rfl, by simp, by simp⟩
  | cons p symbols ih =>
      intro offset context hnd h
      obtain ⟨name, value⟩ := p
      have hcons : symbolRecords δ ((name, value) :: symbols) =
          Serializer.symbolRecord (δ name) value.isConst ++ symbolRecords δ symbols := rfl
      rw [hcons] at h
      have hle := h.le_length
      rw [List.length_append, length_symbolRecord] at hle
      have hrest := h.right
      rw [length_symbolRecord] at hrest
      obtain ⟨hlookup, hlt⟩ := hδ _ List.mem_cons_self
      dsimp only at hlookup hlt
      have hindex := decode_blockAt (n := 4) h.left.left.left.left
      rw [Nat.mod_eq_of_lt (by omega)] at hindex
      have hconst := decode_blockAt (n := 1) h.left.left.left.right
      rw [length_leBytes, Nat.mod_eq_of_lt (by cases value.isConst <;> simp)] at hconst
      -- the name is new, so it gets the next index
      have hfresh : name ∉ context.names := by
        intro hm
        exact (List.nodup_append.mp hnd).2.2 name hm name (by simp) rfl
      have hnames : ((context.getGlobal name).2.modify context.names.length fun v =>
          { v with isConst := value.isConst }).names = context.names ++ [name] := by
        rw [Context.modify_names, Context.getGlobal_names_of_not_mem hfresh]
      have hvalues := Context.getGlobal_modify_values hfresh fun v =>
        { v with isConst := value.isConst }
      obtain ⟨context', hread, hn, hv⟩ := ih (fun p hp => hδ p (List.mem_cons_of_mem _ hp))
        (offset + 8) ((context.getGlobal name).2.modify context.names.length fun v =>
          { v with isConst := value.isConst }) (by rw [hnames]; simpa using hnd) hrest
      refine ⟨context', ?_, by rw [hn, hnames]; simp, by rw [hv, hvalues]; simp⟩
      rw [List.length_cons, readGlobals, hindex, Except.ok_bind, hconst, Except.ok_bind,
        decode_of_le (by omega), Except.ok_bind, decode_of_le (by omega), Except.ok_bind,
        hlookup]
      dsimp only
      rw [Context.getGlobal_fst_of_not_mem hfresh, if_neg (by simp), u32_of_lt (by omega)]
      have hbool : decide (value.isConst.toNat ≠ 0) = value.isConst := by
        cases value.isConst <;> rfl
      rw [hbool]
      rwa [hnames, List.length_append, List.length_singleton] at hread

/-- The symbol table of an image is read back into an empty context. -/
theorem deserializeGlobalTable_spec (strings : List (Nat × Bytes)) {δ : Bytes → Nat}
    (context : Context) (hn : context.names.length ≤ 65535)
    (hδ : ∀ name ∈ context.names, strings.lookup (δ name) = some name ∧ δ name < 4294967296)
    (hbuf : buffer = leBytes 2 context.names.length ++ leBytes 2 0 ++
      symbolRecords δ (context.names.zip context.values)) :
    ∃ context', deserializeGlobalTable strings .empty buffer buffer.length = .ok context' ∧
      context'.names = context.names ∧
      context'.values = context.values.map fun v => { isConst := v.isConst } := by
  have hzip : (context.names.zip context.values).length = context.names.length := by
    rw [List.length_zip, context.length_values, Nat.min_self]
  have hlen : buffer.length = context.names.length * 8 + 4 := by
    rw [hbuf]
    simp only [List.length_append, length_leBytes, length_symbolRecords, hzip]
    omega
  have hcount : BlockAt buffer 0 (leBytes 2 context.names.length) :=
    ⟨[], _, by rw [hbuf, List.nil_append, List.append_assoc], rfl⟩
  have hblock : BlockAt buffer 4 (symbolRecords δ (context.names.zip context.values)) :=
    ⟨_, [], by rw [hbuf, List.append_nil], by simp⟩
  have hfst := Serializer.map_fst_zip_names context
  obtain ⟨context', hread, hnames, hvalues⟩ := readGlobals_spec strings
    (by simp only [uint32Max]; omega) (context.names.zip context.values)
    (fun p hp => hδ p.1 (hfst ▸ List.mem_map_of_mem hp)) 4 .empty
    (by simpa [Context.empty, hfst] using context.nodup_names) hblock
  refine ⟨context', ?_, by simpa [Context.empty, hfst] using hnames, ?_⟩
  · unfold deserializeGlobalTable
    rw [if_neg (by omega), decode_blockAt hcount, Except.ok_bind, decode_of_le (by omega),
      Except.ok_bind, Nat.mod_eq_of_lt (by omega), if_neg (by omega), ← hzip]
    exact hread
  · rw [hvalues]
    have hsnd : (context.names.zip context.values).map Prod.snd = context.values :=
      List.map_snd_zip (by rw [context.length_values])
    conv_rhs => rw [← hsnd, List.map_map]
    simp [Context.empty]

/-! ### Constants -/

/-- What the loader makes of a constant. -/
inductive LoadsConstant (codec : DoubleCodec) (R : ObjectFunction → ObjectFunction → Prop) :
    Constant ObjectFunction → Constant ObjectFunction → Prop where
  | nil : LoadsConstant codec R .nil .nil
  | boolean (b : Bool) : LoadsConstant codec R (.boolean b) (.boolean b)
  | real (d : UInt64) :
      LoadsConstant codec R (.real d) (.real (codec.unpack (codec.pack d)))
  | integer (i : Int64) : LoadsConstant codec R (.integer i) (.integer i)
  | string (s : Bytes) : LoadsConstant codec R (.string s) (.string s)
  | function {f g : ObjectFunction} : R f g → LoadsConstant codec R (.function f) (.function g)

/-- What the loader makes of the chunk of a function. -/
structure Loads (codec : DoubleCodec) (debug : Bool) (R : ObjectFunction → ObjectFunction → Prop)
    (f g : ObjectFunction) : Prop where
  arity : g.arity = f.arity % 256
  upvalueCount : g.upvalueCount = f.upvalueCount
  name : g.name = f.name
  code : g.code = f.code
  constants : List.Forall₂ (LoadsConstant codec R) f.constants g.constants
  lines : debug = true → g.lines = f.lines

/-- The function the loader allocates at `addr` for the chunk of `f` whose pool it has read. -/
def loadedFunction (debug : Bool) (addr : Addr) (f : ObjectFunction)
    (pool : List (Constant ObjectFunction)) : ObjectFunction :=
  ⟨addr, f.arity % 256, f.upvalueCount, f.name, f.code, pool, if debug then f.lines else []⟩

theorem loads_loadedFunction {R : ObjectFunction → ObjectFunction → Prop} {f : ObjectFunction}
    {pool : List (Constant ObjectFunction)} (addr : Addr)
    (h : List.Forall₂ (LoadsConstant codec R) f.constants pool) :
    Loads codec debug R f (loadedFunction debug addr f pool) :=
  ⟨rfl, rfl, rfl, rfl, h, fun hd => by rw [loadedFunction, hd, if_pos rfl]⟩

/-- A tag and eight bytes of payload. -/
theorem decode_record {offset tag : Nat} {payload : List UInt8} (htag : tag < 256)
    (hp : payload.length = 8) (h : BlockAt buffer offset (leBytes 1 tag ++ payload)) :
    decode buffer offset 1 = .ok tag ∧ decode buffer (offset + 1) 8 = .ok (leVal payload) := by
  have ht := decode_blockAt h.left
  rw [Nat.mod_eq_of_lt (by omega)] at ht
  refine ⟨ht, ?_⟩
  have hle := h.right.le_length
  rw [length_leBytes, hp] at hle
  have hs := h.right.slice_eq
  rw [length_leBytes, hp] at hs
  rw [decode_of_le hle, hs]

section Pool

variable {strings : List (Nat × Bytes)} {functions : List (Nat × ObjectFunction)}
  {δ : Bytes → Nat} {R : ObjectFunction → ObjectFunction → Prop}

theorem readConstant_spec (strings : List (Nat × Bytes))
    (functions : List (Nat × ObjectFunction)) (R : ObjectFunction → ObjectFunction → Prop)
    {offset k : Nat} {c : Constant ObjectFunction}
    (hδ : ∀ s ∈ c.strings, strings.lookup (δ s) = some s ∧ δ s < uint32Max)
    (hk : k < uint32Max)
    (hf : ∀ f, c = .function f → ∃ g, functions.lookup k = some g ∧ R f g)
    (h : BlockAt buffer offset (constantRecord codec δ k c)) :
    ∃ c', readConstant codec strings functions buffer offset = .ok c' ∧
      LoadsConstant codec R c c' := by
  unfold readConstant
  cases c with
  | nil =>
      obtain ⟨ht, hv⟩ := decode_record (by decide) (by simp) h
      rw [ht, Except.ok_bind, hv, Except.ok_bind]
      exact ⟨_, rfl, .nil⟩
  | boolean b =>
      obtain ⟨ht, hv⟩ := decode_record (by decide) (by simp) h
      rw [ht, Except.ok_bind, hv, Except.ok_bind]
      refine ⟨.boolean b, ?_, .boolean b⟩
      cases b <;> rfl
  | real d =>
      obtain ⟨ht, hv⟩ := decode_record (by decide) (by simp) h
      rw [ht, Except.ok_bind, hv, Except.ok_bind]
      refine ⟨_, ?_, .real d⟩
      have hd : (codec.pack d).toNat < 256 ^ 8 := (codec.pack d).toNat_lt
      rw [if_neg (by decide), if_neg (by decide), if_pos rfl, Except.ok_bind,
        leVal_leBytes_of_lt hd, UInt64.ofNat_toNat]
  | integer i =>
      obtain ⟨ht, hv⟩ := decode_record (by decide) (by simp) h
      rw [ht, Except.ok_bind, hv, Except.ok_bind]
      refine ⟨_, ?_, .integer i⟩
      have hi : i.toBitVec.toNat < 256 ^ 8 := i.toBitVec.isLt
      rw [if_neg (by decide), if_neg (by decide), if_neg (by decide), if_pos rfl,
        leVal_leBytes_of_lt hi, BitVec.ofNat_toNat]
      simp
  | string s =>
      obtain ⟨hlookup, hlt⟩ := hδ s (by simp [Constant.strings])
      obtain ⟨ht, hv⟩ := decode_record (by decide) (by simp) h
      have hlt' : δ s < 256 ^ 8 := by
        simp only [uint32Max] at hlt
        omega
      rw [ht, Except.ok_bind, hv, Except.ok_bind, leVal_leBytes_of_lt hlt']
      refine ⟨_, ?_, .string s⟩
      rw [if_neg (by decide), if_neg (by decide), if_neg (by decide), if_neg (by decide),
        if_pos rfl, if_neg (by omega), hlookup]
  | function f =>
      obtain ⟨g, hlookup, hR⟩ := hf f rfl
      obtain ⟨ht, hv⟩ := decode_record (by decide) (by simp) h
      have hlt' : k < 256 ^ 8 := by
        simp only [uint32Max] at hk
        omega
      rw [ht, Except.ok_bind, hv, Except.ok_bind, leVal_leBytes_of_lt hlt']
      refine ⟨_, ?_, .function hR⟩
      rw [if_neg (by decide), if_neg (by decide), if_neg (by decide), if_neg (by decide),
        if_neg (by decide), if_pos rfl, if_neg (by omega), hlookup]

/-- A pool is read back when its strings and its functions are known. -/
theorem deserializeConstantPool_spec {L : List ObjectFunction}
    (constants : List (Constant ObjectFunction))
    (hδ : ∀ s ∈ poolStrings constants, strings.lookup (δ s) = some s ∧ δ s < uint32Max) :
    ∀ offset k, AtPool L k constants → k + (poolPreorder constants).length < uint32Max →
      (∀ j f, k ≤ j → At L j f → ∃ g, functions.lookup j = some g ∧ R f g) →
      BlockAt buffer offset (poolRecords codec δ k constants) →
      ∃ pool, deserializeConstantPool codec strings functions buffer constants.length offset =
          .ok pool ∧ List.Forall₂ (LoadsConstant codec R) constants pool := by
  induction constants with
  | nil => exact fun offset k _ _ _ _ => ⟨[], rfl, .nil⟩
  | cons c constants ih =>
      intro offset k hat hk hf h
      rw [poolStrings_cons] at hδ
      rw [poolPreorder_cons, List.length_append] at hk
      rw [poolRecords] at h
      obtain ⟨c', hc, hload⟩ := readConstant_spec strings functions R
        (fun s hs => hδ s (List.mem_append_left _ hs)) (by omega)
        (fun f hcf => hf k f (Nat.le_refl k) (by subst hcf; exact hat.function)) h.left
      have hright := h.right
      rw [length_constantRecord] at hright
      obtain ⟨pool, hp, hloads⟩ := ih (fun s hs => hδ s (List.mem_append_right _ hs))
        (offset + 9) _ hat.tail (by omega) (fun j f hj => hf j f (by omega)) hright
      refine ⟨c' :: pool, ?_, .cons hload hloads⟩
      rw [List.length_cons, deserializeConstantPool, hc, Except.ok_bind, hp, Except.ok_bind]
      rfl

end Pool

/-! ### Code and line tables -/

theorem readLines_spec (hsz : buffer.length < uint32Max) (lines : List LineInfo) :
    ∀ offset, BlockAt buffer offset (lines.flatMap fun line =>
        leBytes 4 line.offset.toBitVec.toNat ++ leBytes 4 line.lineNumber.toBitVec.toNat) →
      readLines buffer lines.length offset = .ok (lines, offset + 8 * lines.length) := by
  have hmax : buffer.length < 4294967295 := hsz
  induction lines with
  | nil => exact fun offset _ => rfl
  | cons line lines ih =>
      intro offset h
      rw [List.flatMap_cons] at h
      have hle := h.left.le_length
      have hrest := h.right
      simp only [List.length_append, length_leBytes] at hle hrest
      have ho := decode_blockAt h.left.left
      have hl := decode_blockAt h.left.right
      rw [length_leBytes] at hl
      have hlto : line.offset.toBitVec.toNat < 256 ^ 4 := line.offset.toBitVec.isLt
      have hltl : line.lineNumber.toBitVec.toNat < 256 ^ 4 := line.lineNumber.toBitVec.isLt
      rw [Nat.mod_eq_of_lt hlto] at ho
      rw [Nat.mod_eq_of_lt hltl] at hl
      rw [List.length_cons, readLines, ho, Except.ok_bind, hl, Except.ok_bind]
      dsimp only
      rw [u32_of_lt (by omega), ih (offset + 8) hrest, Except.ok_bind]
      simp only [BitVec.ofNat_toNat, BitVec.setWidth_eq, Int32.ofBitVec_toBitVec]
      show Except.ok _ = _
      rw [show offset + 8 + 8 * lines.length = offset + 8 * (lines.length + 1) by omega]

/-- A code block and the line table after it are read back. -/
theorem readCode_spec (hsz : buffer.length < uint32Max) {offset : Nat} {code : List UInt8}
    {lines : List LineInfo} (h : BlockAt buffer offset (code ++ lineTable debug lines)) :
    readCode buffer buffer.length offset code.length debug.toNat =
      .ok (code, if debug then lines else [],
        offset + code.length + (lineTable debug lines).length) := by
  have hmax : buffer.length < 4294967295 := hsz
  have hle := h.le_length
  rw [List.length_append] at hle
  have hcode := readBytes_blockAt h.left
  unfold readCode
  rw [u32_of_lt (by omega), if_neg (by omega), hcode, Except.ok_bind]
  dsimp only
  have htable := h.right
  cases debug with
  | false => rfl
  | true =>
      simp only [lineTable, if_true] at htable
      rw [length_lineTable, if_pos rfl] at hle ⊢
      have hcount := decode_blockAt htable.left.left
      rw [Nat.mod_eq_of_lt (by omega)] at hcount
      have hpairs := htable.right
      simp only [List.length_append, length_leBytes] at hpairs
      simp only [Bool.toNat_true, if_true]
      rw [deserializeDebugInfo, u32_of_lt (by omega), if_neg (by omega), hcount,
        Except.ok_bind, decode_of_le (by omega), Except.ok_bind]
      dsimp only
      rw [u32_of_lt (n := lines.length * 8) (by omega), u32_of_lt (by omega), if_neg (by omega),
        readLines_spec hsz lines _ hpairs, Except.ok_bind]
      show Except.ok _ = _
      rw [show offset + code.length + 8 + 8 * lines.length =
        offset + code.length + (8 + 8 * lines.length) by omega]

/-! ### Chunks -/

/-- The header of a chunk of the layout. -/
theorem headerAt_chunkOf {offset k : Nat} {f : ObjectFunction} {δ : Bytes → Nat}
    (h : BlockAt buffer offset (Serializer.chunkHeader debug f (δ f.name) k)) :
    headerAt buffer offset =
      ⟨70, δ f.name % 256 ^ 4, f.arity % 256, f.upvalueCount % 256 ^ 2,
        f.constants.length % 256 ^ 2, f.code.length % 256 ^ 4, debug.toNat, k % 256 ^ 4⟩ := by
  unfold Serializer.chunkHeader at h
  have h₇ := h.left.left
  have h₆ := h₇.left
  have h₅ := h₆.left
  have h₄ := h₅.left
  have h₃ := h₄.left
  have h₂ := h₃.left
  have h₁ := h₂.left
  have hid := h₇.right
  have hdebug := h₆.right
  have hcode := h₅.right
  have hpool := h₄.right
  have hup := h₃.right
  have harity := h₂.right
  have hname := h₁.right
  simp only [List.length_append, length_leBytes] at hid hdebug hcode hpool hup harity hname
  have hb : debug.toNat % 256 ^ 1 = debug.toNat := by cases debug <;> rfl
  simp only [headerAt, fieldAt, h₁.left.leVal_slice, hname.leVal_slice, harity.leVal_slice,
    hup.leVal_slice, hpool.leVal_slice, hcode.leVal_slice, hdebug.leVal_slice, hid.leVal_slice,
    hb]
  rfl

section Chunks

variable {strings : List (Nat × Bytes)} {δ : Bytes → Nat}
  {R : ObjectFunction → ObjectFunction → Prop} {L : List ObjectFunction}

/-- An iteration over the chunk of a function whose pool is known. -/
theorem readChunk_spec (strings : List (Nat × Bytes)) {k offset : Nat} {f : ObjectFunction} {st : Functions}
    (hsz : buffer.length < uint32Max) (hat : At L k f) (hL : L.length < uint32Max)
    (hδ : ∀ s ∈ f.strings, strings.lookup (δ s) = some s ∧ δ s < uint32Max)
    (hup : f.upvalueCount ≤ 65535) (hpool : f.constants.length ≤ 65535)
    (hnew : st.functions.lookup k = none)
    (hf : ∀ j g, k < j → At L j g → ∃ g', st.functions.lookup j = some g' ∧ R g g')
    (hR : ∀ pool, List.Forall₂ (LoadsConstant codec R) f.constants pool →
      R f (loadedFunction debug st.nextAddr f pool))
    (h : BlockAt buffer offset (chunkOf codec debug δ k f)) :
    ∃ g, R f g ∧ readChunk codec strings buffer buffer.length offset st =
      .ok (offset + chunkSize debug f, ⟨(k, g) :: st.functions, st.nextAddr + 1⟩) := by
  have hmax : buffer.length < 4294967295 := hsz
  have hk : k < uint32Max := by
    have := (List.getElem?_eq_some_iff.mp hat.getElem?).1
    omega
  have hkmax : k < 4294967295 := hk
  obtain ⟨hname, hnamelt⟩ := hδ f.name (by rw [f.strings_eq]; exact List.mem_cons_self)
  have hnamemax : δ f.name < 4294967295 := hnamelt
  have hle := h.le_length
  rw [length_chunkOf, chunkSize] at hle
  unfold chunkOf at h
  have hheader := headerAt_chunkOf h.left.left.left
  have hrecords := h.left.left.right
  rw [List.append_assoc] at h
  have hcode := h.right
  simp only [List.length_append, length_chunkHeader, length_poolRecords] at hrecords hcode
  -- the ids of the functions in the pool follow the id of this one
  have hpreorder : k + 1 + (poolPreorder f.constants).length < uint32Max := by
    obtain ⟨post, hdrop⟩ := hat
    have := congrArg List.length hdrop
    rw [List.length_drop, List.length_append, f.preorder_eq, List.length_cons] at this
    omega
  obtain ⟨pool, hread, hloads⟩ := deserializeConstantPool_spec (R := R) f.constants
    (fun s hs => hδ s (by rw [f.strings_eq]; exact List.mem_cons_of_mem _ hs))
    (offset + 24) (k + 1) hat.pool hpreorder (fun j g hj => hf j g hj) hrecords
  have hcoderead := readCode_spec hsz hcode
  refine ⟨loadedFunction debug st.nextAddr f pool, hR pool hloads, ?_⟩
  unfold readChunk
  rw [u32_of_lt (by omega), if_neg (by omega), decodeHeader_of_le (by omega), Except.ok_bind,
    hheader]
  dsimp only
  rw [if_neg (by decide), Nat.mod_eq_of_lt (a := δ f.name) (by omega), hname]
  dsimp only
  rw [Nat.mod_eq_of_lt (a := f.constants.length) (by omega),
    Nat.mod_eq_of_lt (a := f.upvalueCount) (by omega), Nat.mod_eq_of_lt (a := k) (by omega),
    Nat.mod_eq_of_lt (a := f.code.length) (by omega), u32_of_lt (by omega), if_neg (by omega),
    hread, Except.ok_bind, show offset + 24 + f.constants.length * 9 =
      offset + (24 + 9 * f.constants.length) by omega, hcoderead, Except.ok_bind]
  dsimp only
  rw [register, hnew, Option.isSome_none, if_neg (by simp), Except.ok_bind, length_lineTable]
  show Except.ok _ = _
  rw [show offset + (24 + 9 * f.constants.length) + f.code.length +
    (if debug then 8 + 8 * f.lines.length else 0) = offset + chunkSize debug f by
      rw [chunkSize]; omega]
  rfl

/-- The chunk loop over the chunks of a program, down to id `i`: the functions from `i` on are
known, and no other.  The function with the greatest id is allocated first. -/
theorem reaches_chunks (strings : List (Nat × Bytes)) (nextAddr : Addr)
    (R : ObjectFunction → ObjectFunction → Prop) (hsz : buffer.length < uint32Max)
    (hbuf : buffer = chunksOf codec debug δ 0 L) (hL : L.length < uint32Max)
    (hat : ∀ i < L.length, ∃ f, At L i f)
    (hδ : ∀ f ∈ L, ∀ s ∈ f.strings, strings.lookup (δ s) = some s ∧ δ s < uint32Max)
    (hcounts : ∀ f ∈ L, f.upvalueCount ≤ 65535 ∧ f.constants.length ≤ 65535)
    (hR : ∀ i f, At L i f → ∀ pool, List.Forall₂ (LoadsConstant codec R) f.constants pool →
      R f (loadedFunction debug (nextAddr + (L.length - (i + 1))) f pool)) :
    ∀ n i, i + n = L.length → ∃ st offset,
      Except.Reaches (fun st => decide (st.1 < buffer.length))
        (fun st => readChunk codec strings buffer buffer.length st.1 st.2)
        (0, ⟨[], nextAddr⟩) (offset, st) ∧
      offset = ((L.drop i).map (chunkSize debug)).sum ∧
      st.nextAddr = nextAddr + (L.length - i) ∧
      (∀ j < i, st.functions.lookup j = none) ∧
      ∀ j g, i ≤ j → At L j g → ∃ g', st.functions.lookup j = some g' ∧ R g g' := by
  intro n
  induction n with
  | zero =>
      intro i hi
      refine ⟨⟨[], nextAddr⟩, 0, .refl _, ?_, ?_, fun _ _ => rfl, ?_⟩
      · rw [List.drop_eq_nil_of_le (by omega)]
        rfl
      · rw [show L.length - i = 0 by omega, Nat.add_zero]
      · intro j g hj hat'
        have := (List.getElem?_eq_some_iff.mp hat'.getElem?).1
        omega
  | succ n ih =>
      intro i hi
      -- the chunks stand in reverse order, so those of larger ids have been read
      obtain ⟨st, offset, hreach, ho, hnext, hnone, hsome⟩ := ih (i + 1) (by omega)
      obtain ⟨f, hf⟩ := hat i (by omega)
      have hget := hf.getElem?
      have hmem : f ∈ L := List.mem_of_getElem? hget
      have hblock := blockAt_chunksOf codec debug δ hget
      rw [← hbuf, chunkOffset, ← ho] at hblock
      obtain ⟨g, hRg, hread⟩ := readChunk_spec strings hsz hf hL (hδ f hmem)
        (hcounts f hmem).1 (hcounts f hmem).2 (hnone i (by omega))
        (fun j g hj => hsome j g hj) (hnext ▸ hR i f hf) hblock
      have hle := hblock.le_length
      rw [length_chunkOf, chunkSize] at hle
      refine ⟨⟨(i, g) :: st.functions, st.nextAddr + 1⟩, offset + chunkSize debug f,
        hreach.tail (by simp; omega) hread, ?_, ?_, ?_, ?_⟩
      · obtain ⟨hi', hfi⟩ := List.getElem?_eq_some_iff.mp hget
        rw [← List.cons_getElem_drop_succ (h := hi'), hfi, List.map_cons, List.sum_cons, ho]
        omega
      · change st.nextAddr + 1 = _
        rw [hnext, Nat.add_assoc, show L.length - (i + 1) + 1 = L.length - i by omega]
      · intro j hj
        rw [List.lookup_cons, beq_false_of_ne (by omega)]
        exact hnone j (by omega)
      · intro j g' hj hat'
        by_cases hji : j = i
        · subst hji
          have : g' = f := Option.some.inj (hat'.getElem?.symm.trans hget)
          subst this
          exact ⟨g, by simp, hRg⟩
        · rw [List.lookup_cons, beq_false_of_ne hji]
          exact hsome j g' (by omega) hat'

end Chunks

end CppLox.Deserializer
