import CppLox.Library.Except
import CppLox.Serialization.Layout
import Mathlib.Data.List.Induction

/-!
# Serialization — what the writer writes

`Holds st rs` says that the string block of the writer's state is that of the distinct strings
`rs`.  `Writes` is the triple of a part of the writer: started in a state whose block holds `rs`,
it returns in a state where the strings `ss` were added and the functions `fs` have the next ids,
each with the chunk of the layout, or it throws and one of the four limits it checks is exceeded
(`Overflows`).  `Writes.bind` sequences two parts.

The main result is `serializeFunction_writes`, by induction over the function tree;
`serializeProgram_ok` and `serializeProgram_error` are its consequences for a program.
-/

namespace CppLox.Serializer

open LittleEndian

variable {codec : DoubleCodec} {debug : Bool}

/-- The longest string the writer writes: with its length before it, `2 ^ 31 - 1` bytes. -/
def stringMax : Nat := 2147483643

/-- The string block holds the strings `rs`. -/
structure Holds (st : Serializer) (rs : List Bytes) : Prop where
  block : st.stringsBlock = List.replicate 8 0 ++ rs.flatMap stringRecord
  offsets : ∀ s, st.stringsOffset.lookup s = if s ∈ rs then some (offsetOf 8 rs s) else none
  count : st.stringCount = u32 rs.length
  lengths : ∀ s ∈ rs, s.length ≤ stringMax

/-- One of the limits the writer checks is exceeded when `fs` are written from id `k` on and the
strings are `rs`. -/
def Overflows (debug : Bool) (k : Nat) (fs : List ObjectFunction) (rs : List Bytes) : Prop :=
  uint16Max < k + fs.length ∨ (debug = true ∧ ∃ g ∈ fs, uint32Max ≤ g.lines.length) ∨
    uint32Max ≤ 8 + recordsSize rs ∨ ∃ s ∈ rs, stringMax < s.length

/-- From `st` to `st'` the functions `fs` were written with the next ids, and the block came to
hold `rs`. -/
structure Written (codec : DoubleCodec) (debug : Bool) (st st' : Serializer) (rs : List Bytes)
    (fs : List ObjectFunction) : Prop where
  holds : Holds st' rs
  counter : st'.chunkCounter = st.chunkCounter + fs.length
  bound : st'.chunkCounter ≤ uint16Max
  below : ∀ i < st.chunkCounter, st'.chunks i = st.chunks i
  lines : debug = true → ∀ g ∈ fs, g.lines.length < uint32Max
  chunks : ∀ rsF, rs <+: rsF → ∀ i g, fs[i]? = some g →
    st'.chunks (st.chunkCounter + i) =
      chunkOf codec debug (offsetOf 8 rsF) (st.chunkCounter + i) g

/-- The triple of a part of the writer. -/
def Writes {α : Type} (codec : DoubleCodec) (debug : Bool) (st : Serializer) (rs ss : List Bytes)
    (fs : List ObjectFunction) (post : List Bytes → α → Prop) :
    Except String (α × Serializer) → Prop
  | .ok (a, st') => Written codec debug st st' (intern rs ss) fs ∧
      ∀ rsF, intern rs ss <+: rsF → post rsF a
  | .error _ => Overflows debug st.chunkCounter fs (intern rs ss)

theorem Holds.length {st : Serializer} {rs : List Bytes} (h : Holds st rs) :
    st.stringsBlock.length = 8 + recordsSize rs := by
  rw [h.block, List.length_append, List.length_replicate, length_flatMap_stringRecord]

theorem Overflows.left {k : Nat} {fs fs' : List ObjectFunction} {rs rs' : List Bytes}
    (h : Overflows debug k fs rs) (hrs : rs <+: rs') : Overflows debug k (fs ++ fs') rs' := by
  rcases h with h | ⟨hd, g, hg, hl⟩ | h | ⟨s, hs, hl⟩
  · exact .inl (by rw [List.length_append]; omega)
  · exact .inr (.inl ⟨hd, g, List.mem_append_left _ hg, hl⟩)
  · have := recordsSize_le_of_prefix hrs
    exact .inr (.inr (.inl (by omega)))
  · exact .inr (.inr (.inr ⟨s, hrs.subset hs, hl⟩))

theorem Overflows.right {k : Nat} (fs : List ObjectFunction) {fs' : List ObjectFunction}
    {rs : List Bytes} (h : Overflows debug (k + fs.length) fs' rs) : Overflows debug k (fs ++ fs') rs := by
  rcases h with h | ⟨hd, g, hg, hl⟩ | h
  · exact .inl (by rw [List.length_append]; omega)
  · exact .inr (.inl ⟨hd, g, List.mem_append_right _ hg, hl⟩)
  · exact .inr (.inr h)

theorem Written.trans {st st₁ st₂ : Serializer} {rs₁ rs₂ : List Bytes}
    {fs₁ fs₂ : List ObjectFunction} (h₁ : Written codec debug st st₁ rs₁ fs₁)
    (h₂ : Written codec debug st₁ st₂ rs₂ fs₂) (hrs : rs₁ <+: rs₂) :
    Written codec debug st st₂ rs₂ (fs₁ ++ fs₂) := by
  have hc₁ := h₁.counter
  have hc₂ := h₂.counter
  refine ⟨h₂.holds, ?_, h₂.bound, ?_, ?_, ?_⟩
  · rw [List.length_append]
    omega
  · intro i hi
    rw [h₂.below i (by omega), h₁.below i hi]
  · intro hd g hg
    rcases List.mem_append.mp hg with hg | hg
    · exact h₁.lines hd g hg
    · exact h₂.lines hd g hg
  · intro rsF hF i g hg
    by_cases hi : i < fs₁.length
    · rw [List.getElem?_append_left hi] at hg
      rw [h₂.below _ (by omega), h₁.chunks rsF (hrs.trans hF) i g hg]
    · rw [List.getElem?_append_right (by omega)] at hg
      have := h₂.chunks rsF hF _ g hg
      rwa [hc₁, show st.chunkCounter + fs₁.length + (i - fs₁.length) = st.chunkCounter + i by
        omega] at this

/-- Two parts in sequence. -/
theorem Writes.bind {α β : Type} {st : Serializer} {rs ss t : List Bytes}
    {fs g : List ObjectFunction} {P : List Bytes → α → Prop} {Q : List Bytes → β → Prop}
    {x : Except String (α × Serializer)} {f : α × Serializer → Except String (β × Serializer)}
    (hx : Writes codec debug st rs ss fs P x)
    (hf : ∀ a st₁, Written codec debug st st₁ (intern rs ss) fs →
      Writes codec debug st₁ (intern rs ss) t g (fun rsF b => P rsF a → Q rsF b)
        (f (a, st₁))) :
    Writes codec debug st rs (ss ++ t) (fs ++ g) Q (x >>= f) := by
  have hpre : intern rs ss <+: intern rs (ss ++ t) := by
    rw [intern_append]
    exact prefix_intern _ _
  cases x with
  | error e => exact Overflows.left (show Overflows debug _ fs _ from hx) hpre
  | ok p =>
      obtain ⟨a, st₁⟩ := p
      obtain ⟨hw, hp⟩ := hx
      have hk := hf a st₁ hw
      rw [Except.ok_bind]
      unfold Writes at hk ⊢
      rw [intern_append] at hpre ⊢
      split at hk
      · rename_i b st₂ _
        exact ⟨hw.trans hk.1 hpre, fun rsF hF => hk.2 rsF hF (hp rsF (hpre.trans hF))⟩
      · rw [hw.counter] at hk
        exact Overflows.right _ hk

/-- A part that only returns. -/
theorem Writes.pure {α : Type} {st : Serializer} {rs : List Bytes}
    {P : List Bytes → α → Prop} {a : α} (hst : Holds st rs) (hb : st.chunkCounter ≤ uint16Max)
    (hP : ∀ rsF, P rsF a) : Writes codec debug st rs [] [] P (.ok (a, st)) :=
  ⟨⟨hst, rfl, hb, fun _ _ => rfl, by simp, by simp⟩, fun rsF _ => hP rsF⟩

/-- A part whose result is passed on. -/
theorem Writes.map {α β : Type} {st : Serializer} {rs ss : List Bytes}
    {fs : List ObjectFunction} {P : List Bytes → α → Prop} {Q : List Bytes → β → Prop}
    {x : Except String (α × Serializer)} (hx : Writes codec debug st rs ss fs P x) (g : α → β)
    (hg : ∀ rsF a, P rsF a → Q rsF (g a)) :
    Writes codec debug st rs ss fs Q (do let (a, st) ← x; return (g a, st)) := by
  cases x with
  | error e => exact hx
  | ok p => exact ⟨hx.1, fun rsF hF => hg rsF p.1 (hx.2 rsF hF)⟩

/-! ### Strings -/

/-- The `int` that `encode_length_prefixed` returns is the size of the record exactly when the
string has at most `stringMax` bytes. -/
theorem count_eq_iff (n : Nat) : (Int32.ofNat (4 + u32 n)).toInt = 4 + n ↔ n ≤ stringMax := by
  have hlt : u32 n < 4294967296 := Nat.mod_lt _ (by omega)
  have hmod : u32 n = n % 4294967296 := rfl
  rw [Int32.toInt_ofNat', stringMax]
  simp only [Int.bmod_def, Int32.size]
  omega

theorem serializeString_writes (codec : DoubleCodec) (debug : Bool) {st : Serializer}
    {rs : List Bytes} (hst : Holds st rs)
    (hb : st.chunkCounter ≤ uint16Max) (s : Bytes) :
    Writes codec debug st rs [s] [] (fun rsF index => index = offsetOf 8 rsF s)
      (st.serializeString s) := by
  have hlookup := hst.offsets s
  have hlen := hst.length
  unfold serializeString
  by_cases hs : s ∈ rs
  -- the string is in the block already, at an offset that never changes
  · have hadd : intern rs [s] = rs := by simp [intern, addString, hs]
    rw [if_pos hs] at hlookup
    rw [hlookup]
    unfold Writes
    rw [hadd]
    refine ⟨⟨hst, rfl, hb, fun _ _ => rfl, by simp, by simp⟩, ?_⟩
    rintro _ ⟨rs', rfl⟩
    exact (offsetOf_append_of_mem hs rs' 8).symm
  -- a new record at the end of the block
  · have hadd : intern rs [s] = rs ++ [s] := by simp [intern, addString, hs]
    have hsize : recordsSize (rs ++ [s]) = recordsSize rs + (4 + s.length) := by
      simp [recordsSize]
    rw [if_neg hs] at hlookup
    rw [hlookup]
    dsimp only
    by_cases hbig : st.stringsBlock.length > uint32Max
    · rw [if_pos hbig]
      exact .inr (.inr (.inl (by rw [hadd, hsize]; omega)))
    · have hu : u32 st.stringsBlock.length = 8 + recordsSize rs := by
        rw [hlen] at hbig ⊢
        exact Nat.mod_eq_of_lt (by simp only [uint32Max] at hbig; omega)
      rw [if_neg hbig, hu]
      by_cases hmax : s.length ≤ stringMax
      · have hsz : u32 s.length = s.length :=
          Nat.mod_eq_of_lt (by simp only [stringMax] at hmax; omega)
        rw [if_neg (not_not.mpr ((count_eq_iff _).mpr hmax)), hsz]
        unfold Writes
        rw [hadd]
        refine ⟨⟨⟨?_, ?_, ?_, ?_⟩, rfl, hb, fun _ _ => rfl, by simp, by simp⟩, ?_⟩
        · simp [hst.block, stringRecord]
        · intro t
          simp only [List.lookup_cons]
          by_cases ht : t = s
          · subst ht
            simp [offsetOf_append_self hs]
          · rw [beq_false_of_ne ht, hst.offsets t]
            by_cases htr : t ∈ rs
            · simp [htr, offsetOf_append_of_mem htr]
            · simp [htr, ht]
        · simp only [hst.count, List.length_append, List.length_singleton, u32]
          omega
        · intro t ht
          rcases List.mem_append.mp ht with ht | ht
          · exact hst.lengths t ht
          · rwa [List.mem_singleton.mp ht]
        · rintro _ ⟨rs', rfl⟩
          rw [offsetOf_append_of_mem (by simp) rs', offsetOf_append_self hs]
      · rw [if_pos (mt (count_eq_iff _).mp hmax)]
        exact .inr (.inr (.inr ⟨s, by rw [hadd]; simp, Nat.lt_of_not_le hmax⟩))

/-! ### Functions -/

/-- The record of one constant: an iteration of the loop of `write_constant_pool`. -/
def writeConstant (codec : DoubleCodec) (debug : Bool) (st : Serializer) :
    Constant ObjectFunction → Except String (List UInt8 × Serializer)
  | .nil => .ok (leBytes 1 'N'.toNat ++ leBytes 8 0, st)
  | .boolean b => .ok (leBytes 1 'B'.toNat ++ (leBytes 1 b.toNat ++ leBytes 7 0), st)
  | .real d => .ok (leBytes 1 'R'.toNat ++ leBytes 8 (codec.pack d).toNat, st)
  | .integer i => .ok (leBytes 1 'I'.toNat ++ leBytes 8 i.toBitVec.toNat, st)
  | .string s => do
    let (index, st) ← st.serializeString s
    return (leBytes 1 'S'.toNat ++ leBytes 8 index, st)
  | .function f => do
    let (index, st) ← serializeFunction codec debug st f
    return (leBytes 1 'F'.toNat ++ leBytes 8 index, st)

theorem writeConstantPool_cons (st : Serializer) (c : Constant ObjectFunction)
    (constants : List (Constant ObjectFunction)) :
    writeConstantPool codec debug st (c :: constants) = (do
      let (record, st) ← writeConstant codec debug st c
      let (rest, st) ← writeConstantPool codec debug st constants
      return (record ++ rest, st)) := by
  cases c with
  | string s =>
      cases hs : st.serializeString s <;> simp [writeConstantPool, writeConstant, hs]
  | function f =>
      cases hf : serializeFunction codec debug st f <;> simp [writeConstantPool, writeConstant, hf]
  | _ => simp [writeConstantPool, writeConstant]

theorem serializeFunction_eq (st : Serializer) (f : ObjectFunction) :
    serializeFunction codec debug st f =
      if st.chunkCounter = uint16Max then
        .error "too many chunks, can only serialize < 65535 chunks"
      else do
        let (nameIndex, st₁) ←
          serializeString { st with chunkCounter := st.chunkCounter + 1 } f.name
        let (pool, st₂) ← writeConstantPool codec debug st₁ f.constants
        let debugInfo ← debugSegment debug f.lines
        return (st.chunkCounter, { st₂ with
          chunks := Function.update st₂.chunks st.chunkCounter
            (chunkHeader debug f nameIndex st.chunkCounter ++ pool ++ f.code ++ debugInfo) }) := by
  cases f with
  | mk addr arity upvalueCount name code constants lines =>
      rw [serializeFunction]
      simp only [writeChunkHeader, bind_assoc, pure_bind]

theorem debugSegment_ok {lines : List LineInfo} {bytes : List UInt8}
    (h : debugSegment debug lines = .ok bytes) :
    bytes = lineTable debug lines ∧ (debug = true → lines.length < uint32Max) := by
  unfold debugSegment writeDebugInformation at h
  unfold lineTable
  cases debug with
  | false => exact ⟨by simpa using h.symm, nofun⟩
  | true =>
      simp only [if_true] at h ⊢
      split at h
      · cases h
      · exact ⟨by simpa using h.symm, fun _ => by omega⟩

theorem debugSegment_error {lines : List LineInfo} {e : String}
    (h : debugSegment debug lines = .error e) : debug = true ∧ uint32Max ≤ lines.length := by
  unfold debugSegment writeDebugInformation at h
  cases debug with
  | false => simp at h
  | true =>
      simp only [if_true] at h
      split at h
      · exact ⟨rfl, by omega⟩
      · cases h

section Pool

/-- What a call of `serialize_function` for `f` does. -/
def FunctionWrites (codec : DoubleCodec) (debug : Bool) (f : ObjectFunction) : Prop :=
  ∀ st rs, Holds st rs → st.chunkCounter ≤ uint16Max →
    Writes codec debug st rs f.strings f.preorder (fun _ id => id = st.chunkCounter)
      (serializeFunction codec debug st f)

theorem writeConstant_writes {st : Serializer} {rs : List Bytes} (hst : Holds st rs)
    (hb : st.chunkCounter ≤ uint16Max) {c : Constant ObjectFunction}
    (hc : ∀ f, c = .function f → FunctionWrites codec debug f) :
    Writes codec debug st rs c.strings c.preorder
      (fun rsF bytes => bytes = constantRecord codec (offsetOf 8 rsF) st.chunkCounter c)
      (writeConstant codec debug st c) := by
  cases c with
  | string s =>
      refine (serializeString_writes codec debug hst hb s).map
        (fun index => leBytes 1 'S'.toNat ++ leBytes 8 index) fun rsF index hindex => ?_
      rw [constantRecord, hindex]
  | function f =>
      refine (hc f rfl st rs hst hb).map
        (fun index => leBytes 1 'F'.toNat ++ leBytes 8 index) fun rsF index hindex => ?_
      rw [constantRecord, hindex]
  | _ => exact .pure hst hb fun _ => rfl

theorem writeConstantPool_writes {constants : List (Constant ObjectFunction)}
    (hc : ∀ f, .function f ∈ constants → FunctionWrites codec debug f) :
    ∀ st rs, Holds st rs → st.chunkCounter ≤ uint16Max →
      Writes codec debug st rs (poolStrings constants) (poolPreorder constants)
        (fun rsF bytes => bytes = poolRecords codec (offsetOf 8 rsF) st.chunkCounter constants)
        (writeConstantPool codec debug st constants) := by
  induction constants with
  | nil =>
      intro st rs hst hb
      rw [poolStrings_nil, poolPreorder_nil, writeConstantPool]
      exact .pure hst hb fun _ => rfl
  | cons c constants ih =>
      intro st rs hst hb
      rw [poolStrings_cons, poolPreorder_cons, writeConstantPool_cons]
      have hhead := writeConstant_writes hst hb (c := c) fun f hf =>
        hc f (hf ▸ List.mem_cons_self)
      refine hhead.bind fun record st₁ hw => ?_
      have htail := ih (fun f hf => hc f (List.mem_cons_of_mem _ hf)) st₁ _ hw.holds hw.bound
      refine htail.map (fun rest => record ++ rest) fun rsF rest hrest hrecord => ?_
      rw [poolRecords, ← hw.counter, ← hrecord, hrest]

end Pool

/-- `serialize_function` numbers the functions of the tree in preorder from the counter on and
stores each chunk of the layout under its id. -/
theorem serializeFunction_writes (codec : DoubleCodec) (debug : Bool) (f : ObjectFunction) :
    FunctionWrites codec debug f := by
  induction f using ObjectFunction.inductionOn with
  | h f ih =>
      intro st rs hst hb
      rw [serializeFunction_eq]
      by_cases hmax : st.chunkCounter = uint16Max
      · rw [if_pos hmax]
        refine .inl ?_
        have := f.length_preorder_pos
        omega
      rw [if_neg hmax, f.preorder_eq, f.strings_eq]
      have hst₀ : Holds { st with chunkCounter := st.chunkCounter + 1 } rs :=
        ⟨hst.block, hst.offsets, hst.count, hst.lengths⟩
      have hb₀ : st.chunkCounter + 1 ≤ uint16Max := by omega
      -- the name and the pool, with the counter already past this function's id
      have hname := serializeString_writes codec debug hst₀ hb₀ f.name
      have hpool : Writes codec debug { st with chunkCounter := st.chunkCounter + 1 } rs
          (f.name :: poolStrings f.constants) (poolPreorder f.constants)
          (fun rsF (p : Nat × List UInt8) => p.1 = offsetOf 8 rsF f.name ∧
            p.2 = poolRecords codec (offsetOf 8 rsF) (st.chunkCounter + 1) f.constants)
          (do
            let (nameIndex, st₁) ←
              serializeString { st with chunkCounter := st.chunkCounter + 1 } f.name
            let (pool, st₂) ← writeConstantPool codec debug st₁ f.constants
            return ((nameIndex, pool), st₂)) := by
        refine hname.bind (t := poolStrings f.constants) fun nameIndex st₁ hw => ?_
        have hrest := writeConstantPool_writes ih st₁ _ hw.holds hw.bound
        have hc : st₁.chunkCounter = st.chunkCounter + 1 := by simpa using hw.counter
        refine hrest.map (fun pool => (nameIndex, pool)) fun rsF pool hpool hname => ⟨hname, ?_⟩
        rw [hpool, hc]
      cases hn : serializeString { st with chunkCounter := st.chunkCounter + 1 } f.name with
      | error e =>
          rw [hn] at hpool
          exact Overflows.right [f] hpool
      | ok p₁ =>
          obtain ⟨nameIndex, st₁⟩ := p₁
          rw [hn, Except.ok_bind] at hpool
          rw [Except.ok_bind]
          dsimp only at hpool ⊢
          cases hp : writeConstantPool codec debug st₁ f.constants with
          | error e =>
              rw [hp] at hpool
              exact Overflows.right [f] hpool
          | ok p₂ =>
              obtain ⟨pool, st₂⟩ := p₂
              rw [hp, Except.ok_bind] at hpool
              rw [Except.ok_bind]
              obtain ⟨hw, hpost⟩ := hpool
              cases hd : debugSegment debug f.lines with
              | error e =>
                  -- the line table is the last limit that is checked
                  obtain ⟨hdebug, hl⟩ := debugSegment_error hd
                  exact .inr (.inl ⟨hdebug, f, List.mem_cons_self, hl⟩)
              | ok debugInfo =>
                  obtain ⟨rfl, hl⟩ := debugSegment_ok hd
                  have hcounter := hw.counter
                  dsimp only at hcounter
                  refine ⟨⟨⟨hw.holds.block, hw.holds.offsets, hw.holds.count,
                    hw.holds.lengths⟩, ?_, hw.bound,
                    ?_, ?_, ?_⟩, fun _ _ => rfl⟩
                  · rw [hcounter, List.length_cons]
                    omega
                  · intro i hi
                    show Function.update st₂.chunks _ _ i = _
                    rw [Function.update_of_ne (by omega), hw.below i (by dsimp only; omega)]
                  · intro hdebug g hg
                    rcases List.mem_cons.mp hg with rfl | hg
                    · exact hl hdebug
                    · exact hw.lines hdebug g hg
                  · intro rsF hF i g hg
                    show Function.update st₂.chunks _ _ _ = _
                    cases i with
                    -- this function's own chunk: its offsets are final, by `hF`
                    | zero =>
                        obtain ⟨hname, hpool⟩ := hpost rsF hF
                        dsimp only at hname hpool
                        rw [List.getElem?_cons_zero, Option.some.injEq] at hg
                        rw [← hg, Nat.add_zero, Function.update_self, hname, hpool, chunkOf]
                    -- the chunks of the functions in its pool were stored before and stay
                    | succ i =>
                        rw [List.getElem?_cons_succ] at hg
                        rw [Function.update_of_ne (by omega)]
                        have := hw.chunks rsF hF i g hg
                        rwa [show st.chunkCounter + 1 + i = st.chunkCounter + (i + 1) by
                          omega] at this

/-! ### Programs -/

theorem serializeSymbols_writes (codec : DoubleCodec) (debug : Bool)
    (symbols : List (Bytes × GlobalValue)) :
    ∀ st rs, Holds st rs → st.chunkCounter ≤ uint16Max →
      Writes codec debug st rs (symbols.map Prod.fst) []
        (fun rsF bytes => bytes = symbolRecords (offsetOf 8 rsF) symbols)
        (st.serializeSymbols symbols) := by
  induction symbols with
  | nil => exact fun st rs hst hb => .pure hst hb fun _ => rfl
  | cons p symbols ih =>
      intro st rs hst hb
      obtain ⟨name, value⟩ := p
      refine (serializeString_writes codec debug hst hb name).bind (t := symbols.map Prod.fst)
        fun index st₁ hw => ?_
      refine (ih st₁ _ hw.holds hw.bound).map (fun rest => symbolRecord index value.isConst ++ rest)
        fun rsF rest hrest hindex => ?_
      rw [hindex, hrest]
      rfl

theorem chunksReversed_eq (codec : DoubleCodec) (debug : Bool) {chunks : Nat → List UInt8}
    {δ : Bytes → Nat} (fs : List ObjectFunction)
    (h : ∀ i g, fs[i]? = some g → chunks i = chunkOf codec debug δ i g) :
    chunksReversed chunks fs.length = chunksOf codec debug δ 0 fs := by
  induction fs using List.reverseRecOn with
  | nil => rfl
  | append_singleton fs f ih =>
      have hf := h fs.length f (by simp)
      rw [List.length_append, List.length_singleton, chunksReversed, chunksOf_append, hf,
        ih fun i g hg => h i g (by
          rw [List.getElem?_append_left (List.getElem?_eq_some_iff.mp hg).1]
          exact hg)]
      simp [chunksOf]

theorem holds_init : Holds init [] := ⟨by simp [init], by simp [init], rfl, by simp⟩

theorem map_fst_zip_names (context : Context) :
    (context.names.zip context.values).map Prod.fst = context.names :=
  List.map_fst_zip (by rw [context.length_values])

/-- The strings of a program, each once. -/
def programStrings (f : ObjectFunction) (context : Context) : List Bytes :=
  intern [] (f.strings ++ context.names)

/-- The image of a program. -/
def imageOf (codec : DoubleCodec) (debug : Bool) (f : ObjectFunction) (context : Context) :
    SerializedBytecode :=
  let rs := programStrings f context
  { chunkCount := f.preorder.length
    bytecode := chunksOf codec debug (offsetOf 8 rs) 0 f.preorder
    strings := leBytes 4 (u32 rs.length) ++ leBytes 4 (8 + recordsSize rs) ++
      rs.flatMap stringRecord
    globals := leBytes 2 context.names.length ++ leBytes 2 0 ++
      symbolRecords (offsetOf 8 rs) (context.names.zip context.values) }

/-- The triple of `serialize_program` up to the header of the string block. -/
theorem functionAndSymbols_writes (codec : DoubleCodec) (debug : Bool) (f : ObjectFunction) (context : Context) :
    Writes codec debug init [] (f.strings ++ context.names) f.preorder
      (fun rsF p => p.1 = 0 ∧ p.2 = leBytes 2 context.names.length ++ leBytes 2 0 ++
        symbolRecords (offsetOf 8 rsF) (context.names.zip context.values))
      (do
        let (id, st) ← serializeFunction codec debug init f
        let (globals, st) ← st.serializeSymbolTable context
        return ((id, globals), st)) := by
  have hf := serializeFunction_writes codec debug f init [] holds_init
    (Nat.zero_le _)
  have h := hf.bind (t := context.names) (g := [])
    (Q := fun rsF p => p.1 = 0 ∧ p.2 = leBytes 2 context.names.length ++ leBytes 2 0 ++
        symbolRecords (offsetOf 8 rsF) (context.names.zip context.values))
    (f := fun p => do
      let (globals, st) ← p.2.serializeSymbolTable context
      return ((p.1, globals), st)) fun id st₁ hw => ?_
  · rwa [List.append_nil] at h
  have hs := serializeSymbols_writes codec debug
    (context.names.zip context.values) st₁ _ hw.holds hw.bound
  rw [map_fst_zip_names] at hs
  have ht := hs.map (fun records => leBytes 2 context.names.length ++ leBytes 2 0 ++ records)
    (Q := fun rsF bytes => bytes = leBytes 2 context.names.length ++ leBytes 2 0 ++
        symbolRecords (offsetOf 8 rsF) (context.names.zip context.values))
    fun rsF records hrecords => by rw [hrecords]
  exact ht.map (fun globals => (id, globals)) fun rsF globals hglobals hid => ⟨hid, hglobals⟩

/-- `serialize_program` returns the image of the program unless a limit is exceeded, and throws
if one is. -/
theorem serializeProgram_spec (codec : DoubleCodec) (debug : Bool) (f : ObjectFunction) (context : Context) :
    (¬ Overflows debug 0 f.preorder (programStrings f context) ∧
      serializeProgram codec debug f context = .ok (imageOf codec debug f context)) ∨
    (Overflows debug 0 f.preorder (programStrings f context) ∧
      ∃ e, serializeProgram codec debug f context = .error e) := by
  have h := functionAndSymbols_writes codec debug f context
  unfold serializeProgram
  cases hf : serializeFunction codec debug init f with
  | error e =>
      rw [hf] at h
      exact .inr ⟨h, e, rfl⟩
  | ok p =>
      obtain ⟨id, st₁⟩ := p
      -- the main function has the first id
      have hid : id = 0 := by
        have := serializeFunction_writes codec debug f init [] holds_init
          (Nat.zero_le _)
        rw [hf] at this
        exact this.2 _ (List.prefix_refl _)
      rw [hf, Except.ok_bind] at h
      rw [Except.ok_bind]
      dsimp only at h ⊢
      rw [if_neg (by simpa using hid)]
      cases hs : st₁.serializeSymbolTable context with
      | error e =>
          rw [hs] at h
          exact .inr ⟨h, e, rfl⟩
      | ok p =>
          obtain ⟨globals, st₂⟩ := p
          rw [hs, Except.ok_bind] at h
          rw [Except.ok_bind]
          obtain ⟨hw, hpost⟩ := h
          have hglobals := (hpost _ (List.prefix_refl _)).2
          dsimp only at hglobals ⊢
          have hlen := hw.holds.length
          unfold writeStringBlockHeader
          by_cases hbig : st₂.stringsBlock.length ≥ uint32Max
          · rw [if_pos hbig]
            exact .inr ⟨.inr (.inr (.inl (hlen ▸ hbig))), _, rfl⟩
          · rw [if_neg hbig]
            refine .inl ⟨?_, ?_⟩
            -- each limit was checked by the part of the writer that came through
            · rintro (h | ⟨hd, g, hg, hl⟩ | h | ⟨s, hs, hl⟩)
              · have := hw.counter
                have := hw.bound
                dsimp only [init] at *
                omega
              · have := hw.lines hd g hg
                omega
              · exact hbig (hlen ▸ h)
              · exact Nat.not_lt.mpr (hw.holds.lengths s hs) hl
            · have hcounter : st₂.chunkCounter = f.preorder.length := by
                have := hw.counter
                dsimp only [init] at this
                omega
              have hchunks := chunksReversed_eq codec debug
                (δ := offsetOf 8 (programStrings f context)) f.preorder
                fun i g hg => by
                  have := hw.chunks _ (List.prefix_refl _) i g hg
                  rwa [show init.chunkCounter + i = i from Nat.zero_add i] at this
              -- the first eight bytes of the block are the header, written over here
              have hdrop : st₂.stringsBlock.drop 8 =
                  (programStrings f context).flatMap stringRecord := by
                rw [hw.holds.block, List.drop_append_of_le_length (by simp)]
                simp [programStrings]
              rw [Except.ok_bind]
              dsimp only
              rw [hdrop, hlen, hw.holds.count, hcounter, hchunks, hglobals]
              rfl

end CppLox.Serializer
