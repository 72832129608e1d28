import CppLox.Object.Relabelling
import CppLox.Serialization.RoundTrip

/-!
# Serialization — reloaded programs

The loader allocates the functions of a program in the order of their chunks, the greatest id first.
So what it returns is the program that was written, with each function at the address its chunk id
gives, and without line tables when there is no debug information: a relabelling of it, as long as the
functions of the program have distinct addresses.
-/

namespace CppLox

open LittleEndian Serializer Deserializer

namespace ObjectFunction

variable (f : ObjectFunction) (nextAddr : Addr)

/-- The addresses of the functions of a tree, in the order of their chunk ids. -/
def addresses : List Addr := f.preorder.map addr

@[simp] theorem length_addresses : f.addresses.length = f.preorder.length := List.length_map _

/-- Where the loader, with `nextAddr` for its first function, allocates the function that was at `a`.
What is at no address of the tree follows behind. -/
def loadedAddr (a : Addr) : Addr :=
  if a ∈ f.addresses then nextAddr + (f.preorder.length - (f.addresses.idxOf a + 1))
  else nextAddr + f.preorder.length + a

theorem loadedAddr_injective : Function.Injective (f.loadedAddr nextAddr) := by
  intro a b h
  have hidx : ∀ c ∈ f.addresses, f.addresses.idxOf c < f.preorder.length := fun c hc => by
    rw [← f.length_addresses]
    exact List.idxOf_lt_length_of_mem hc
  unfold loadedAddr at h
  by_cases ha : a ∈ f.addresses <;> by_cases hb : b ∈ f.addresses
  · rw [if_pos ha, if_pos hb] at h
    have hsub := Nat.add_left_cancel h
    have hlta := hidx a ha
    have hltb := hidx b hb
    exact (List.idxOf_inj ha).mp (by omega)
  · -- an address of the tree is below those that follow
    rw [if_pos ha, if_neg hb, Nat.add_assoc] at h
    have hsub := Nat.add_left_cancel h
    have hlta := hidx a ha
    omega
  · rw [if_neg ha, if_pos hb, Nat.add_assoc] at h
    have hsub := Nat.add_left_cancel h
    have hltb := hidx b hb
    omega
  · rw [if_neg ha, if_neg hb] at h
    exact Nat.add_left_cancel h

/-- The labels of a program that was written and loaded. -/
def reloading (debug : Bool) : Relabelling where
  addr := f.loadedAddr nextAddr
  lines lines := if debug then lines else []
  injective := f.loadedAddr_injective nextAddr

theorem lines_reloading_true : (f.reloading nextAddr true).lines = id := rfl

/-- The function with chunk id `i`. -/
theorem loadedAddr_of_at {i : Nat} {g : ObjectFunction} (hnodup : f.addresses.Nodup)
    (h : At f.preorder i g) :
    f.loadedAddr nextAddr g.addr = nextAddr + (f.preorder.length - (i + 1)) := by
  have hget : f.addresses[i]? = some g.addr := by
    rw [addresses, List.getElem?_map, h.getElem?]
    rfl
  obtain ⟨hi, hgi⟩ := List.getElem?_eq_some_iff.mp hget
  have hidx : f.addresses.idxOf g.addr = i := by
    rw [← hgi]
    exact hnodup.idxOf_getElem i hi
  rw [loadedAddr, if_pos (List.mem_of_getElem? hget), hidx]

end ObjectFunction

variable {codec : DoubleCodec} {debug : Bool}

/-- A pool that was read is the one that was written, under other labels. -/
theorem eq_map_relabel_of_loads (ρ : Relabelling) {constants pool : List (Constant ObjectFunction)}
    (hexact : ∀ d, .real d ∈ constants → codec.unpack (codec.pack d) = d)
    (h : List.Forall₂ (LoadsConstant codec fun f g => g = f.relabel ρ) constants pool) :
    pool = constants.map (Constant.relabel ρ) := by
  induction h with
  | nil => rfl
  | cons hc _ ih =>
      rw [List.map_cons, ih fun d hd => hexact d (List.mem_cons_of_mem _ hd)]
      congr 1
      cases hc with
      | real d =>
          rw [hexact d List.mem_cons_self]
          rfl
      | function hR => exact congrArg Constant.function hR
      | _ => rfl

/-- **A program comes back under the labels of the loader.** -/
theorem deserializeProgram_relabel (codec : DoubleCodec) (debug : Bool) (fuel : Nat) (nextAddr : Addr)
    {f : ObjectFunction} {context : Context} (hexact : ExactOn codec f)
    (hcounts : CountsFit f context) (hstrings : stringsSize f context < uint32Max)
    (hbytes : bytecodeSize debug f < uint32Max) (hnodup : f.addresses.Nodup)
    (hpristine : context.Pristine)
    (hfuel : stringsSize f context ≤ fuel ∧ bytecodeSize debug f ≤ fuel) :
    deserializeProgram codec fuel (imageOf codec debug f context) nextAddr .empty =
      .ok (f.relabel (f.reloading nextAddr debug), context) := by
  obtain ⟨g, context', hload, hg, hnames, hvalues⟩ :=
    deserializeProgram_imageOf_at (R := fun g g' => g' = g.relabel (f.reloading nextAddr debug))
      codec debug fuel nextAddr (Nat.le_of_lt hcounts.functions) hstrings hbytes hcounts.names
      (fun g hg => ⟨hcounts.upvalueCount g hg, hcounts.constants g hg⟩) hfuel
      fun i g hat pool hpool => by
        have hmem : g ∈ f.preorder := List.mem_of_getElem? hat.getElem?
        have haddr : (f.reloading nextAddr debug).addr g.addr = _ :=
          f.loadedAddr_of_at nextAddr hnodup hat
        rw [ObjectFunction.relabel_eq, loadedFunction, haddr,
          eq_map_relabel_of_loads _ (hexact g hmem) hpool,
          Nat.mod_eq_of_lt (Nat.lt_succ_of_le (hcounts.arity g hmem))]
        rfl
  have hcontext : context' = context := by
    refine Context.ext_of hnames (hvalues.trans ?_)
    exact (List.map_congr_left fun v hv => (hpristine v hv).symm).trans (List.map_id _)
  rw [hload, hg, hcontext]

/-! ### Saving again -/

section

variable {R : ObjectFunction → ObjectFunction → Prop}

theorem writeConstantPool_isomorphic {constants constants' : List (Constant ObjectFunction)}
    (h : List.Forall₂ (ConstantIso R) constants constants')
    (hR : ∀ f g, .function f ∈ constants → R f g → ∀ st,
      serializeFunction codec debug st g = serializeFunction codec debug st f) (st : Serializer) :
    writeConstantPool codec debug st constants' = writeConstantPool codec debug st constants := by
  induction h generalizing st with
  | nil => rfl
  | cons hc _ ih =>
      have hrest := ih fun f g hf => hR f g (List.mem_cons_of_mem _ hf)
      cases hc with
      | function hfg =>
          simp only [writeConstantPool, hR _ _ List.mem_cons_self hfg, hrest]
      | _ => simp only [writeConstantPool, hrest]

/-- Isomorphic functions are written alike. -/
theorem serializeFunction_isomorphic {f g : ObjectFunction} (h : Isomorphic debug f g)
    (st : Serializer) :
    serializeFunction codec debug st g = serializeFunction codec debug st f := by
  induction f using ObjectFunction.inductionOn generalizing g st with
  | h f ih =>
      cases h with
      | intro harity hupvalues hname hcode hlines hconstants =>
          have hpool := @writeConstantPool_isomorphic codec debug _ _ _ hconstants
            fun f' g' hf' hfg st => ih f' hf' hfg st
          have hdebug : debugSegment debug g.lines = debugSegment debug f.lines := by
            cases debug with
            | false => rfl
            | true => rw [hlines rfl]
          have hlength := hconstants.length_eq
          obtain ⟨addr, arity, upvalueCount, name, code, constants, lines⟩ := f
          obtain ⟨addr', arity', upvalueCount', name', code', constants', lines'⟩ := g
          dsimp only at *
          subst harity hupvalues hname hcode
          simp only [serializeFunction, writeChunkHeader, chunkHeader, hpool, hdebug, hlength]

end

theorem serializeSymbols_congr {symbols symbols' : List (Bytes × GlobalValue)}
    (h : symbols'.map (Prod.map id GlobalValue.isConst) =
      symbols.map (Prod.map id GlobalValue.isConst)) (st : Serializer) :
    serializeSymbols st symbols' = serializeSymbols st symbols := by
  induction symbols generalizing symbols' st with
  | nil => rw [List.map_eq_nil_iff.mp h]
  | cons p symbols ih =>
      obtain ⟨p', symbols', rfl, hp, hrest⟩ := List.map_eq_cons_iff.mp h
      obtain ⟨name, value⟩ := p
      obtain ⟨name', value'⟩ := p'
      obtain ⟨hname, hconst⟩ := Prod.mk.inj hp
      rw [id, id] at hname
      simp only [serializeSymbols, hname, hconst, ih hrest]

/-- Tables with the same names and the same flags are written alike. -/
theorem serializeSymbolTable_congr {context context' : Context} (hnames : context'.names = context.names)
    (hconst : context'.values.map GlobalValue.isConst = context.values.map GlobalValue.isConst)
    (st : Serializer) :
    serializeSymbolTable st context' = serializeSymbolTable st context := by
  have hsymbols : (context'.names.zip context'.values).map (Prod.map id GlobalValue.isConst) =
      (context.names.zip context.values).map (Prod.map id GlobalValue.isConst) := by
    rw [← List.zip_map, ← List.zip_map, hnames, hconst]
  rw [hnames] at hsymbols
  simp only [serializeSymbolTable, serializeSymbols_congr hsymbols, hnames]

/-- Writing the program, loading the image into an empty context and writing what was loaded gives the
image again, byte for byte. -/
def Resaves (codec : DoubleCodec) (debug : Bool) (f : ObjectFunction) (context : Context) : Prop :=
  ∃ image, serializeProgram codec debug f context = .ok image ∧
    ∃ bound, ∀ fuel ≥ bound, ∀ nextAddr, ∃ g context',
      deserializeProgram codec fuel image nextAddr .empty = .ok (g, context') ∧
      serializeProgram codec debug g context' = .ok image

/-- **A loaded program is saved as the file it was loaded from.**  The loader gives its functions
new addresses, in another order, and the writer numbers chunks and strings by a walk of the tree of
its own: nothing of where a function stands in memory, nor of the file it came from, gets into the
file that is written.  The program has to be one that `serialize_deserialize` is about. -/
theorem serialize_deserialize_serialize (codec : DoubleCodec) (debug : Bool) (f : ObjectFunction)
    (context : Context) (hexact : ExactOn codec f) (hcounts : CountsFit f context)
    (hlengths : StringsFit f context) (hstrings : stringsSize f context < 4294967295)
    (hbytes : bytecodeSize debug f < 4294967295) : Resaves codec debug f context := by
  have hfs : f.preorder.length ≤ uint16Max := Nat.le_of_lt hcounts.functions
  rcases serializeProgram_spec codec debug f context with ⟨-, hok⟩ | ⟨hover, -⟩
  swap
  · exact absurd hover (not_overflows hfs hlengths hstrings hbytes)
  refine ⟨_, hok, stringsSize f context + bytecodeSize debug f, fun fuel hfuel nextAddr => ?_⟩
  obtain ⟨g, context', hload, hiso, hnames, hvalues⟩ :=
    deserializeProgram_imageOf (R := Isomorphic debug) codec debug fuel nextAddr
      hfs hstrings hbytes hcounts.names
      (fun g hg => ⟨hcounts.upvalueCount g hg, hcounts.constants g hg⟩)
      ⟨by omega, by omega⟩
      (fun g hg g' h => isomorphic_of_loads (hcounts.arity g hg) (hexact g hg) h)
  have hconst : context'.values.map GlobalValue.isConst = context.values.map GlobalValue.isConst := by
    rw [hvalues, List.map_map]
    rfl
  refine ⟨g, context', hload, ?_⟩
  rw [← hok]
  simp only [serializeProgram, serializeFunction_isomorphic hiso,
    serializeSymbolTable_congr hnames hconst]

theorem serialize_deserialize_serialize_sample : Resaves ⟨id, id⟩ true sampleProgram sampleContext :=
  serialize_deserialize_serialize ⟨id, id⟩ true sampleProgram sampleContext (fun _ _ _ _ => rfl)
    ⟨by decide, by decide, by decide, by decide, by decide⟩ (by decide) (by decide) (by decide)

end CppLox
