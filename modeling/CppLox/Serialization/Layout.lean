import CppLox.Serialization.Serializer
import Mathlib.Algebra.BigOperators.Group.List.Basic
import Mathlib.Data.List.Dedup

/-!
# Serialization — the layout of an image

What the three sections of an image hold, as functions of the program alone.

The functions of a program are numbered in preorder (`preorder`): a function before the functions
among its constants, these in the order of the pool.  `At L k f` says that the subtree of `f` is
the part of the list `L` from position `k` on; every position of a preorder is that of a subtree
(`At.exists_at`), and the subtrees of the constants follow their function (`At.pool`).

The string block holds each string once, in the order of first use; `offsetOf` is the offset of a
string in the block of a list of distinct strings, and `intern` is the list after more strings
are used.
-/

namespace CppLox

/-- Induction over function trees. -/
theorem ObjectFunction.inductionOn {P : ObjectFunction → Prop}
    (h : ∀ f : ObjectFunction, (∀ g, .function g ∈ f.constants → P g) → P f) :
    ∀ f, P f := by
  intro f
  refine ObjectFunction.rec (motive_1 := P)
    (motive_2 := fun cs => ∀ g, Constant.function g ∈ cs → P g)
    (motive_3 := fun c => ∀ g, c = Constant.function g → P g) ?_ ?_ ?_ ?_ ?_ ?_ ?_ ?_ ?_ f
  · intro addr arity upvalueCount name code constants lines ih
    exact h _ ih
  · exact fun g hg => absurd hg (by simp)
  · intro c cs hc hcs g hg
    rcases List.mem_cons.mp hg with rfl | hg
    · exact hc g rfl
    · exact hcs g hg
  · nofun
  · nofun
  · nofun
  · nofun
  · nofun
  · rintro f hf _ ⟨⟩
    exact hf

open LittleEndian

/-! ### The numbering of functions -/

mutual

/-- The functions of a tree, in the order of their chunk ids. -/
def ObjectFunction.preorder : ObjectFunction → List ObjectFunction
  | ⟨addr, arity, upvalueCount, name, code, constants, lines⟩ =>
    ⟨addr, arity, upvalueCount, name, code, constants, lines⟩ :: poolPreorder constants

/-- The functions of the trees among some constants. -/
def poolPreorder : List (Constant ObjectFunction) → List ObjectFunction
  | [] => []
  | .function f :: constants => f.preorder ++ poolPreorder constants
  | .nil :: constants | .boolean _ :: constants | .real _ :: constants
  | .integer _ :: constants | .string _ :: constants => poolPreorder constants

end

mutual

/-- The strings of a tree, in the order the writer comes to them. -/
def ObjectFunction.strings : ObjectFunction → List Bytes
  | ⟨_, _, _, name, _, constants, _⟩ => name :: poolStrings constants

/-- The strings of some constants. -/
def poolStrings : List (Constant ObjectFunction) → List Bytes
  | [] => []
  | .string s :: constants => s :: poolStrings constants
  | .function f :: constants => f.strings ++ poolStrings constants
  | .nil :: constants | .boolean _ :: constants | .real _ :: constants
  | .integer _ :: constants => poolStrings constants

end

namespace Constant

/-- The functions of the tree a constant is. -/
def preorder : Constant ObjectFunction → List ObjectFunction
  | .function f => f.preorder
  | _ => []

/-- The strings of a constant. -/
def strings : Constant ObjectFunction → List Bytes
  | .string s => [s]
  | .function f => f.strings
  | _ => []

end Constant

theorem ObjectFunction.preorder_eq (f : ObjectFunction) :
    f.preorder = f :: poolPreorder f.constants := by
  cases f
  rw [ObjectFunction.preorder]

theorem ObjectFunction.strings_eq (f : ObjectFunction) :
    f.strings = f.name :: poolStrings f.constants := by
  cases f
  rw [ObjectFunction.strings]

@[simp] theorem poolPreorder_nil : poolPreorder [] = [] := by rw [poolPreorder]

@[simp] theorem poolPreorder_cons (c : Constant ObjectFunction)
    (constants : List (Constant ObjectFunction)) :
    poolPreorder (c :: constants) = c.preorder ++ poolPreorder constants := by
  cases c <;> simp [poolPreorder, Constant.preorder]

@[simp] theorem poolStrings_nil : poolStrings [] = [] := by rw [poolStrings]

@[simp] theorem poolStrings_cons (c : Constant ObjectFunction)
    (constants : List (Constant ObjectFunction)) :
    poolStrings (c :: constants) = c.strings ++ poolStrings constants := by
  cases c <;> simp [poolStrings, Constant.strings]

theorem ObjectFunction.length_preorder_pos (f : ObjectFunction) : 0 < f.preorder.length := by
  simp [f.preorder_eq]

/-- The subtree of `f` is the part of `L` from position `k` on. -/
def At (L : List ObjectFunction) (k : Nat) (f : ObjectFunction) : Prop :=
  ∃ post, L.drop k = f.preorder ++ post

/-- The trees among `constants` are the part of `L` from position `k` on. -/
def AtPool (L : List ObjectFunction) (k : Nat) (constants : List (Constant ObjectFunction)) :
    Prop :=
  ∃ post, L.drop k = poolPreorder constants ++ post

variable {L : List ObjectFunction} {k : Nat}

theorem at_preorder (f : ObjectFunction) : At f.preorder 0 f := ⟨[], by simp⟩

theorem At.getElem? {f : ObjectFunction} (h : At L k f) : L[k]? = some f := by
  obtain ⟨post, h⟩ := h
  have := congrArg (fun l => l[0]?) h
  simpa [f.preorder_eq] using this

theorem At.pool {f : ObjectFunction} (h : At L k f) : AtPool L (k + 1) f.constants := by
  obtain ⟨post, h⟩ := h
  refine ⟨post, ?_⟩
  rw [← List.drop_drop, h, f.preorder_eq]
  simp

theorem AtPool.tail {c : Constant ObjectFunction} {constants : List (Constant ObjectFunction)}
    (h : AtPool L k (c :: constants)) : AtPool L (k + c.preorder.length) constants := by
  obtain ⟨post, h⟩ := h
  refine ⟨post, ?_⟩
  rw [← List.drop_drop, h, poolPreorder_cons, List.append_assoc, List.drop_left]

theorem AtPool.function {f : ObjectFunction} {constants : List (Constant ObjectFunction)}
    (h : AtPool L k (.function f :: constants)) : At L k f := by
  obtain ⟨post, h⟩ := h
  exact ⟨poolPreorder constants ++ post, by simpa [Constant.preorder] using h⟩

/-- A position inside the trees of a pool is inside one of them. -/
theorem AtPool.exists_function {constants : List (Constant ObjectFunction)}
    (h : AtPool L k constants) {i : Nat} (hk : k ≤ i)
    (hi : i < k + (poolPreorder constants).length) :
    ∃ f j, .function f ∈ constants ∧ At L j f ∧ j ≤ i ∧ i < j + f.preorder.length := by
  induction constants generalizing k with
  | nil => simp at hi; omega
  | cons c constants ih =>
      by_cases hc : i < k + c.preorder.length
      · cases c with
        | function f => exact ⟨f, k, List.mem_cons_self, h.function, hk, hc⟩
        | _ => simp [Constant.preorder] at hc; omega
      · obtain ⟨f, j, hf, hj⟩ := ih h.tail (by omega) (by simp at hi; omega)
        exact ⟨f, j, List.mem_cons_of_mem _ hf, hj⟩

/-- Every position inside a tree is that of a subtree. -/
theorem At.exists_at (f : ObjectFunction) : ∀ k, At L k f → ∀ i, k ≤ i →
    i < k + f.preorder.length → ∃ g, At L i g := by
  induction f using ObjectFunction.inductionOn with
  | h f ih =>
      intro k h i hk hi
      rcases Nat.eq_or_lt_of_le hk with rfl | hlt
      · exact ⟨f, h⟩
      · rw [f.preorder_eq, List.length_cons] at hi
        obtain ⟨g, j, hg, hat, hj, hlt'⟩ := h.pool.exists_function (i := i) hlt (by omega)
        exact ih g hg j hat i hj hlt'

theorem mem_poolPreorder {g : ObjectFunction} {constants : List (Constant ObjectFunction)}
    (h : g ∈ poolPreorder constants) : ∃ f, .function f ∈ constants ∧ g ∈ f.preorder := by
  induction constants with
  | nil => simp at h
  | cons c constants ih =>
      rw [poolPreorder_cons, List.mem_append] at h
      rcases h with h | h
      · cases c with
        | function f => exact ⟨f, List.mem_cons_self, h⟩
        | _ => simp [Constant.preorder] at h
      · obtain ⟨f, hf, hg⟩ := ih h
        exact ⟨f, List.mem_cons_of_mem _ hf, hg⟩

theorem strings_subset_poolStrings {c : Constant ObjectFunction}
    {constants : List (Constant ObjectFunction)} (h : c ∈ constants) :
    c.strings ⊆ poolStrings constants := by
  induction constants with
  | nil => cases h
  | cons c' constants ih =>
      rw [poolStrings_cons]
      rcases List.mem_cons.mp h with rfl | h
      · exact List.subset_append_left _ _
      · exact List.Subset.trans (ih h) (List.subset_append_right _ _)

/-- The strings of every function of a tree are strings of the tree. -/
theorem strings_subset_of_mem_preorder (f : ObjectFunction) :
    ∀ g ∈ f.preorder, g.strings ⊆ f.strings := by
  induction f using ObjectFunction.inductionOn with
  | h f ih =>
      intro g hg
      rw [f.preorder_eq] at hg
      rcases List.mem_cons.mp hg with rfl | hg
      · exact List.Subset.refl _
      · obtain ⟨f', hf', hg'⟩ := mem_poolPreorder hg
        rw [f.strings_eq]
        refine List.Subset.trans (ih f' hf' g hg') (List.Subset.trans ?_ (List.subset_cons_self _ _))
        exact strings_subset_poolStrings hf'

/-! ### The string block -/

/-- The record of a string in the string block. -/
def stringRecord (s : Bytes) : List UInt8 := leBytes 4 s.length ++ s

/-- The size of the records of some strings. -/
def recordsSize (rs : List Bytes) : Nat := (rs.map fun s => 4 + s.length).sum

/-- The offset of the record of `s` among the records of `rs`, the first of which is at `o`. -/
def offsetOf (o : Nat) : List Bytes → Bytes → Nat
  | [], _ => o
  | r :: rs, s => if s = r then o else offsetOf (o + (4 + r.length)) rs s

/-- The strings of a block after `s` was used. -/
def addString (rs : List Bytes) (s : Bytes) : List Bytes := if s ∈ rs then rs else rs ++ [s]

/-- The strings of a block after all of `ss` were used. -/
def intern (rs ss : List Bytes) : List Bytes := ss.foldl addString rs

@[simp] theorem length_stringRecord (s : Bytes) : (stringRecord s).length = 4 + s.length := by
  simp [stringRecord]

theorem length_flatMap_stringRecord (rs : List Bytes) :
    (rs.flatMap stringRecord).length = recordsSize rs := by
  simp [recordsSize, List.length_flatMap]

@[simp] theorem recordsSize_append (rs rs' : List Bytes) :
    recordsSize (rs ++ rs') = recordsSize rs + recordsSize rs' := by
  simp [recordsSize]

theorem offsetOf_append_of_mem {rs : List Bytes} {s : Bytes} (h : s ∈ rs) (rs' : List Bytes) :
    ∀ o, offsetOf o (rs ++ rs') s = offsetOf o rs s := by
  induction rs with
  | nil => cases h
  | cons r rs ih =>
      intro o
      rw [List.cons_append, offsetOf, offsetOf]
      by_cases hs : s = r
      · rw [if_pos hs, if_pos hs]
      · rw [if_neg hs, if_neg hs]
        exact ih ((List.mem_cons.mp h).resolve_left hs) _

/-- A new string is recorded after those of the block. -/
theorem offsetOf_append_self {rs : List Bytes} {s : Bytes} (h : s ∉ rs) :
    ∀ o, offsetOf o (rs ++ [s]) s = o + recordsSize rs := by
  induction rs with
  | nil => simp [offsetOf, recordsSize]
  | cons r rs ih =>
      intro o
      have hs : s ≠ r := fun e => h (e ▸ List.mem_cons_self)
      rw [List.cons_append, offsetOf, if_neg hs, ih (fun hm => h (List.mem_cons_of_mem _ hm))]
      simp only [recordsSize, List.map_cons, List.sum_cons]
      omega

theorem offsetOf_lt {rs : List Bytes} {s : Bytes} (h : s ∈ rs) :
    ∀ o, o ≤ offsetOf o rs s ∧ offsetOf o rs s < o + recordsSize rs := by
  induction rs with
  | nil => cases h
  | cons r rs ih =>
      intro o
      simp only [offsetOf, recordsSize, List.map_cons, List.sum_cons]
      by_cases hs : s = r
      · rw [if_pos hs]
        omega
      · rw [if_neg hs]
        have := ih ((List.mem_cons.mp h).resolve_left hs) (o + (4 + r.length))
        simp only [recordsSize] at this
        omega

theorem prefix_addString (rs : List Bytes) (s : Bytes) : rs <+: addString rs s := by
  unfold addString
  split
  · exact List.prefix_refl rs
  · exact List.prefix_append rs [s]

theorem mem_addString {rs : List Bytes} {s t : Bytes} :
    t ∈ addString rs s ↔ t ∈ rs ∨ t = s := by
  unfold addString
  split
  · rename_i h
    exact ⟨.inl, fun ht => ht.elim id fun e => e ▸ h⟩
  · simp

theorem nodup_addString {rs : List Bytes} (h : rs.Nodup) (s : Bytes) :
    (addString rs s).Nodup := by
  unfold addString
  split
  · exact h
  · rename_i hs
    simpa using h.concat hs

theorem intern_append (rs ss ss' : List Bytes) :
    intern rs (ss ++ ss') = intern (intern rs ss) ss' := List.foldl_append

theorem prefix_intern (rs ss : List Bytes) : rs <+: intern rs ss := by
  induction ss generalizing rs with
  | nil => exact List.prefix_refl rs
  | cons s ss ih => exact (prefix_addString rs s).trans (ih (addString rs s))

theorem mem_intern {rs ss : List Bytes} {t : Bytes} : t ∈ intern rs ss ↔ t ∈ rs ∨ t ∈ ss := by
  induction ss generalizing rs with
  | nil => simp [intern]
  | cons s ss ih =>
      have : intern rs (s :: ss) = intern (addString rs s) ss := rfl
      rw [this, ih, mem_addString, List.mem_cons, or_assoc]

theorem nodup_intern {rs : List Bytes} (h : rs.Nodup) (ss : List Bytes) :
    (intern rs ss).Nodup := by
  induction ss generalizing rs with
  | nil => exact h
  | cons s ss ih => exact ih (nodup_addString h s)

theorem recordsSize_le_of_prefix {rs rs' : List Bytes} (h : rs <+: rs') :
    recordsSize rs ≤ recordsSize rs' := by
  obtain ⟨t, rfl⟩ := h
  rw [recordsSize_append]
  omega

/-- A block holds each string once. -/
theorem intern_perm_dedup (ss : List Bytes) : (intern [] ss).Perm ss.dedup := by
  rw [List.perm_ext_iff_of_nodup (nodup_intern List.nodup_nil ss) ss.nodup_dedup]
  intro t
  simp [mem_intern]

theorem recordsSize_intern (ss : List Bytes) : recordsSize (intern [] ss) = recordsSize ss.dedup :=
  ((intern_perm_dedup ss).map _).sum_eq

/-! ### Chunks -/

/-- The line table of a chunk. -/
def lineTable (debug : Bool) (lines : List LineInfo) : List UInt8 :=
  if debug then
    leBytes 4 lines.length ++ leBytes 4 0 ++
      lines.flatMap fun line =>
        leBytes 4 line.offset.toBitVec.toNat ++ leBytes 4 line.lineNumber.toBitVec.toNat
  else []

/-- The nine bytes of a constant, when strings have the offsets `δ` and the tree of the constant
is numbered from `k` on. -/
def constantRecord (codec : DoubleCodec) (δ : Bytes → Nat) (k : Nat) :
    Constant ObjectFunction → List UInt8
  | .nil => leBytes 1 'N'.toNat ++ leBytes 8 0
  | .boolean b => leBytes 1 'B'.toNat ++ (leBytes 1 b.toNat ++ leBytes 7 0)
  | .real d => leBytes 1 'R'.toNat ++ leBytes 8 (codec.pack d).toNat
  | .integer i => leBytes 1 'I'.toNat ++ leBytes 8 i.toBitVec.toNat
  | .string s => leBytes 1 'S'.toNat ++ leBytes 8 (δ s)
  | .function _ => leBytes 1 'F'.toNat ++ leBytes 8 k

/-- The constant pool of a chunk. -/
def poolRecords (codec : DoubleCodec) (δ : Bytes → Nat) :
    Nat → List (Constant ObjectFunction) → List UInt8
  | _, [] => []
  | k, c :: constants =>
    constantRecord codec δ k c ++ poolRecords codec δ (k + c.preorder.length) constants

/-- The chunk of the function with id `k`. -/
def chunkOf (codec : DoubleCodec) (debug : Bool) (δ : Bytes → Nat) (k : Nat)
    (f : ObjectFunction) : List UInt8 :=
  Serializer.chunkHeader debug f (δ f.name) k ++ poolRecords codec δ (k + 1) f.constants ++
    f.code ++ lineTable debug f.lines

/-- The size of the chunk of a function. -/
def chunkSize (debug : Bool) (f : ObjectFunction) : Nat :=
  24 + 9 * f.constants.length + f.code.length + if debug then 8 + 8 * f.lines.length else 0

@[simp] theorem length_chunkHeader (debug : Bool) (f : ObjectFunction) (index k : Nat) :
    (Serializer.chunkHeader debug f index k).length = 24 := by
  simp [Serializer.chunkHeader]

@[simp] theorem length_constantRecord (codec : DoubleCodec) (δ : Bytes → Nat) (k : Nat)
    (c : Constant ObjectFunction) : (constantRecord codec δ k c).length = 9 := by
  cases c <;> simp [constantRecord]

@[simp] theorem length_poolRecords (codec : DoubleCodec) (δ : Bytes → Nat) (k : Nat)
    (constants : List (Constant ObjectFunction)) :
    (poolRecords codec δ k constants).length = 9 * constants.length := by
  induction constants generalizing k with
  | nil => rfl
  | cons c constants ih =>
      rw [poolRecords, List.length_append, length_constantRecord, ih, List.length_cons]
      omega

theorem length_lineTable (debug : Bool) (lines : List LineInfo) :
    (lineTable debug lines).length = if debug then 8 + 8 * lines.length else 0 := by
  cases debug with
  | false => rfl
  | true =>
      simp only [lineTable, if_true, List.length_append, length_leBytes, List.length_flatMap]
      simp
      omega

@[simp] theorem length_chunkOf (codec : DoubleCodec) (debug : Bool) (δ : Bytes → Nat) (k : Nat)
    (f : ObjectFunction) : (chunkOf codec debug δ k f).length = chunkSize debug f := by
  simp only [chunkOf, List.length_append, length_chunkHeader, length_poolRecords,
    length_lineTable, chunkSize]

/-- The chunks of `fs`, numbered from `k` on, the last one first. -/
def chunksOf (codec : DoubleCodec) (debug : Bool) (δ : Bytes → Nat) :
    Nat → List ObjectFunction → List UInt8
  | _, [] => []
  | k, f :: fs => chunksOf codec debug δ (k + 1) fs ++ chunkOf codec debug δ k f

theorem chunksOf_append (codec : DoubleCodec) (debug : Bool) (δ : Bytes → Nat) (k : Nat)
    (fs fs' : List ObjectFunction) :
    chunksOf codec debug δ k (fs ++ fs') =
      chunksOf codec debug δ (k + fs.length) fs' ++ chunksOf codec debug δ k fs := by
  induction fs generalizing k with
  | nil => simp [chunksOf]
  | cons f fs ih =>
      rw [List.cons_append, chunksOf, chunksOf, ih, List.length_cons, List.append_assoc,
        Nat.add_assoc, Nat.add_comm 1]

theorem length_chunksOf (codec : DoubleCodec) (debug : Bool) (δ : Bytes → Nat) (k : Nat)
    (fs : List ObjectFunction) :
    (chunksOf codec debug δ k fs).length = (fs.map (chunkSize debug)).sum := by
  induction fs generalizing k with
  | nil => rfl
  | cons f fs ih =>
      rw [chunksOf, List.length_append, ih, length_chunkOf, List.map_cons, List.sum_cons]
      omega

/-- The offset of the chunk with id `i`: the chunks with greater ids come before it. -/
def chunkOffset (debug : Bool) (fs : List ObjectFunction) (i : Nat) : Nat :=
  ((fs.drop (i + 1)).map (chunkSize debug)).sum

theorem blockAt_chunksOf (codec : DoubleCodec) (debug : Bool) (δ : Bytes → Nat)
    {fs : List ObjectFunction} {i : Nat} {g : ObjectFunction} (h : fs[i]? = some g) :
    BlockAt (chunksOf codec debug δ 0 fs) (chunkOffset debug fs i)
      (chunkOf codec debug δ i g) := by
  obtain ⟨hi, hg⟩ := List.getElem?_eq_some_iff.mp h
  have hsplit : fs = fs.take i ++ (g :: fs.drop (i + 1)) := by
    rw [← hg, List.cons_getElem_drop_succ, List.take_append_drop]
  refine ⟨chunksOf codec debug δ (i + 1) (fs.drop (i + 1)),
    chunksOf codec debug δ 0 (fs.take i), ?_, length_chunksOf ..⟩
  have hlen : (fs.take i).length = i := by
    rw [List.length_take]
    omega
  conv_lhs => rw [hsplit]
  rw [chunksOf_append, chunksOf, hlen, Nat.zero_add]

/-- The records of the symbol table. -/
def symbolRecords (δ : Bytes → Nat) (symbols : List (Bytes × GlobalValue)) : List UInt8 :=
  symbols.flatMap fun p => Serializer.symbolRecord (δ p.1) p.2.isConst

@[simp] theorem length_symbolRecord (index : Nat) (isConst : Bool) :
    (Serializer.symbolRecord index isConst).length = 8 := by
  simp [Serializer.symbolRecord]

theorem length_symbolRecords (δ : Bytes → Nat) (symbols : List (Bytes × GlobalValue)) :
    (symbolRecords δ symbols).length = 8 * symbols.length := by
  simp [symbolRecords, List.length_flatMap]
  omega

/-! ### Sizes of the sections -/

/-- The size of the string section: a header and each string of the program once. -/
def stringsSize (f : ObjectFunction) (context : Context) : Nat :=
  8 + recordsSize (f.strings ++ context.names).dedup

/-- The size of the chunk section. -/
def bytecodeSize (debug : Bool) (f : ObjectFunction) : Nat :=
  (f.preorder.map (chunkSize debug)).sum

end CppLox
