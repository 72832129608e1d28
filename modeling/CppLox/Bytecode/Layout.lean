import CppLox.Bytecode.Chunk

/-!
# Bytecode — well-formed code

The code of a compiled function is a sequence of instructions whose operands are those of their
opcodes, whose closures are of functions with as many upvalues as are listed, and whose jumps end
where an instruction starts (`WellFormedCode`).  A chunk is `Compiled` when its code is well formed, all
bytes of an instruction have one line, and the functions among its constants are compiled too.
-/

namespace CppLox

open LittleEndian

/-- The operands that follow an opcode. -/
inductive Operands where
  | none | byte | short | shortByte | captures
  deriving Repr, DecidableEq

namespace OpCode

/-- The operands of an opcode; `INVALID` is no instruction. -/
def operands : OpCode → Option Operands
  | .invalid => Option.none
  | .loadConstant | .call | .list | .map => some .byte
  | .loadConstantLong | .defineGlobal | .storeGlobal | .loadGlobal | .storeLocal | .loadLocal
  | .storeUpvalue | .loadUpvalue | .storeProperty | .loadProperty | .loadPropertySafe
  | .loadSuper | .jumpIfFalse | .jumpIfTrue | .popJumpIfFalse | .jumpForward | .jumpBackward
  | .class | .method => some .short
  | .invoke | .superInvoke => some .shortByte
  | .closure => some .captures
  | _ => some .none

/-- `is_jump`. -/
def isJump : OpCode → Bool
  | .jumpIfFalse | .popJumpIfFalse | .jumpForward | .jumpIfTrue | .jumpBackward => Bool.true
  | _ => Bool.false

theorem toByte_injective {op op' : OpCode} (h : op.toByte = op'.toByte) : op = op' := by
  have := ofByte_toByte op
  rw [h, ofByte_toByte] at this
  exact (Option.some.inj this).symm

end OpCode

theorem operands_of_isJump {op : OpCode} (h : op.isJump = true) : op.operands = some .short := by
  cases op <;> first | rfl | cases h

namespace Instr

/-- The opcode of an instruction. -/
def opcode : Instr → OpCode
  | .op o | .byte o _ | .short o _ | .shortByte o _ _ => o
  | .closure _ _ => .closure

/-- The operands of an instruction. -/
def operands : Instr → Operands
  | .op _ => .none
  | .byte _ _ => .byte
  | .short _ _ => .short
  | .shortByte _ _ _ => .shortByte
  | .closure _ _ => .captures

/-- An instruction other than `CLOSURE` has the operands of its opcode. -/
def Plain (i : Instr) : Prop := i.opcode.operands = some i.operands ∧ i.operands ≠ .captures

/-- An instruction has the operands of its opcode, and a closure is of a function among the
constants that has as many upvalues as are listed. -/
def Fits (constants : List (Constant ObjectFunction)) : Instr → Prop
  | .closure k U => k ≤ 0xFFFF ∧ ∃ g, constants[k]? = some (.function g) ∧ g.upvalueCount = U.length
  | i => i.opcode.operands = some i.operands

/-- The operand of a jump at the offset `p` fits 16 bits, and the jump ends in `S`. -/
def JumpsTo (S : Nat → Prop) (p : Nat) : Instr → Prop
  | .short code n => code.isJump = true → n ≤ 0xFFFF ∧
      if code = .jumpBackward then n ≤ p + 3 ∧ S (p + 3 - n) else S (p + 3 + n)
  | _ => True

theorem Plain.fits {i : Instr} (h : i.Plain) (constants : List (Constant ObjectFunction)) :
    i.Fits constants := by
  cases i with
  | closure k U => exact absurd rfl h.2
  | op o => exact h.1
  | byte o b => exact h.1
  | short o n => exact h.1
  | shortByte o n b => exact h.1

@[simp] theorem plain_op {code : OpCode} : (op code).Plain ↔ code.operands = some .none :=
  ⟨And.left, fun h => ⟨h, nofun⟩⟩

@[simp] theorem plain_byte {code : OpCode} {b : Nat} :
    (byte code b).Plain ↔ code.operands = some .byte := ⟨And.left, fun h => ⟨h, nofun⟩⟩

@[simp] theorem plain_short {code : OpCode} {n : Nat} :
    (short code n).Plain ↔ code.operands = some .short := ⟨And.left, fun h => ⟨h, nofun⟩⟩

@[simp] theorem plain_shortByte {code : OpCode} {n b : Nat} :
    (shortByte code n b).Plain ↔ code.operands = some .shortByte := ⟨And.left, fun h => ⟨h, nofun⟩⟩

theorem Fits.operands {i : Instr} {constants : List (Constant ObjectFunction)}
    (h : i.Fits constants) : i.opcode.operands = some i.operands := by
  cases i with
  | closure k U => rfl
  | op o => exact h
  | byte o b => exact h
  | short o n => exact h
  | shortByte o n b => exact h

theorem Fits.mono {i : Instr} {constants constants' : List (Constant ObjectFunction)}
    (h : i.Fits constants) (hle : constants <+: constants') : i.Fits constants' := by
  cases i with
  | closure k U =>
      obtain ⟨hk, g, hg, hcount⟩ := h
      obtain ⟨rest, rfl⟩ := hle
      exact ⟨hk, g, List.getElem?_append_left (List.getElem?_eq_some_iff.mp hg).1 ▸ hg, hcount⟩
  | op o => exact h
  | byte o b => exact h
  | short o n => exact h
  | shortByte o n b => exact h

/-- An instruction that is no jump goes nowhere else. -/
theorem jumpsTo_of_not_jump {i : Instr} (h : i.opcode.isJump = false) (S : Nat → Prop) (p : Nat) :
    i.JumpsTo S p := by
  cases i with
  | short code n =>
      intro hjump
      rw [show code.isJump = false from h] at hjump
      cases hjump
  | op o => trivial
  | byte o b => trivial
  | shortByte o n b => trivial
  | closure k U => trivial

theorem JumpsTo.mono {S S' : Nat → Prop} {p : Nat} {i : Instr} (h : i.JumpsTo S p)
    (hS : ∀ t, S t → S' t) : i.JumpsTo S' p := by
  cases i with
  | short op n =>
      intro hjump
      obtain ⟨hn, h⟩ := h hjump
      refine ⟨hn, ?_⟩
      split at h
      · rename_i hback
        rw [if_pos hback]
        exact ⟨h.1, hS _ h.2⟩
      · rename_i hback
        rw [if_neg hback]
        exact hS _ h
  | op o => trivial
  | byte o b => trivial
  | shortByte o n b => trivial
  | closure k U => trivial

/-- The operand of an instruction does not matter. -/
theorem fits_patch {constants : List (Constant ObjectFunction)} {a b : List Instr} {code : OpCode}
    {n m : Nat} (h : ∀ i ∈ a ++ [.short code n] ++ b, i.Fits constants) :
    ∀ i ∈ a ++ [.short code m] ++ b, i.Fits constants := by
  simp only [List.append_assoc, List.mem_append, List.mem_singleton] at h ⊢
  rintro i (hi | rfl | hi)
  · exact h i (.inl hi)
  · exact h (.short code n) (.inr (.inl rfl))
  · exact h i (.inr (.inr hi))

/-- An instruction starts with its opcode. -/
theorem encode_eq (i : Instr) : ∃ bytes, i.encode = i.opcode.toByte :: bytes := by
  cases i <;> exact ⟨_, rfl⟩

end Instr

/-! ### Where instructions start -/

/-- The offsets at which instructions start, and the one after the last. -/
def cuts : Nat → List Instr → List Nat
  | p, [] => [p]
  | p, i :: is => p :: cuts (p + i.size) is

theorem cuts_congr {p : Nat} {is js : List Instr} (h : is.map Instr.size = js.map Instr.size) :
    cuts p is = cuts p js := by
  induction is generalizing p js with
  | nil => rw [List.map_eq_nil_iff.mp h.symm]
  | cons i is ih =>
      cases js with
      | nil => cases h
      | cons j js =>
          obtain ⟨hsize, hrest⟩ := List.cons.inj h
          rw [cuts, cuts, ih hrest, hsize]

theorem start_mem_cuts (p : Nat) (is : List Instr) : p ∈ cuts p is := by
  cases is <;> exact List.mem_cons_self

theorem end_mem_cuts (p : Nat) (is : List Instr) : p + codeSize is ∈ cuts p is := by
  induction is generalizing p with
  | nil => exact List.mem_singleton_self p
  | cons i is ih =>
      rw [codeSize_cons, ← Nat.add_assoc]
      exact List.mem_cons_of_mem _ (ih _)

theorem mem_cuts_append {p t : Nat} {is js : List Instr} :
    t ∈ cuts p (is ++ js) ↔ t ∈ cuts p is ∨ t ∈ cuts (p + codeSize is) js := by
  induction is generalizing p with
  | nil =>
      refine ⟨.inr, fun h => h.elim (fun h => ?_) id⟩
      rw [List.mem_singleton.mp h]
      exact start_mem_cuts p js
  | cons i is ih =>
      simp only [List.cons_append, cuts, List.mem_cons, ih, codeSize_cons, Nat.add_assoc, or_assoc]

/-- An offset between two instructions. -/
theorem mem_cuts_iff {p t : Nat} {is : List Instr} :
    t ∈ cuts p is ↔ ∃ a b, is = a ++ b ∧ t = p + codeSize a := by
  constructor
  · intro h
    induction is generalizing p with
    | nil => exact ⟨[], [], rfl, List.mem_singleton.mp h⟩
    | cons i is ih =>
        rcases List.mem_cons.mp h with rfl | h
        · exact ⟨[], i :: is, rfl, rfl⟩
        · obtain ⟨a, b, rfl, rfl⟩ := ih h
          exact ⟨i :: a, b, rfl, by rw [codeSize_cons, Nat.add_assoc]⟩
  · rintro ⟨a, b, rfl, rfl⟩
    exact mem_cuts_append.mpr (.inl (end_mem_cuts p a))

theorem le_of_mem_cuts {p t : Nat} {is : List Instr} (h : t ∈ cuts p is) : t ≤ p + codeSize is := by
  obtain ⟨a, b, rfl, rfl⟩ := mem_cuts_iff.mp h
  rw [codeSize_append]
  omega

/-- The jumps of instructions that start at the offset `p` end in `S`. -/
def JumpsIn (S : Nat → Prop) : Nat → List Instr → Prop
  | _, [] => True
  | p, i :: is => i.JumpsTo S p ∧ JumpsIn S (p + i.size) is

theorem jumpsIn_of_not_jump {is : List Instr} (h : ∀ i ∈ is, i.opcode.isJump = false)
    (S : Nat → Prop) (p : Nat) : JumpsIn S p is := by
  induction is generalizing p with
  | nil => trivial
  | cons i is ih =>
      exact ⟨Instr.jumpsTo_of_not_jump (h i List.mem_cons_self) S p,
        ih (fun i' hi' => h i' (List.mem_cons_of_mem _ hi')) _⟩

theorem jumpsIn_append {S : Nat → Prop} {p : Nat} {is js : List Instr} :
    JumpsIn S p (is ++ js) ↔ JumpsIn S p is ∧ JumpsIn S (p + codeSize is) js := by
  induction is generalizing p with
  | nil => exact ⟨fun h => ⟨trivial, h⟩, And.right⟩
  | cons i is ih =>
      simp only [List.cons_append, JumpsIn, ih, codeSize_cons, Nat.add_assoc, and_assoc]

theorem JumpsIn.jumpsTo {S : Nat → Prop} {a b : List Instr} {i : Instr}
    (h : JumpsIn S 0 (a ++ i :: b)) : i.JumpsTo S (codeSize a) := by
  have := (jumpsIn_append.mp h).2.1
  rwa [Nat.zero_add] at this

theorem JumpsIn.mono {S S' : Nat → Prop} {p : Nat} {is : List Instr} (h : JumpsIn S p is)
    (hS : ∀ t, S t → S' t) : JumpsIn S' p is := by
  induction is generalizing p with
  | nil => trivial
  | cons i is ih => exact ⟨h.1.mono hS, ih h.2⟩

/-! ### Well-formed code -/

/-- Every instruction fits, and every jump ends where an instruction starts. -/
structure WellFormedCode (constants : List (Constant ObjectFunction)) (is : List Instr) : Prop where
  fits : ∀ i ∈ is, i.Fits constants
  jumps : JumpsIn (· ∈ cuts 0 is) 0 is

/-- The instructions with their lines, as blocks of bytes. -/
def lineBlocks (is : List Instr) (lines : List Int32) : List (Nat × Int32) :=
  (is.map Instr.size).zip lines

theorem lineBlocks_append {is is' : List Instr} {lines lines' : List Int32}
    (h : lines.length = is.length) :
    lineBlocks (is ++ is') (lines ++ lines') = lineBlocks is lines ++ lineBlocks is' lines' := by
  rw [lineBlocks, List.map_append, List.zip_append (by simp [h])]
  rfl

theorem lineBlocks_replicate (is : List Instr) (line : Int32) :
    lineBlocks is (List.replicate is.length line) =
      (is.map Instr.size).map fun size => (size, line) := by
  induction is with
  | nil => rfl
  | cons i is ih => exact congrArg ((i.size, line) :: ·) ih

theorem total_lineBlocks {is : List Instr} {lines : List Int32} (h : lines.length = is.length) :
    RunLength.total (lineBlocks is lines) = codeSize is := by
  rw [RunLength.total, lineBlocks, List.map_fst_zip (by simp [h])]
  rfl

/-- The code is well formed and each instruction has one line, in the chunk of a function and in
those of the functions among its constants. -/
inductive Compiled : ObjectFunction → Prop where
  | intro {f : ObjectFunction} (is : List Instr) (lines : List Int32) (code : f.code = encodeAll is)
      (wellFormed : WellFormedCode f.constants is) (length : lines.length = is.length)
      (table : f.lines = Chunk.addLines [] 0 (lineBlocks is lines))
      (functions : ∀ g, Constant.function g ∈ f.constants → Compiled g) : Compiled f

/-- The functions of a program: the script and the functions among the constants of one. -/
inductive FunctionOf (f : ObjectFunction) : ObjectFunction → Prop where
  | script : FunctionOf f f
  | nested {g g' : ObjectFunction} : FunctionOf f g → Constant.function g' ∈ g.constants →
      FunctionOf f g'

theorem Compiled.functionOf {f g : ObjectFunction} (h : Compiled f) (hg : FunctionOf f g) :
    Compiled g := by
  induction hg with
  | script => exact h
  | nested _ hmem ih =>
      cases ih with
      | intro is lines code wellFormed length table functions => exact functions _ hmem

/-! ### Instructions are told apart by their bytes -/

theorem uint16Bytes_injective {n m : Nat} (hn : n ≤ 0xFFFF) (hm : m ≤ 0xFFFF)
    (h : uint16Bytes n = uint16Bytes m) : n = m := by
  have hval := congrArg leVal h
  rwa [uint16Bytes, uint16Bytes, leVal_leBytes_of_lt (by omega), leVal_leBytes_of_lt (by omega)]
    at hval

/-- The opcode and the size of an instruction. -/
def Instr.outline (i : Instr) : OpCode × Nat := (i.opcode, i.size)

theorem outline_eq_of_encode {constants : List (Constant ObjectFunction)} {i j : Instr}
    {bytes bytes' : List UInt8} (hi : i.Fits constants) (hj : j.Fits constants)
    (h : i.encode ++ bytes = j.encode ++ bytes') : i.outline = j.outline := by
  have hcode : i.opcode = j.opcode := by
    obtain ⟨a, ha⟩ := i.encode_eq
    obtain ⟨b, hb⟩ := j.encode_eq
    rw [ha, hb] at h
    exact OpCode.toByte_injective (List.cons.inj h).1
  have hoperands : i.operands = j.operands := by
    have := hi.operands
    rw [hcode, hj.operands] at this
    exact (Option.some.inj this).symm
  refine Prod.ext hcode ?_
  cases i with
  | op o => cases j <;> first | rfl | cases hoperands
  | byte o b => cases j <;> first | rfl | cases hoperands
  | short o n => cases j <;> first | rfl | cases hoperands
  | shortByte o n b => cases j <;> first | rfl | cases hoperands
  | closure k U =>
      cases j with
      | closure k' U' =>
          -- both are closures of the same constant
          obtain ⟨hk, g, hg, hcount⟩ := hi
          obtain ⟨hk', g', hg', hcount'⟩ := hj
          simp only [Instr.encode, List.cons_append, List.append_assoc] at h
          have hbytes := (List.append_inj (List.cons.inj h).2 (by simp [uint16Bytes])).1
          rw [uint16Bytes_injective hk hk' hbytes, hg'] at hg
          cases hg
          change 3 + 3 * U.length = 3 + 3 * U'.length
          rw [← hcount, ← hcount']
      | op o => cases hoperands
      | byte o b => cases hoperands
      | short o n => cases hoperands
      | shortByte o n b => cases hoperands

/-- Instructions that fit the same constants and have the same bytes have the same opcodes and
sizes. -/
theorem map_outline_eq {constants : List (Constant ObjectFunction)} {is js : List Instr}
    (h : encodeAll is = encodeAll js) (hi : ∀ i ∈ is, i.Fits constants)
    (hj : ∀ j ∈ js, j.Fits constants) : is.map Instr.outline = js.map Instr.outline := by
  induction is generalizing js with
  | nil =>
      cases js with
      | nil => rfl
      | cons j js =>
          obtain ⟨bytes, hbytes⟩ := j.encode_eq
          simp [hbytes] at h
  | cons i is ih =>
      cases js with
      | nil =>
          obtain ⟨bytes, hbytes⟩ := i.encode_eq
          simp [hbytes] at h
      | cons j js =>
          have houtline :=
            outline_eq_of_encode (hi i List.mem_cons_self) (hj j List.mem_cons_self) h
          have hsize : i.size = j.size := congrArg Prod.snd houtline
          have hrest := (List.append_inj h (by rw [i.length_encode, j.length_encode, hsize])).2
          rw [List.map_cons, List.map_cons, houtline, ih hrest
            (fun i' h' => hi i' (List.mem_cons_of_mem _ h'))
            fun j' h' => hj j' (List.mem_cons_of_mem _ h')]

theorem map_size_of_outline {is js : List Instr} (h : is.map Instr.outline = js.map Instr.outline) :
    is.map Instr.size = js.map Instr.size := by
  have := congrArg (List.map Prod.snd) h
  rwa [List.map_map, List.map_map] at this

theorem codeSize_eq_of_encodeAll {is js : List Instr} (h : encodeAll is = encodeAll js) :
    codeSize is = codeSize js := by
  rw [← length_encodeAll, h, length_encodeAll]

end CppLox
