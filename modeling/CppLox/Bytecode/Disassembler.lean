import CppLox.Bytecode.Layout
import CppLox.Object.Context

/-!
# Bytecode — the disassembler

`src/common/debug_vm.cpp` up to what is printed: the decoders, their table, `print_jump_target` and
the loop of `decode_chunk`.  A read past the end of the code, the cast of a constant that is no
function and an offset that is no `int` are undefined.
-/

namespace CppLox

namespace Disassembler

/-- `NameInfo`. -/
structure NameInfo where
  isGlobal : Bool := true
  name : Bytes

/-- `DecodedInstruction`. -/
structure DecodedInstruction where
  offset : Nat
  opcode : OpCode
  operands : List Int := []
  constants : List (Option (Constant ObjectFunction)) := []
  line : Int32
  nextOffset : Nat
  names : List NameInfo := []

/-! ### Reads -/

def readU8Le (f : ObjectFunction) (offset : Nat) : Option Nat := f.code[offset]?.map UInt8.toNat

def readU16Le (f : ObjectFunction) (offset : Nat) : Option Nat := do
  let low ← readU8Le f offset
  let high ← readU8Le f (offset + 1)
  return low + 256 * high

/-- The constant at the index that is read, if there is one (`Chunk::get_value`). -/
def readConstant (f : ObjectFunction) (offset : Nat) : Option (Option (Constant ObjectFunction)) := do
  let index ← readU8Le f offset
  return f.constants[index]?

def readConstantLong (f : ObjectFunction) (offset : Nat) :
    Option (Option (Constant ObjectFunction)) := do
  let index ← readU16Le f offset
  return f.constants[index]?

def readInstruction (f : ObjectFunction) (offset : Nat) : Option OpCode := do
  let byte ← f.code[offset]?
  OpCode.ofByte byte

/-! ### Decoders -/

abbrev DecodeFn := Context → ObjectFunction → Nat → Option DecodedInstruction

def opNoArgs : DecodeFn := fun _ f offset => do
  let opcode ← readInstruction f offset
  return { offset, opcode, line := Chunk.getLineNumber f offset, nextOffset := offset + 1 }

def opU8 : DecodeFn := fun _ f offset => do
  let opcode ← readInstruction f offset
  let operand ← readU8Le f (offset + 1)
  return { offset, opcode, operands := [operand], line := Chunk.getLineNumber f offset
           nextOffset := offset + 2 }

def opU16 : DecodeFn := fun _ f offset => do
  let opcode ← readInstruction f offset
  let operand ← readU16Le f (offset + 1)
  return { offset, opcode, operands := [operand], line := Chunk.getLineNumber f offset
           nextOffset := offset + 3 }

def opConstantU8 : DecodeFn := fun _ f offset => do
  let opcode ← readInstruction f offset
  let operand ← readU8Le f (offset + 1)
  let value ← readConstant f (offset + 1)
  return { offset, opcode, operands := [operand], constants := [value]
           line := Chunk.getLineNumber f offset, nextOffset := offset + 2 }

def opConstantU16 : DecodeFn := fun _ f offset => do
  let opcode ← readInstruction f offset
  let operand ← readU16Le f (offset + 1)
  let value ← readConstantLong f (offset + 1)
  return { offset, opcode, operands := [operand], constants := [value]
           line := Chunk.getLineNumber f offset, nextOffset := offset + 3 }

def opGlobalU16 : DecodeFn := fun context f offset => do
  let opcode ← readInstruction f offset
  let index ← readU16Le f (offset + 1)
  let name := if context.exists index then context.getName index else []
  return { offset, opcode, operands := [index], line := Chunk.getLineNumber f offset
           nextOffset := offset + 3, names := [{ name }] }

def opInvoke : DecodeFn := fun _ f offset => do
  let opcode ← readInstruction f offset
  let operand ← readU16Le f (offset + 1)
  let value ← readConstantLong f (offset + 1)
  let argCount ← readU8Le f (offset + 3)
  return { offset, opcode, operands := [operand, argCount], constants := [value]
           line := Chunk.getLineNumber f offset, nextOffset := offset + 4 }

/-- The loop of `op_closure`: the operands for `n` upvalues from `offset` on. -/
def readCaptures (f : ObjectFunction) : Nat → Nat → Option (List Int)
  | 0, _ => some []
  | n + 1, offset => do
    let isLocal ← readU8Le f offset
    let index ← readU16Le f (offset + 1)
    let rest ← readCaptures f n (offset + 3)
    return isLocal :: index :: rest

/-- The number of upvalues of a constant that is cast to a function. -/
def upvalueCount : Option (Constant ObjectFunction) → Option Nat
  | some (.function function) => some function.upvalueCount
  | some _ => none
  | none => some 0

def opClosure : DecodeFn := fun _ f offset => do
  let opcode ← readInstruction f offset
  let operand ← readU16Le f (offset + 1)
  let value ← readConstantLong f (offset + 1)
  let count ← upvalueCount value
  let captures ← readCaptures f count (offset + 3)
  return { offset, opcode, operands := (operand : Int) :: captures, constants := [value]
           line := Chunk.getLineNumber f offset, nextOffset := offset + 3 + 3 * count }

def opUnknown : DecodeFn := fun _ f offset =>
  some { offset, opcode := .invalid, line := Chunk.getLineNumber f offset, nextOffset := offset + 1 }

/-- The entry of an opcode in the table (`init_decode_table`). -/
def decoder : OpCode → DecodeFn
  | .return | .negate | .add | .subtract | .multiply | .divide | .true | .false | .nil
  | .uninitialized | .not | .greater | .less | .equal | .print | .popTop | .dupTop | .closeUpvalue
  | .inherit | .zero | .minusOne | .one | .listAppend | .mapAdd | .storeIndex | .loadIndex =>
    opNoArgs
  | .call | .list | .map => opU8
  | .loadConstant => opConstantU8
  | .loadConstantLong | .class | .method | .storeProperty | .loadProperty | .loadPropertySafe
  | .loadSuper => opConstantU16
  | .loadUpvalue | .storeUpvalue | .loadLocal | .storeLocal | .jumpIfFalse | .popJumpIfFalse
  | .jumpForward | .jumpIfTrue | .jumpBackward => opU16
  | .defineGlobal | .storeGlobal | .loadGlobal => opGlobalU16
  | .invoke | .superInvoke => opInvoke
  | .closure => opClosure
  | .invalid => opUnknown

/-- `decode_table`: the entries that are not set are `op_unknown`. -/
def decodeTable (byte : UInt8) : DecodeFn :=
  match OpCode.ofByte byte with
  | some op => decoder op
  | none => opUnknown

/-- `print_jump_target`: the target that is printed, with its line. -/
def printJumpTarget (f : ObjectFunction) (instr : DecodedInstruction) : Option (Int × Int32) :=
  match instr.operands with
  | [] => none
  | jmp :: _ =>
    if !instr.opcode.isJump then none
    else
      let direction : Int := if instr.opcode = .jumpBackward then -1 else 1
      let target := instr.nextOffset + direction * jmp
      some (target, Chunk.getLineNumber f target)

/-- `offset = instr.next_offset`, which the decoders have counted up to. -/
def checkedOffset (offset : Nat) : Option Nat := if offset < 2 ^ 31 then some offset else none

/-- The loop of `decode_chunk` from `offset` on, for at most `fuel` instructions.  The size of the
code is cast to `int`: from `2 ^ 31` bytes on it is negative or too small. -/
def decodeFrom (context : Context) (f : ObjectFunction) :
    Nat → Nat → Option (List DecodedInstruction)
  | 0, _ => none
  | fuel + 1, offset =>
    if offset < (Int32.ofNat f.code.length).toInt then do
      let byte ← f.code[offset]?
      let instr ← decodeTable byte context f offset
      let nextOffset ← checkedOffset instr.nextOffset
      let rest ← decodeFrom context f fuel nextOffset
      return instr :: rest
    else some []

/-- `decode_chunk`: the instructions it prints.  Each one takes a byte at least. -/
def decodeChunk (context : Context) (f : ObjectFunction) : Option (List DecodedInstruction) :=
  decodeFrom context f (f.code.length + 1) 0

/-! ### Decoding what the compiler emits -/

section

variable {f : ObjectFunction}

theorem readU8Le_of_code (pre : List UInt8) (b : UInt8) (bytes : List UInt8)
    (h : f.code = pre ++ b :: bytes) :
    readU8Le f pre.length = some b.toNat := by
  rw [readU8Le, h]
  simp

theorem readU16Le_of_code (pre : List UInt8) (n : Nat) (bytes : List UInt8)
    (h : f.code = pre ++ (uint16Bytes n ++ bytes)) :
    readU16Le f pre.length = some (n % 0x10000) := by
  have hlow : f.code = pre ++ n.toUInt8 :: ((n / 256).toUInt8 :: bytes) := h
  have hhigh : f.code = (pre ++ [n.toUInt8]) ++ (n / 256).toUInt8 :: bytes := by
    rw [hlow, List.append_assoc]
    rfl
  have hread := readU8Le_of_code _ _ _ hhigh
  rw [List.length_append, List.length_singleton] at hread
  simp only [readU16Le, readU8Le_of_code _ _ _ hlow, hread, Option.bind_eq_bind, Option.bind_some,
    Option.pure_def, Option.some.injEq, Nat.toUInt8_eq, UInt8.toNat_ofNat']
  omega

theorem readInstruction_of_code (op : OpCode) {pre bytes : List UInt8}
    (h : f.code = pre ++ op.toByte :: bytes) :
    readInstruction f pre.length = some op := by
  simp [readInstruction, h, OpCode.ofByte_toByte]

theorem readCaptures_of_code (U : List Upvalue) (pre bytes : List UInt8)
    (h : f.code = pre ++ (U.flatMap Instr.captureBytes ++ bytes)) :
    ∃ operands, readCaptures f U.length pre.length = some operands := by
  induction U generalizing pre with
  | nil => exact ⟨[], rfl⟩
  | cons u U ih =>
      rw [List.flatMap_cons, Instr.captureBytes, List.cons_append, List.cons_append,
        List.append_assoc] at h
      have hindex : f.code = (pre ++ [if u.isLocal then 1 else 0]) ++ (uint16Bytes u.index ++
          (U.flatMap Instr.captureBytes ++ bytes)) := by
        rw [h]
        simp
      have hrest : f.code = (pre ++ [if u.isLocal then 1 else 0] ++ uint16Bytes u.index) ++
          (U.flatMap Instr.captureBytes ++ bytes) := by
        rw [hindex, List.append_assoc _ (uint16Bytes u.index)]
      obtain ⟨operands, hoperands⟩ := ih _ hrest
      have hread := readU16Le_of_code _ _ _ hindex
      simp only [List.length_append, List.length_singleton, uint16Bytes,
        LittleEndian.length_leBytes] at hread hoperands
      exact ⟨(if u.isLocal then 1 else 0 : UInt8).toNat :: (u.index % 0x10000 : Nat) :: operands, by
        simp [readCaptures, readU8Le_of_code _ _ _ h, hread, hoperands]⟩

theorem decoder_none (op : OpCode) (h : op.operands = some .none) : decoder op = opNoArgs := by
  cases op <;> first | rfl | cases h

theorem decoder_byte (op : OpCode) (h : op.operands = some .byte) :
    decoder op = opU8 ∨ decoder op = opConstantU8 := by
  cases op <;> first | exact .inl rfl | exact .inr rfl | cases h

theorem decoder_short (op : OpCode) (h : op.operands = some .short) :
    decoder op = opU16 ∨
      op.isJump = false ∧ (decoder op = opConstantU16 ∨ decoder op = opGlobalU16) := by
  cases op <;> first
    | exact .inl rfl
    | exact .inr ⟨rfl, .inl rfl⟩
    | exact .inr ⟨rfl, .inr rfl⟩
    | cases h

theorem decoder_shortByte (op : OpCode) (h : op.operands = some .shortByte) :
    decoder op = opInvoke := by
  cases op <;> first | rfl | cases h

/-- An instruction is decoded as what it is. -/
structure Decodes (f : ObjectFunction) (p : Nat) (i : Instr) (d : DecodedInstruction) : Prop where
  offset : d.offset = p
  opcode : d.opcode = i.opcode
  nextOffset : d.nextOffset = p + i.size
  jump : i.opcode.isJump = true → ∃ n, readU16Le f (p + 1) = some n ∧ d.operands = [(n : Int)]

theorem decodes_of_code (context : Context) {i : Instr} {pre bytes : List UInt8}
    (hfits : i.Fits f.constants)
    (h : f.code = pre ++ (i.encode ++ bytes)) :
    ∃ d, decodeTable i.opcode.toByte context f pre.length = some d ∧ Decodes f pre.length i d := by
  rw [decodeTable, OpCode.ofByte_toByte]
  have hnojump : ∀ (op : OpCode) {operands : Operands}, op.operands = some operands →
      operands ≠ .short → ¬op.isJump = true := by
    intro op operands hop hne hjump
    rw [operands_of_isJump hjump] at hop
    exact hne (Option.some.inj hop).symm
  cases i with
  | op o =>
      have hop := readInstruction_of_code o h
      change ∃ d, decoder o context f pre.length = some d ∧ _
      simp only [decoder_none o hfits, opNoArgs, hop]
      exact ⟨_, rfl, rfl, rfl, rfl, fun hjump => absurd hjump (hnojump o hfits (by intro h; cases h))⟩
  | byte o b =>
      have hop := readInstruction_of_code o h
      have hb := readU8Le_of_code (pre ++ [o.toByte]) b.toUInt8 bytes
        (by rw [h]; simp [Instr.encode])
      rw [List.length_append, List.length_singleton] at hb
      change ∃ d, decoder o context f pre.length = some d ∧ _
      rcases decoder_byte o hfits with hdecoder | hdecoder
      · simp only [hdecoder, opU8, hop, hb]
        exact ⟨_, rfl, rfl, rfl, rfl, fun hjump => absurd hjump (hnojump o hfits (by intro h; cases h))⟩
      · simp only [hdecoder, opConstantU8, readConstant, hop, hb]
        exact ⟨_, rfl, rfl, rfl, rfl, fun hjump => absurd hjump (hnojump o hfits (by intro h; cases h))⟩
  | short o n =>
      have hop := readInstruction_of_code o h
      have hn := readU16Le_of_code (pre ++ [o.toByte]) n bytes
        (by rw [h]; simp [Instr.encode])
      rw [List.length_append, List.length_singleton] at hn
      change ∃ d, decoder o context f pre.length = some d ∧ _
      rcases decoder_short o hfits with hdecoder | ⟨hjump, hdecoder | hdecoder⟩
      · simp only [hdecoder, opU16, hop, hn]
        exact ⟨_, rfl, rfl, rfl, rfl, fun _ => ⟨_, hn, rfl⟩⟩
      · simp only [hdecoder, opConstantU16, readConstantLong, hop, hn]
        exact ⟨_, rfl, rfl, rfl, rfl, fun h => absurd (hjump.symm.trans h) Bool.false_ne_true⟩
      · simp only [hdecoder, opGlobalU16, hop, hn]
        exact ⟨_, rfl, rfl, rfl, rfl, fun h => absurd (hjump.symm.trans h) Bool.false_ne_true⟩
  | shortByte o n b =>
      have hop := readInstruction_of_code o h
      have hn := readU16Le_of_code (pre ++ [o.toByte]) n (b.toUInt8 :: bytes)
        (by rw [h]; simp [Instr.encode])
      have hb := readU8Le_of_code (pre ++ o.toByte :: uint16Bytes n) b.toUInt8 bytes
        (by rw [h]; simp [Instr.encode])
      rw [List.length_append, List.length_singleton] at hn
      rw [List.length_append, List.length_cons, uint16Bytes, LittleEndian.length_leBytes] at hb
      change ∃ d, decoder o context f pre.length = some d ∧ _
      simp only [decoder_shortByte o hfits, opInvoke, readConstantLong, hop, hn, hb]
      exact ⟨_, rfl, rfl, rfl, rfl, fun hjump => absurd hjump (hnojump o hfits (by intro h; cases h))⟩
  | closure k U =>
      obtain ⟨hk, g, hg, hcount⟩ := hfits
      have hop := readInstruction_of_code .closure h
      have hn := readU16Le_of_code (pre ++ [OpCode.closure.toByte]) k
        (U.flatMap Instr.captureBytes ++ bytes) (by rw [h]; simp [Instr.encode])
      obtain ⟨operands, hcaptures⟩ := readCaptures_of_code U
        (pre ++ OpCode.closure.toByte :: uint16Bytes k) bytes
        (by rw [h]; simp [Instr.encode])
      rw [List.length_append, List.length_singleton, Nat.mod_eq_of_lt (by omega)] at hn
      rw [List.length_append, List.length_cons, uint16Bytes, LittleEndian.length_leBytes]
        at hcaptures
      change ∃ d, opClosure context f pre.length = some d ∧ _
      simp only [opClosure, readConstantLong, hop, hn, hg, upvalueCount, hcount, hcaptures,
        Option.bind_eq_bind, Option.bind_some, Option.pure_def]
      exact ⟨_, rfl, rfl, rfl, Nat.add_assoc .., fun hjump => absurd hjump Bool.false_ne_true⟩

/-- The instructions one after the other. -/
theorem decodeFrom_spec (context : Context) {is : List Instr} (pre : List UInt8) {fuel : Nat}
    (hsize : f.code.length < 2 ^ 31) (hfits : ∀ i ∈ is, i.Fits f.constants)
    (h : f.code = pre ++ encodeAll is) (hfuel : is.length < fuel) :
    ∃ ds, decodeFrom context f fuel pre.length = some ds ∧
      ds.map DecodedInstruction.offset ++ [f.code.length] = cuts pre.length is ∧
      pre.length :: ds.map DecodedInstruction.nextOffset = cuts pre.length is ∧
      ∀ d ∈ ds, ∃ a i b, is = a ++ i :: b ∧ Decodes f (pre.length + codeSize a) i d := by
  have hend : (Int32.ofNat f.code.length).toInt = f.code.length := Int32.toInt_ofNat_of_lt hsize
  induction is generalizing pre fuel with
  | nil =>
      obtain ⟨fuel, rfl⟩ : ∃ n, fuel = n + 1 := ⟨fuel - 1, by simp at hfuel; omega⟩
      rw [encodeAll_nil, List.append_nil] at h
      refine ⟨[], ?_, by simp [h, cuts], rfl, nofun⟩
      rw [decodeFrom, hend, h, if_neg (Int.lt_irrefl _)]
  | cons i is ih =>
      obtain ⟨fuel, rfl⟩ : ∃ n, fuel = n + 1 := ⟨fuel - 1, by simp at hfuel; omega⟩
      rw [encodeAll_cons] at h
      obtain ⟨d, hd, hdecodes⟩ :=
        decodes_of_code context (hfits i List.mem_cons_self) h
      obtain ⟨ds, hds, hoffsets, hnexts, hall⟩ := ih (pre ++ i.encode)
        (fun j hj => hfits j (List.mem_cons_of_mem _ hj)) (by rw [h, List.append_assoc])
        (by simpa using hfuel)
      have hlength : (pre ++ i.encode).length = pre.length + i.size := by
        rw [List.length_append, i.length_encode]
      rw [hlength] at hds hoffsets hnexts hall
      obtain ⟨bytes, hbytes⟩ := i.encode_eq
      have hbyte : f.code[pre.length]? = some i.opcode.toByte := by
        rw [h, hbytes]
        simp
      have hcode : f.code.length = pre.length + i.size + codeSize is := by
        rw [h, List.length_append, List.length_append, i.length_encode, length_encodeAll,
          Nat.add_assoc]
      have hsizepos := i.size_pos
      have hnext : checkedOffset d.nextOffset = some (pre.length + i.size) := by
        rw [hdecodes.nextOffset]
        exact if_pos (by omega)
      refine ⟨d :: ds, ?_, ?_, ?_, fun d' hd' => ?_⟩
      · rw [decodeFrom, hend, if_pos (by omega), hbyte]
        simp [hd, hnext, hds]
      · rw [List.map_cons, List.cons_append, hoffsets, hdecodes.offset]
        rfl
      · rw [List.map_cons, hdecodes.nextOffset, hnexts]
        rfl
      · rcases List.mem_cons.mp hd' with rfl | hd'
        · exact ⟨[], i, is, rfl, hdecodes⟩
        · obtain ⟨a, j, b, rfl, hj⟩ := hall d' hd'
          exact ⟨i :: a, j, b, rfl, by rwa [codeSize_cons, ← Nat.add_assoc]⟩

theorem length_le_codeSize (is : List Instr) : is.length ≤ codeSize is := by
  induction is with
  | nil => exact Nat.le_refl 0
  | cons i is ih =>
      have := i.size_pos
      rw [List.length_cons, codeSize_cons]
      omega

theorem decodeChunk_spec (context : Context) {is : List Instr} (hsize : f.code.length < 2 ^ 31)
    (hfits : ∀ i ∈ is, i.Fits f.constants) (h : f.code = encodeAll is) :
    ∃ ds, decodeChunk context f = some ds ∧
      ds.map DecodedInstruction.offset ++ [f.code.length] = cuts 0 is ∧
      0 :: ds.map DecodedInstruction.nextOffset = cuts 0 is ∧
      ∀ d ∈ ds, ∃ a i b, is = a ++ i :: b ∧ Decodes f (codeSize a) i d := by
  have hfuel : is.length < f.code.length + 1 := by
    rw [h, length_encodeAll]
    exact Nat.lt_succ_of_le (length_le_codeSize is)
  unfold decodeChunk
  simpa using decodeFrom_spec context [] hsize hfits h hfuel

end

end Disassembler

end CppLox
