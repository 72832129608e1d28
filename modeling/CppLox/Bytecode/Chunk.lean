import CppLox.Bytecode.OpCode
import CppLox.Library.RunLength

/-!
# Bytecode — writing a chunk

`Chunk` (`include/chunk.hpp`, `src/common/chunk.cpp`), whose members are those of the function
that owns it.  The sizes of its vectors are natural numbers; what the source converts to `int`
(the offsets and lines of the table, the bound of the search in it) wraps around as there.
-/

namespace CppLox

theorem ObjectFunction.eta (f : ObjectFunction) :
    ⟨f.addr, f.arity, f.upvalueCount, f.name, f.code, f.constants, f.lines⟩ = f := by
  cases f
  rfl

namespace Chunk

/-- `Chunk::add_line_number`. -/
def addLineNumber (f : ObjectFunction) (offset : Nat) (line : Int32) : ObjectFunction :=
  if (f.lines.getLast?.map LineInfo.lineNumber) = some line then f
  else { f with lines := f.lines ++ [⟨Int32.ofNat offset, line⟩] }

/-- `Chunk::write_byte`. -/
def writeByte (f : ObjectFunction) (byte : UInt8) (line : Int32) : ObjectFunction :=
  let f := addLineNumber f f.code.length line
  { f with code := f.code ++ [byte] }

/-- `Chunk::write_simple_op`. -/
def writeSimpleOp (f : ObjectFunction) (op : OpCode) (line : Int32) : ObjectFunction :=
  writeByte f op.toByte line

/-- `Chunk::write_uint16_le`. -/
def writeUint16Le (f : ObjectFunction) (bytes : Nat) (line : Int32) : ObjectFunction :=
  let f := addLineNumber f f.code.length line
  writeByte (writeByte f bytes.toUInt8 line) (bytes / 256).toUInt8 line

/-- `Chunk::write_load_constant`, on an index that `add_constant` returned. -/
def writeLoadConstant (f : ObjectFunction) (index : Nat) (line : Int32) :
    Except String ObjectFunction :=
  if index ≤ 0xFF then
    return writeByte (writeSimpleOp f .loadConstant line) index.toUInt8 line
  else if index ≤ 0xFFFF then
    return writeUint16Le (writeSimpleOp f .loadConstantLong line) index line
  else throw "Invalid index for write_load_constant. Overflow: > 0xFFFF"

/-- `Chunk::add_constant`. -/
def addConstant (f : ObjectFunction) (value : Constant ObjectFunction) :
    Except String (Nat × ObjectFunction) :=
  if f.constants.length > 0xFFFF then throw "Too many constants in chunk"
  else return (f.constants.length, { f with constants := f.constants ++ [value] })

/-! ### Lines -/

/-- The loop of `Chunk::get_line_number` with the line after it: the entry before, and the entries
the loop goes through. -/
def searchLines (offset : Int) (back : Int32) : LineInfo → List LineInfo → Int32
  | _, [] => back
  | previous, info :: infos =>
    if offset < info.offset.toInt then previous.lineNumber
    else if info.offset.toInt = offset then info.lineNumber
    else searchLines offset back info infos

/-- `Chunk::get_line_number`. -/
def getLineNumber (f : ObjectFunction) (offset : Int) : Int32 :=
  match f.lines with
  | [] => 0
  | [info] => info.lineNumber
  | info :: infos =>
    -- the loop goes from 1 to `static_cast<int>(lines.size())`, which is negative for a table of
    -- `2 ^ 31` entries
    let size := (Int32.ofNat f.lines.length).toInt.toNat
    searchLines offset (infos.getLastD info).lineNumber info (infos.take (size - 1))

/-- The table after `add_line_number`. -/
def addLine (lines : List LineInfo) (offset : Nat) (line : Int32) : List LineInfo :=
  if lines.getLast?.map LineInfo.lineNumber = some line then lines
  else lines ++ [⟨Int32.ofNat offset, line⟩]

theorem addLineNumber_eq (f : ObjectFunction) (offset : Nat) (line : Int32) :
    addLineNumber f offset line = { f with lines := addLine f.lines offset line } := by
  unfold addLineNumber addLine
  split
  · exact f.eta.symm
  · rfl

/-- A line that is the current one is not added again. -/
theorem addLine_addLine (lines : List LineInfo) (offset offset' : Nat) (line : Int32) :
    addLine (addLine lines offset line) offset' line = addLine lines offset line := by
  have hlast : (addLine lines offset line).getLast?.map LineInfo.lineNumber =
      some line := by
    unfold addLine
    split
    · assumption
    · rw [List.getLast?_concat]
      rfl
  exact if_pos hlast

/-- Bytes of one line. -/
def writeBytes (f : ObjectFunction) (bytes : List UInt8) (line : Int32) : ObjectFunction :=
  bytes.foldl (fun f byte => writeByte f byte line) f

theorem writeByte_eq (f : ObjectFunction) (byte : UInt8) (line : Int32) :
    writeByte f byte line =
      { f with code := f.code ++ [byte], lines := addLine f.lines f.code.length line } := by
  rw [writeByte, addLineNumber_eq]

theorem writeBytes_append (f : ObjectFunction) (bytes bytes' : List UInt8) (line : Int32) :
    writeBytes f (bytes ++ bytes') line = writeBytes (writeBytes f bytes line) bytes' line :=
  List.foldl_append

theorem writeBytes_cons (f : ObjectFunction) (byte : UInt8) (bytes : List UInt8) (line : Int32) :
    writeBytes f (byte :: bytes) line =
      { f with
        code := f.code ++ byte :: bytes
        lines := addLine f.lines f.code.length line } := by
  induction bytes generalizing f byte with
  | nil => exact writeByte_eq f byte line
  | cons byte' bytes ih =>
      rw [show writeBytes f (byte :: byte' :: bytes) line =
        writeBytes (writeByte f byte line) (byte' :: bytes) line from rfl, ih, writeByte_eq,
        addLine_addLine, List.append_assoc]
      rfl

theorem writeUint16Le_eq (f : ObjectFunction) (n : Nat) (line : Int32) :
    writeUint16Le f n line = writeBytes f (uint16Bytes n) line := by
  have hbytes : uint16Bytes n = [n.toUInt8, (n / 256).toUInt8] := by
    simp [uint16Bytes, LittleEndian.leBytes]
  rw [writeUint16Le, addLineNumber_eq, hbytes]
  simp only [writeBytes, List.foldl_cons, List.foldl_nil, writeByte_eq, addLine_addLine]

/-! ### The table of lines -/

/-- The table after blocks of bytes from `offset` on, each with its size and its line. -/
def addLines (lines : List LineInfo) : Nat → List (Nat × Int32) → List LineInfo
  | _, [] => lines
  | offset, (size, line) :: blocks => addLines (addLine lines offset line) (offset + size) blocks

theorem addLines_append (lines : List LineInfo) (offset : Nat) (blocks blocks' : List (Nat × Int32)) :
    addLines lines offset (blocks ++ blocks') =
      addLines (addLines lines offset blocks) (offset + RunLength.total blocks) blocks' := by
  induction blocks generalizing lines offset with
  | nil => rfl
  | cons b blocks ih =>
      obtain ⟨size, line⟩ := b
      simp only [List.cons_append, addLines, ih, RunLength.total, List.map_cons, List.sum_cons,
        Nat.add_assoc]

/-- Blocks of the current line add nothing. -/
theorem addLines_replicate (lines : List LineInfo) (offset offset' : Nat) (line : Int32)
    (sizes : List Nat) :
    addLines (addLine lines offset line) offset' (sizes.map fun size => (size, line)) =
      addLine lines offset line := by
  induction sizes generalizing offset' with
  | nil => rfl
  | cons size sizes ih => rw [List.map_cons, addLines, addLine_addLine, ih]

end Chunk

end CppLox
