import CppLox.Library.LittleEndian
import CppLox.Object.Context

/-!
# Serialization — the writer

`Serializer` (`src/serialization/serializer.cpp`).  The state holds the string block with the
offset each string was written at, the finished chunks by id, and the two counters.  A C++
exception is an error with the exception's text.

`datapacker` is vendored: its integer codec is `leBytes`, which truncates as the casts before
each call do; its codec for doubles is a parameter (`DoubleCodec`).
-/

namespace CppLox

open LittleEndian

/-- `UINT32_MAX`. -/
def uint32Max : Nat := 4294967295

/-- `UINT16_MAX`. -/
def uint16Max : Nat := 65535

/-- Arithmetic in `uint32_t`. -/
def u32 (n : Nat) : Nat := n % 4294967296

/-- `datapacker::bytes::encode_double` and `decode_double`, on bit patterns: the 64-bit integer
a double is written as, and the double that is read back from it. -/
structure DoubleCodec where
  pack : UInt64 → UInt64
  unpack : UInt64 → UInt64

/-- `SerializedBytecode`. -/
structure SerializedBytecode where
  chunkCount : Nat
  bytecode : List UInt8
  strings : List UInt8
  globals : List UInt8
  deriving Repr, DecidableEq

/-- The data members of `Serializer`. -/
structure Serializer where
  stringsBlock : List UInt8
  stringsOffset : List (Bytes × Nat)
  chunks : Nat → List UInt8
  chunkCounter : Nat
  stringCount : Nat

namespace Serializer

/-- The state `serialize_program` starts from: eight bytes are left free for the header of the
string block. -/
def init : Serializer := ⟨List.replicate 8 0, [], fun _ => [], 0, 0⟩

/-- `Serializer::serialize_string`. -/
def serializeString (st : Serializer) (string : Bytes) : Except String (Nat × Serializer) :=
  match st.stringsOffset.lookup string with
  | some offset => .ok (offset, st)
  | none =>
    if st.stringsBlock.length > uint32Max then .error "string too large"
    else
      let offset := u32 st.stringsBlock.length
      let sz := u32 string.length
      -- `encode_length_prefixed` writes the length and `sz` bytes and returns their number as an
      -- `int`; a negative one, converted to `size_t` for the comparison, is the size of no string
      let count := Int32.ofNat (4 + sz)
      if count.toInt ≠ 4 + string.length then .error "string not serialized correctly"
      else .ok (offset,
        { st with
          stringsBlock := st.stringsBlock ++ leBytes 4 sz ++ string
          stringsOffset := (string, offset) :: st.stringsOffset
          stringCount := u32 (st.stringCount + 1) })

/-- The 24 bytes of a chunk header. -/
def chunkHeader (debug : Bool) (function : ObjectFunction) (nameIndex chunkId : Nat) :
    List UInt8 :=
  leBytes 1 'F'.toNat ++ leBytes 4 nameIndex ++ leBytes 1 function.arity ++
    leBytes 2 function.upvalueCount ++ leBytes 2 function.constants.length ++
    leBytes 4 function.code.length ++ leBytes 1 debug.toNat ++ leBytes 4 chunkId ++
    leBytes 4 0 ++ leBytes 1 0

/-- `Serializer::write_chunk_header`. -/
def writeChunkHeader (st : Serializer) (debug : Bool) (function : ObjectFunction)
    (chunkId : Nat) : Except String (List UInt8 × Serializer) := do
  let (functionNameIndex, st) ← st.serializeString function.name
  return (chunkHeader debug function functionNameIndex chunkId, st)

/-- `Serializer::write_debug_information`. -/
def writeDebugInformation (lines : List LineInfo) : Except String (List UInt8) :=
  if lines.length ≥ uint32Max then .error "error while writing debug info: too much debug info"
  else .ok (leBytes 4 lines.length ++ leBytes 4 0 ++
    lines.flatMap fun line =>
      leBytes 4 line.offset.toBitVec.toNat ++ leBytes 4 line.lineNumber.toBitVec.toNat)

/-- The optional last segment of a chunk. -/
def debugSegment (debug : Bool) (lines : List LineInfo) : Except String (List UInt8) :=
  if debug then writeDebugInformation lines else .ok []

mutual

/-- `Serializer::serialize_function`.  The segments of the chunk are collected and stored under
its id at the end: the recursive calls only touch the buffers of other ids. -/
def serializeFunction (codec : DoubleCodec) (debug : Bool) (st : Serializer) :
    ObjectFunction → Except String (Nat × Serializer)
  | ⟨addr, arity, upvalueCount, name, code, constants, lines⟩ =>
    if st.chunkCounter = uint16Max then
      .error "too many chunks, can only serialize < 65535 chunks"
    else do
      let currentChunkId := st.chunkCounter
      let st := { st with chunkCounter := st.chunkCounter + 1 }
      let (header, st) ← st.writeChunkHeader debug
        ⟨addr, arity, upvalueCount, name, code, constants, lines⟩ currentChunkId
      let (pool, st) ← writeConstantPool codec debug st constants
      let debugInfo ← debugSegment debug lines
      let buffer := header ++ pool ++ code ++ debugInfo
      return (currentChunkId, { st with chunks := Function.update st.chunks currentChunkId buffer })

/-- `Serializer::write_constant_pool`.  Each record has nine bytes; the buffer it is written to
was zero-filled by `resize`. -/
def writeConstantPool (codec : DoubleCodec) (debug : Bool) (st : Serializer) :
    List (Constant ObjectFunction) → Except String (List UInt8 × Serializer)
  | [] => .ok ([], st)
  | .nil :: constants => do
    let (rest, st) ← writeConstantPool codec debug st constants
    return (leBytes 1 'N'.toNat ++ leBytes 8 0 ++ rest, st)
  | .boolean b :: constants => do
    let (rest, st) ← writeConstantPool codec debug st constants
    return (leBytes 1 'B'.toNat ++ (leBytes 1 b.toNat ++ leBytes 7 0) ++ rest, st)
  | .real d :: constants => do
    let (rest, st) ← writeConstantPool codec debug st constants
    return (leBytes 1 'R'.toNat ++ leBytes 8 (codec.pack d).toNat ++ rest, st)
  | .integer i :: constants => do
    let (rest, st) ← writeConstantPool codec debug st constants
    return (leBytes 1 'I'.toNat ++ leBytes 8 i.toBitVec.toNat ++ rest, st)
  | .string s :: constants => do
    let (index, st) ← st.serializeString s
    let (rest, st) ← writeConstantPool codec debug st constants
    return (leBytes 1 'S'.toNat ++ leBytes 8 index ++ rest, st)
  | .function f :: constants => do
    let (index, st) ← serializeFunction codec debug st f
    let (rest, st) ← writeConstantPool codec debug st constants
    return (leBytes 1 'F'.toNat ++ leBytes 8 index ++ rest, st)

end

/-- The record of one global in the symbol table. -/
def symbolRecord (index : Nat) (isConst : Bool) : List UInt8 :=
  leBytes 4 index ++ leBytes 1 isConst.toNat ++ leBytes 2 0 ++ leBytes 1 0

/-- The loop of `Serializer::serialize_symbol_table`. -/
def serializeSymbols (st : Serializer) :
    List (Bytes × GlobalValue) → Except String (List UInt8 × Serializer)
  | [] => .ok ([], st)
  | (name, value) :: symbols => do
    let (index, st) ← st.serializeString name
    let (rest, st) ← serializeSymbols st symbols
    return (symbolRecord index value.isConst ++ rest, st)

/-- `Serializer::serialize_symbol_table`. -/
def serializeSymbolTable (st : Serializer) (context : Context) :
    Except String (List UInt8 × Serializer) := do
  let (records, st) ← st.serializeSymbols (context.names.zip context.values)
  return (leBytes 2 context.names.length ++ leBytes 2 0 ++ records, st)

/-- `Serializer::write_string_block_header`. -/
def writeStringBlockHeader (st : Serializer) : Except String Serializer :=
  if st.stringsBlock.length ≥ uint32Max then .error "strings block too huge"
  else .ok { st with
    stringsBlock := leBytes 4 st.stringCount ++ leBytes 4 st.stringsBlock.length ++
      st.stringsBlock.drop 8 }

/-- The chunks in descending order of their ids. -/
def chunksReversed (chunks : Nat → List UInt8) : Nat → List UInt8
  | 0 => []
  | n + 1 => chunks n ++ chunksReversed chunks n

/-- `Serializer::serialize_program`. -/
def serializeProgram (codec : DoubleCodec) (debug : Bool) (function : ObjectFunction)
    (context : Context) : Except String SerializedBytecode := do
  let (id, st) ← serializeFunction codec debug init function
  if id ≠ 0 then .error "id of main function (script) not 0"
  else
    let (globals, st) ← st.serializeSymbolTable context
    let st ← st.writeStringBlockHeader
    return { chunkCount := st.chunkCounter
             bytecode := chunksReversed st.chunks st.chunkCounter
             strings := st.stringsBlock
             globals := globals }

end Serializer

end CppLox
