import CppLox.Library.Except
import CppLox.Serialization.Serializer

/-!
# Serialization — the loader

`Deserializer` (`src/serialization/deserializer.cpp`).  Offsets are `uint32_t`: every sum the
source computes is reduced by `u32`.  A read outside the byte vector is the outcome
`outOfBounds`, and a loop that is cut short by its fuel is the outcome `outOfFuel`; the two
kinds of C++ exception keep their texts.

The branches under `is_log_enabled` are left out.  `loxdump` alone sets it (`Deserializer(true)`): it
prints what is read and disassembles each chunk before anything has checked its code, so what is
proved of a load here is about `lox` and `loxvm`.

A name is its bytes.  Where `Allocator::intern_string` makes one object of two names with NUL bytes
(`Memory.GC.internString_confuses`), `get_global` finds the second one in the table already and the
load ends in the `logic_error` about a global table that is not empty; here the second name is new.
-/

namespace CppLox

open LittleEndian

/-- How loading ends without a function. -/
inductive LoadError where
  | logicError (message : String)
  | runtimeError (message : String)
  | outOfBounds
  | outOfFuel
  deriving Repr, DecidableEq

/-- Whether the outcome is a C++ exception. -/
def LoadError.isException : LoadError → Bool
  | .logicError _ | .runtimeError _ => true
  | .outOfBounds | .outOfFuel => false

namespace Deserializer

/-- A read of the `n` bytes at `buffer + offset`. -/
def readBytes (buffer : List UInt8) (offset n : Nat) : Except LoadError (List UInt8) :=
  if offset + n ≤ buffer.length then .ok (slice buffer offset n) else .error .outOfBounds

/-- `datapacker::bytes::decode` of an `n`-byte integer at `buffer + offset`. -/
def decode (buffer : List UInt8) (offset n : Nat) : Except LoadError Nat := do
  let bytes ← readBytes buffer offset n
  return leVal bytes

/-- One iteration of the loop of `Deserializer::deserialize_strings`: the string recorded at
`offset` and the offset after it. -/
def readString (buffer : List UInt8) (size offset : Nat) : Except LoadError (Bytes × Nat) :=
  if u32 (offset + 4) > size then
    .error (.runtimeError "bytecode load error: insufficient bytes to read string length")
  else do
    let currentStringLength ← decode buffer offset 4
    let offset := u32 (offset + 4)
    if u32 (offset + currentStringLength) > size then
      .error (.runtimeError "bytecode load error: insufficient bytes to read string data")
    else
      let sv ← readBytes buffer offset currentStringLength
      return (sv, u32 (offset + currentStringLength))

/-- The loop body of `Deserializer::deserialize_strings`, on the offset and the strings read so
far. -/
def stringsBody (buffer : List UInt8) (size : Nat) (st : Nat × List (Nat × Bytes)) :
    Except LoadError (Nat × List (Nat × Bytes)) := do
  let (sv, after) ← readString buffer size st.1
  return (after, (st.1, sv) :: st.2)

/-- The loop of `Deserializer::deserialize_strings`. -/
def readStrings (fuel : Nat) (buffer : List UInt8) (size : Nat) :
    Except LoadError (Nat × List (Nat × Bytes)) :=
  Except.whileE (fun st => st.1 < size) (stringsBody buffer size) .outOfFuel fuel (8, [])

/-- `Deserializer::deserialize_strings`: the strings of the block by their offsets. -/
def deserializeStrings (fuel : Nat) (buffer : List UInt8) (size : Nat) :
    Except LoadError (List (Nat × Bytes)) :=
  if size < 8 then
    .error (.logicError "bytecode load error: too small strings block, should be >= 8 bytes")
  else do
    let _stringCount ← decode buffer 0 4
    let stringBlockSize ← decode buffer 4 4
    if size ≠ stringBlockSize then
      .error (.runtimeError
        ("bytecode load error: invalid string block size, expected " ++
          toString stringBlockSize ++ " bytes, got " ++ toString size ++ " bytes"))
    else do
      let (_, strings) ← readStrings fuel buffer size
      return strings

/-- The loop of `Deserializer::deserialize_global_table`, from entry `i` on, with `n` entries
left. -/
def readGlobals (strings : List (Nat × Bytes)) (buffer : List UInt8) :
    Nat → Nat → Nat → Context → Except LoadError Context
  | 0, _, _, context => .ok context
  | n + 1, i, offset, context => do
    let nameIndex ← decode buffer offset 4
    let isConst ← decode buffer (offset + 4) 1
    let _reserved0 ← decode buffer (offset + 5) 2
    let _reserved1 ← decode buffer (offset + 7) 1
    match strings.lookup nameIndex with
    | none => .error (.runtimeError
        ("bytecode load error: global symbol table references invalid string index " ++
          toString nameIndex))
    | some name =>
      let (index, context) := context.getGlobal name
      if index ≠ i then .error (.logicError
        "bytecode load error: context (global table) is not empty when loading bytecode")
      else
        let context := context.modify index fun v => { v with isConst := isConst ≠ 0 }
        readGlobals strings buffer n (i + 1) (u32 (offset + 8)) context

/-- `Deserializer::deserialize_global_table`. -/
def deserializeGlobalTable (strings : List (Nat × Bytes)) (context : Context)
    (buffer : List UInt8) (size : Nat) : Except LoadError Context :=
  if size < 4 then .error (.logicError
    "bytecode load error: too small global symbol table, should be >= 4 bytes")
  else do
    let numEntries ← decode buffer 0 2
    let _reserved ← decode buffer 2 2
    if size ≠ numEntries * 8 + 4 then .error (.runtimeError
      ("bytecode load error: invalid global string table size, expected " ++
        toString (numEntries * 8 + 4) ++ " bytes, got " ++ toString size ++ " bytes"))
    else readGlobals strings buffer numEntries 0 4 context

/-- The record of nine bytes at `offset`: one iteration of the loop of
`Deserializer::deserialize_constant_pool`. -/
def readConstant (codec : DoubleCodec) (strings : List (Nat × Bytes))
    (functions : List (Nat × ObjectFunction)) (buffer : List UInt8) (offset : Nat) :
    Except LoadError (Constant ObjectFunction) := do
  let type ← decode buffer offset 1
  let value ← decode buffer (offset + 1) 8
  if type = 'N'.toNat then .ok .nil
  else if type = 'B'.toNat then .ok (.boolean (value ≠ 0))
  else if type = 'R'.toNat then do
    let realVal ← decode buffer (offset + 1) 8
    .ok (.real (codec.unpack (UInt64.ofNat realVal)))
  else if type = 'I'.toNat then .ok (.integer (Int64.ofBitVec (BitVec.ofNat 64 value)))
  else if type = 'S'.toNat then
    if value ≥ uint32Max then .error (.logicError
      "bytecode load error: constant pool references invalid string index")
    else match strings.lookup value with
      | none => .error (.runtimeError
          ("bytecode load error: constant pool references invalid string index " ++
            toString value))
      | some s => .ok (.string s)
  else if type = 'F'.toNat then
    if value ≥ uint32Max then .error (.logicError
      "bytecode load error: constant pool references invalid function index")
    else match functions.lookup value with
      | none => .error (.runtimeError
          ("bytecode load error: constant pool references invalid function index " ++
            toString value))
      | some f => .ok (.function f)
  else .error (.runtimeError "bytecode load error: invalid value type in constant pool")

/-- `Deserializer::deserialize_constant_pool`: `n` records from `offset` on. -/
def deserializeConstantPool (codec : DoubleCodec) (strings : List (Nat × Bytes))
    (functions : List (Nat × ObjectFunction)) (buffer : List UInt8) :
    Nat → Nat → Except LoadError (List (Constant ObjectFunction))
  | 0, _ => .ok []
  | n + 1, offset => do
    let constant ← readConstant codec strings functions buffer offset
    let rest ← deserializeConstantPool codec strings functions buffer n (offset + 9)
    return constant :: rest

/-- The loop of `Deserializer::deserialize_debug_info`, with `n` pairs left: the pairs and the
offset after them. -/
def readLines (buffer : List UInt8) : Nat → Nat → Except LoadError (List LineInfo × Nat)
  | 0, offset => .ok ([], offset)
  | n + 1, offset => do
    let codeOffset ← decode buffer offset 4
    let lineNumber ← decode buffer (offset + 4) 4
    let info : LineInfo := ⟨Int32.ofBitVec (BitVec.ofNat 32 codeOffset),
      Int32.ofBitVec (BitVec.ofNat 32 lineNumber)⟩
    let (rest, offset) ← readLines buffer n (u32 (offset + 8))
    return (info :: rest, offset)

/-- `Deserializer::deserialize_debug_info`: the line table and the offset after it. -/
def deserializeDebugInfo (buffer : List UInt8) (offset size : Nat) :
    Except LoadError (List LineInfo × Nat) :=
  if u32 (offset + 8) > size then .error (.runtimeError
    "bytecode load error: insufficient bytes to read debug info header")
  else do
    let count ← decode buffer offset 4
    let _reserved ← decode buffer (offset + 4) 4
    let offset := u32 (offset + 8)
    if u32 (offset + u32 (count * 8)) > size then .error (.runtimeError
      "bytecode load error: insufficient bytes to read debug info pairs")
    else readLines buffer count offset

/-- The code block of a chunk at `offset`, the line table after it when there is one, and the
offset after both. -/
def readCode (buffer : List UInt8) (size offset codeLength debugInfoPresent : Nat) :
    Except LoadError (List UInt8 × List LineInfo × Nat) :=
  if u32 (offset + codeLength) > size then .error (.runtimeError
    "bytecode load error: insufficient bytes to read chunk code")
  else do
    let code ← readBytes buffer offset codeLength
    let offset := u32 (offset + codeLength)
    let (lines, offset) ←
      if debugInfoPresent = 1 then deserializeDebugInfo buffer offset size else .ok ([], offset)
    return (code, lines, offset)

/-- The header of a chunk. -/
structure ChunkHeader where
  type : Nat
  functionNameIndex : Nat
  arity : Nat
  upvalueCount : Nat
  constantPoolSize : Nat
  codeLength : Nat
  debugInfoPresent : Nat
  id : Nat

/-- The 24 bytes of the header at `offset`. -/
def decodeHeader (buffer : List UInt8) (offset : Nat) : Except LoadError ChunkHeader := do
  let type ← decode buffer offset 1
  let functionNameIndex ← decode buffer (offset + 1) 4
  let arity ← decode buffer (offset + 5) 1
  let upvalueCount ← decode buffer (offset + 6) 2
  let constantPoolSize ← decode buffer (offset + 8) 2
  let codeLength ← decode buffer (offset + 10) 4
  let debugInfoPresent ← decode buffer (offset + 14) 1
  let id ← decode buffer (offset + 15) 4
  let _reserved0 ← decode buffer (offset + 19) 4
  let _reserved1 ← decode buffer (offset + 23) 1
  return ⟨type, functionNameIndex, arity, upvalueCount, constantPoolSize, codeLength,
    debugInfoPresent, id⟩

/-- The members of `Deserializer` the chunks are read with, and the allocator's next address. -/
structure Functions where
  functions : List (Nat × ObjectFunction)
  nextAddr : Addr

/-- `Allocator::new_function` for a chunk that was read, and its registration under its id. -/
def register (st : Functions) (id : Nat) (obj : Addr → ObjectFunction) :
    Except LoadError Functions :=
  if (st.functions.lookup id).isSome then .error (.runtimeError
    ("bytecode load error: duplicate chunk id " ++ toString id))
  else .ok ⟨(id, obj st.nextAddr) :: st.functions, st.nextAddr + 1⟩

/-- One iteration of the loop of `Deserializer::deserialize_chunks`: the chunk at `offset`, the
offset after it and the functions with it added. -/
def readChunk (codec : DoubleCodec) (strings : List (Nat × Bytes)) (buffer : List UInt8)
    (size offset : Nat) (st : Functions) : Except LoadError (Nat × Functions) :=
  if u32 (offset + 24) > size then .error (.runtimeError
    "bytecode load error: insufficient bytes to read chunk header")
  else do
    let header ← decodeHeader buffer offset
    if header.type ≠ 'F'.toNat then .error (.runtimeError
      "bytecode load error: invalid chunk type, expected 'F'")
    else
      let offset := u32 (offset + 24)
      match strings.lookup header.functionNameIndex with
      | none => .error (.logicError
          ("bytecode load error: function references invalid string index " ++
            toString header.functionNameIndex))
      | some name =>
        if u32 (offset + header.constantPoolSize * 9) > size then .error (.runtimeError
          "bytecode load error: insufficient bytes to read chunk constant pool values")
        else do
          let pool ← deserializeConstantPool codec strings st.functions buffer
            header.constantPoolSize offset
          let offset := u32 (offset + header.constantPoolSize * 9)
          let (code, lines, offset) ←
            readCode buffer size offset header.codeLength header.debugInfoPresent
          let st ← register st header.id fun addr =>
            ⟨addr, header.arity, header.upvalueCount, name, code, pool, lines⟩
          return (offset, st)

/-- `Deserializer::deserialize_chunks`. -/
def deserializeChunks (codec : DoubleCodec) (fuel : Nat) (strings : List (Nat × Bytes))
    (buffer : List UInt8) (size : Nat) (st : Functions) : Except LoadError (Nat × Functions) :=
  Except.whileE (fun st => st.1 < size)
    (fun st => readChunk codec strings buffer size st.1 st.2) .outOfFuel fuel (0, st)

/-- `Deserializer::deserialize_program`.  `fuel` bounds the iterations of each loop over the
strings and the chunks. -/
def deserializeProgram (codec : DoubleCodec) (fuel : Nat) (bytecode : SerializedBytecode)
    (nextAddr : Addr) (context : Context) : Except LoadError (ObjectFunction × Context) :=
  if bytecode.strings.length ≥ uint32Max then .error (.runtimeError
    "bytecode load error: constant strings block too large")
  else do
    let strings ← deserializeStrings fuel bytecode.strings bytecode.strings.length
    if bytecode.globals.length ≥ 8 * uint16Max then .error (.runtimeError
      "bytecode load error: global symbol table is too large")
    else
      let context ←
        deserializeGlobalTable strings context bytecode.globals bytecode.globals.length
      if bytecode.bytecode.length ≥ uint32Max then .error (.runtimeError
        "bytecode load error: bytecode block too large")
      else
        let (_, st) ← deserializeChunks codec fuel strings bytecode.bytecode
          bytecode.bytecode.length ⟨[], nextAddr⟩
        match st.functions.lookup 0 with
        | none => .error (.runtimeError
            "bytecode load error: main function with id 0 does not exist")
        | some main => return (main, context)

end Deserializer

end CppLox
