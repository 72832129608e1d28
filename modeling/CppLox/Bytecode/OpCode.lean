import CppLox.Library.LittleEndian
import CppLox.Object.Value

/-!
# Bytecode — instructions

`OpCode` (`include/opcode.hpp`) and the instructions the compiler emits: an opcode with the
operands `VM::execute` reads after it.
-/

namespace CppLox

open LittleEndian

/-- `OpCode`, in the order of the enumeration. -/
inductive OpCode where
  | invalid | «return» | loadConstant | loadConstantLong
  | negate | add | subtract | multiply | divide
  | nil | uninitialized | true | false | not | equal | greater | less | print | popTop
  | defineGlobal | storeGlobal | loadGlobal | storeLocal | loadLocal | storeUpvalue | loadUpvalue
  | storeProperty | loadProperty | loadPropertySafe | loadSuper | loadIndex | storeIndex
  | closeUpvalue | jumpIfFalse | jumpIfTrue | popJumpIfFalse | jumpForward | jumpBackward | dupTop
  | call | «class» | invoke | superInvoke | inherit | closure
  | zero | minusOne | one | method | list | listAppend | map | mapAdd
  deriving Repr, DecidableEq

namespace OpCode

/-- The opcodes in the order of the enumeration. -/
def all : List OpCode :=
  [.invalid, .return, .loadConstant, .loadConstantLong,
   .negate, .add, .subtract, .multiply, .divide,
   .nil, .uninitialized, .true, .false, .not, .equal, .greater, .less, .print, .popTop,
   .defineGlobal, .storeGlobal, .loadGlobal, .storeLocal, .loadLocal, .storeUpvalue, .loadUpvalue,
   .storeProperty, .loadProperty, .loadPropertySafe, .loadSuper, .loadIndex, .storeIndex,
   .closeUpvalue, .jumpIfFalse, .jumpIfTrue, .popJumpIfFalse, .jumpForward, .jumpBackward, .dupTop,
   .call, .class, .invoke, .superInvoke, .inherit, .closure,
   .zero, .minusOne, .one, .method, .list, .listAppend, .map, .mapAdd]

/-- The byte of an opcode. -/
def toByte (op : OpCode) : UInt8 := (all.idxOf op).toUInt8

/-- The opcode of a byte. -/
def ofByte (b : UInt8) : Option OpCode := all[b.toNat]?

theorem ofByte_toByte (op : OpCode) : ofByte op.toByte = some op := by
  cases op <;> rfl

theorem nodup_all : all.Nodup := by decide

theorem toByte_of_ofByte {b : UInt8} {op : OpCode} (h : ofByte b = some op) : op.toByte = b := by
  obtain ⟨hlt, hop⟩ := List.getElem?_eq_some_iff.mp h
  rw [toByte, ← hop, nodup_all.idxOf_getElem b.toNat hlt]
  simp

end OpCode

/-- `Compiler::Upvalue`: a local slot of the enclosing function, or one of its upvalues. -/
structure Upvalue where
  index : Nat
  isLocal : Bool
  deriving Repr, DecidableEq

/-- The bytes `Chunk::write_uint16_le` writes. -/
def uint16Bytes (n : Nat) : List UInt8 := leBytes 2 n

/-- An instruction: an opcode alone, with a byte, with 16 bits, with both, or `CLOSURE` with a
triple for each upvalue. -/
inductive Instr where
  | op (op : OpCode)
  | byte (op : OpCode) (b : Nat)
  | short (op : OpCode) (n : Nat)
  | shortByte (op : OpCode) (n : Nat) (b : Nat)
  | closure (k : Nat) (captures : List Upvalue)
  deriving Repr, DecidableEq

namespace Instr

/-- The triple of bytes of a captured variable. -/
def captureBytes (u : Upvalue) : List UInt8 := (if u.isLocal then 1 else 0) :: uint16Bytes u.index

/-- The bytes of an instruction. -/
def encode : Instr → List UInt8
  | op o => [o.toByte]
  | byte o b => [o.toByte, b.toUInt8]
  | short o n => o.toByte :: uint16Bytes n
  | shortByte o n b => o.toByte :: (uint16Bytes n ++ [b.toUInt8])
  | closure k captures => OpCode.closure.toByte :: (uint16Bytes k ++ captures.flatMap captureBytes)

/-- The number of bytes of an instruction. -/
def size : Instr → Nat
  | op _ => 1
  | byte _ _ => 2
  | short _ _ => 3
  | shortByte _ _ _ => 4
  | closure _ captures => 3 + 3 * captures.length

theorem length_captureBytes (u : Upvalue) : (captureBytes u).length = 3 := by
  simp [captureBytes, uint16Bytes]

theorem length_flatMap_captureBytes (captures : List Upvalue) :
    (captures.flatMap captureBytes).length = 3 * captures.length := by
  induction captures with
  | nil => rfl
  | cons u captures ih =>
      rw [List.flatMap_cons, List.length_append, ih, length_captureBytes, List.length_cons]
      omega

theorem length_encode (i : Instr) : i.encode.length = i.size := by
  cases i with
  | op o => rfl
  | byte o b => rfl
  | short o n => simp [encode, size, uint16Bytes]
  | shortByte o n b => simp [encode, size, uint16Bytes]
  | closure k captures =>
      simp only [encode, size, List.length_cons, List.length_append, length_flatMap_captureBytes,
        uint16Bytes, length_leBytes]
      omega

theorem size_pos (i : Instr) : 0 < i.size := by
  cases i <;> simp [size]

end Instr

/-- The bytes of a list of instructions. -/
def encodeAll (is : List Instr) : List UInt8 := is.flatMap Instr.encode

/-- The number of bytes of a list of instructions. -/
def codeSize (is : List Instr) : Nat := (is.map Instr.size).sum

@[simp] theorem encodeAll_nil : encodeAll [] = [] := rfl

@[simp] theorem encodeAll_cons (i : Instr) (is : List Instr) :
    encodeAll (i :: is) = i.encode ++ encodeAll is := rfl

@[simp] theorem encodeAll_append (is js : List Instr) :
    encodeAll (is ++ js) = encodeAll is ++ encodeAll js := List.flatMap_append

@[simp] theorem codeSize_nil : codeSize [] = 0 := rfl

@[simp] theorem codeSize_cons (i : Instr) (is : List Instr) :
    codeSize (i :: is) = i.size + codeSize is := rfl

@[simp] theorem codeSize_append (is js : List Instr) :
    codeSize (is ++ js) = codeSize is + codeSize js := by
  simp [codeSize]

@[simp] theorem length_encodeAll (is : List Instr) : (encodeAll is).length = codeSize is := by
  induction is with
  | nil => rfl
  | cons i is ih => simp [ih, i.length_encode]

end CppLox
