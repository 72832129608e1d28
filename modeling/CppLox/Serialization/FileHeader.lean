import CppLox.Library.Crc32
import CppLox.Library.Except
import CppLox.Serialization.Serializer

/-!
# Serialization — the file container

`FileHeader` (`include/file_header.hpp`): 32 bytes of header and the sections for the bytecode, the
globals and the strings.  Offsets are `uint32_t` and sizes of vectors `size_t`.  The reader checks
the checksum, the version and the size, and then slices by the offsets as they are: a file is read
safely exactly when one of the checks fails or its offsets are ordered (`FileHeader.read_safe_iff`).
-/

namespace CppLox

open LittleEndian

namespace FileHeader

/-- `MAGIC`. -/
def magic : List UInt8 := [0x00, 0x4C, 0x4F, 0x58]

/-- `VERSION_MAJOR`. -/
def versionMajor : Nat := 1

/-- `VERSION_MINOR`. -/
def versionMinor : Nat := 0

/-- `VERSION_PATCH`. -/
def versionPatch : Nat := 0

/-! ### The writer -/

/-- The header from byte 8 on, behind the magic number and the checksum. -/
def headerTail (chunkCount chunkStartOffset globalTableOffset stringsOffset fileSize : Nat) :
    List UInt8 :=
  leBytes 1 versionMajor ++ (leBytes 1 versionMinor ++ (leBytes 1 versionPatch ++
    (leBytes 2 chunkCount ++ (leBytes 4 chunkStartOffset ++ (leBytes 4 globalTableOffset ++
      (leBytes 4 stringsOffset ++ (leBytes 4 fileSize ++ [0, 0, 0])))))))

/-- `FileHeader::write`: the bytes of the file. -/
def write (bytecode : SerializedBytecode) : List UInt8 :=
  let chunkStartOffset := 32
  let globalTableOffset := u32 (chunkStartOffset + u32 bytecode.bytecode.length)
  let stringsOffset := u32 (globalTableOffset + u32 bytecode.globals.length)
  let fileSize := u32 (stringsOffset + u32 bytecode.strings.length)
  let header := headerTail bytecode.chunkCount chunkStartOffset globalTableOffset stringsOffset
    fileSize
  let crc := Crc32.computeBuf 0 header
  let crc := Crc32.computeBuf crc bytecode.bytecode
  let crc := Crc32.computeBuf crc bytecode.globals
  let crc := Crc32.computeBuf crc bytecode.strings
  magic ++ (leBytes 4 crc.toNat ++
    (header ++ (bytecode.bytecode ++ (bytecode.globals ++ bytecode.strings))))

/-! ### The reader -/

/-- How reading ends without sections: an exception of the reader, the `std::length_error` of
`resize` on a size above `max_size()`, or a copy from outside the buffer. -/
inductive ReadError where
  | exception (message : String)
  | lengthError
  | outOfBounds
  deriving Repr, DecidableEq

/-- The fields of a header that are read. -/
structure Header where
  magic : List UInt8
  crc : Nat
  versionMajor : Nat
  versionMinor : Nat
  versionPatch : Nat
  chunkCount : Nat
  chunkStartOffset : Nat
  globalTableOffset : Nat
  stringsOffset : Nat
  fileSize : Nat
  deriving Repr, DecidableEq

/-- The header of a buffer of at least 32 bytes. -/
def decodeHeader (buffer : List UInt8) : Header where
  magic := slice buffer 0 4
  crc := leVal (slice buffer 4 4)
  versionMajor := leVal (slice buffer 8 1)
  versionMinor := leVal (slice buffer 9 1)
  versionPatch := leVal (slice buffer 10 1)
  chunkCount := leVal (slice buffer 11 2)
  chunkStartOffset := leVal (slice buffer 13 4)
  globalTableOffset := leVal (slice buffer 17 4)
  stringsOffset := leVal (slice buffer 21 4)
  fileSize := leVal (slice buffer 25 4)

/-- A version in an error message. -/
def versionText (major minor patch : Nat) : String :=
  toString major ++ "." ++ toString minor ++ "." ++ toString patch

/-- The checks of `FileHeader::read` on a header: the text of the exception. -/
def headerError (buffer : List UInt8) (header : Header) : Option String :=
  if header.magic ≠ magic then some "Not a valid Lox compiled program"
  else if (Crc32.computeBuf 0 (buffer.drop 8)).toNat ≠ header.crc then
    some "Bytecode file corrupted: CRC32 checksum mismatch"
  else if header.versionMajor ≠ versionMajor then
    some ("Incompatible bytecode version: " ++
      versionText header.versionMajor header.versionMinor header.versionPatch ++
      ", expected major version " ++ toString versionMajor)
  else if header.versionMinor > versionMinor ∨
      header.versionMinor = versionMinor ∧ header.versionPatch > versionPatch then
    some ("Forward bytecode version not supported: " ++
      versionText header.versionMajor header.versionMinor header.versionPatch ++
      ", maximum supported version " ++ versionText versionMajor versionMinor versionPatch)
  else if header.fileSize ≠ buffer.length then
    some ("File size mismatch: header indicates " ++ toString header.fileSize ++
      " bytes, but file contains " ++ toString buffer.length ++ " bytes")
  else none

/-- `std::vector<uint8_t>::max_size()`. -/
def maxSize : Nat := 2 ^ 63 - 1

/-- A subtraction of `uint32_t`. -/
def sub32 (a b : Nat) : Nat := (a + 2 ^ 32 - b) % 2 ^ 32

/-- A subtraction of `size_t`. -/
def sub64 (a b : Nat) : Nat := (a + 2 ^ 64 - b) % 2 ^ 64

/-- A section is resized and the bytes from `first` up to `last` are copied to it. -/
def copySection (buffer : List UInt8) (size first last : Nat) : Except ReadError (List UInt8) :=
  if size > maxSize then .error .lengthError
  else if first = last then .ok []
  else if first < last ∧ last ≤ buffer.length then .ok (slice buffer first (last - first))
  else .error .outOfBounds

/-- The sections between the offsets of a header. -/
def readSections (buffer : List UInt8) (header : Header) : Except ReadError SerializedBytecode := do
  let bytecode ← copySection buffer (sub32 header.globalTableOffset header.chunkStartOffset)
    header.chunkStartOffset header.globalTableOffset
  let globals ← copySection buffer (sub32 header.stringsOffset header.globalTableOffset)
    header.globalTableOffset header.stringsOffset
  let strings ← copySection buffer (sub64 buffer.length header.stringsOffset)
    header.stringsOffset buffer.length
  return ⟨header.chunkCount, bytecode, strings, globals⟩

/-- `FileHeader::read` on the bytes of a file. -/
def read (buffer : List UInt8) : Except ReadError SerializedBytecode :=
  if buffer.length < 32 then .error (.exception "bytecode file is corrupt, < 32 bytes")
  else
    match headerError buffer (decodeHeader buffer) with
    | some message => .error (.exception message)
    | none => readSections buffer (decodeHeader buffer)

/-- `FileHeader::is_compiled_lox_program` on the bytes of a file. -/
def isCompiledLoxProgram (file : List UInt8) : Bool :=
  if file.length < 32 then false else decide (slice file 0 4 = magic)

/-! ### The round trip -/

/-- The sections fit offsets of 32 bits, and the count of chunks its field. -/
structure Fits (bytecode : SerializedBytecode) : Prop where
  chunkCount : bytecode.chunkCount < 2 ^ 16
  sections : 32 + bytecode.bytecode.length + bytecode.globals.length + bytecode.strings.length <
    2 ^ 32

/-- The header of a file that is written. -/
def headerOf (bytecode : SerializedBytecode) (crc : UInt32) : Header where
  magic := magic
  crc := crc.toNat
  versionMajor := versionMajor
  versionMinor := versionMinor
  versionPatch := versionPatch
  chunkCount := bytecode.chunkCount
  chunkStartOffset := 32
  globalTableOffset := 32 + bytecode.bytecode.length
  stringsOffset := 32 + bytecode.bytecode.length + bytecode.globals.length
  fileSize := 32 + bytecode.bytecode.length + bytecode.globals.length + bytecode.strings.length

/-- What stands behind the checksum in a file that is written. -/
def payload (bytecode : SerializedBytecode) : List UInt8 :=
  headerTail bytecode.chunkCount 32 (32 + bytecode.bytecode.length)
      (32 + bytecode.bytecode.length + bytecode.globals.length)
      (32 + bytecode.bytecode.length + bytecode.globals.length + bytecode.strings.length) ++
    (bytecode.bytecode ++ (bytecode.globals ++ bytecode.strings))

section

variable {bytecode : SerializedBytecode}

theorem u32_of_fits {n : Nat} (h : n < 2 ^ 32) : u32 n = n := Nat.mod_eq_of_lt h

/-- The checksums of the parts are the one of the whole. -/
theorem write_eq (h : Fits bytecode) : write bytecode =
    magic ++ (leBytes 4 (Crc32.computeBuf 0 (payload bytecode)).toNat ++ payload bytecode) := by
  have hsum := h.sections
  unfold write payload
  simp only [Crc32.computeBuf_append]
  rw [u32_of_fits (show bytecode.bytecode.length < 2 ^ 32 by omega),
    u32_of_fits (show bytecode.globals.length < 2 ^ 32 by omega),
    u32_of_fits (show bytecode.strings.length < 2 ^ 32 by omega),
    u32_of_fits (show 32 + bytecode.bytecode.length < 2 ^ 32 by omega),
    u32_of_fits (show 32 + bytecode.bytecode.length + bytecode.globals.length < 2 ^ 32 by omega),
    u32_of_fits h.sections]

theorem length_headerTail (a b c d e : Nat) : (headerTail a b c d e).length = 24 := rfl

theorem length_write (h : Fits bytecode) : (write bytecode).length =
    32 + bytecode.bytecode.length + bytecode.globals.length + bytecode.strings.length := by
  rw [write_eq h, payload]
  simp only [List.length_append, length_headerTail, length_leBytes]
  change 4 + _ = _
  omega

end

/-- The fields of a header that stands in front of a buffer. -/
theorem decodeHeader_of_block {buffer : List UInt8} {crc count start globals strings size : Nat}
    (h : BlockAt buffer 0 (magic ++ (leBytes 4 crc ++ headerTail count start globals strings size))) :
    decodeHeader buffer = ⟨magic, crc % 2 ^ 32, versionMajor, versionMinor, versionPatch,
      count % 2 ^ 16, start % 2 ^ 32, globals % 2 ^ 32, strings % 2 ^ 32, size % 2 ^ 32⟩ := by
  have htail := h.right.right
  have hoffsets := htail.right.right.right
  have hmajor : leVal (slice buffer 8 1) = versionMajor := htail.left.leVal_slice
  have hminor : leVal (slice buffer 9 1) = versionMinor := htail.right.left.leVal_slice
  have hpatch : leVal (slice buffer 10 1) = versionPatch := htail.right.right.left.leVal_slice
  have hmagic : slice buffer 0 4 = magic := h.left.slice_eq
  have hcrc : leVal (slice buffer 4 4) = crc % 2 ^ 32 := h.right.left.leVal_slice
  have hcount : leVal (slice buffer 11 2) = count % 2 ^ 16 := hoffsets.left.leVal_slice
  have hstart : leVal (slice buffer 13 4) = start % 2 ^ 32 := hoffsets.right.left.leVal_slice
  have hglobals : leVal (slice buffer 17 4) = globals % 2 ^ 32 :=
    hoffsets.right.right.left.leVal_slice
  have hstrings : leVal (slice buffer 21 4) = strings % 2 ^ 32 :=
    hoffsets.right.right.right.left.leVal_slice
  have hsize : leVal (slice buffer 25 4) = size % 2 ^ 32 :=
    hoffsets.right.right.right.right.left.leVal_slice
  unfold decodeHeader
  rw [hmagic, hcrc, hmajor, hminor, hpatch, hcount, hstart, hglobals, hstrings, hsize]

section

variable {bytecode : SerializedBytecode}

theorem decodeHeader_write (h : Fits bytecode) :
    decodeHeader (write bytecode) = headerOf bytecode (Crc32.computeBuf 0 (payload bytecode)) := by
  have hsum := h.sections
  have hfile : BlockAt (write bytecode) 0 (magic ++ (leBytes 4
      (Crc32.computeBuf 0 (payload bytecode)).toNat ++ headerTail bytecode.chunkCount 32
      (32 + bytecode.bytecode.length) (32 + bytecode.bytecode.length + bytecode.globals.length)
      (32 + bytecode.bytecode.length + bytecode.globals.length + bytecode.strings.length))) :=
    ⟨[], bytecode.bytecode ++ (bytecode.globals ++ bytecode.strings), by
      rw [write_eq h]
      simp only [payload, List.append_assoc, List.nil_append], rfl⟩
  rw [decodeHeader_of_block hfile, Nat.mod_eq_of_lt (UInt32.toNat_lt _),
    Nat.mod_eq_of_lt h.chunkCount, Nat.mod_eq_of_lt (show 32 + bytecode.bytecode.length < 2 ^ 32 by
    omega), Nat.mod_eq_of_lt (show 32 + bytecode.bytecode.length + bytecode.globals.length < 2 ^ 32
    by omega), Nat.mod_eq_of_lt h.sections]
  rfl

theorem version_supported : ¬ (versionMinor > versionMinor ∨
    versionMinor = versionMinor ∧ versionPatch > versionPatch) := by
  decide

/-- The checks accept a file that is written. -/
theorem headerError_write (h : Fits bytecode) :
    headerError (write bytecode) (decodeHeader (write bytecode)) = none := by
  have hpayload : (write bytecode).drop 8 = payload bytecode := by
    rw [write_eq h]
    rfl
  unfold headerError
  rw [decodeHeader_write h, hpayload, length_write h, if_neg (fun hne => hne rfl),
    if_neg (fun hne => hne rfl), if_neg (fun hne => hne rfl)]
  exact (if_neg version_supported).trans (if_neg fun hne => hne rfl)

theorem sub32_of_le {a b : Nat} (h : b ≤ a) (ha : a < 2 ^ 32) : sub32 a b = a - b := by
  unfold sub32
  omega

theorem sub64_of_le {a b : Nat} (h : b ≤ a) (ha : a < 2 ^ 64) : sub64 a b = a - b := by
  unfold sub64
  omega

/-- A section between ordered offsets is the slice between them. -/
theorem copySection_of_le {buffer : List UInt8} {size first last : Nat} (hsize : size ≤ maxSize)
    (hle : first ≤ last) (hlast : last ≤ buffer.length) :
    copySection buffer size first last = .ok (slice buffer first (last - first)) := by
  unfold copySection
  rw [if_neg (Nat.not_lt.mpr hsize)]
  rcases Nat.eq_or_lt_of_le hle with rfl | hlt
  · rw [if_pos rfl, Nat.sub_self]
    rfl
  · rw [if_neg (Nat.ne_of_lt hlt), if_pos ⟨hlt, hlast⟩]

end

/-! ### Safe reading -/

/-- The offsets of a header cut a file of `n` bytes behind its header. -/
structure Header.Ordered (header : Header) (n : Nat) : Prop where
  start : 32 ≤ header.chunkStartOffset
  globals : header.chunkStartOffset ≤ header.globalTableOffset
  strings : header.globalTableOffset ≤ header.stringsOffset
  size : header.stringsOffset ≤ n

/-- The slices of a file between the offsets of a header. -/
def Header.slices (header : Header) (buffer : List UInt8) : SerializedBytecode where
  chunkCount := header.chunkCount
  bytecode := slice buffer header.chunkStartOffset
    (header.globalTableOffset - header.chunkStartOffset)
  strings := slice buffer header.stringsOffset (buffer.length - header.stringsOffset)
  globals := slice buffer header.globalTableOffset (header.stringsOffset - header.globalTableOffset)

/-- The reader throws one of its exceptions, or it returns the slices of the file between ordered
offsets. -/
def ReadsSafely (buffer : List UInt8) : Prop :=
  (∃ message, read buffer = .error (.exception message)) ∨
    (decodeHeader buffer).Ordered buffer.length ∧
      read buffer = .ok ((decodeHeader buffer).slices buffer)

/-- A file passes the checks of the reader. -/
def Passes (buffer : List UInt8) : Prop :=
  32 ≤ buffer.length ∧ headerError buffer (decodeHeader buffer) = none

section

variable {buffer : List UInt8} {header : Header}

theorem read_of_passes (h : Passes buffer) :
    read buffer = readSections buffer (decodeHeader buffer) := by
  unfold read
  rw [if_neg (Nat.not_lt.mpr h.1), h.2]

theorem read_of_not_passes (h : ¬ Passes buffer) :
    ∃ message, read buffer = .error (.exception message) := by
  unfold read
  by_cases hlength : buffer.length < 32
  · exact ⟨_, if_pos hlength⟩
  · rw [if_neg hlength]
    cases herror : headerError buffer (decodeHeader buffer) with
    | none => exact absurd ⟨Nat.not_lt.mp hlength, herror⟩ h
    | some message => exact ⟨message, rfl⟩

/-- A file that passes has the size its header says. -/
theorem length_of_passes (h : Passes buffer) : buffer.length = (decodeHeader buffer).fileSize := by
  have herror := h.2
  unfold headerError at herror
  split at herror
  · cases herror
  split at herror
  · cases herror
  split at herror
  · cases herror
  split at herror
  · cases herror
  split at herror
  · cases herror
  · rename_i hsize
    exact (not_not.mp hsize).symm

theorem leVal_slice_lt (off : Nat) : leVal (slice buffer off 4) < 2 ^ 32 := by
  calc leVal (slice buffer off 4) < 256 ^ (slice buffer off 4).length := leVal_lt _
    _ ≤ 256 ^ 4 := Nat.pow_le_pow_right (by decide) (List.length_take_le 4 _)

theorem readSections_of_ordered (h : header.Ordered buffer.length) (hlength : buffer.length < 2 ^ 32) :
    readSections buffer header = .ok (header.slices buffer) := by
  obtain ⟨-, hglobals, hstrings, hsize⟩ := h
  unfold readSections
  rw [sub32_of_le hglobals (by omega), sub32_of_le hstrings (by omega), sub64_of_le hsize (by omega),
    copySection_of_le (by unfold maxSize; omega) hglobals (by omega),
    copySection_of_le (by unfold maxSize; omega) hstrings hsize,
    copySection_of_le (by unfold maxSize; omega) hsize (Nat.le_refl _)]
  rfl

theorem copySection_ne_exception {size first last : Nat} {message : String} :
    copySection buffer size first last ≠ .error (.exception message) := by
  unfold copySection
  intro h
  split at h
  · cases h
  split at h
  · cases h
  split at h <;> cases h

/-- Behind the checks the reader throws no exception of its own. -/
theorem readSections_ne_exception {message : String} :
    readSections buffer header ≠ .error (.exception message) := by
  intro h
  unfold readSections at h
  rcases Except.bind_eq_error.mp h with h | ⟨bytecode, -, h⟩
  · exact copySection_ne_exception h
  rcases Except.bind_eq_error.mp h with h | ⟨globals, -, h⟩
  · exact copySection_ne_exception h
  rcases Except.bind_eq_error.mp h with h | ⟨strings, -, h⟩
  · exact copySection_ne_exception h
  · cases h

/-- **Which files are read safely**: a file is read safely exactly when it fails one of the checks
or its offsets are ordered.  The reader checks the magic bytes, the version, the size and the
checksum, and none of the three offsets: the sizes of the sections are their differences, and
copying a section trusts them. -/
theorem read_safe_iff (buffer : List UInt8) :
    ReadsSafely buffer ↔ (Passes buffer → (decodeHeader buffer).Ordered buffer.length) := by
  constructor
  · rintro (⟨message, hread⟩ | ⟨hordered, -⟩) hpasses
    · rw [read_of_passes hpasses] at hread
      exact absurd hread readSections_ne_exception
    · exact hordered
  · intro h
    by_cases hpasses : Passes buffer
    · have hlength : buffer.length < 2 ^ 32 := by
        rw [length_of_passes hpasses]
        exact leVal_slice_lt 25
      refine .inr ⟨h hpasses, ?_⟩
      rw [read_of_passes hpasses]
      exact readSections_of_ordered (h hpasses) hlength
    · exact .inl (read_of_not_passes hpasses)

end

/-- A file of 32 bytes whose header says that the bytecode goes up to byte 1000, with its
checksum. -/
def overlongFile : List UInt8 :=
  let header := headerTail 0 32 1000 1000 32
  magic ++ leBytes 4 (Crc32.computeBuf 0 header).toNat ++ header

/-- The reader copies from outside a file that passes its checks. -/
theorem read_overlong : ¬ ∀ buffer : List UInt8, ReadsSafely buffer := by
  intro h
  have hread : read overlongFile = .error .outOfBounds := by decide +kernel
  rcases h overlongFile with ⟨message, hsafe⟩ | ⟨-, hsafe⟩
  · rw [hread] at hsafe
    cases hsafe
  · rw [hread] at hsafe
    cases hsafe

/-! ### What is written is read back -/

section

variable {bytecode : SerializedBytecode}

theorem passes_write (h : Fits bytecode) : Passes (write bytecode) := by
  refine ⟨?_, headerError_write h⟩
  rw [length_write h]
  omega

theorem ordered_headerOf (crc : UInt32) : (headerOf bytecode crc).Ordered
    (32 + bytecode.bytecode.length + bytecode.globals.length + bytecode.strings.length) where
  start := Nat.le_refl _
  globals := Nat.le_add_right _ _
  strings := Nat.le_add_right _ _
  size := Nat.le_add_right _ _

/-- The slices of a file that is written are its sections. -/
theorem slices_write (h : Fits bytecode) (crc : UInt32) :
    (headerOf bytecode crc).slices (write bytecode) = bytecode := by
  have hfile : BlockAt (write bytecode) 0 (magic ++ (leBytes 4
      (Crc32.computeBuf 0 (payload bytecode)).toNat ++ (headerTail bytecode.chunkCount 32
      (32 + bytecode.bytecode.length) (32 + bytecode.bytecode.length + bytecode.globals.length)
      (32 + bytecode.bytecode.length + bytecode.globals.length + bytecode.strings.length) ++
      (bytecode.bytecode ++ (bytecode.globals ++ bytecode.strings))))) := by
    rw [write_eq h]
    exact ⟨[], [], (List.append_nil _).symm, rfl⟩
  have hsections := hfile.right.right.right
  have hbytecode : slice (write bytecode) 32 bytecode.bytecode.length = bytecode.bytecode :=
    hsections.left.slice_eq
  have hglobals : slice (write bytecode) (32 + bytecode.bytecode.length) bytecode.globals.length =
      bytecode.globals := hsections.right.left.slice_eq
  have hstrings : slice (write bytecode) (32 + bytecode.bytecode.length + bytecode.globals.length)
      bytecode.strings.length = bytecode.strings := hsections.right.right.slice_eq
  unfold Header.slices headerOf
  dsimp only
  rw [length_write h, Nat.add_sub_cancel_left, Nat.add_sub_cancel_left, Nat.add_sub_cancel_left,
    hbytecode, hglobals, hstrings]

/-- **Files are read back**: every program whose sections fit is read back from the file it is
written to.  The header that is written passes each check of the reader, among them the checksum
over all bytes from the eighth on, and its offsets cut the file into the sections. -/
theorem read_write (bytecode : SerializedBytecode) (h : Fits bytecode) :
    read (write bytecode) = .ok bytecode := by
  have hlength : (write bytecode).length < 2 ^ 32 := by
    rw [length_write h]
    exact h.sections
  have hordered := @ordered_headerOf bytecode (Crc32.computeBuf 0 (payload bytecode))
  rw [← length_write h] at hordered
  rw [read_of_passes (passes_write h), decodeHeader_write h,
    readSections_of_ordered hordered hlength, slices_write h]

/-- A program with bytecode, a string and no globals. -/
theorem read_write_small : read (write ⟨1, [1, 2], [65], []⟩) = .ok ⟨1, [1, 2], [65], []⟩ :=
  read_write ⟨1, [1, 2], [65], []⟩ ⟨by decide, by decide⟩

end

end FileHeader

end CppLox
