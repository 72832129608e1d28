import CppLox.Bytecode.Lines

/-!
# Bytecode — sequences of writes

A chunk under any sequence of calls of its members `write_simple_op`, `write_byte`,
`write_uint16_le` and `write_load_constant`, also those no compiler makes: the lines are any `int`
and may decrease, and an index may be out of range.  The table of lines is that of the calls.
-/

namespace CppLox

open RunLength

namespace Chunk

/-- A call of a member that writes, with its arguments. -/
inductive WriteCall where
  | simpleOp (op : OpCode) (line : Int32)
  | byte (byte : UInt8) (line : Int32)
  | uint16Le (bytes : UInt16) (line : Int32)
  | loadConstant (index : Int) (line : Int32)
  deriving DecidableEq

namespace WriteCall

def line : WriteCall → Int32
  | simpleOp _ line | byte _ line | uint16Le _ line | loadConstant _ line => line

/-- The call on a chunk. -/
def run (f : ObjectFunction) (call : WriteCall) : Except String ObjectFunction :=
  match call with
  | simpleOp op _ => return writeSimpleOp f op call.line
  | byte b _ => return writeByte f b call.line
  | uint16Le bytes _ => return writeUint16Le f bytes.toNat call.line
  | loadConstant index _ =>
    if index < 0 then throw "Invalid index for write_load_constant. Underflow: < 0"
    else writeLoadConstant f index.toNat call.line

/-- The bytes a call writes. -/
def bytes : WriteCall → List UInt8
  | simpleOp op _ => [op.toByte]
  | byte b _ => [b]
  | uint16Le bytes _ => uint16Bytes bytes.toNat
  | loadConstant index _ =>
    if index < 0 then []
    else if index.toNat ≤ 0xFF then [OpCode.loadConstant.toByte, index.toNat.toUInt8]
    else if index.toNat ≤ 0xFFFF then OpCode.loadConstantLong.toByte :: uint16Bytes index.toNat
    else []

/-- The block of bytes of a call, with its line.  A call that throws has none. -/
def block (call : WriteCall) : List (Nat × Int32) :=
  if call.bytes = [] then [] else [(call.bytes.length, call.line)]

end WriteCall

/-- A chunk after a call.  A call that throws does so before it writes. -/
def write (f : ObjectFunction) (call : WriteCall) : ObjectFunction :=
  match call.run f with
  | .ok f' => f'
  | .error _ => f

def writeAll (f : ObjectFunction) (calls : List WriteCall) : ObjectFunction := calls.foldl write f

/-- The call of a sequence that wrote the byte at an offset. -/
def Wrote (f : ObjectFunction) (calls : List WriteCall) (k : Nat) (call : WriteCall) : Prop :=
  ∃ before after, calls = before ++ call :: after ∧ (writeAll f before).code.length ≤ k ∧
    k < (writeAll f (before ++ [call])).code.length

variable {f : ObjectFunction} {calls : List WriteCall} {k : Nat}

/-! ### What a call writes -/

theorem writeLoadConstant_eq (f : ObjectFunction) (index : Nat) (line : Int32) :
    writeLoadConstant f index line =
      if index ≤ 0xFF then
        .ok (writeBytes f [OpCode.loadConstant.toByte, index.toUInt8] line)
      else if index ≤ 0xFFFF then
        .ok (writeBytes f (OpCode.loadConstantLong.toByte :: uint16Bytes index) line)
      else .error "Invalid index for write_load_constant. Overflow: > 0xFFFF" := by
  rw [writeLoadConstant, writeUint16Le_eq]
  rfl

/-- A call writes its bytes with its line. -/
theorem write_eq (f : ObjectFunction) (call : WriteCall) :
    write f call = writeBytes f call.bytes call.line := by
  cases call with
  | simpleOp op line => rfl
  | byte b line => rfl
  | uint16Le bytes line => exact writeUint16Le_eq f _ _
  | loadConstant index line =>
      rw [write, WriteCall.run, WriteCall.bytes, writeLoadConstant_eq]
      split_ifs <;> rfl

theorem write_code (f : ObjectFunction) (call : WriteCall) :
    (write f call).code = f.code ++ call.bytes := by
  rw [write_eq]
  cases call.bytes with
  | nil => exact (List.append_nil f.code).symm
  | cons b bytes => rw [writeBytes_cons]

theorem write_lines (f : ObjectFunction) (call : WriteCall) :
    (write f call).lines = addLines f.lines f.code.length call.block := by
  rw [write_eq, WriteCall.block]
  cases call.bytes with
  | nil => rfl
  | cons b bytes =>
      rw [writeBytes_cons]
      rfl

theorem WriteCall.total_block (call : WriteCall) : total call.block = call.bytes.length := by
  rw [block]
  split_ifs with h
  · rw [h]
    rfl
  · exact Nat.add_zero _

/-! ### What a sequence writes -/

theorem writeAll_cons (f : ObjectFunction) (call : WriteCall) (calls : List WriteCall) :
    writeAll f (call :: calls) = writeAll (write f call) calls := rfl

theorem writeAll_append (f : ObjectFunction) (calls calls' : List WriteCall) :
    writeAll f (calls ++ calls') = writeAll (writeAll f calls) calls' := List.foldl_append

theorem total_blocks (calls : List WriteCall) :
    total (calls.flatMap WriteCall.block) = (calls.flatMap WriteCall.bytes).length := by
  induction calls with
  | nil => rfl
  | cons call calls ih =>
      rw [List.flatMap_cons, List.flatMap_cons, List.length_append, ← ih, ← call.total_block]
      simp only [total, List.map_append, List.sum_append]

theorem writeAll_code (f : ObjectFunction) (calls : List WriteCall) :
    (writeAll f calls).code = f.code ++ calls.flatMap WriteCall.bytes := by
  induction calls generalizing f with
  | nil => exact (List.append_nil f.code).symm
  | cons call calls ih => rw [writeAll_cons, ih, write_code, List.append_assoc, List.flatMap_cons]

theorem writeAll_lines (f : ObjectFunction) (calls : List WriteCall) :
    (writeAll f calls).lines = addLines f.lines f.code.length (calls.flatMap WriteCall.block) := by
  induction calls generalizing f with
  | nil => rfl
  | cons call calls ih =>
      rw [writeAll_cons, ih, write_lines, write_code, List.flatMap_cons, addLines_append,
        call.total_block, List.length_append]

theorem blocks_pos (calls : List WriteCall) : ∀ b ∈ calls.flatMap WriteCall.block, 0 < b.1 := by
  intro b hb
  obtain ⟨call, -, hb⟩ := List.mem_flatMap.mp hb
  rw [WriteCall.block] at hb
  split_ifs at hb with hbytes
  · cases hb
  · rw [List.mem_singleton.mp hb]
    exact List.length_pos_of_ne_nil hbytes

/-- Every byte of the code was written by a call. -/
theorem exists_wrote (hf : f.code.length ≤ k) (hk : k < (writeAll f calls).code.length) :
    ∃ call, Wrote f calls k call := by
  induction calls generalizing f with
  | nil => exact absurd hk (Nat.not_lt.mpr hf)
  | cons call calls ih =>
      by_cases hcall : k < (write f call).code.length
      · exact ⟨call, [], calls, rfl, hf, hcall⟩
      · obtain ⟨call', before, after, rfl, hbefore, hafter⟩ := ih (Nat.not_lt.mp hcall) hk
        exact ⟨call', call :: before, after, rfl, hbefore, hafter⟩

/-- The block of the call that wrote a byte is the one the byte falls into. -/
theorem Wrote.valueAt (hcode : f.code = []) {call : WriteCall} (h : Wrote f calls k call) :
    RunLength.valueAt (calls.flatMap WriteCall.block) k = some call.line := by
  obtain ⟨before, after, rfl, hbefore, hafter⟩ := h
  have htotal := total_blocks before
  rw [writeAll_code, hcode, List.nil_append] at hbefore hafter
  rw [List.flatMap_append, List.flatMap_singleton, List.length_append] at hafter
  obtain ⟨j, rfl⟩ := Nat.exists_eq_add_of_le hbefore
  have hne : call.bytes ≠ [] := List.ne_nil_of_length_pos (by omega)
  rw [List.flatMap_append, List.flatMap_cons, ← htotal, valueAt_append, WriteCall.block, if_neg hne]
  exact if_pos (by omega)

/-- **The table of lines is faithful.**  Whatever calls wrote a chunk, in whatever order of lines, the
line of a byte is that of the call that wrote it, and there is such a call for every byte.  The two
bounds are those of `int`: the offset of the last entry, and the number of entries. -/
theorem getLineNumber_writeAll (hcode : f.code = []) (hlines : f.lines = [])
    (hsize : (writeAll f calls).code.length ≤ 2 ^ 31)
    (hentries : (writeAll f calls).lines.length < 2 ^ 31)
    (hk : k < (writeAll f calls).code.length) :
    (∃ call, Wrote f calls k call) ∧
      ∀ call, Wrote f calls k call → getLineNumber (writeAll f calls) k = call.line := by
  refine ⟨exists_wrote (by rw [hcode]; exact Nat.zero_le k) hk, fun call hwrote => ?_⟩
  have htable := writeAll_lines f calls
  rw [hcode, hlines] at htable
  rw [writeAll_code, hcode, List.nil_append, ← total_blocks] at hsize hk
  have hline := getLineNumber_eq htable (blocks_pos calls) hsize hentries hk
  rw [hwrote.valueAt hcode] at hline
  exact Option.some.inj hline

theorem getLineNumber_writeAll_calls :
    let f : ObjectFunction := ⟨0, 0, 0, [], [], [], []⟩
    let calls : List WriteCall :=
      [.byte 7 3, .uint16Le 513 3, .loadConstant (-1) 9, .loadConstant 300 (-2), .simpleOp .popTop 3]
    (∃ call, Wrote f calls 4 call) ∧
      ∀ call, Wrote f calls 4 call → getLineNumber (writeAll f calls) (4 : Nat) = call.line :=
  getLineNumber_writeAll rfl rfl (by decide) (by decide) (by decide)

/-! ### Code of more than `2 ^ 31` bytes -/

/-- A byte of the current line adds no entry. -/
theorem write_byte_of_line {line : Int32} (b : UInt8)
    (hlast : f.lines.getLast?.map LineInfo.lineNumber = some line) :
    write f (.byte b line) = { f with code := f.code ++ [b] } := by
  rw [write_eq, WriteCall.bytes, writeBytes_cons, addLine]
  exact congrArg (fun lines => { f with code := f.code ++ [b], lines }) (if_pos hlast)

theorem writeAll_replicate {line : Int32} (b : UInt8) (n : Nat)
    (hlast : f.lines.getLast?.map LineInfo.lineNumber = some line) :
    writeAll f (List.replicate n (.byte b line)) = { f with code := f.code ++ List.replicate n b } := by
  induction n generalizing f with
  | zero =>
      rw [List.replicate_zero, List.replicate_zero, List.append_nil]
      exact f.eta.symm
  | succ n ih =>
      rw [List.replicate_succ, writeAll_cons, write_byte_of_line b hlast,
        ih (f := { f with code := f.code ++ [b] }) hlast, List.replicate_succ]
      simp only [List.append_assoc, List.singleton_append]

/-- A byte of another line adds an entry with the offset of the byte. -/
theorem write_byte_of_ne {line : Int32} (b : UInt8)
    (hlast : f.lines.getLast?.map LineInfo.lineNumber ≠ some line) :
    (write f (.byte b line)).lines = f.lines ++ [⟨Int32.ofNat f.code.length, line⟩] := by
  rw [write_eq, WriteCall.bytes, writeBytes_cons, addLine]
  exact if_neg hlast

/-- Bytes of one line and then a byte of another. -/
theorem writeAll_replicate_lines (hcode : f.code = []) (hlines : f.lines = []) {line line' : Int32}
    (hne : line ≠ line') (b : UInt8) (n : Nat) :
    (writeAll f (.byte b line :: List.replicate n (.byte b line) ++ [.byte b line'])).lines =
      [⟨0, line⟩, ⟨Int32.ofNat (n + 1), line'⟩] := by
  have hfirst : (write f (.byte b line)).lines = [⟨0, line⟩] := by
    rw [write_byte_of_ne b (by rw [hlines]; nofun), hlines, hcode]
    rfl
  have hlast : (write f (.byte b line)).lines.getLast?.map LineInfo.lineNumber = some line := by
    rw [hfirst]
    rfl
  have hbytes := writeAll_replicate b n hlast
  have hlength : (write f (.byte b line)).code.length = 1 := by
    rw [write_code, hcode]
    rfl
  rw [List.cons_append, writeAll_cons, writeAll_append, hbytes]
  refine (write_byte_of_ne b ?_).trans ?_
  · rw [hfirst]
    exact fun h => hne (Option.some.inj h)
  · rw [hfirst, List.length_append, List.length_replicate, hlength, Nat.add_comm 1 n]
    rfl

/-- The offset of the second entry wraps around, and the search never ends before it. -/
theorem getLineNumber_replicate (hcode : f.code = []) (hlines : f.lines = []) {line line' : Int32}
    (hne : line ≠ line') (b : UInt8) {n : Nat} (hn : (Int32.ofNat (n + 1)).toInt < 0) :
    getLineNumber (writeAll f (.byte b line :: List.replicate n (.byte b line) ++ [.byte b line']))
      (0 : Nat) = line' := by
  have htable := writeAll_replicate_lines hcode hlines hne b n
  rw [getLineNumber_of_small htable (by rw [htable]; exact Nat.lt_of_sub_eq_succ rfl)]
  simp only [searchLines]
  rw [if_neg (by simpa using hn.le), if_neg (by simpa using hn.ne)]
  rfl

theorem not_getLineNumber_writeAll :
    let f : ObjectFunction := ⟨0, 0, 0, [], [], [], []⟩
    let calls : List WriteCall := .byte 0 1 :: List.replicate (2 ^ 31 - 1) (.byte 0 1) ++ [.byte 0 2]
    Wrote f calls 0 (.byte 0 1) ∧
      getLineNumber (writeAll f calls) (0 : Nat) ≠ (WriteCall.byte 0 1).line := by
  refine ⟨⟨[], _, rfl, Nat.le_refl 0, Nat.one_pos⟩, fun hline => ?_⟩
  have hne : (1 : Int32) ≠ 2 := by decide
  have hwraps : (Int32.ofNat (2 ^ 31 - 1 + 1)).toInt < 0 := by decide
  have hother := getLineNumber_replicate (f := ⟨0, 0, 0, [], [], [], []⟩) rfl rfl hne 0 hwraps
  exact absurd (hother.symm.trans hline) (by decide)

/-! ### Tables of `2 ^ 31` entries -/

/-- Bytes whose lines alternate: every byte adds an entry. -/
theorem writeAll_alternating {line line' : Int32} (hne : line ≠ line') (b : UInt8) (n : Nat)
    (hlast : f.lines.getLast?.map LineInfo.lineNumber ≠ some line) :
    let g := writeAll f (List.replicate n [.byte b line, .byte b line']).flatten
    g.lines.length = f.lines.length + 2 * n ∧
      (0 < n → g.lines.getLast?.map LineInfo.lineNumber = some line') := by
  induction n generalizing f with
  | zero => exact ⟨rfl, fun h => absurd h (Nat.lt_irrefl 0)⟩
  | succ n ih =>
      have hfirst := write_byte_of_ne b hlast
      have hne' : (write f (.byte b line)).lines.getLast?.map LineInfo.lineNumber ≠ some line' := by
        rw [hfirst, List.getLast?_concat]
        exact fun h => hne (Option.some.inj h)
      have hsecond := write_byte_of_ne b hne'
      have hlast' : (write (write f (.byte b line)) (.byte b line')).lines.getLast?.map
          LineInfo.lineNumber = some line' := by
        rw [hsecond, List.getLast?_concat]
        rfl
      have hrest := ih (f := write (write f (.byte b line)) (.byte b line'))
        (by rw [hlast']; exact fun h => hne (Option.some.inj h).symm)
      rw [List.replicate_succ, List.flatten_cons, writeAll_append]
      refine ⟨hrest.1.trans ?_, fun _ => ?_⟩
      · rw [hsecond, hfirst, List.length_append, List.length_append]
        simp only [List.length_singleton]
        omega
      · cases n with
        | zero => exact hlast'
        | succ n => exact hrest.2 (Nat.succ_pos n)

/-- With `2 ^ 31` entries the loop has a negative bound, and every byte has the last line. -/
theorem getLineNumber_of_entries (hentries : f.lines.length = 2 ^ 31) {line : Int32}
    (hlast : f.lines.getLast?.map LineInfo.lineNumber = some line) (offset : Int) :
    getLineNumber f offset = line := by
  have hsize : (Int32.ofNat f.lines.length).toInt.toNat - 1 = 0 := by
    rw [hentries]
    decide
  unfold getLineNumber
  cases hlines : f.lines with
  | nil =>
      rw [hlines] at hlast
      cases hlast
  | cons info infos =>
      rw [hlines] at hlast hsize
      cases infos with
      | nil =>
          rw [hlines, List.length_singleton] at hentries
          exact absurd hentries (by decide)
      | cons info' infos =>
          dsimp only
          rw [hsize, List.take_zero, searchLines]
          rw [List.getLast?_cons] at hlast
          exact Option.some.inj hlast

/-- The bound on the entries is needed: code of `2 ^ 31` bytes may have as many. -/
theorem not_getLineNumber_alternating :
    let f : ObjectFunction := ⟨0, 0, 0, [], [], [], []⟩
    let calls := (List.replicate (2 ^ 30) [WriteCall.byte 0 1, .byte 0 2]).flatten
    Wrote f calls 0 (.byte 0 1) ∧
      getLineNumber (writeAll f calls) (0 : Nat) ≠ (WriteCall.byte 0 1).line := by
  obtain ⟨n, hn⟩ : ∃ n, n + 1 = 2 ^ 30 := ⟨2 ^ 30 - 1, rfl⟩
  rw [← hn]
  obtain ⟨hlength, hlast⟩ := @writeAll_alternating ⟨0, 0, 0, [], [], [], []⟩ 1 2 (by decide) 0
    (n + 1) nofun
  refine ⟨⟨[], _, rfl, Nat.le_refl 0, Nat.one_pos⟩, fun hline => ?_⟩
  have hback := getLineNumber_of_entries (hlength.trans (by rw [hn]; rfl)) (hlast n.succ_pos)
    (0 : Nat)
  exact absurd (hback.symm.trans hline) (by decide)

end Chunk

end CppLox
