import CppLox.Compiler.Emits

/-!
# Compiler — emitting instructions

What the routines that write to the chunk append to it.  A forward jump is written with the operand
0 and patched when the code it skips is there (`Emits.patch`).
-/

namespace CppLox

open CompilerM LittleEndian

namespace Accepts

variable {s s' : CompilerState} {u : Unit}

/-! ### Bytes -/

theorem modifyChunk {g : ObjectFunction → Int32 → ObjectFunction} {bytes : List UInt8}
    (h : Accepts (Compiler.modifyChunk g) s u s')
    (hg : ∀ f line, g f line = Chunk.writeBytes f bytes line) : Writes s s' bytes := by
  have hs := Accepts.modify h
  rw [hg] at hs
  exact hs

theorem emitOpcode {code : OpCode} (h : Accepts (Compiler.emitOpcode code) s u s') :
    Writes s s' [code.toByte] :=
  modifyChunk h fun _ _ => rfl

theorem emitByte {b : Nat} (h : Accepts (Compiler.emitByte b) s u s') :
    Writes s s' [b.toUInt8] :=
  modifyChunk h fun _ _ => rfl

theorem emitUint16Le {n : Nat} (h : Accepts (Compiler.emitUint16Le n) s u s') :
    Writes s s' (uint16Bytes n) :=
  modifyChunk h fun f line => Chunk.writeUint16Le_eq f n line

theorem codeLength {n : Nat} (h : Accepts Compiler.codeLength s n s') :
    n = s.current.function.code.length ∧ s' = s := by
  have := h.run
  cases this
  exact ⟨rfl, rfl⟩

/-! ### Instructions -/

theorem emitConstantOp {code : OpCode} {n : Nat} (h : Accepts (Compiler.emitConstantOp code n) s u s') :
    Writes s s' (encodeAll [.short code n]) := by
  obtain ⟨_, _, h₁, h₂⟩ := h.bind
  exact h₁.emitOpcode.trans h₂.emitUint16Le

theorem emitBuild {code : OpCode} {n : Nat} (h : Accepts (Compiler.emitBuild code n) s u s') :
    Writes s s' (encodeAll [.byte code n]) := by
  obtain ⟨_, _, h₁, h₂⟩ := h.bind
  exact h₁.emitOpcode.trans h₂.emitByte

theorem emitOpcodes {codes : List OpCode} (h : Accepts (Compiler.emitOpcodes codes) s u s') :
    Writes s s' (encodeAll (codes.map .op)) := by
  induction codes generalizing s with
  | nil =>
      obtain ⟨-, rfl⟩ := Accepts.pure h
      exact Writes.refl s'
  | cons code codes ih =>
      obtain ⟨_, _, h₁, h₂⟩ := h.bind
      exact h₁.emitOpcode.trans (ih h₂)

theorem emitReturn (h : Accepts Compiler.emitReturn s u s') :
    Writes s s' (encodeAll (returnCode s.current.functionType)) := by
  obtain ⟨t, s₁, h₁, h'⟩ := h.bind
  obtain ⟨ht, hs⟩ := h₁.get
  rw [ht, hs] at h'
  obtain ⟨_, s₂, h₂, h₃⟩ := h'.bind
  unfold returnCode
  rcases h₂.ite with ⟨htype, h₂⟩ | ⟨htype, h₂⟩
  · rw [if_pos htype]
    exact (emitConstantOp h₂).trans h₃.emitOpcode
  · rw [if_neg htype]
    exact h₂.emitOpcode.trans h₃.emitOpcode

/-- A jump whose operand is not known yet. -/
theorem emitJump {code : OpCode} {n : Nat} (h : Accepts (Compiler.emitJump code) s n s') :
    n = s.current.function.code.length + 1 ∧ Writes s s' (encodeAll [.short code 0]) := by
  obtain ⟨_, s₁, h₁, h⟩ := h.bind
  obtain ⟨_, s₂, h₂, h⟩ := h.bind
  obtain ⟨m, _, h₃, h⟩ := h.bind
  obtain ⟨rfl, rfl⟩ := h₃.codeLength
  obtain ⟨rfl, rfl⟩ := h.pure
  have hw := h₁.emitOpcode.trans h₂.emitUint16Le
  refine ⟨?_, hw⟩
  rw [hw.emits.length_code]
  simp [uint16Bytes]

theorem emitJumpBack {location : Int} (h : Accepts (Compiler.emitJumpBack location) s u s') :
    (s.current.function.code.length : Int) + 3 - location ≤ 0xFFFF ∧
      Writes s s' (encodeAll [.short .jumpBackward
        ((s.current.function.code.length : Int) + 3 - location).toNat]) := by
  obtain ⟨_, s₁, h₁, h⟩ := h.bind
  obtain ⟨n, s₂, h₂, h'⟩ := h.bind
  obtain ⟨hn, hs₂⟩ := h₂.codeLength
  rw [hn, hs₂] at h'
  obtain ⟨_, s₃, h₃, h₄⟩ := h'.bind
  obtain ⟨hfits, hs₃⟩ := h₃.reportIf
  rw [hs₃] at h₄
  have hw := h₁.emitOpcode
  have hlen : (s₁.current.function.code.length : Int) - location + 2 =
      (s.current.function.code.length : Int) + 3 - location := by
    rw [hw.emits.length_code]
    simp
    omega
  rw [hlen] at hfits
  refine ⟨by simpa using hfits, ?_⟩
  have hw₂ := h₄.emitUint16Le
  rw [hlen] at hw₂
  exact hw.trans hw₂

theorem writeLoadConstant {k : Nat} {line : Int32} (h : Accepts (Compiler.writeLoadConstant k line) s u s')
    (hline : line = s.parser.tokens.previous.line) :
    k ≤ 0xFFFF ∧ Writes s s' (encodeAll [loadConstant k]) := by
  have hrun := h.run
  unfold Compiler.writeLoadConstant at hrun
  split at hrun
  · rename_i f hf
    cases hrun
    unfold Chunk.writeLoadConstant at hf
    split at hf
    · rename_i hk
      cases hf
      refine ⟨by omega, ?_⟩
      rw [loadConstant, if_pos hk, hline]
      rfl
    · rename_i hk
      split at hf
      · rename_i hk'
        cases hf
        refine ⟨hk', ?_⟩
        rw [loadConstant, if_neg hk, hline, Chunk.writeUint16Le_eq]
        simp [Writes, Instr.encode, Chunk.writeSimpleOp, Chunk.writeBytes]
      · cases hf
  · cases hrun

/-! ### Jumps -/

theorem set_operand (pre mid : List UInt8) (op : OpCode) (n : Nat) :
    ((pre ++ encodeAll [.short op 0] ++ mid).set (pre.length + 1) n.toUInt8).set (pre.length + 2)
      (n / 256).toUInt8 = pre ++ encodeAll [.short op n] ++ mid := by
  simp [Instr.encode, uint16Bytes, leBytes]

theorem patchJump {offset : Nat} {op : OpCode} {pre mid : List UInt8}
    (h : Accepts (Compiler.patchJump offset) s u s')
    (hcode : s.current.function.code = pre ++ encodeAll [.short op 0] ++ mid)
    (hoffset : offset = pre.length + 1) :
    JumpFits mid.length ∧ s' = { s with current := { s.current with
      function := { s.current.function with
        code := pre ++ encodeAll [.short op mid.length] ++ mid } } } := by
  obtain ⟨n, s₁, h₁, h'⟩ := h.bind
  obtain ⟨hn, hs₁⟩ := h₁.codeLength
  rw [hn, hs₁] at h'
  obtain ⟨_, s₂, h₂, h₃⟩ := h'.bind
  obtain ⟨hfits, hs₂⟩ := h₂.reportIf
  rw [hs₂] at h₃
  have hjump : s.current.function.code.length - offset - 2 = mid.length := by
    rw [hcode, hoffset]
    simp [Instr.encode, uint16Bytes]
    omega
  rw [hjump] at hfits h₃
  refine ⟨by simpa [JumpFits] using hfits, ?_⟩
  rw [Accepts.modify h₃]
  dsimp only
  rw [hcode, hoffset, set_operand]

end Accepts

/-- The code that was appended is changed. -/
theorem Emits.recode {s₀ s s' : CompilerState} {bytes bytes' : List UInt8} (h : Emits s₀ s bytes)
    (hs' : s' = { s with current := { s.current with function := { s.current.function with
      code := s₀.current.function.code ++ bytes' } } }) : Emits s₀ s' bytes' := by
  rw [hs']
  obtain ⟨⟨⟨names, enclosing, upvalues, constants, type⟩, -⟩, locals, frame, ok⟩ := h
  refine ⟨⟨⟨names, enclosing, upvalues, constants, type⟩, rfl⟩, locals, frame, fun hs₀ => ?_⟩
  obtain ⟨h₁, h₂, h₃, h₄, h₅⟩ := ChainOk.compilerOk (ok hs₀)
  exact ChainOk.of_upvalues_eq (ok hs₀) ⟨h₁, h₂, h₃, h₄, h₅⟩ rfl

/-- The operand of a jump is patched when the code it skips is there. -/
theorem Grown.patch {s₀ s s' : CompilerState} {u : Unit} {offset : Nat} {op : OpCode}
    {pre mid : List UInt8} (hgrown : Grown s₀ s (pre ++ encodeAll [.short op 0] ++ mid))
    (h : Accepts (Compiler.patchJump offset) s u s')
    (hoffset : offset = s₀.current.function.code.length + pre.length + 1) :
    JumpFits mid.length ∧ s' = { s with current := { s.current with
      function := { s.current.function with
        code := s₀.current.function.code ++ (pre ++ encodeAll [.short op mid.length] ++ mid) } } } := by
  obtain ⟨hfits, hs'⟩ := h.patchJump
    (show _ = s₀.current.function.code ++ pre ++ encodeAll [.short op 0] ++ mid by
      rw [hgrown.code]; simp only [List.append_assoc]) (by rw [List.length_append]; exact hoffset)
  refine ⟨hfits, ?_⟩
  rw [hs']
  simp only [List.append_assoc]

end CppLox
