import CppLox.Bytecode.Layout
import CppLox.Compiler.Code

/-!
# Compiler — the code of a tree is well formed

The instructions of the code relations have the operands of their opcodes, and their jumps end at
instructions of the same function: by induction on the tree, the jumps of an expression end in its
own code, and those of a statement there or at the start of the loop around it.  Unary `-` changes a
byte, so that the instructions may be others than those of the relation, with the same bytes.
-/

namespace CppLox

/-! ### The last byte -/

theorem encodeAll_ne_nil {is : List Instr} (h : is ≠ []) : encodeAll is ≠ [] := by
  cases is with
  | nil => exact absurd rfl h
  | cons i is =>
      intro hnil
      have hsize := i.size_pos
      have hlen := congrArg List.length hnil
      rw [length_encodeAll, codeSize_cons, List.length_nil] at hlen
      omega

theorem dropLast_append_of_ne_nil {a b : List UInt8} (h : b ≠ []) :
    (a ++ b).dropLast = a ++ b.dropLast := List.dropLast_append_of_ne_nil h

theorem uint16Bytes_ne_nil (n : Nat) : uint16Bytes n ≠ [] := nofun

/-- The high byte of a 16-bit operand is changed. -/
theorem exists_uint16Bytes (n : Nat) (b : UInt8) :
    ∃ n', uint16Bytes n' = (uint16Bytes n).dropLast ++ [b] := by
  refine ⟨n % 256 + 256 * b.toNat, ?_⟩
  have hlow : (n % 256 + 256 * b.toNat) % 256 = n % 256 := by omega
  have hhigh : (n % 256 + 256 * b.toNat) / 256 = b.toNat := by omega
  have hlow' : UInt8.ofNat (n % 256 + 256 * b.toNat) = UInt8.ofNat n := by
    refine UInt8.toNat_inj.mp ?_
    rw [UInt8.toNat_ofNat', UInt8.toNat_ofNat']
    exact hlow
  have hhigh' : UInt8.ofNat ((n % 256 + 256 * b.toNat) / 256) = b := by
    rw [hhigh, UInt8.ofNat_toNat]
  change [_, _] = [_, _]
  rw [hlow', hhigh']

/-- The last byte of an instruction is changed; its opcode is one of the same kind. -/
theorem Instr.exists_setLast (i : Instr) :
    ∃ i' : Instr, i'.encode = i.encode.dropLast ++ [OpCode.minusOne.toByte] ∧
      (i.Plain → i'.Plain ∧ (i.opcode.isJump = false → i'.opcode.isJump = false)) := by
  cases i with
  | op o => exact ⟨.op .minusOne, rfl, fun _ => ⟨by simp [OpCode.operands], fun _ => rfl⟩⟩
  | byte o b =>
      exact ⟨.byte o OpCode.minusOne.toByte.toNat, rfl, fun h => ⟨plain_byte.mpr h.1, id⟩⟩
  | short o n =>
      obtain ⟨n', hn'⟩ := exists_uint16Bytes n OpCode.minusOne.toByte
      exact ⟨.short o n', congrArg (o.toByte :: ·) hn', fun h => ⟨plain_short.mpr h.1, id⟩⟩
  | shortByte o n b =>
      exact ⟨.shortByte o n OpCode.minusOne.toByte.toNat, rfl,
        fun h => ⟨plain_shortByte.mpr h.1, id⟩⟩
  | closure k captures =>
      rcases List.eq_nil_or_concat captures with rfl | ⟨init, u, rfl⟩
      · obtain ⟨k', hk'⟩ := exists_uint16Bytes k OpCode.minusOne.toByte
        exact ⟨.closure k' [], congrArg (OpCode.closure.toByte :: ·) hk', fun h => absurd rfl h.2⟩
      · obtain ⟨n', hn'⟩ := exists_uint16Bytes u.index OpCode.minusOne.toByte
        refine ⟨.closure k (init ++ [⟨n', u.isLocal⟩]), ?_, fun h => absurd rfl h.2⟩
        have hlast : ∀ v : Upvalue, (closure k (init ++ [v])).encode =
            (OpCode.closure.toByte :: (uint16Bytes k ++ init.flatMap captureBytes ++
              [if v.isLocal then 1 else 0])) ++ uint16Bytes v.index := by
          intro v
          simp [encode, captureBytes]
        rw [List.concat_eq_append, hlast, hlast, dropLast_append_of_ne_nil (uint16Bytes_ne_nil _), hn']
        simp only [List.append_assoc]

/-- The last byte of instructions is changed. -/
theorem exists_setLast {is : List Instr} (h : is ≠ []) :
    ∃ init i i', is = init ++ [i] ∧
      encodeAll (init ++ [i']) = (encodeAll is).dropLast ++ [OpCode.minusOne.toByte] ∧
      i'.size = i.size ∧
      (i.Plain → i'.Plain ∧ (i.opcode.isJump = false → i'.opcode.isJump = false)) := by
  rcases List.eq_nil_or_concat is with rfl | ⟨init, i, rfl⟩
  · exact absurd rfl h
  · obtain ⟨i', hi', hplain⟩ := i.exists_setLast
    have hne : encodeAll [i] ≠ [] := encodeAll_ne_nil (List.cons_ne_nil i [])
    have hsize : i'.size = i.size := by
      have hpos := i.size_pos
      have hlen := congrArg List.length hi'
      rw [List.length_append, List.length_dropLast, i.length_encode, i'.length_encode,
        List.length_singleton] at hlen
      omega
    refine ⟨init, i, i', List.concat_eq_append, ?_, hsize, hplain⟩
    rw [List.concat_eq_append, encodeAll_append, encodeAll_append, dropLast_append_of_ne_nil hne,
      List.append_assoc]
    simp [hi']

/-! ### Expressions -/

/-- An instruction that is neither a closure nor a jump. -/
def Instr.Tame (i : Instr) : Prop := i.Plain ∧ i.opcode.isJump = false

/-- The jumps of instructions end among them, wherever they are placed. -/
def JumpsWithin (is : List Instr) : Prop := ∀ p, JumpsIn (· ∈ cuts p is) p is

/-- Instructions without closures, with jumps among them and none at the end. -/
structure Tidy (is : List Instr) : Prop where
  plain : ∀ i ∈ is, i.Plain
  jumps : JumpsWithin is
  last : ∀ i, is.getLast? = some i → i.opcode.isJump = false

namespace Tidy

variable {is js : List Instr}

theorem nil : Tidy [] := ⟨nofun, fun _ => trivial, nofun⟩

theorem append (h : Tidy is) (h' : Tidy js) : Tidy (is ++ js) := by
  refine ⟨fun i hi => ?_, fun p => jumpsIn_append.mpr ⟨?_, ?_⟩, fun i hi => ?_⟩
  · exact (List.mem_append.mp hi).elim (h.plain i) (h'.plain i)
  · exact (h.jumps p).mono fun t ht => mem_cuts_append.mpr (.inl ht)
  · exact (h'.jumps _).mono fun t ht => mem_cuts_append.mpr (.inr ht)
  · rw [List.getLast?_append] at hi
    cases hj : js.getLast? with
    | none => exact h.last i (by simpa [hj] using hi)
    | some j => exact h'.last i (by simpa [hj] using hi)

/-- Instructions that are neither closures nor jumps. -/
theorem of_tame (h : ∀ i ∈ is, i.Tame) : Tidy is := by
  exact ⟨fun i hi => (h i hi).1, fun p => jumpsIn_of_not_jump (fun i hi => (h i hi).2) _ p,
    fun i hi => (h i (List.mem_of_getLast? hi)).2⟩

end Tidy

/-- Instructions with the bytes of some tidy ones. -/
def TidyBytes (is : List Instr) : Prop := ∃ is', encodeAll is' = encodeAll is ∧ Tidy is'

namespace TidyBytes

variable {is js : List Instr}

theorem append (h : TidyBytes is) (h' : TidyBytes js) : TidyBytes (is ++ js) := by
  obtain ⟨is', his, htidy⟩ := h
  obtain ⟨js', hjs, htidy'⟩ := h'
  exact ⟨is' ++ js', by rw [encodeAll_append, encodeAll_append, his, hjs], htidy.append htidy'⟩

theorem of_tame (h : ∀ i ∈ is, i.Tame) : TidyBytes is := ⟨is, rfl, Tidy.of_tame h⟩

/-! One instruction with the operands of its opcode. -/

theorem one {i : Instr} (h : i.Tame) : TidyBytes [i] := of_tame (List.forall_mem_singleton.mpr h)

variable {code : OpCode} {n b : Nat}

theorem op (h : code.operands = some .none) (hjump : code.isJump = false) :
    TidyBytes [.op code] := one ⟨Instr.plain_op.mpr h, hjump⟩

theorem byte (h : code.operands = some .byte) (hjump : code.isJump = false) :
    TidyBytes [.byte code b] := one ⟨Instr.plain_byte.mpr h, hjump⟩

theorem short (h : code.operands = some .short) (hjump : code.isJump = false) :
    TidyBytes [.short code n] := one ⟨Instr.plain_short.mpr h, hjump⟩

theorem shortByte (h : code.operands = some .shortByte) (hjump : code.isJump = false) :
    TidyBytes [.shortByte code n b] := one ⟨Instr.plain_shortByte.mpr h, hjump⟩

/-- A jump over code that starts with a pop. -/
theorem skip {op : OpCode} (hoperands : op.operands = some .short) (hback : op ≠ .jumpBackward)
    (hfits : JumpFits (1 + codeSize is)) (h : TidyBytes is) :
    TidyBytes ([.short op (1 + codeSize is), .op .popTop] ++ is) := by
  obtain ⟨is', his, htidy⟩ := h
  have hsize := codeSize_eq_of_encodeAll his
  refine ⟨[.short op (1 + codeSize is), .op .popTop] ++ is', by simp [his], ⟨?_, fun p => ?_, ?_⟩⟩
  · rintro i (_ | ⟨_, _ | ⟨_, hi⟩⟩)
    · simpa using hoperands
    · simp [OpCode.operands]
    · exact htidy.plain i hi
  · refine ⟨fun _ => ⟨hfits, ?_⟩, trivial, (htidy.jumps _).mono fun t ht => ?_⟩
    · have hend : p + 3 + (1 + codeSize is) =
          p + codeSize ([.short op (1 + codeSize is), .op .popTop] ++ is') := by
        simp [Instr.size, hsize, Nat.add_assoc]
      rw [if_neg hback, hend]
      exact end_mem_cuts _ _
    · exact List.mem_cons_of_mem _ (List.mem_cons_of_mem _ ht)
  · intro i hi
    rw [List.getLast?_append] at hi
    cases hlast : is'.getLast? with
    | none =>
        rw [hlast] at hi
        cases hi
        rfl
    | some j => exact htidy.last i (by simpa [hlast] using hi)

/-- Unary `-` changes the last byte or appends an instruction. -/
theorem negate (h : TidyBytes is)
    (hjs : if (encodeAll is).getLast? = some OpCode.one.toByte then
      encodeAll js = (encodeAll is).dropLast ++ [OpCode.minusOne.toByte]
      else js = is ++ [.op .negate]) : TidyBytes js := by
  split at hjs
  · rename_i hlast
    obtain ⟨is', his, htidy⟩ := h
    have hne : is' ≠ [] := by
      rintro rfl
      rw [← his] at hlast
      cases hlast
    obtain ⟨init, i, i', rfl, hbytes, hsize, hkind⟩ := exists_setLast hne
    refine ⟨init ++ [i'], by rw [hbytes, his, hjs], ?_⟩
    obtain ⟨hplain, hjump⟩ := hkind (htidy.plain i (by simp))
    have hlast' : i'.opcode.isJump = false := hjump (htidy.last i (by simp))
    refine ⟨fun j hj => ?_, fun p => ?_, fun j hj => ?_⟩
    · rcases List.mem_append.mp hj with hj | hj
      · exact htidy.plain j (List.mem_append.mpr (.inl hj))
      · exact List.mem_singleton.mp hj ▸ hplain
    · rw [cuts_congr (show (init ++ [i']).map Instr.size = (init ++ [i]).map Instr.size by
        simp [hsize])]
      exact jumpsIn_append.mpr
        ⟨(jumpsIn_append.mp (htidy.jumps p)).1, Instr.jumpsTo_of_not_jump hlast' _ _, trivial⟩
    · rw [List.getLast?_concat] at hj
      exact Option.some.inj hj ▸ hlast'
  · rw [hjs]
    exact h.append (op rfl rfl)

end TidyBytes

namespace Ref

theorem tame_load (ref : Ref) : ref.load.Tame := by
  cases ref <;> exact ⟨Instr.plain_short.mpr rfl, rfl⟩

theorem tame_store (ref : Ref) : ref.store.Tame := by
  cases ref <;> exact ⟨Instr.plain_short.mpr rfl, rfl⟩

end Ref

theorem tame_loadConstant (k : Nat) : (loadConstant k).Tame := by
  unfold loadConstant
  split
  · exact ⟨Instr.plain_byte.mpr rfl, rfl⟩
  · exact ⟨Instr.plain_short.mpr rfl, rfl⟩

theorem tame_opcodes (op : BinaryOp) : ∀ i ∈ op.opcodes.map Instr.op, i.Tame := by
  cases op <;> simp [BinaryOp.opcodes, Instr.Tame, OpCode.operands, Instr.opcode, OpCode.isJump]

section

variable {buildOp appendOp : OpCode} {threshold n : Nat}

theorem tame_elementCode (hbuild : buildOp.operands = some .byte)
    (happend : appendOp.operands = some .none) (hjump : buildOp.isJump = false)
    (hjump' : appendOp.isJump = false) :
    ∀ i ∈ elementCode buildOp appendOp threshold n, i.Tame := by
  intro i hi
  rcases List.mem_append.mp hi with hi | hi <;> split at hi
  · rw [List.mem_singleton.mp hi]
    exact ⟨Instr.plain_op.mpr happend, hjump'⟩
  · cases hi
  · rw [List.mem_singleton.mp hi]
    exact ⟨Instr.plain_byte.mpr hbuild, hjump⟩
  · cases hi

theorem tame_buildCode (hbuild : buildOp.operands = some .byte) (hjump : buildOp.isJump = false) :
    ∀ i ∈ buildCode buildOp threshold n, i.Tame := by
  intro i hi
  unfold buildCode at hi
  split at hi
  · rw [List.mem_singleton.mp hi]
    exact ⟨Instr.plain_byte.mpr hbuild, hjump⟩
  · cases hi

end

section

variable {E : Env} {Γ : List Slot}

/-- The code of an expression has an instruction. -/
theorem exprCode_ne_nil : ∀ (e : Expr) {is : List Instr}, ExprCode E Γ e is → is ≠ []
  | .nil, _, h | .boolean _, _, h => by
      rintro rfl
      cases h
  | .integer v, _, h => by
      rintro rfl
      unfold ExprCode at h
      split at h
      · cases h
      · split at h
        · cases h
        · obtain ⟨k, -, -, h⟩ := h
          cases h
  | .real _, _, h | .string _, _, h => by
      rintro rfl
      obtain ⟨k, -, -, h⟩ := h
      cases h
  | .variable _, _, h => by
      obtain ⟨ref, -, rfl⟩ := h
      exact List.cons_ne_nil _ _
  -- the code ends with `NEGATE`, or with `MINUS_ONE` for the literal
  | .negate e, is, h => by
      obtain ⟨ie, -, h⟩ := h
      rintro rfl
      split at h
      · exact List.append_ne_nil_of_right_ne_nil _ (List.cons_ne_nil _ _) h.symm
      · exact List.append_ne_nil_of_right_ne_nil _ (List.cons_ne_nil _ _) h.symm
  | .and _ r, _, h | .or _ r, _, h => by
      obtain ⟨il, ir, -, hr, -, rfl⟩ := h
      exact List.append_ne_nil_of_right_ne_nil _ (exprCode_ne_nil r hr)
  | .conditional _ _ e, _, h => by
      obtain ⟨ic, it, ie, -, -, he, rfl⟩ := h
      exact List.append_ne_nil_of_right_ne_nil _ (exprCode_ne_nil e he)
  | .binary op l _, _, h => by
      obtain ⟨il, ir, hl, -, rfl⟩ := h
      rw [List.append_assoc]
      exact List.append_ne_nil_of_left_ne_nil (exprCode_ne_nil l hl) _
  | .list es, _, h => by
      cases es with
      | nil =>
          rw [show _ = _ from h]
          decide
      | cons e es =>
          obtain ⟨ie, ies, he, -, rfl⟩ := h
          rw [List.append_assoc]
          exact List.append_ne_nil_of_left_ne_nil (exprCode_ne_nil e he) _
  | .map es, _, h => by
      cases es with
      | nil =>
          rw [show _ = _ from h]
          decide
      | cons key value es =>
          obtain ⟨ik, iv, ies, hk, -, -, rfl⟩ := h
          rw [List.append_assoc, List.append_assoc]
          exact List.append_ne_nil_of_left_ne_nil (exprCode_ne_nil key hk) _
  -- the other forms end with an instruction of their own
  | .assign _ _, _, h => by
      obtain ⟨_, _, -, -, rfl⟩ := h
      exact List.append_ne_nil_of_right_ne_nil _ (List.cons_ne_nil _ _)
  | .not _, _, h => by
      obtain ⟨_, -, rfl⟩ := h
      exact List.append_ne_nil_of_right_ne_nil _ (List.cons_ne_nil _ _)
  | .call _ _, _, h => by
      obtain ⟨_, _, -, -, -, rfl⟩ := h
      exact List.append_ne_nil_of_right_ne_nil _ (List.cons_ne_nil _ _)
  | .invoke _ _ _, _, h => by
      obtain ⟨_, _, _, -, -, -, -, -, rfl⟩ := h
      exact List.append_ne_nil_of_right_ne_nil _ (List.cons_ne_nil _ _)
  | .property _ _, _, h | .propertySafe _ _, _, h => by
      obtain ⟨_, _, -, -, -, rfl⟩ := h
      exact List.append_ne_nil_of_right_ne_nil _ (List.cons_ne_nil _ _)
  | .setProperty _ _ _, _, h => by
      obtain ⟨_, _, _, -, -, -, -, rfl⟩ := h
      exact List.append_ne_nil_of_right_ne_nil _ (List.cons_ne_nil _ _)
  | .index _ _, _, h => by
      obtain ⟨_, _, -, -, rfl⟩ := h
      exact List.append_ne_nil_of_right_ne_nil _ (List.cons_ne_nil _ _)
  | .setIndex _ _ _, _, h => by
      obtain ⟨_, _, _, -, -, -, rfl⟩ := h
      exact List.append_ne_nil_of_right_ne_nil _ (List.cons_ne_nil _ _)
  | .super _, _, h => by
      obtain ⟨_, _, _, -, -, -, -, rfl⟩ := h
      exact List.cons_ne_nil _ _
  | .superInvoke _ _, _, h => by
      obtain ⟨_, _, _, _, -, -, -, -, -, -, rfl⟩ := h
      exact List.append_ne_nil_of_right_ne_nil _ (List.cons_ne_nil _ _)

mutual

/-- The code of an expression has the bytes of tidy instructions. -/
theorem exprCode_tidy : ∀ (e : Expr) {is : List Instr}, ExprCode E Γ e is → TidyBytes is
  | .nil, is, h => by
      rw [show is = [.op .nil] from h]
      exact .op rfl rfl
  | .boolean b, is, h => by
      rw [show is = _ from h]
      cases b <;> exact .op rfl rfl
  | .integer v, is, h => by
      simp only [ExprCode] at h
      split at h
      · exact h ▸ .op rfl rfl
      · split at h
        · exact h ▸ .op rfl rfl
        · obtain ⟨k, -, -, rfl⟩ := h
          exact .one (tame_loadConstant k)
  | .real v, is, h | .string v, is, h => by
      obtain ⟨k, -, -, rfl⟩ := h
      exact .one (tame_loadConstant k)
  | .variable x, is, h => by
      obtain ⟨ref, -, rfl⟩ := h
      exact .one ref.tame_load
  | .assign x e, is, h => by
      obtain ⟨ref, ie, -, he, rfl⟩ := h
      exact (exprCode_tidy e he).append (.one ref.tame_store)
  | .not e, is, h => by
      obtain ⟨ie, he, rfl⟩ := h
      exact (exprCode_tidy e he).append (.op rfl rfl)
  | .negate e, is, h => by
      obtain ⟨ie, he, hjs⟩ := h
      exact (exprCode_tidy e he).negate hjs
  | .binary op l r, is, h => by
      obtain ⟨il, ir, hl, hr, rfl⟩ := h
      exact ((exprCode_tidy l hl).append (exprCode_tidy r hr)).append (.of_tame (tame_opcodes op))
  | .and l r, is, h => by
      obtain ⟨il, ir, hl, hr, hfits, rfl⟩ := h
      rw [List.append_assoc]
      exact (exprCode_tidy l hl).append ((exprCode_tidy r hr).skip rfl (by decide) hfits)
  | .or l r, is, h => by
      obtain ⟨il, ir, hl, hr, hfits, rfl⟩ := h
      rw [List.append_assoc]
      exact (exprCode_tidy l hl).append ((exprCode_tidy r hr).skip rfl (by decide) hfits)
  | .conditional c t e, is, h => by
      obtain ⟨ic, it, ie, hc, ht, he, rfl⟩ := h
      exact ((exprCode_tidy c hc).append (exprCode_tidy t ht)).append (exprCode_tidy e he)
  | .call callee args, is, h => by
      obtain ⟨ic, ia, hc, ha, -, rfl⟩ := h
      exact ((exprCode_tidy callee hc).append (exprsCode_tidy args ha)).append (.byte rfl rfl)
  | .invoke object x args, is, h => by
      obtain ⟨io, ia, k, ho, ha, -, -, -, rfl⟩ := h
      exact ((exprCode_tidy object ho).append (exprsCode_tidy args ha)).append
        (.shortByte rfl rfl)
  | .property object x, is, h => by
      obtain ⟨io, k, ho, -, -, rfl⟩ := h
      exact (exprCode_tidy object ho).append (.short rfl rfl)
  | .propertySafe object x, is, h => by
      obtain ⟨io, k, ho, -, -, rfl⟩ := h
      exact (exprCode_tidy object ho).append (.short rfl rfl)
  | .setProperty object x e, is, h => by
      obtain ⟨io, ie, k, ho, he, -, -, rfl⟩ := h
      exact ((exprCode_tidy object ho).append (exprCode_tidy e he)).append (.short rfl rfl)
  | .index object key, is, h => by
      obtain ⟨io, ik, ho, hk, rfl⟩ := h
      exact ((exprCode_tidy object ho).append (exprCode_tidy key hk)).append (.op rfl rfl)
  | .setIndex object key e, is, h => by
      obtain ⟨io, ik, ie, ho, hk, he, rfl⟩ := h
      exact (((exprCode_tidy object ho).append (exprCode_tidy key hk)).append
        (exprCode_tidy e he)).append (.op rfl rfl)
  | .list es, is, h => elementsCode_tidy es 0 h
  | .map es, is, h => entriesCode_tidy es 0 h
  | .super x, is, h => by
      obtain ⟨this, super, k, -, -, -, -, rfl⟩ := h
      exact (TidyBytes.one this.tame_load).append
        ((TidyBytes.one super.tame_load).append (.short rfl rfl))
  | .superInvoke x args, is, h => by
      obtain ⟨this, super, ia, k, -, -, ha, -, -, -, rfl⟩ := h
      exact ((TidyBytes.one this.tame_load).append (exprsCode_tidy args ha)).append
        ((TidyBytes.one super.tame_load).append (.shortByte rfl rfl))

theorem exprsCode_tidy : ∀ (es : Exprs) {is : List Instr}, ExprsCode E Γ es is → TidyBytes is
  | .nil, is, h => by
      rw [show is = [] from h]
      exact ⟨[], rfl, .nil⟩
  | .cons e es, is, h => by
      obtain ⟨ie, ies, he, hes, rfl⟩ := h
      exact (exprCode_tidy e he).append (exprsCode_tidy es hes)

theorem elementsCode_tidy : ∀ (es : Exprs) (n : Nat) {is : List Instr},
    ElementsCode E Γ es n is → TidyBytes is
  | .nil, n, is, h => by
      rw [show is = _ from h]
      exact .of_tame (tame_buildCode rfl rfl)
  | .cons e es, n, is, h => by
      obtain ⟨ie, ies, he, hes, rfl⟩ := h
      exact ((exprCode_tidy e he).append (.of_tame (tame_elementCode rfl rfl rfl rfl))).append
        (elementsCode_tidy es (n + 1) hes)

theorem entriesCode_tidy : ∀ (es : Entries) (n : Nat) {is : List Instr},
    EntriesCode E Γ es n is → TidyBytes is
  | .nil, n, is, h => by
      rw [show is = _ from h]
      exact .of_tame (tame_buildCode rfl rfl)
  | .cons key value es, n, is, h => by
      obtain ⟨ik, iv, ies, hk, hv, hes, rfl⟩ := h
      exact (((exprCode_tidy key hk).append (exprCode_tidy value hv)).append
        (.of_tame (tame_elementCode rfl rfl rfl rfl))).append (entriesCode_tidy es (n + 1) hes)

end

end

/-! ### Statements -/

/-- Instructions at an offset that fit the constants of their function, with jumps that end among
them or in `S`. -/
structure Placed (constants : List (Constant ObjectFunction)) (S : Nat → Prop) (p : Nat)
    (is : List Instr) : Prop where
  fits : ∀ i ∈ is, i.Fits constants
  jumps : JumpsIn (fun t => t ∈ cuts p is ∨ S t) p is

/-- Instructions with the bytes of some placed ones. -/
def PlacedBytes (constants : List (Constant ObjectFunction)) (S : Nat → Prop) (p : Nat)
    (is : List Instr) : Prop := ∃ is', encodeAll is' = encodeAll is ∧ Placed constants S p is'

theorem TidyBytes.placed {is : List Instr} (h : TidyBytes is)
    {constants : List (Constant ObjectFunction)} {S : Nat → Prop} {p : Nat} :
    PlacedBytes constants S p is := by
  obtain ⟨is', his, htidy⟩ := h
  exact ⟨is', his, fun i hi => (htidy.plain i hi).fits constants,
    (htidy.jumps p).mono fun _ => .inl⟩

namespace PlacedBytes

variable {constants : List (Constant ObjectFunction)} {S S' : Nat → Prop} {p q n : Nat}
variable {is js : List Instr}

theorem mono (h : PlacedBytes constants S p is) (hS : ∀ t, S t → S' t) :
    PlacedBytes constants S' p is := by
  obtain ⟨is', his, hplaced⟩ := h
  exact ⟨is', his, hplaced.fits, hplaced.jumps.mono fun t ht => ht.imp_right (hS t)⟩

/-- Three parts one after the other: a jump may go to where a part starts or to the end. -/
theorem joinThree {r : Nat} {ks : List Instr} (h : PlacedBytes constants S' p is)
    (h' : PlacedBytes constants S' q js) (h'' : PlacedBytes constants S' r ks)
    (hq : q = p + codeSize is) (hr : r = q + codeSize js)
    (hS : ∀ t, S' t → S t ∨ t = p ∨ t = q ∨ t = r ∨ t = r + codeSize ks) :
    PlacedBytes constants S p (is ++ js ++ ks) := by
  obtain ⟨is', his, hplaced⟩ := h
  obtain ⟨js', hjs, hplaced'⟩ := h'
  obtain ⟨ks', hks, hplaced''⟩ := h''
  rw [← codeSize_eq_of_encodeAll his] at hq
  rw [← codeSize_eq_of_encodeAll hjs] at hr
  rw [← codeSize_eq_of_encodeAll hks] at hS
  have hmem : ∀ t, t ∈ cuts p (is' ++ js' ++ ks') ↔
      t ∈ cuts p is' ∨ t ∈ cuts q js' ∨ t ∈ cuts r ks' := by
    intro t
    rw [mem_cuts_append, mem_cuts_append, codeSize_append, ← Nat.add_assoc, ← hq, ← hr, or_assoc]
  have hout : ∀ t, S' t → t ∈ cuts p (is' ++ js' ++ ks') ∨ S t := by
    intro t ht
    rw [hmem]
    rcases hS t ht with ht | rfl | rfl | rfl | rfl
    · exact .inr ht
    · exact .inl (.inl (start_mem_cuts _ _))
    · exact .inl (.inr (.inl (start_mem_cuts _ _)))
    · exact .inl (.inr (.inr (start_mem_cuts _ _)))
    · exact .inl (.inr (.inr (end_mem_cuts _ _)))
  refine ⟨is' ++ js' ++ ks', by simp only [encodeAll_append, his, hjs, hks], fun i hi => ?_, ?_⟩
  · rcases List.mem_append.mp hi with hi | hi
    · exact (List.mem_append.mp hi).elim (hplaced.fits i) (hplaced'.fits i)
    · exact hplaced''.fits i hi
  · rw [jumpsIn_append, jumpsIn_append, codeSize_append, ← Nat.add_assoc, ← hq, ← hr]
    refine ⟨⟨hplaced.jumps.mono ?_, hplaced'.jumps.mono ?_⟩, hplaced''.jumps.mono ?_⟩
    · exact fun t ht => ht.elim (fun ht => .inl ((hmem t).mpr (.inl ht))) (hout t)
    · exact fun t ht => ht.elim (fun ht => .inl ((hmem t).mpr (.inr (.inl ht)))) (hout t)
    · exact fun t ht => ht.elim (fun ht => .inl ((hmem t).mpr (.inr (.inr ht)))) (hout t)

/-- One part after the other. -/
theorem join {T : Nat → Prop} (h : PlacedBytes constants T p is) (h' : PlacedBytes constants T q js)
    (hq : q = p + codeSize is)
    (hS : ∀ t, T t → S t ∨ t = p ∨ t = q ∨ t = q + codeSize js) :
    PlacedBytes constants S p (is ++ js) := by
  have hnil : PlacedBytes constants T (q + codeSize js) [] :=
    TidyBytes.placed ⟨[], rfl, .nil⟩
  have := h.joinThree h' hnil hq rfl fun t ht =>
    (hS t ht).imp_right (Or.imp_right (Or.imp_right .inl))
  rwa [List.append_nil] at this

theorem append (h : PlacedBytes constants S p is) (h' : PlacedBytes constants S q js)
    (hq : q = p + codeSize is) : PlacedBytes constants S p (is ++ js) :=
  h.join h' hq fun _ => .inl

/-- A forward jump. -/
theorem forward {code : OpCode} (hoperands : code.operands = some .short)
    (hback : code ≠ .jumpBackward) (hfits : JumpFits n) (hS : S (p + 3 + n)) :
    PlacedBytes constants S p [.short code n] := by
  refine ⟨_, rfl, List.forall_mem_singleton.mpr ((Instr.plain_short.mpr hoperands).fits constants),
    fun _ => ⟨hfits, ?_⟩, trivial⟩
  rw [if_neg hback]
  exact .inr hS

/-- A jump back. -/
theorem backward (hfits : JumpFits n) (hle : n ≤ p + 3) (hS : S (p + 3 - n)) :
    PlacedBytes constants S p [.short .jumpBackward n] :=
  ⟨_, rfl, List.forall_mem_singleton.mpr ((Instr.plain_short.mpr rfl).fits constants),
    fun _ => ⟨hfits, hle, .inr hS⟩, trivial⟩

/-- A closure of a function that was compiled. -/
theorem closure {k : Nat} {f : ObjectFunction} {U : List Upvalue} (hk : k ≤ 0xFFFF)
    (hf : constants[k]? = some (.function f)) (hcount : f.upvalueCount = U.length) :
    PlacedBytes constants S p [.closure k U] :=
  ⟨_, rfl, List.forall_mem_singleton.mpr ⟨hk, f, hf, hcount⟩, trivial, trivial⟩

/-- A condition with the code that is skipped if it does not hold. -/
theorem guarded {ic it : List Instr} (hc : TidyBytes ic)
    (ht : PlacedBytes constants S (p + (codeSize ic + 3)) it) (hfits : JumpFits (codeSize it)) :
    PlacedBytes constants S p (ic ++ [.short .popJumpIfFalse (codeSize it)] ++ it) := by
  let T : Nat → Prop := fun t => S t ∨ t = p + codeSize ic + 3 + codeSize it
  refine PlacedBytes.join (T := T) (hc.placed.append (.forward rfl (by decide) hfits (.inr rfl)) rfl)
    (ht.mono fun _ => .inl) (by simp [Instr.size]) ?_
  rintro t (ht | rfl)
  · exact .inl ht
  · exact .inr (.inr (.inr (by omega)))

/-- Code that is entered by a jump over the code before it, which itself ends in a jump to the
end: the two branches of an `if`, and an arm of a `switch` before the other arms. -/
theorem alternatives {first second : List Instr} {n : Nat}
    (hfirst : PlacedBytes constants (fun t => S t ∨ t = p + (codeSize first + 3)) p first)
    (hfits : JumpFits (codeSize second))
    (hsecond : PlacedBytes constants S (p + n) second) (hn : n = codeSize first + 3) :
    PlacedBytes constants S p (first ++ [.short .jumpForward (codeSize second)] ++ second) := by
  subst hn
  let T : Nat → Prop := fun t => S t ∨ t = p + (codeSize first + 3) ∨
    t = p + (codeSize first + 3) + codeSize second
  have hjump : PlacedBytes constants T p (first ++ [.short .jumpForward (codeSize second)]) :=
    (hfirst.mono fun t ht => ht.imp_right .inl).append
      (.forward rfl (by decide) hfits (.inr (.inr (by omega)))) rfl
  refine hjump.join (hsecond.mono fun _ => .inl) (by simp [Instr.size]) ?_
  rintro t (ht | rfl | rfl)
  · exact .inl ht
  · exact .inr (.inr (.inl rfl))
  · exact .inr (.inr (.inr rfl))

/-- A condition, a body and the jump back to the condition; the body may jump there as well. -/
theorem loop {ic ib : List Instr} (hc : TidyBytes ic)
    (hb : PlacedBytes constants (fun t => S t ∨ t = p) (p + (codeSize ic + 3)) ib)
    (hfits : JumpFits (codeSize ib + 3)) (hfits' : JumpFits (codeSize ic + 3 + codeSize ib + 3)) :
    PlacedBytes constants S p (ic ++ [.short .popJumpIfFalse (codeSize ib + 3)] ++ ib ++
      [.short .jumpBackward (codeSize ic + 3 + codeSize ib + 3)]) := by
  let T : Nat → Prop := fun t => S t ∨ t = p ∨ t = p + (codeSize ic + 3 + codeSize ib + 3)
  have hbody : PlacedBytes constants T p (ic ++ [.short .popJumpIfFalse (codeSize ib + 3)] ++ ib) :=
    (hc.placed.append (.forward rfl (by decide) hfits (.inr (.inr (by omega)))) rfl).append
      (hb.mono fun t ht => ht.imp_right .inl) (by simp [Instr.size])
  refine hbody.join (.backward hfits' ?_ (.inr (.inl ?_))) rfl ?_
  · simp [Instr.size]
    omega
  · simp [Instr.size]
    omega
  · rintro t (ht | rfl | rfl)
    · exact .inl ht
    · exact .inr (.inl rfl)
    · exact .inr (.inr (.inr (by simp [Instr.size]; omega)))

end PlacedBytes

theorem scopeEnd_tidy (slots : List Slot) : TidyBytes (scopeEnd slots) := by
  refine .of_tame fun i hi => ?_
  obtain ⟨l, -, rfl⟩ := List.mem_map.mp hi
  split <;> exact ⟨Instr.plain_op.mpr rfl, rfl⟩

theorem plain_returnCode (type : FunctionType) : ∀ i ∈ returnCode type, i.Plain := by
  unfold returnCode
  split <;> simp [OpCode.operands]

theorem returnCode_tidy (type : FunctionType) : TidyBytes (returnCode type) := by
  unfold returnCode
  split
  · exact (TidyBytes.short rfl rfl).append (.op rfl rfl)
  · exact (TidyBytes.op rfl rfl).append (.op rfl rfl)

theorem defineCode_tidy {P : Place} {Γ Γ' : List Slot} {x : Bytes} {is : List Instr}
    (h : DefineCode P Γ x is Γ') : TidyBytes is := by
  unfold DefineCode at h
  split at h
  · obtain ⟨g, -, -, rfl, -⟩ := h
    exact .short rfl rfl
  · obtain ⟨captured, rfl, -⟩ := h
    exact ⟨[], rfl, .nil⟩

theorem codeSize_replicate_op (n : Nat) (op : OpCode) :
    codeSize (List.replicate n (.op op)) = n := by
  simp [codeSize, Instr.size]

/-- The start of the loop around a place. -/
def Place.LoopStart (P : Place) (t : Nat) : Prop := ∃ l, P.loop = some l ∧ t = l.start

/-- The code of a `for` after its initializer: the jumps go to its start, to its end or to the
increment. -/
theorem forLoop_placed {E : Env} {Γ : List Slot} {condition increment : Option Expr} {p start : Nat}
    {S : Nat → Prop} {head ib : List Instr}
    (h : ForHead E Γ condition increment (codeSize ib + 3) head start)
    (hb : PlacedBytes E.constants (fun t => S t ∨ t = p + start) (p + codeSize head) ib)
    (hfits : JumpFits (codeSize head + codeSize ib + 3 - start)) :
    PlacedBytes E.constants S p
      (head ++ ib ++ [.short .jumpBackward (codeSize head + codeSize ib + 3 - start)]) := by
  obtain ⟨ic, ii, hc, hi, rfl⟩ := h
  let S' : Nat → Prop := fun t => S t ∨ t = p ∨ t = p + start ∨ t = p + codeSize (ic ++ ii) ∨
    t = p + codeSize (ic ++ ii) + codeSize ib + 3
  have hcond : PlacedBytes E.constants S' p ic := by
    cases condition with
    | none => exact hc ▸ TidyBytes.placed ⟨[], rfl, .nil⟩
    | some c =>
        obtain ⟨is, hcode, hjump, rfl⟩ := hc
        refine (exprCode_tidy c hcode).placed.append (.forward rfl (by decide) hjump ?_) rfl
        exact .inr (.inr (.inr (.inr (by simp [Instr.size]; omega))))
  have hbody : PlacedBytes E.constants S' (p + codeSize (ic ++ ii))
      (ib ++ [.short .jumpBackward (codeSize (ic ++ ii) + codeSize ib + 3 - start)]) := by
    refine (hb.mono fun t ht => ht.imp_right fun ht => .inr (.inl ht)).append
      (.backward hfits (by omega) (.inr (.inr (.inl ?_)))) rfl
    have hstart : start ≤ codeSize (ic ++ ii) := by
      cases increment with
      | none => exact hi.2 ▸ Nat.zero_le _
      | some e =>
          obtain ⟨is, -, -, -, rfl, rfl⟩ := hi
          simp [Instr.size]
    omega
  rw [List.append_assoc]
  cases increment with
  | none =>
      obtain ⟨rfl, rfl⟩ := hi
      rw [List.append_nil] at hbody ⊢
      refine hcond.join hbody rfl ?_
      rintro t (ht | rfl | rfl | rfl | rfl)
      · exact .inl ht
      · exact .inr (.inl rfl)
      · exact .inr (.inl rfl)
      · exact .inr (.inr (.inl (by simp)))
      · exact .inr (.inr (.inr (by simp [Instr.size]; omega)))
  | some e =>
      obtain ⟨is, hcode, hjump, hjump', rfl, rfl⟩ := hi
      have hforward : PlacedBytes E.constants S' (p + codeSize ic)
          [.short .jumpForward (codeSize is + 4)] :=
        .forward rfl (by decide) hjump (.inr (.inr (.inr (.inl (by simp [Instr.size]; omega)))))
      have hincrement : PlacedBytes E.constants S' (p + (codeSize ic + 3)) (is ++ [.op .popTop,
          .short .jumpBackward (codeSize ic + 3 + codeSize is + 4)]) := by
        refine (exprCode_tidy e hcode).placed.append ((TidyBytes.op rfl rfl).placed.append
          (.backward hjump' ?_ (.inr (.inl ?_))) rfl) rfl
        · simp [Instr.size]
        · simp [Instr.size]
          omega
      have hall := (hcond.append hforward rfl).joinThree (S := S) hincrement hbody
        (by simp [Instr.size]) (by simp [Instr.size]; omega) ?_
      · simpa [List.append_assoc] using hall
      · rintro t (ht | rfl | rfl | rfl | rfl)
        · exact .inl ht
        · exact .inr (.inl rfl)
        · exact .inr (.inr (.inl rfl))
        · exact .inr (.inr (.inr (.inl rfl)))
        · exact .inr (.inr (.inr (.inr (by simp [Instr.size]; omega))))

/-- The code of a `for`, given those of its initializer and of its body. -/
theorem forCode_placed {P : Place} {Γ Γi : List Slot} {condition increment : Option Expr}
    {start : Nat} {ii head ib : List Instr}
    (h : ForHead P.env Γi condition increment (codeSize ib + 3) head start)
    (hi : PlacedBytes P.env.constants P.LoopStart P.pos ii)
    (hb : PlacedBytes P.env.constants
      ((P.nested.inLoop (P.pos + codeSize ii + start) Γi.length).LoopStart)
      (P.pos + (codeSize ii + codeSize head)) ib)
    (hfits : JumpFits (codeSize head + codeSize ib + 3 - start)) :
    PlacedBytes P.env.constants P.LoopStart P.pos (ii ++ head ++ ib ++
      [.short .jumpBackward (codeSize head + codeSize ib + 3 - start)] ++
      scopeEnd (Γi.drop Γ.length)) := by
  have hbody : PlacedBytes P.env.constants
      (fun t => P.LoopStart t ∨ t = P.pos + codeSize ii + start)
      (P.pos + codeSize ii + codeSize head) ib := by
    rw [show P.pos + codeSize ii + codeSize head = P.pos + (codeSize ii + codeSize head) from
      Nat.add_assoc ..]
    refine hb.mono ?_
    rintro t ⟨l, hl, rfl⟩
    cases hl
    exact .inr rfl
  have hloop := forLoop_placed h hbody hfits
  have hall := (hi.append hloop rfl).append (scopeEnd_tidy (Γi.drop Γ.length)).placed rfl
  simpa [List.append_assoc] using hall

mutual

/-- The jumps of the code of a statement end in it or at the start of the loop around it. -/
theorem stmtCode_placed : ∀ (stmt : Stmt) {P : Place} {Γ Γ' : List Slot} {is : List Instr},
    StmtCode stmt P Γ is Γ' → PlacedBytes P.env.constants P.LoopStart P.pos is
  | .empty, P, Γ, Γ', is, h => by
      rw [h.1]
      exact TidyBytes.placed ⟨[], rfl, .nil⟩
  | .expression e, P, Γ, Γ', is, h => by
      obtain ⟨ie, he, rfl, -⟩ := h
      exact ((exprCode_tidy e he).append (.op rfl rfl)).placed
  | .print e, P, Γ, Γ', is, h => by
      obtain ⟨ie, he, rfl, -⟩ := h
      exact ((exprCode_tidy e he).append (.op rfl rfl)).placed
  | .var x none, P, Γ, Γ', is, h => by
      obtain ⟨id, hd, rfl⟩ := h
      exact ((TidyBytes.op rfl rfl).append (defineCode_tidy hd)).placed
  | .var x (some e), P, Γ, Γ', is, h => by
      obtain ⟨ie, id, hd, he, rfl⟩ := h
      exact ((exprCode_tidy e he).append (defineCode_tidy hd)).placed
  | .const x e, P, Γ, Γ', is, h => by
      obtain ⟨ie, id, hd, he, rfl⟩ := h
      exact ((exprCode_tidy e he).append (defineCode_tidy hd)).placed
  | .function x params body, P, Γ, Γ', is, h => by
      obtain ⟨id, k, f, U, hd, hk, hf, hfun, rfl⟩ := h
      exact (PlacedBytes.closure hk hf hfun.2.2.1).append (defineCode_tidy hd).placed rfl
  | .class x none methods, P, Γ, Γ', is, h => by
      obtain ⟨id, k, ref, im, hd, -, -, -, hm, rfl⟩ := h
      exact ((((TidyBytes.short rfl rfl).append (defineCode_tidy hd)).append
        (.one ref.tame_load)).placed.append (methodsCode_placed methods hm) rfl).append
        (TidyBytes.op rfl rfl).placed rfl
  | .class x (some y) methods, P, Γ, Γ', is, h => by
      obtain ⟨id, k, ref, ref', superRef, captured, im, hd, -, -, -, -, -, hm, rfl⟩ := h
      exact (((((TidyBytes.short rfl rfl).append (defineCode_tidy hd)).append
        ((TidyBytes.one superRef.tame_load).append ((TidyBytes.one ref.tame_load).append
          ((TidyBytes.op rfl rfl).append (.one ref'.tame_load))))).placed.append
        (methodsCode_placed methods hm) rfl).append (TidyBytes.op rfl rfl).placed rfl).append
        (scopeEnd_tidy _).placed rfl
  | .block body, P, Γ, Γ', is, h => by
      obtain ⟨ib, Γb, hb, rfl, -⟩ := h
      exact (stmtsCode_placed body hb).append (scopeEnd_tidy _).placed rfl
  | .if c t, P, Γ, Γ', is, h => by
      obtain ⟨ic, it, hc, ht, hfits, rfl, -⟩ := h
      exact .guarded (exprCode_tidy c hc) (stmtCode_placed t ht) hfits
  | .ifElse c t e, P, Γ, Γ', is, h => by
      obtain ⟨ic, it, ie, hc, ht, he, hfits, hfits', rfl, -⟩ := h
      refine .alternatives (((exprCode_tidy c hc).placed.append
        (.forward rfl (by decide) hfits (.inr ?_)) rfl).append
        ((stmtCode_placed t ht).mono fun _ => .inl) (by simp [Place.after, Instr.size])) hfits'
        (stmtCode_placed e he) (by simp [Instr.size]; omega)
      simp [Instr.size]
      omega
  | .while c b, P, Γ, Γ', is, h => by
      obtain ⟨ic, ib, hc, hb, hfits, hfits', rfl, -⟩ := h
      refine .loop (exprCode_tidy c hc) (PlacedBytes.mono (stmtCode_placed b hb) ?_) hfits hfits'
      rintro t ⟨l, hl, rfl⟩
      cases hl
      exact .inr rfl
  | .for init c i b, P, Γ, Γ', is, h => by
      obtain ⟨ii, Γi, head, start, ib, hi, hhead, hb, hfits, rfl, -⟩ := h
      exact forCode_placed hhead (stmtCode_placed (P := P.nested) init hi) (stmtCode_placed b hb)
        hfits
  | .switch e cases, P, Γ, Γ', is, h => by
      obtain ⟨ie, ic, he, hc, rfl, -⟩ := h
      exact (exprCode_tidy e he).placed.append
        (casesCode_placed (P := P.after (codeSize ie)) cases hc) rfl
  | .continue, P, Γ, Γ', is, h => by
      obtain ⟨l, hl, -, hstart, hfits, rfl, -⟩ := h
      refine (TidyBytes.of_tame fun i hi => ?_).placed.append (.backward hfits ?_ ⟨l, hl, ?_⟩) rfl
      · rw [List.eq_of_mem_replicate hi]
        exact ⟨Instr.plain_op.mpr rfl, rfl⟩
      · rw [codeSize_replicate_op]
        omega
      · rw [codeSize_replicate_op]
        omega
  | .return none, P, Γ, Γ', is, h => by
      rw [h.1]
      exact (returnCode_tidy _).placed
  | .return (some e), P, Γ, Γ', is, h => by
      obtain ⟨ie, he, rfl, -⟩ := h
      exact ((exprCode_tidy e he).append (.op rfl rfl)).placed

theorem stmtsCode_placed : ∀ (stmts : Stmts) {P : Place} {Γ Γ' : List Slot} {is : List Instr},
    StmtsCode stmts P Γ is Γ' → PlacedBytes P.env.constants P.LoopStart P.pos is
  | .nil, P, Γ, Γ', is, h => by
      rw [h.1]
      exact TidyBytes.placed ⟨[], rfl, .nil⟩
  | .cons s ss, P, Γ, Γ', is, h => by
      obtain ⟨i, Γ₁, is', hs, hss, rfl⟩ := h
      exact (stmtCode_placed s hs).append (stmtsCode_placed (P := P.after (codeSize i)) ss hss) rfl

theorem casesCode_placed : ∀ (cases : Cases) {P : Place} {Γ : List Slot} {is : List Instr},
    CasesCode cases P Γ is → PlacedBytes P.env.constants P.LoopStart P.pos is
  | .nil, P, Γ, is, h => by
      rw [show is = [.op .popTop] from h]
      exact (TidyBytes.op rfl rfl).placed
  | .default body, P, Γ, is, h => by
      obtain ⟨ib, Γb, captured, hb, rfl⟩ := h
      let S : Nat → Prop := fun t =>
        P.LoopStart t ∨ t = P.pos + codeSize (ib ++ scopeEnd (Γb.drop Γ.length)) + 3
      refine PlacedBytes.join (T := S)
        (((stmtsCode_placed (P := P.nested) body hb).mono fun _ => .inl).append
          (scopeEnd_tidy _).placed rfl)
        (.forward rfl (by decide) (Nat.zero_le _) (.inr rfl)) rfl ?_
      rintro t (ht | rfl)
      · exact .inl ht
      · exact .inr (.inr (.inr rfl))
  | .case label body rest, P, Γ, is, h => by
      obtain ⟨il, ib, Γb, captured, ir, hl, hb, hr, hfits, hfits', rfl⟩ := h
      have htest : PlacedBytes P.env.constants (fun t => P.LoopStart t ∨ t = P.pos +
          (codeSize il + 5 + codeSize (ib ++ scopeEnd (Γb.drop Γ.length)) + 3)) P.pos
          ([.op .dupTop] ++ il ++ [.op .equal,
            .short .popJumpIfFalse (codeSize (ib ++ scopeEnd (Γb.drop Γ.length)) + 3)]) := by
        refine ((TidyBytes.op rfl rfl).append (exprCode_tidy label hl)).placed.append
          ((TidyBytes.op rfl rfl).placed.append (.forward rfl (by decide) hfits (.inr ?_)) rfl) rfl
        simp [Instr.size]
        omega
      have hbody : PlacedBytes P.env.constants P.LoopStart (P.pos + (codeSize il + 5))
          (ib ++ scopeEnd (Γb.drop Γ.length)) :=
        (stmtsCode_placed (P := P.nested.after (codeSize il + 5)) body hb).append
          (scopeEnd_tidy _).placed rfl
      have hsize : codeSize (([.op .dupTop] ++ il ++ [.op .equal,
          .short .popJumpIfFalse (codeSize (ib ++ scopeEnd (Γb.drop Γ.length)) + 3)]) ++
          (ib ++ scopeEnd (Γb.drop Γ.length))) + 3 =
          codeSize il + 5 + codeSize (ib ++ scopeEnd (Γb.drop Γ.length)) + 3 := by
        simp [Instr.size]
        omega
      refine .alternatives ?_ hfits' (casesCode_placed (P := P.after _) rest hr) hsize.symm
      rw [hsize]
      refine htest.append (hbody.mono fun _ => .inl) ?_
      simp [Instr.size]
      omega

theorem methodsCode_placed : ∀ (methods : Methods) {E : Env} {Γ : List Slot} {is : List Instr}
    {S : Nat → Prop} {p : Nat}, MethodsCode methods E Γ is → PlacedBytes E.constants S p is
  | .nil, E, Γ, is, S, p, h => by
      rw [show is = [] from h]
      exact TidyBytes.placed ⟨[], rfl, .nil⟩
  | .cons x params body rest, E, Γ, is, S, p, h => by
      obtain ⟨k, kx, f, U, ir, hk, -, hf, -, hfun, hr, rfl⟩ := h
      exact ((PlacedBytes.closure hk hf hfun.2.2.1).append (TidyBytes.short rfl rfl).placed
        rfl).append (methodsCode_placed rest hr) rfl

end

/-- The code of a function has the bytes of well-formed code. -/
theorem wellFormed_of_code {P : Place} {Γ Γ' : List Slot} {body : Stmts} {is : List Instr}
    (h : StmtsCode body P Γ is Γ') (hloop : P.loop = none) (hpos : P.pos = 0) (type : FunctionType) :
    ∃ is', encodeAll is' = encodeAll (is ++ returnCode type) ∧
      WellFormedCode P.env.constants is' := by
  have hbody := stmtsCode_placed body h
  rw [hpos] at hbody
  obtain ⟨is', his, hplaced⟩ := hbody.append (returnCode_tidy type).placed rfl
  refine ⟨is', his, hplaced.fits, hplaced.jumps.mono ?_⟩
  rintro t (ht | ⟨l, hl, -⟩)
  · exact ht
  · rw [hloop] at hl
    cases hl

end CppLox
