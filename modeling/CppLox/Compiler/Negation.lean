import CppLox.Compiler.Layout

/-!
# Compiler — the rewrite of unary minus

Unary `-` looks at the last byte of the code before it: a byte `ONE` becomes `MINUS_ONE`.  That is
sound when the byte is the literal 1 and every path through the operand comes to it, which depends on
the form of the operand only: it is the literal 1, or a conditional whose second branch is.
-/

namespace CppLox

/-- The expression is the literal 1, or a conditional that ends in it. -/
def Expr.endsInOne : Expr → Bool
  | .integer v => v == 1
  | .conditional _ _ e => e.endsInOne
  | _ => false

/-- The last byte of some code is `ONE`. -/
def LastByteOne (is : List Instr) : Prop := (encodeAll is).getLast? = some OpCode.one.toByte

/-- The last instruction of some code is the literal 1, and every jump before it ends before it. -/
def EndsInLiteralOne (is : List Instr) : Prop :=
  ∃ init, encodeAll is = encodeAll (init ++ [.op .one]) ∧ (∀ i ∈ init, i.Plain) ∧ JumpsWithin init

/-- Instructions with another last instruction than the literal 1, or with a jump over it. -/
def MissesOne (is : List Instr) : Prop :=
  (∃ init i, is = init ++ [i] ∧ i ≠ .op .one) ∨
    ∃ before op n after, is = before ++ .short op n :: after ∧ op.isJump = true ∧
      op ≠ .jumpBackward ∧ JumpFits n ∧ after ≠ [] ∧ codeSize after = n

namespace MissesOne

variable {is js : List Instr}

theorem append_left (h : MissesOne is) (js : List Instr) : MissesOne (js ++ is) := by
  rcases h with ⟨init, i, rfl, hne⟩ | ⟨before, op, n, after, rfl, h⟩
  · exact .inl ⟨js ++ init, i, (List.append_assoc js init [i]).symm, hne⟩
  · exact .inr ⟨js ++ before, op, n, after, (List.append_assoc js before _).symm, h⟩

end MissesOne

/-- Instructions with the operands of their opcodes that have the same bytes are as many, with the
same opcodes and sizes. -/
theorem map_outline_eq_of_plain {is js : List Instr} (hi : ∀ i ∈ is, i.Plain)
    (hj : ∀ j ∈ js, j.Plain) (h : encodeAll is = encodeAll js) :
    is.map Instr.outline = js.map Instr.outline :=
  map_outline_eq h (fun i hmem => (hi i hmem).fits []) fun j hmem => (hj j hmem).fits []

theorem Instr.eq_one_of_opcode {i : Instr} (h : i.Plain) (hone : i.opcode = .one) :
    i = .op .one := by
  have hoperands := h.1
  rw [hone] at hoperands
  cases i with
  | op o => exact congrArg Instr.op hone
  | byte o b => cases hoperands
  | short o n => cases hoperands
  | shortByte o n b => cases hoperands
  | closure k U => cases hone

theorem Instr.eq_short_of_outline {i : Instr} {op : OpCode} {n : Nat} (h : i.Plain)
    (hshort : (Instr.short op n).Plain) (houtline : i.outline = (Instr.short op n).outline) :
    ∃ m, i = .short op m := by
  have hcode : i.opcode = op := congrArg Prod.fst houtline
  have hoperands := h.1
  rw [hcode, show op.operands = _ from hshort.1] at hoperands
  cases i with
  | short o m => exact ⟨m, by rw [← hcode]; rfl⟩
  | op o => cases hoperands
  | byte o b => cases hoperands
  | shortByte o n b => cases hoperands
  | closure k U => exact absurd rfl h.2

/-- Where instructions with the same bytes are cut at the same place, both parts have the same
bytes. -/
theorem encodeAll_append_inj {a b a' b' : List Instr} (h : encodeAll (a ++ b) = encodeAll (a' ++ b'))
    (hsize : a.map Instr.outline = a'.map Instr.outline) :
    encodeAll a = encodeAll a' ∧ encodeAll b = encodeAll b' := by
  rw [encodeAll_append, encodeAll_append] at h
  refine List.append_inj h ?_
  rw [length_encodeAll, length_encodeAll, codeSize, codeSize, map_size_of_outline hsize]

theorem Instr.JumpsTo.forward {S : Nat → Prop} {p n : Nat} {op : OpCode}
    (h : (Instr.short op n).JumpsTo S p) (hjump : op.isJump = true) (hback : op ≠ .jumpBackward) :
    n ≤ 0xFFFF ∧ S (p + 3 + n) := by
  obtain ⟨hn, htarget⟩ := h hjump
  rw [if_neg hback] at htarget
  exact ⟨hn, htarget⟩

/-- Code in which a jump leads past the last instruction does not always come to it. -/
theorem not_jumpsWithin_of_over {init before after : List Instr} {op : OpCode} {n : Nat}
    (hbytes : encodeAll (before ++ Instr.short op n :: after) = encodeAll (init ++ [Instr.op .one]))
    (hplain : ∀ i ∈ before ++ Instr.short op n :: after, i.Plain) (hplain' : ∀ i ∈ init, i.Plain)
    (houtline : (before ++ Instr.short op n :: after).map Instr.outline =
      (init ++ [Instr.op .one]).map Instr.outline)
    (hjump : op.isJump = true) (hback : op ≠ .jumpBackward) (hfits : JumpFits n)
    (hn : codeSize after = n) (hafter : after ≠ []) : ¬ JumpsWithin init := by
  intro hjumps
  have hsize : codeSize (before ++ Instr.short op n :: after) = codeSize init + 1 := by
    rw [codeSize_eq_of_encodeAll hbytes, codeSize_append]
    rfl
  obtain ⟨after', l, rfl⟩ := (List.eq_nil_or_concat' after).resolve_left hafter
  have hcut : (before ++ Instr.short op n :: after').map Instr.outline =
      init.map Instr.outline := by
    rw [← List.cons_append, ← List.append_assoc] at houtline
    have hmap := houtline
    rw [@List.map_append _ _ _ (before ++ _), @List.map_append _ _ _ init] at hmap
    exact (List.append_inj' hmap rfl).1
  rw [List.map_append, List.map_cons] at hcut
  obtain ⟨before', rest, rfl, hbefore, hrest⟩ := List.map_eq_append_iff.mp hcut.symm
  obtain ⟨j, after'', rfl, hj, hafter''⟩ := List.map_eq_cons_iff.mp hrest
  obtain ⟨m, rfl⟩ := Instr.eq_short_of_outline (hplain' j (by simp))
    (hplain (.short op n) (by simp)) hj
  -- the jump of `init` at this place has the same operand
  obtain ⟨hm, htarget⟩ := (jumpsIn_append.mp (hjumps 0)).2.1.forward hjump hback
  rw [List.append_assoc] at hbytes
  have htail := (encodeAll_append_inj hbytes hbefore.symm).2
  have hword : uint16Bytes n = uint16Bytes m := by
    rw [encodeAll_cons, List.cons_append, encodeAll_cons] at htail
    exact (List.cons.inj (List.append_inj htail rfl).1).2
  obtain rfl := uint16Bytes_injective hfits hm hword
  have hbefore' : codeSize before' = codeSize before := by
    rw [codeSize, codeSize, map_size_of_outline hbefore]
  have hle := le_of_mem_cuts htarget
  rw [codeSize_append, codeSize_cons] at hsize
  change codeSize before + (3 + _) = _ at hsize
  omega

theorem MissesOne.not_endsInLiteralOne {is js : List Instr} (h : MissesOne js)
    (hplain : ∀ i ∈ js, i.Plain) (hbytes : encodeAll js = encodeAll is) : ¬ EndsInLiteralOne is := by
  rintro ⟨init, hinit, hplain', hjumps⟩
  have hplain'' : ∀ i ∈ init ++ [.op .one], i.Plain := by
    intro i hi
    rcases List.mem_append.mp hi with hi | hi
    · exact hplain' i hi
    · rw [List.mem_singleton.mp hi]
      exact Instr.plain_op.mpr rfl
  have houtline := map_outline_eq_of_plain hplain hplain'' (hbytes.trans hinit)
  rcases h with ⟨init', i, rfl, hne⟩ | ⟨before, op, n, after, rfl, hjump, hback, hfits, hafter, hn⟩
  · rw [List.map_append, List.map_append] at houtline
    have hlast := (List.append_inj' houtline rfl).2
    have hi : i.outline = (Instr.op .one).outline := (List.cons.inj hlast).1
    exact hne (Instr.eq_one_of_opcode (hplain i (by simp)) (congrArg Prod.fst hi))
  · exact not_jumpsWithin_of_over (hbytes.trans hinit) hplain hplain' houtline hjump hback hfits hn
      hafter hjumps

/-! ### The code of an expression -/

/-- Code that is known not to end in the literal 1 on every path. -/
def MissesOneBytes (is : List Instr) : Prop :=
  ∃ is', encodeAll is' = encodeAll is ∧ (∀ i ∈ is', i.Plain) ∧ MissesOne is'

namespace MissesOneBytes

variable {is js : List Instr}

theorem append_left (h : MissesOneBytes is) (hjs : TidyBytes js) : MissesOneBytes (js ++ is) := by
  obtain ⟨is', hbytes, hplain, hmisses⟩ := h
  obtain ⟨js', hbytes', htidy⟩ := hjs
  refine ⟨js' ++ is', by rw [encodeAll_append, encodeAll_append, hbytes, hbytes'], fun i hi => ?_,
    hmisses.append_left js'⟩
  exact (List.mem_append.mp hi).elim (htidy.plain i) (hplain i)

/-- One instruction other than the literal 1. -/
theorem one {i : Instr} (h : i.Plain) (hne : i ≠ .op .one) : MissesOneBytes [i] :=
  ⟨[i], rfl, List.forall_mem_singleton.mpr h, .inl ⟨[], i, rfl, hne⟩⟩

/-! One instruction with the operands of its opcode. -/

variable {code : OpCode} {n b : Nat}

theorem op (h : code.operands = some .none) (hne : code ≠ .one) : MissesOneBytes [.op code] :=
  one (Instr.plain_op.mpr h) fun heq => hne (Instr.op.inj heq)

theorem byte (h : code.operands = some .byte) : MissesOneBytes [.byte code b] :=
  one (Instr.plain_byte.mpr h) (by intro heq; cases heq)

theorem short (h : code.operands = some .short) : MissesOneBytes [.short code n] :=
  one (Instr.plain_short.mpr h) (by intro heq; cases heq)

theorem shortByte (h : code.operands = some .shortByte) : MissesOneBytes [.shortByte code n b] :=
  one (Instr.plain_shortByte.mpr h) (by intro heq; cases heq)

/-- A jump over code that starts with a pop. -/
theorem skip (hjump : code.isJump = true) (hback : code ≠ .jumpBackward)
    (hfits : JumpFits (1 + codeSize is)) (h : TidyBytes is) :
    MissesOneBytes ([.short code (1 + codeSize is), .op .popTop] ++ is) := by
  obtain ⟨is', hbytes, htidy⟩ := h
  have hsize := codeSize_eq_of_encodeAll hbytes
  refine ⟨[.short code (1 + codeSize is), .op .popTop] ++ is', by simp [hbytes], fun i hi => ?_,
    .inr ⟨[], code, _, .op .popTop :: is', rfl, hjump, hback, hfits, List.cons_ne_nil _ _, ?_⟩⟩
  · rcases List.mem_append.mp hi with hi | hi
    · rcases List.mem_pair.mp hi with rfl | rfl
      · exact Instr.plain_short.mpr (operands_of_isJump hjump)
      · exact Instr.plain_op.mpr rfl
    · exact htidy.plain i hi
  · rw [codeSize_cons, hsize]
    rfl

end MissesOneBytes

section

variable {E : Env} {Γ : List Slot}

theorem Ref.missesOne_load (ref : Ref) : MissesOneBytes [ref.load] := by
  cases ref <;> exact .short rfl

theorem Ref.missesOne_store (ref : Ref) : MissesOneBytes [ref.store] := by
  cases ref <;> exact .short rfl

theorem missesOne_loadConstant (k : Nat) : MissesOneBytes [loadConstant k] := by
  unfold loadConstant
  split
  · exact .byte rfl
  · exact .short rfl

theorem missesOne_opcodes (op : BinaryOp) : MissesOneBytes (op.opcodes.map Instr.op) := by
  cases op with
  | add | subtract | multiply | divide | equal | greater | less =>
      exact .op rfl (by decide)
  | notEqual | greaterEqual | lessEqual =>
      exact (MissesOneBytes.op (show OpCode.not.operands = _ from rfl) (by decide)).append_left
        (.op rfl rfl)

/-- Code that ends in the literal 1, with tidy instructions before it. -/
theorem exists_tidy_of_endsInOne : ∀ (e : Expr) {is : List Instr}, e.endsInOne = true →
    ExprCode E Γ e is → ∃ init, encodeAll is = encodeAll (init ++ [Instr.op .one]) ∧ Tidy init
  | .integer v, is, hone, h => by
      obtain rfl : v = 1 := eq_of_beq hone
      exact ⟨[], congrArg encodeAll (show is = [.op .one] from h), .nil⟩
  | .conditional c t e, is, hone, h => by
      obtain ⟨ic, it, ie, hc, ht, he, rfl⟩ := h
      obtain ⟨init, hinit, htidy⟩ := exists_tidy_of_endsInOne e hone he
      obtain ⟨ic', hic, htidy₁⟩ := exprCode_tidy c hc
      obtain ⟨it', hit, htidy₂⟩ := exprCode_tidy t ht
      refine ⟨ic' ++ it' ++ init, ?_, (htidy₁.append htidy₂).append htidy⟩
      rw [encodeAll_append, encodeAll_append, hinit, ← hic, ← hit]
      simp only [encodeAll_append, List.append_assoc]

/-! The elements of a list or a map, the last of which may have made it. -/

theorem missesOne_buildCode {buildOp : OpCode} {threshold n : Nat}
    (hbuild : buildOp.operands = some .byte) :
    (buildCode buildOp threshold n = [] ∧ threshold ≤ n) ∨
      MissesOneBytes (buildCode buildOp threshold n) := by
  unfold buildCode
  split
  · exact .inr (.byte hbuild)
  · exact .inl ⟨rfl, by omega⟩

theorem missesOne_elements {buildOp appendOp : OpCode} {threshold n : Nat} {is js : List Instr}
    (hbuild : buildOp.operands = some .byte) (hjump : buildOp.isJump = false)
    (happend : appendOp.operands = some .none) (hjump' : appendOp.isJump = false)
    (hne : appendOp ≠ .one) (hjs : TidyBytes js)
    (h : (is = [] ∧ threshold ≤ n) ∨ MissesOneBytes is) :
    MissesOneBytes (js ++ elementCode buildOp appendOp threshold n ++ is) := by
  rcases h with ⟨rfl, hle⟩ | hmisses
  · rw [List.append_nil]
    refine MissesOneBytes.append_left ?_ hjs
    unfold elementCode
    by_cases hlt : threshold < n
    · rw [if_pos hlt, if_neg (Nat.ne_of_gt hlt)]
      exact .op happend hne
    · rw [if_neg hlt, if_pos (by omega)]
      exact .byte hbuild
  · exact hmisses.append_left (hjs.append (.of_tame (tame_elementCode hbuild happend hjump hjump')))

theorem missesOne_elementsCode (es : Exprs) (n : Nat) {is : List Instr}
    (h : ElementsCode E Γ es n is) :
    (is = [] ∧ listBuildAppendThreshold ≤ n) ∨ MissesOneBytes is := by
  cases es with
  | nil =>
      rw [show is = _ from h]
      exact missesOne_buildCode rfl
  | cons e es =>
      obtain ⟨ie, ies, he, hes, rfl⟩ := h
      exact .inr (missesOne_elements rfl rfl rfl rfl (by decide) (exprCode_tidy e he)
        (missesOne_elementsCode es (n + 1) hes))

theorem missesOne_entriesCode (es : Entries) (n : Nat) {is : List Instr}
    (h : EntriesCode E Γ es n is) :
    (is = [] ∧ mapBuildAddThreshold ≤ n) ∨ MissesOneBytes is := by
  cases es with
  | nil =>
      rw [show is = _ from h]
      exact missesOne_buildCode rfl
  | cons key value es =>
      obtain ⟨ik, iv, ies, hk, hv, hes, rfl⟩ := h
      exact .inr (missesOne_elements rfl rfl rfl rfl (by decide)
        ((exprCode_tidy key hk).append (exprCode_tidy value hv))
        (missesOne_entriesCode es (n + 1) hes))

/-- The last byte `ONE` of an expression that does not end in the literal 1 is something else, or
there is a jump over it. -/
theorem missesOne_of_endsInOne : ∀ (e : Expr) {is : List Instr}, e.endsInOne = false →
    ExprCode E Γ e is → LastByteOne is → MissesOneBytes is
  | .nil, _, _, h, _ => by
      rw [show _ = _ from h]
      exact .op rfl (by decide)
  | .boolean b, _, _, h, _ => by
      rw [show _ = _ from h]
      cases b <;> exact .op rfl (by decide)
  | .integer v, is, hone, h, _ => by
      unfold ExprCode at h
      split at h
      · exact h ▸ .op rfl (by decide)
      · split at h
        · rename_i hv
          rw [hv] at hone
          cases hone
        · obtain ⟨k, -, -, rfl⟩ := h
          exact missesOne_loadConstant k
  | .real _, _, _, h, _ | .string _, _, _, h, _ => by
      obtain ⟨k, -, -, rfl⟩ := h
      exact missesOne_loadConstant k
  | .variable _, _, _, h, _ => by
      obtain ⟨ref, -, rfl⟩ := h
      exact ref.missesOne_load
  | .assign _ e, _, _, h, _ => by
      obtain ⟨ref, ie, -, he, rfl⟩ := h
      exact ref.missesOne_store.append_left (exprCode_tidy e he)
  | .not e, _, _, h, _ => by
      obtain ⟨ie, he, rfl⟩ := h
      exact (MissesOneBytes.op rfl (by decide)).append_left (exprCode_tidy e he)
  | .negate e, is, _, h, hlast => by
      obtain ⟨ie, -, h⟩ := h
      -- the last byte is `MINUS_ONE` or `NEGATE`
      unfold LastByteOne at hlast
      split at h
      · rw [h, List.getLast?_concat] at hlast
        exact absurd hlast (by decide)
      · rw [h, encodeAll_append] at hlast
        change (encodeAll ie ++ [OpCode.negate.toByte]).getLast? = _ at hlast
        rw [List.getLast?_concat] at hlast
        exact absurd hlast (by decide)
  | .binary op l r, _, _, h, _ => by
      obtain ⟨il, ir, hl, hr, rfl⟩ := h
      exact (missesOne_opcodes op).append_left ((exprCode_tidy l hl).append (exprCode_tidy r hr))
  | .and l r, _, _, h, _ => by
      obtain ⟨il, ir, hl, hr, hfits, rfl⟩ := h
      rw [List.append_assoc]
      exact (MissesOneBytes.skip rfl (by decide) hfits (exprCode_tidy r hr)).append_left
        (exprCode_tidy l hl)
  | .or l r, _, _, h, _ => by
      obtain ⟨il, ir, hl, hr, hfits, rfl⟩ := h
      rw [List.append_assoc]
      exact (MissesOneBytes.skip rfl (by decide) hfits (exprCode_tidy r hr)).append_left
        (exprCode_tidy l hl)
  | .conditional c t e, _, hone, h, hlast => by
      obtain ⟨ic, it, ie, hc, ht, he, rfl⟩ := h
      have hlast' : LastByteOne ie := by
        rwa [LastByteOne, encodeAll_append, List.getLast?_append_of_ne_nil _
          (encodeAll_ne_nil (exprCode_ne_nil e he))] at hlast
      exact (missesOne_of_endsInOne e hone he hlast').append_left
        ((exprCode_tidy c hc).append (exprCode_tidy t ht))
  | .call callee args, _, _, h, _ => by
      obtain ⟨ic, ia, hc, ha, -, rfl⟩ := h
      exact (MissesOneBytes.byte rfl).append_left
        ((exprCode_tidy callee hc).append (exprsCode_tidy args ha))
  | .invoke object x args, _, _, h, _ => by
      obtain ⟨io, ia, k, ho, ha, -, -, -, rfl⟩ := h
      exact (MissesOneBytes.shortByte rfl).append_left
        ((exprCode_tidy object ho).append (exprsCode_tidy args ha))
  | .property object x, _, _, h, _ | .propertySafe object x, _, _, h, _ => by
      obtain ⟨io, k, ho, -, -, rfl⟩ := h
      exact (MissesOneBytes.short rfl).append_left (exprCode_tidy object ho)
  | .setProperty object x e, _, _, h, _ => by
      obtain ⟨io, ie, k, ho, he, -, -, rfl⟩ := h
      exact (MissesOneBytes.short rfl).append_left
        ((exprCode_tidy object ho).append (exprCode_tidy e he))
  | .index object key, _, _, h, _ => by
      obtain ⟨io, ik, ho, hk, rfl⟩ := h
      exact (MissesOneBytes.op rfl (by decide)).append_left
        ((exprCode_tidy object ho).append (exprCode_tidy key hk))
  | .setIndex object key e, _, _, h, _ => by
      obtain ⟨io, ik, ie, ho, hk, he, rfl⟩ := h
      exact (MissesOneBytes.op rfl (by decide)).append_left
        (((exprCode_tidy object ho).append (exprCode_tidy key hk)).append (exprCode_tidy e he))
  | .list es, _, _, h, _ => by
      refine (missesOne_elementsCode es 0 h).resolve_left fun hnone => ?_
      exact absurd hnone.2 (by decide)
  | .map es, _, _, h, _ => by
      refine (missesOne_entriesCode es 0 h).resolve_left fun hnone => ?_
      exact absurd hnone.2 (by decide)
  | .super x, _, _, h, _ => by
      obtain ⟨this, super, k, -, -, -, -, rfl⟩ := h
      exact (MissesOneBytes.short rfl).append_left
        ((TidyBytes.one this.tame_load).append (.one super.tame_load))
  | .superInvoke x args, _, _, h, _ => by
      obtain ⟨this, super, ia, k, -, -, ha, -, -, -, rfl⟩ := h
      rw [show [super.load, Instr.shortByte .superInvoke k args.length] =
        [super.load] ++ [Instr.shortByte .superInvoke k args.length] from rfl, ← List.append_assoc]
      exact (MissesOneBytes.shortByte rfl).append_left
        (((TidyBytes.one this.tame_load).append (exprsCode_tidy args ha)).append
          (.one super.tame_load))

/-- The rewrite is sound, or does not take place. -/
theorem endsInLiteralOne_iff {e : Expr} {is : List Instr} (h : ExprCode E Γ e is)
    (hlast : LastByteOne is) : EndsInLiteralOne is ↔ e.endsInOne = true := by
  constructor
  · intro hends
    by_contra hone
    obtain ⟨is', hbytes, hplain, hmisses⟩ :=
      missesOne_of_endsInOne e (Bool.eq_false_iff.mpr hone) h hlast
    exact hmisses.not_endsInLiteralOne hplain hbytes hends
  · intro hone
    obtain ⟨init, hinit, htidy⟩ := exists_tidy_of_endsInOne e hone h
    exact ⟨init, hinit, htidy.plain, htidy.jumps⟩

end

end CppLox
