import CppLox.Compiler.Negation
import CppLox.Lox.Conditional

/-!
# Lox — unary minus

The code of `-e` is that of `e` and `NEGATE`, or that of `e` with `MINUS_ONE` for the last byte `ONE`.
Every run of it evaluates `e` and negates the result when the byte is the literal 1 and `e` has no
path around it; otherwise the rewrite changes an operand, or is jumped over.
-/

namespace CppLox

open VMM VM

/-- The code `Compiler::unary` leaves for `-e`, from that of `e`. -/
def NegationCode (is js : List Instr) : Prop :=
  if (encodeAll is).getLast? = some OpCode.one.toByte then
    encodeAll js = (encodeAll is).dropLast ++ [OpCode.minusOne.toByte]
  else js = is ++ [.op .negate]

theorem exprCode_negate_iff {E : Env} {Γ : List Slot} {e : Expr} {js : List Instr} :
    ExprCode E Γ (.negate e) js ↔ ∃ is, ExprCode E Γ e is ∧ NegationCode is js := Iff.rfl

namespace VM

variable (P : Platform)

/-- An opcode that pushes 1 and negates it. -/
def NegatesOne (op : OpCode) : Prop :=
  execute P op = (do execute P .one; execute P .negate)

/-- A run of a frame in which the value of the operand at `p` is negated: behind the operand, or by
an instruction for the literal 1 and its negation at the end of the operand. -/
def NegatesResult (f : ObjectFunction) (rest : List CallFrame) (p : Nat) (operand : List Instr)
    (vm vm' : VM) : Prop :=
  ∃ mid op, StepsAbove P rest vm mid ∧ StepsAbove P rest mid vm' ∧ mid.OpAt op ∧
    ((AtOffset f rest (p + codeSize operand) mid ∧ op = .negate) ∨
      (AtOffset f rest (p + codeSize operand - 1) mid ∧ NegatesOne P op))

theorem setSlot_setSlot (vm : VM) (i : Nat) (v w : Value) :
    (vm.setSlot i v).setSlot i w = vm.setSlot i w := by
  unfold setSlot
  congr 1
  funext j
  dsimp only
  split <;> rfl

theorem executeNegate_integer {vm : VM} {i : Int64} (htop : 0 < vm.stackTop)
    (hv : vm.stack (vm.stackTop - 1) = .integer i) :
    executeNegate vm = .done () (vm.setSlot (vm.stackTop - 1) (.integer (-i))) := by
  unfold executeNegate
  rw [VMM.bind_of_done (peek_of_lt htop), Nat.sub_zero, hv]
  rfl

theorem negatesOne_minusOne : NegatesOne P .minusOne := by
  funext vm
  by_cases hroom : vm.stackTop = P.capacity
  · have hfull : ∀ v, push P v vm = .stopped (.exception "Stack overflow") vm := by
      intro v
      change (if vm.stackTop = P.capacity then throwException _ else _ : VMM Unit) vm = _
      rw [if_pos hroom]
      rfl
    exact (hfull _).trans (VMM.bind_of_stopped (hfull (.integer 1)) _).symm
  · have hpush : ∀ v, push P v vm =
        .done () { vm.setSlot vm.stackTop v with stackTop := vm.stackTop + 1 } := by
      intro v
      change (if vm.stackTop = P.capacity then throwException _ else _ : VMM Unit) vm = _
      rw [if_neg hroom]
      rfl
    have hnegate := @executeNegate_integer
      { vm.setSlot vm.stackTop (.integer 1) with stackTop := vm.stackTop + 1 } 1
      (Nat.succ_pos _) (if_pos rfl)
    refine (hpush _).trans ((VMM.bind_of_done (hpush (.integer 1)) _).trans
      (hnegate.trans ?_)).symm
    change Outcome.done () { (vm.setSlot vm.stackTop (.integer 1)).setSlot vm.stackTop
      (.integer (-1)) with stackTop := vm.stackTop + 1 } = _
    rw [setSlot_setSlot]

variable {P} {E : Env} {Γ : List Slot} {e : Expr} {is js : List Instr} {f : ObjectFunction}
  {rest : List CallFrame} {pre post : List UInt8} {vm vm' : VM}

theorem Block.of_tidy (h : CppLox.Tidy is) (hf : f.code = pre ++ (encodeAll is ++ post)) :
    Block f pre.length is :=
  ⟨⟨pre, post, rfl, hf⟩, fun i hi => (h.plain i hi).fits _, h.jumps _⟩

theorem opAt_of_atOffset {op : OpCode} {bytes : List UInt8} (h : AtOffset f rest pre.length vm)
    (hf : f.code = pre ++ (op.toByte :: bytes)) : vm.OpAt op := by
  obtain ⟨frame, hframes, rfl, hip⟩ := h
  refine ⟨frame, rest, hframes, ?_⟩
  rw [hf, hip]
  simp

/-- Code that is not rewritten: the run comes to `NEGATE`. -/
theorem negatesResult_of_appended (he : ExprCode E Γ e is)
    (hf : f.code = pre ++ (encodeAll (is ++ [.op .negate]) ++ post))
    (hstart : AtOffset f rest pre.length vm) (h : StepsAbove P rest vm vm')
    (hend : AtOffset f rest (pre.length + codeSize (is ++ [.op .negate])) vm') :
    NegatesResult P f rest pre.length is vm vm' := by
  have hcode : f.code = pre ++ (encodeAll is ++ (OpCode.negate.toByte :: post)) := by
    rw [hf, encodeAll_append]
    simp [Instr.encode]
  rw [codeSize_append] at hend
  obtain ⟨mid, hfirst, hmid, hlast⟩ :=
    passes_exprCode he hcode hstart h (by omega) hend
  refine ⟨mid, .negate, hfirst, hlast, ?_, .inl ⟨hmid, rfl⟩⟩
  rw [← length_encodeAll, ← List.length_append] at hmid
  exact opAt_of_atOffset hmid (by rw [hcode, List.append_assoc])

/-- Code that ends in the literal 1: the run comes to `MINUS_ONE`. -/
theorem negatesResult_of_rewritten {init : List Instr} (htidy : CppLox.Tidy init)
    (hinit : encodeAll is = encodeAll (init ++ [.op .one]))
    (hjs : encodeAll js = (encodeAll is).dropLast ++ [OpCode.minusOne.toByte])
    (hf : f.code = pre ++ (encodeAll js ++ post)) (hstart : AtOffset f rest pre.length vm)
    (h : StepsAbove P rest vm vm') (hend : AtOffset f rest (pre.length + codeSize js) vm') :
    NegatesResult P f rest pre.length is vm vm' := by
  have hsize : codeSize is = codeSize init + 1 := by
    rw [codeSize_eq_of_encodeAll hinit, codeSize_append]
    rfl
  have hbytes : encodeAll js = encodeAll init ++ [OpCode.minusOne.toByte] := by
    rw [hjs, hinit, encodeAll_append]
    change (encodeAll init ++ [OpCode.one.toByte]).dropLast ++ _ = _
    rw [List.dropLast_concat]
  have hcode : f.code = pre ++ (encodeAll init ++ (OpCode.minusOne.toByte :: post)) := by
    rw [hf, hbytes]
    simp
  have hsize' : codeSize js = codeSize init + 1 := by
    rw [← length_encodeAll, hbytes, List.length_append, length_encodeAll]
    rfl
  obtain ⟨last, hframes, -, hip⟩ := hend
  obtain ⟨mid, hfirst, hmid, hlast⟩ :=
    (Block.of_tidy htidy hcode).passes hstart h hframes (by omega)
  refine ⟨mid, .minusOne, hfirst, hlast, ?_, .inr ⟨?_, negatesOne_minusOne P⟩⟩
  · rw [← length_encodeAll, ← List.length_append] at hmid
    exact opAt_of_atOffset hmid (by rw [hcode, List.append_assoc])
  · rwa [hsize, ← Nat.add_assoc, Nat.add_sub_cancel]

/-- What the code of `-e` has to do: the last byte of the code of `e` is changed only where it is the
literal 1 and every path through `e` ends in it, and every run of the code negates the value of `e`. -/
structure NegationSound (P : Platform) (is js : List Instr) : Prop where
  rewrites : LastByteOne is → EndsInLiteralOne is
  negates : ∀ (f : ObjectFunction) (rest : List CallFrame) (pre post : List UInt8) (vm vm' : VM),
    f.code = pre ++ (encodeAll js ++ post) → AtOffset f rest pre.length vm →
    StepsAbove P rest vm vm' → AtOffset f rest (pre.length + codeSize js) vm' →
    NegatesResult P f rest pre.length is vm vm'

end VM

theorem VM.NegationSound.endsInOne {P : Platform} {E : Env} {Γ : List Slot} {e : Expr}
    {is js : List Instr} (h : NegationSound P is js) (he : ExprCode E Γ e is) :
    ¬ LastByteOne is ∨ e.endsInOne = true := by
  by_cases hlast : LastByteOne is
  · exact .inr ((endsInLiteralOne_iff he hlast).mp (h.rewrites hlast))
  · exact .inl hlast

theorem VM.NegationSound.of_endsInOne (P : Platform) {E : Env} {Γ : List Slot} {e : Expr}
    {is js : List Instr} (he : ExprCode E Γ e is) (hjs : NegationCode is js)
    (h : ¬ LastByteOne is ∨ e.endsInOne = true) : NegationSound P is js := by
  unfold NegationCode at hjs
  split at hjs
  · rename_i hlast
    have hone := h.resolve_left fun hne => hne hlast
    obtain ⟨init, hinit, htidy⟩ := exists_tidy_of_endsInOne e hone he
    exact ⟨fun _ => (endsInLiteralOne_iff he hlast).mpr hone,
      fun f rest pre post vm vm' hf hstart h hend =>
        negatesResult_of_rewritten htidy hinit hjs hf hstart h hend⟩
  · rename_i hlast
    subst hjs
    exact ⟨fun h => absurd h hlast, fun f rest pre post vm vm' hf hstart h hend =>
      negatesResult_of_appended he hf hstart h hend⟩

/-- **When unary minus negates.**  The code of `-e` is sound if and only if the last byte of the
code of `e` is not `ONE`, or `e` is the literal 1 or a conditional that ends in it.  `unary` looks
at the last byte that was emitted and takes it for an instruction: it may be part of an operand, or
an instruction that a jump of `and` or `or` leads past.

In the code of any expression with that last byte either every path ends in the literal, or one
misses it (`endsInLiteralOne_iff`), whatever the expression is; so the condition is on its form. -/
theorem negation_sound_iff (P : Platform) {E : Env} {Γ : List Slot} {e : Expr} {is js : List Instr}
    (he : ExprCode E Γ e is) (hjs : NegationCode is js) :
    NegationSound P is js ↔ ¬ LastByteOne is ∨ e.endsInOne = true :=
  ⟨fun h => h.endsInOne he, .of_endsInOne P he hjs⟩

/-- The code of `-(true ? 0 : 1)` is sound: its operand ends in the literal 1, behind other code. -/
theorem negation_sound_iff_conditional :
    NegationSound barePlatform ([.op .true] ++ [.op .zero] ++ [.op .one])
      ([.op .true] ++ [.op .zero] ++ [.op .minusOne]) := by
  have hoperand : ExprCode bareEnv [] (.conditional (.boolean true) (.integer 0) (.integer 1))
      ([.op .true] ++ [.op .zero] ++ [.op .one]) :=
    ⟨[.op .true], [.op .zero], [.op .one], rfl, rfl, rfl, rfl⟩
  have hcode : NegationCode ([.op .true] ++ [.op .zero] ++ [.op .one])
      ([.op .true] ++ [.op .zero] ++ [.op .minusOne]) := by
    unfold NegationCode
    rw [if_pos (by decide)]
    decide
  exact (negation_sound_iff barePlatform hoperand hcode).mpr (.inr rfl)

/-! ### A program -/

/-- A run in which there is a frame at each step. -/
theorem VM.stepsAbove_of_tested {P : Platform} {vm vm' : VM}
    (h : Relation.ReflTransGen (fun v v' => (!v.frames.isEmpty) = true ∧ Step P v v') vm vm')
    (hlast : vm'.frames ≠ []) : StepsAbove P [] vm vm' := by
  induction h with
  | refl => exact .refl
  | tail _ hstep ih =>
      refine (ih ?_).tail ⟨hstep.2, List.length_pos_of_ne_nil hlast⟩
      intro hnil
      rw [hnil] at hstep
      cases hstep.1

/-- The program `-(false and 1);`. -/
def negatedAndLine : Bytes :=
  ascii ['-', '(', 'f', 'a', 'l', 's', 'e', ' ', 'a', 'n', 'd', ' ', '1', ')', ';']

/-- The operand of the program, its code and that of its negation. -/
def andOperand : Expr := .and (.boolean false) (.integer 1)

def andOperandCode : List Instr :=
  [.op .false] ++ [.short .jumpIfFalse 2, .op .popTop] ++ [.op .one]

def negatedAndCode : List Instr :=
  [.op .false] ++ [.short .jumpIfFalse 2, .op .popTop] ++ [.op .minusOne]

theorem andOperand_code (E : Env) (Γ : List Slot) : ExprCode E Γ andOperand andOperandCode :=
  ⟨[.op .false], [.op .one], rfl, rfl, (by decide : 2 ≤ 0xFFFF), rfl⟩

theorem negatedAnd_code : NegationCode andOperandCode negatedAndCode := by
  unfold NegationCode
  rw [if_pos (by decide)]
  decide

/-- The machine is at some offsets in the functions it runs. -/
def VM.ipsAre (ips : List Nat) (vm : VM) : Bool := decide (vm.frames.map CallFrame.ip = ips)

theorem VM.standsAt_left {is js : List Instr} {vm : VM}
    (h : vm.standsAt (encodeAll (is ++ js)) = true) : vm.standsAt (encodeAll is) = true := by
  unfold VM.standsAt at h ⊢
  split at h
  · rename_i frame rest hframes
    rw [encodeAll_append] at h
    exact List.isPrefixOf_iff_prefix.mpr
      ((List.prefix_append _ _).trans (List.isPrefixOf_iff_prefix.mp h))
  · cases h

/-- The jump of `false and 1` leads past the changed byte, to a place without `NEGATE`. -/
theorem negation_jumped_over : ¬ ∀ (P : Platform) (parseReal : ParseReal) (line : Bytes)
    (vm₀ : VM) (E : Env) (Γ : List Slot) (e : Expr) (is js : List Instr),
    Started P parseReal ⟨VM.initial, 0⟩ line vm₀ → ExprCode E Γ e is → NegationCode is js →
    vm₀.standsAt (encodeAll js) = true → NegationSound P is js := by
  intro hall
  have hrun : ((startLine barePlatform noReals 60 ⟨VM.initial, 0⟩ negatedAndLine).any fun vm =>
      vm.standsAt (encodeAll (negatedAndCode ++ [.op .popTop])) && vm.ipsAre [0] &&
      (stepsWhile barePlatform (fun v => !v.frames.isEmpty) 2 vm).any (ipsAre [6]) &&
      (trace barePlatform 60 vm).any fun states => states.all fun v => !v.ipsAre [5]) = true := by
    decide +kernel
  obtain ⟨vm, hstart, hrun⟩ := (Option.any_eq_true _ _).mp hrun
  obtain ⟨hrun, htrace⟩ := Bool.and_eq_true_iff.mp hrun
  obtain ⟨hrun, hsteps⟩ := Bool.and_eq_true_iff.mp hrun
  obtain ⟨hstands, hips⟩ := Bool.and_eq_true_iff.mp hrun
  obtain ⟨states, htrace, hstates⟩ := (Option.any_eq_true _ _).mp htrace
  obtain ⟨vm', hsteps, hips'⟩ := (Option.any_eq_true _ _).mp hsteps
  obtain ⟨frame, hframes, hip⟩ := List.map_eq_singleton_iff.mp (of_decide_eq_true hips)
  obtain ⟨frame', hframes', hip'⟩ := List.map_eq_singleton_iff.mp (of_decide_eq_true hips')
  obtain ⟨_, _, heq, post, hpost⟩ := ahead_of_standsAt hstands
  obtain ⟨rfl, -⟩ := List.cons.inj (hframes.symm.trans heq)
  rw [hip, List.drop_zero] at hpost
  have hcode : frame.function.code =
      [] ++ (encodeAll negatedAndCode ++ (OpCode.popTop.toByte :: post)) := hpost.symm
  have habove : StepsAbove barePlatform [] vm vm' :=
    stepsAbove_of_tested (tested_of_stepsWhile hsteps) (by rw [hframes']; exact List.cons_ne_nil _ _)
  have hat : AtOffset frame.function [] 0 vm := ⟨frame, hframes, rfl, hip⟩
  have hnegate : ExprCode bareEnv [] (.negate andOperand) negatedAndCode :=
    exprCode_negate_iff.mpr ⟨andOperandCode, andOperand_code bareEnv [], negatedAnd_code⟩
  obtain ⟨is, hsize, hblock⟩ := @exists_block _ _ _ _ _ [] _ hnegate hcode
  have hend := hblock.passes hat habove hframes' (by rw [hip', hsize]; decide)
  obtain ⟨mid, hfirst, hmid, -⟩ := hend
  rw [hsize] at hmid
  have hsound := hall barePlatform noReals negatedAndLine vm bareEnv [] andOperand andOperandCode
    negatedAndCode (started_of_startLine hstart) (andOperand_code bareEnv []) negatedAnd_code
    (standsAt_left hstands)
  obtain ⟨mid', op, hfirst', -, hop, hcase⟩ :=
    hsound.negates frame.function [] [] (OpCode.popTop.toByte :: post) vm mid hcode hat hfirst hmid
  rcases hcase with ⟨hmid', rfl⟩ | ⟨hmid', -⟩
  · have hpop : mid'.OpAt .popTop := by
      refine @opAt_of_atOffset _ [] (encodeAll negatedAndCode) _ .popTop post hmid' ?_
      rw [hcode, List.nil_append]
    exact absurd (hpop.unique hop) (by decide)
  · have hmem := mem_of_trace htrace hfirst'.steps
    have hnot := List.all_eq_true.mp hstates mid' hmem
    obtain ⟨frame'', hframes'', -, hip''⟩ := hmid'
    have hyes : mid'.ipsAre [5] = true := by
      unfold ipsAre
      rw [hframes'']
      exact decide_eq_true (congrArg (fun ip => [ip]) hip'')
    rw [hyes] at hnot
    cases hnot

end CppLox
