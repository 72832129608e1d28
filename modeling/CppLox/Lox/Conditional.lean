import CppLox.Compiler.Layout
import CppLox.Lox.Literals
import CppLox.VM.Passing

/-!
# Lox — the conditional operator

`ternary` parses the branches of `c ? a : b` and emits no jump: a run of its code evaluates `c`, `a`
and `b`, whatever the value of `c` is.
-/

namespace CppLox

open VMM VM

namespace VM

variable (P : Platform)

/-- A run of a frame in which its code is run from an offset to another. -/
def RunsThrough (f : ObjectFunction) (rest : List CallFrame) (p q : Nat) (vm vm' : VM) : Prop :=
  ∃ mid, StepsAbove P rest vm mid ∧ AtOffset f rest p mid ∧ Passes P f rest q mid vm'

/-- The branches of a conditional, behind the condition that ends at `p`, are both run. -/
def BothRun (f : ObjectFunction) (rest : List CallFrame) (p : Nat) (then' else' : List Instr)
    (vm vm' : VM) : Prop :=
  RunsThrough P f rest p (p + codeSize then') vm vm' ∧
    RunsThrough P f rest (p + codeSize then') (p + codeSize then' + codeSize else') vm vm'

/-- One branch is run, the first one or the second one. -/
def OneRuns (f : ObjectFunction) (rest : List CallFrame) (p : Nat) (then' else' : List Instr)
    (first : Bool) (vm vm' : VM) : Prop :=
  let thenRuns := RunsThrough P f rest p (p + codeSize then') vm vm'
  let elseRuns :=
    RunsThrough P f rest (p + codeSize then') (p + codeSize then' + codeSize else') vm vm'
  if first then thenRuns ∧ ¬ elseRuns else elseRuns ∧ ¬ thenRuns

/-- The condition, at the offset `p`, is evaluated, then one of the branches behind it, the one its
value selects; a value more is on the stack. -/
def Selects (f : ObjectFunction) (rest : List CallFrame) (p : Nat)
    (condition then' else' : List Instr) (vm vm' : VM) : Prop :=
  ∃ mid, StepsAbove P rest vm mid ∧ AtOffset f rest (p + codeSize condition) mid ∧
    StepsAbove P rest mid vm' ∧ vm'.stackTop = vm.stackTop + 1 ∧
    OneRuns P f rest (p + codeSize condition) then' else'
      (!(mid.stack (mid.stackTop - 1)).isFalsey) mid vm'

variable {P} {f : ObjectFunction} {rest : List CallFrame} {vm vm' : VM}

/-- The code of an expression in a function is a block. -/
theorem exists_block {E : Env} {Γ : List Slot} {e : Expr} {is : List Instr} {pre post : List UInt8}
    (hcode : ExprCode E Γ e is) (hf : f.code = pre ++ (encodeAll is ++ post)) :
    ∃ is', codeSize is' = codeSize is ∧ Block f pre.length is' := by
  obtain ⟨is', hbytes, htidy⟩ := exprCode_tidy e hcode
  exact ⟨is', codeSize_eq_of_encodeAll hbytes, ⟨pre, post, rfl, by rw [hf, hbytes]⟩,
    fun i hi => (htidy.plain i hi).fits _, htidy.jumps _⟩

/-- A run of the code of an expression to some place behind it passes through its end. -/
theorem passes_exprCode {E : Env} {Γ : List Slot} {e : Expr} {is : List Instr}
    {pre post : List UInt8} {t : Nat} (hcode : ExprCode E Γ e is)
    (hf : f.code = pre ++ (encodeAll is ++ post)) (hstart : AtOffset f rest pre.length vm)
    (h : StepsAbove P rest vm vm') (ht : pre.length + codeSize is ≤ t)
    (hend : AtOffset f rest t vm') : Passes P f rest (pre.length + codeSize is) vm vm' := by
  obtain ⟨is', hsize, hblock⟩ := exists_block hcode hf
  obtain ⟨last, hlast, -, rfl⟩ := hend
  rw [← hsize] at ht ⊢
  exact hblock.passes hstart h hlast ht

/-- Unary `-` may change the last byte of the code. -/
theorem dropLast_conditional {ic it ie : List Instr} (hne : ie ≠ []) :
    (encodeAll (ic ++ it ++ ie)).dropLast =
      encodeAll ic ++ (encodeAll it ++ (encodeAll ie).dropLast) := by
  rw [encodeAll_append, encodeAll_append, dropLast_append_of_ne_nil (encodeAll_ne_nil hne),
    List.append_assoc]

theorem BothRun.not_oneRuns {p : Nat} {it ie : List Instr} (h : BothRun P f rest p it ie vm vm')
    (first : Bool) : ¬ OneRuns P f rest p it ie first vm vm' := by
  intro hone
  cases first with
  | true => exact hone.2 h.2
  | false => exact hone.2 h.1

end VM

/-! ### The code of `c ? a : b` -/

section

variable {P : Platform} {E : Env} {Γ : List Slot} {c t e : Expr} {ic it ie : List Instr}
  {f : ObjectFunction} {rest : List CallFrame} {pre post : List UInt8} {vm vm' : VM}

/-- A run of the condition and what follows it passes through the end of the condition. -/
theorem passes_condition (hc : ExprCode E Γ c ic) (he : ie ≠ [])
    (hf : f.code = pre ++ ((encodeAll (ic ++ it ++ ie)).dropLast ++ post))
    (hstart : AtOffset f rest pre.length vm) (h : StepsAbove P rest vm vm')
    (hend : AtOffset f rest (pre.length + codeSize (ic ++ it ++ ie)) vm') :
    Passes P f rest (pre.length + codeSize ic) vm vm' := by
  rw [codeSize_append, codeSize_append] at hend
  have hcode : f.code =
      pre ++ (encodeAll ic ++ (encodeAll it ++ ((encodeAll ie).dropLast ++ post))) := by
    rw [hf, dropLast_conditional he]
    simp only [List.append_assoc]
  exact passes_exprCode hc hcode hstart h (by omega) hend

/-- A run of the branches runs both. -/
theorem bothRun (ht : ExprCode E Γ t it) (he : ie ≠ [])
    (hf : f.code = pre ++ ((encodeAll (ic ++ it ++ ie)).dropLast ++ post))
    (hstart : AtOffset f rest (pre.length + codeSize ic) vm) (h : StepsAbove P rest vm vm')
    (hend : AtOffset f rest (pre.length + codeSize (ic ++ it ++ ie)) vm') :
    BothRun P f rest (pre.length + codeSize ic) it ie vm vm' := by
  rw [codeSize_append, codeSize_append, ← Nat.add_assoc, ← Nat.add_assoc] at hend
  have hlength : (pre ++ encodeAll ic).length = pre.length + codeSize ic := by
    rw [List.length_append, length_encodeAll]
  have hcode : f.code =
      (pre ++ encodeAll ic) ++ (encodeAll it ++ ((encodeAll ie).dropLast ++ post)) := by
    rw [hf, dropLast_conditional he]
    simp only [List.append_assoc]
  rw [← hlength] at hstart hend ⊢
  obtain ⟨mid, hfirst, hmid, hlast⟩ :=
    passes_exprCode ht hcode hstart h (Nat.le_add_right _ _) hend
  exact ⟨⟨vm, .refl, hstart, mid, hfirst, hmid, hlast⟩,
    mid, hfirst, hmid, vm', hlast, hend, .refl⟩

/-- A run of the condition and the branches runs both branches, and so selects none. -/
theorem conditional_run (hc : ExprCode E Γ c ic) (ht : ExprCode E Γ t it) (he : ie ≠ [])
    (hf : f.code = pre ++ ((encodeAll (ic ++ it ++ ie)).dropLast ++ post))
    (hstart : AtOffset f rest pre.length vm) (h : StepsAbove P rest vm vm')
    (hend : AtOffset f rest (pre.length + codeSize (ic ++ it ++ ie)) vm') :
    (∃ mid, StepsAbove P rest vm mid ∧ AtOffset f rest (pre.length + codeSize ic) mid ∧
      BothRun P f rest (pre.length + codeSize ic) it ie mid vm') ∧
    ¬ Selects P f rest pre.length ic it ie vm vm' := by
  constructor
  · obtain ⟨mid, hfirst, hmid, hlast⟩ := passes_condition hc he hf hstart h hend
    exact ⟨mid, hfirst, hmid, bothRun ht he hf hmid hlast hend⟩
  · rintro ⟨mid, -, hmid, hlast, -, hone⟩
    exact (bothRun ht he hf hmid hlast hend).not_oneRuns _ hone

end

/-! ### A program -/

/-- An instruction that pushes a value, as part of a run above some frames. -/
theorem VM.stepsAbove_push {P : Platform} {vm : VM} {op : OpCode} {v : Value} {bytes : List UInt8}
    (hop : execute P op = push P v) (hne : op ≠ .return)
    (h : vm.Ahead (encodeAll [.op op] ++ bytes)) (hroom : vm.stackTop < P.capacity) :
    StepsAbove P [] vm (vm.pushed v) ∧ (vm.pushed v).Ahead bytes := by
  refine ⟨.single ⟨step_push hop hne h hroom, ?_⟩,
    (@pushes_push P _ _ _ _ ⟨0, []⟩ hop hne h hroom).toFinishes.ahead h⟩
  obtain ⟨frame, frames, hframes, -⟩ := h
  change 0 < (advanceFrames 1 vm.frames).length
  rw [hframes]
  exact Nat.succ_pos _

/-- The program `true?1:0;`. -/
def conditionalOperatorLine : Bytes := ascii ['t', 'r', 'u', 'e', '?', '1', ':', '0', ';']

/-- The conditional of the program, and its code. -/
def conditionalOperator : Expr := .conditional (.boolean true) (.integer 1) (.integer 0)

def conditionalOperatorCode : List Instr := [.op .true] ++ [.op .one] ++ [.op .zero]

theorem conditionalOperator_code (E : Env) (Γ : List Slot) :
    ExprCode E Γ conditionalOperator conditionalOperatorCode :=
  ⟨[.op .true], [.op .one], [.op .zero], rfl, rfl, rfl, rfl⟩

/-- A run of the conditional of the program, from its start to its end. -/
theorem conditionalOperator_run : ∃ (vm vm' : VM) (f : ObjectFunction) (post : List UInt8),
    Started barePlatform noReals ⟨VM.initial, 0⟩ conditionalOperatorLine vm ∧
    f.code = [] ++ ((encodeAll conditionalOperatorCode).dropLast ++ post) ∧ AtOffset f [] 0 vm ∧
    StepsAbove barePlatform [] vm vm' ∧ AtOffset f [] 3 vm' := by
  have hrun : ((startLine barePlatform noReals 40 ⟨VM.initial, 0⟩ conditionalOperatorLine).any
      fun vm => vm.standsAt (encodeAll conditionalOperatorCode) && decide (vm.stackTop = 1) &&
        decide (vm.frames.map CallFrame.ip = [0])) = true := by
    decide +kernel
  obtain ⟨vm, hstart, hrun⟩ := (Option.any_eq_true _ _).mp hrun
  obtain ⟨hrun, hips⟩ := Bool.and_eq_true_iff.mp hrun
  obtain ⟨hstands, htop⟩ := Bool.and_eq_true_iff.mp hrun
  have htop := of_decide_eq_true htop
  obtain ⟨frame, hframes, hip⟩ := List.map_eq_singleton_iff.mp (of_decide_eq_true hips)
  have hahead := ahead_of_standsAt hstands
  obtain ⟨_, _, hframes', post, hcode⟩ := ahead_of_standsAt hstands
  obtain ⟨rfl, -⟩ := List.cons.inj (hframes.symm.trans hframes')
  rw [hip, List.drop_zero] at hcode
  have htop₁ : (vm.pushed (.boolean true)).stackTop = 2 := congrArg (· + 1) htop
  have htop₂ : ((vm.pushed (.boolean true)).pushed (.integer 1)).stackTop = 3 :=
    congrArg (· + 1) htop₁
  obtain ⟨h₁, hahead₁⟩ := @stepsAbove_push barePlatform vm .true (.boolean true)
    (encodeAll [.op .one, .op .zero]) rfl (by decide) hahead (by rw [htop]; decide)
  obtain ⟨h₂, hahead₂⟩ := @stepsAbove_push barePlatform _ .one (.integer 1)
    (encodeAll [.op .zero]) rfl (by decide) hahead₁ (by rw [htop₁]; decide)
  obtain ⟨h₃, -⟩ := @stepsAbove_push barePlatform _ .zero (.integer 0)
    [] rfl (by decide) hahead₂ (by rw [htop₂]; decide)
  refine ⟨vm, _, frame.function, OpCode.zero.toByte :: post, started_of_startLine hstart,
    hcode.symm, ⟨frame, hframes, rfl, hip⟩, (h₁.trans h₂).trans h₃,
    { frame with ip := frame.ip + 1 + 1 + 1 }, ?_, rfl, by rw [hip]⟩
  change advanceFrames 1 (advanceFrames 1 (advanceFrames 1 vm.frames)) = _
  rw [hframes]
  rfl

/-- **The conditional operator evaluates everything.**  The code of `c ? a : b` is that of the three
expressions, one after the other: every run from its start to its end evaluates the condition and
then both branches, and does not select one.  It holds of every function the code stands in and of
every machine; what is used of the code is that runs of an expression stay in it until its end
(`passes_exprCode`), calls included. -/
theorem conditional_runs_both {P : Platform} {E : Env} {Γ : List Slot} {c t e : Expr}
    {is : List Instr} (hcode : ExprCode E Γ (.conditional c t e) is) :
    ∃ ic it ie, ExprCode E Γ c ic ∧ ExprCode E Γ t it ∧ ExprCode E Γ e ie ∧
      ∀ (f : ObjectFunction) (rest : List CallFrame) (pre post : List UInt8) (vm vm' : VM),
        f.code = pre ++ ((encodeAll is).dropLast ++ post) → AtOffset f rest pre.length vm →
        StepsAbove P rest vm vm' → AtOffset f rest (pre.length + codeSize is) vm' →
        (∃ mid, StepsAbove P rest vm mid ∧ AtOffset f rest (pre.length + codeSize ic) mid ∧
          BothRun P f rest (pre.length + codeSize ic) it ie mid vm') ∧
        ¬ Selects P f rest pre.length ic it ie vm vm' := by
  obtain ⟨ic, it, ie, hc, ht, he, rfl⟩ := hcode
  exact ⟨ic, it, ie, hc, ht, he, fun f rest pre post vm vm' hf hstart h hend =>
    conditional_run hc ht (exprCode_ne_nil e he) hf hstart h hend⟩

/-- A run of `true?1:0` evaluates 1 and 0. -/
theorem conditional_runs_both_true : ∃ (vm vm' mid : VM) (f : ObjectFunction) (it ie : List Instr),
    Started barePlatform noReals ⟨VM.initial, 0⟩ conditionalOperatorLine vm ∧
    StepsAbove barePlatform [] vm mid ∧ ExprCode bareEnv [] (.integer 1) it ∧
    ExprCode bareEnv [] (.integer 0) ie ∧ ∃ p, BothRun barePlatform f [] p it ie mid vm' := by
  obtain ⟨vm, vm', f, post, hstart, hcode, hat, hsteps, hend⟩ := conditionalOperator_run
  obtain ⟨ic, it, ie, -, ht, he, hrun⟩ :=
    @conditional_runs_both barePlatform _ _ _ _ _ _ (conditionalOperator_code bareEnv [])
  obtain ⟨⟨mid, hfirst, -, hboth⟩, -⟩ := hrun f [] [] post vm vm' hcode hat hsteps hend
  exact ⟨vm, vm', mid, f, it, ie, hstart, hfirst, ht, he, _, hboth⟩

/-- The value of `true` does not select one branch. -/
theorem conditional_selects_none : ¬ ∀ (P : Platform) (parseReal : ParseReal) (line : Bytes)
    (vm₀ vm vm' : VM) (E : Env) (Γ : List Slot) (c t e : Expr) (ic it ie : List Instr)
    (f : ObjectFunction) (rest : List CallFrame) (pre post : List UInt8),
    Started P parseReal ⟨VM.initial, 0⟩ line vm₀ → Steps P vm₀ vm → ExprCode E Γ c ic →
    ExprCode E Γ t it → ExprCode E Γ e ie → ExprCode E Γ (.conditional c t e) (ic ++ it ++ ie) →
    f.code = pre ++ ((encodeAll (ic ++ it ++ ie)).dropLast ++ post) →
    AtOffset f rest pre.length vm → StepsAbove P rest vm vm' →
    AtOffset f rest (pre.length + codeSize (ic ++ it ++ ie)) vm' →
    Selects P f rest pre.length ic it ie vm vm' := by
  intro hall
  obtain ⟨vm, vm', f, post, hstart, hcode, hat, hsteps, hend⟩ := conditionalOperator_run
  have hone : ExprCode bareEnv [] (.integer 1) [.op .one] := rfl
  obtain ⟨mid, -, hmid, hlast, -, hselects⟩ := hall barePlatform noReals conditionalOperatorLine
    vm vm vm' bareEnv [] (.boolean true) (.integer 1) (.integer 0) [.op .true] [.op .one]
    [.op .zero] f [] [] post hstart .refl rfl hone rfl (conditionalOperator_code bareEnv [])
    hcode hat hsteps hend
  exact (bothRun hone (List.cons_ne_nil _ _) hcode hmid hlast hend).not_oneRuns _ hselects

end CppLox
