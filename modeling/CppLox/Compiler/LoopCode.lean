import CppLox.Compiler.VariableCode

/-!
# Compiler — the code of loops

A loop is compiled in a scope of its own, with `loop_depth`, `loop_scope_depth` and
`loop_start_offset` set for its body and restored after it (`loop_spec`).  `continue` pops the
locals inside the loop and jumps to where the body jumps back to.
-/

namespace CppLox

open CompilerM

set_option synthInstance.maxSize 10000

/-- The code that was appended is changed. -/
theorem Keeps.recode {s₀ s s' : CompilerState} {is is' : List Instr} (h : Keeps s₀ s is)
    (hs' : s' = { s with current := { s.current with function := { s.current.function with
      code := s₀.current.function.code ++ encodeAll is' } } })
    (hsizes : is'.map Instr.size = is.map Instr.size)
    (hfits : StateOk s₀ → ∀ i ∈ is', i.Fits s.current.function.constants) : Keeps s₀ s' is' := by
  have hlen : (s₀.current.function.code ++ encodeAll is').length =
      s.current.function.code.length := by
    rw [List.length_append, length_encodeAll, h.laid.length, codeSize, codeSize, hsizes]
  have hlaid := h.laid.recode hs' hlen hsizes hfits
  rw [hs'] at hlaid ⊢
  obtain ⟨⟨⟨names, enclosing, upvalues, constants, type⟩, -⟩, -, locals, ok⟩ := h
  refine ⟨⟨⟨names, enclosing, upvalues, constants, type⟩, rfl⟩, hlaid, locals, fun hs₀ => ?_⟩
  obtain ⟨h₁, h₂, h₃, h₄, h₅⟩ := ChainOk.compilerOk (ok hs₀)
  exact ChainOk.of_upvalues_eq (ok hs₀) ⟨h₁, h₂, h₃, h₄, h₅⟩ rfl

/-- The jump out of a loop that has a condition. -/
def exitCode (exits : Bool) (n : Nat) : List Instr :=
  if exits then [.short .popJumpIfFalse n] else []

theorem codeSize_exitCode (exits : Bool) (n : Nat) :
    codeSize (exitCode exits n) = codeSize (exitCode exits 0) := by
  cases exits <;> rfl

namespace Compiler

variable {r : Routines} {q : SyntaxRoutines} {s s' : CompilerState}

/-! ### Loops -/

/-- The frame of a compiler with another `loop_start_offset`. -/
def withLoopStart (c : FunctionState) (loopBegin : Nat) : FunctionState :=
  { c with loopStartOffset := loopBegin }

/-- The body of a loop with the jump back to its beginning. -/
theorem loopBody_spec (hs : StmtSpec r.statement q.statement) [MonoRoutines r]
    {outer : FunctionState} {loopBegin : Nat} {exitJump : Option Nat}
    (h : Accepts (loopBody r outer loopBegin exitJump) s () s') (hdepth : DepthOk s.current)
    (hle : loopBegin ≤ s.current.function.code.length) :
    ∃ b ib s₃ s₄, q.statement s.parser.tokens = some (b, s₃.parser.tokens) ∧
      JumpFits (s.current.function.code.length + codeSize ib + 3 - loopBegin) ∧
      Keeps s s₃ (ib ++ [.short .jumpBackward
        (s.current.function.code.length + codeSize ib + 3 - loopBegin)]) ∧
      s₃.current.frame = (withLoopStart s.current loopBegin).frame ∧
      (∀ E l Γ, StateOk s → Approximates E s₃ → SlotsApprox Γ s₃.current.locals →
        InLoop l (withLoopStart s.current loopBegin) →
        StmtCode b (placeOf E (some l) s) Γ ib Γ) ∧
      Accepts (patchExit exitJump) s₃ () s₄ ∧
      s' = { s₄ with current := { s₄.current with
        loopScopeDepth := outer.loopScopeDepth, loopStartOffset := outer.loopStartOffset } } := by
  obtain ⟨_, s₁, h₁, h'⟩ := h.bind
  obtain ⟨_, s₂, h₂, h'⟩ := h'.bind
  obtain ⟨_, s₃, h₃, h'⟩ := h'.bind
  obtain ⟨_, s₄, h₄, h₅⟩ := h'.bind
  have hs₁ : s₁ = { s with current := withLoopStart s.current loopBegin } := h₁.modifyCurrent
  have hreframe : Reframes s s₁ := ⟨_, _, _, _, _, hs₁⟩
  obtain ⟨b, ib, htok, hrun⟩ := hs _ _ h₂ (by rw [hs₁]; exact hdepth)
  obtain ⟨hfits, hw⟩ := h₃.emitJumpBack
  have hlen : s₂.current.function.code.length = s.current.function.code.length + codeSize ib := by
    rw [hrun.emits.length_code, length_encodeAll, hs₁]
    rfl
  have hoffset : ((s₂.current.function.code.length : Int) + 3 - (loopBegin : Int)).toNat =
      s.current.function.code.length + codeSize ib + 3 - loopBegin := by
    rw [hlen]
    omega
  rw [hoffset] at hw
  have hkeeps := (hreframe.keeps.trans (hrun.emits.keeps hrun.laid hrun.length)).trans
    (Writes.codeRun hw (by simp [OpCode.operands])).keeps
  rw [List.nil_append] at hkeeps
  refine ⟨b, ib, s₃, s₄, ?_, ?_, hkeeps, ?_, fun E l Γ hok hE hΓ hin => ?_, h₄, h₅.modifyCurrent⟩
  · rw [hreframe.parser] at htok
    rw [htok, hw.parser]
  · unfold JumpFits
    rw [hlen] at hfits
    omega
  · rw [hw.emits.frame, hrun.emits.frame, hs₁]
  · have hcode := hrun.code E (some l) Γ ⟨hreframe.keeps.ok hok, hE.of_extends hw.emits.toExtends, ?_, ?_⟩
    · rw [hs₁] at hcode
      exact hcode
    · rw [← hw.locals]
      exact hΓ
    · intro _
      refine ⟨l, rfl, ?_⟩
      rw [hs₁]
      exact hin

/-- The jump out of the loop is patched after the body. -/
theorem patchExit_spec {s₀ : CompilerState} {pre mid : List Instr} {exits : Bool}
    {exitJump : Option Nat} (hkeeps : Keeps s₀ s (pre ++ exitCode exits 0 ++ mid))
    (hexit : exitJump =
      if exits then some (s₀.current.function.code.length + codeSize pre + 1) else none)
    (h : Accepts (patchExit exitJump) s () s') :
    (exits = true → JumpFits (codeSize mid)) ∧ s'.parser = s.parser ∧
      s'.current.frame = s.current.frame ∧ s'.current.locals = s.current.locals ∧ Extends s s' ∧
      Keeps s₀ s' (pre ++ exitCode exits (codeSize mid) ++ mid) := by
  cases exits with
  | false =>
      rw [hexit] at h
      obtain ⟨-, hs'⟩ := Accepts.pure h
      rw [hs']
      exact ⟨nofun, rfl, rfl, rfl, Extends.refl s, hkeeps⟩
  | true =>
      rw [hexit] at h
      have hgrown := hkeeps.toGrown
      rw [encodeAll_append, encodeAll_append] at hgrown
      obtain ⟨hfits, hs'⟩ := hgrown.patch h (by rw [length_encodeAll])
      rw [length_encodeAll] at hfits hs'
      refine ⟨fun _ => hfits, by rw [hs'], by rw [hs']; rfl, by rw [hs'], ?_, hkeeps.recode ?_
        (by simp [exitCode, Instr.size]) fun hok => Instr.fits_patch (hkeeps.laid.fits hok)⟩
      · rw [hs']
        exact ⟨List.prefix_refl _, ChainGrows.refl _, List.prefix_refl _, List.prefix_refl _, rfl⟩
      · rw [hs', encodeAll_append, encodeAll_append]
        rfl

/-- A loop after its initializer: the head, the body with the jump back, and the exit. -/
theorem loop_spec (hs : StmtSpec r.statement q.statement) [MonoRoutines r] {s₂ s₄ : CompilerState}
    {outer : FunctionState} {loopBegin : Nat} {exitJump : Option Nat} (pre mid : List Instr)
    (exits : Bool) (code : Env → List Slot → Prop)
    (hhead : Keeps s₂ s₄ (pre ++ exitCode exits 0 ++ mid))
    (hcode : ∀ E Γ, StateOk s₂ → Approximates E s₄ → ViewOf Γ s₂.current.locals → code E Γ)
    (hframe : s₄.current.frame =
      ({ s₂.current with loopScopeDepth := s₂.current.scopeDepth } : FunctionState).frame)
    (houter : outer.frame = s₂.current.frame) (hdepth : DepthOk s₂.current)
    (hle : loopBegin ≤ s₄.current.function.code.length)
    (hexit : exitJump =
      if exits then some (s₂.current.function.code.length + codeSize pre + 1) else none)
    (h : Accepts (loopBody r outer loopBegin exitJump) s₄ () s') :
    ∃ b ib, q.statement s₄.parser.tokens = some (b, s'.parser.tokens) ∧
      JumpFits (s₄.current.function.code.length + codeSize ib + 3 - loopBegin) ∧
      (exits = true → JumpFits (codeSize mid + codeSize ib + 3)) ∧
      Keeps s₂ s' (pre ++ exitCode exits (codeSize mid + codeSize ib + 3) ++ mid ++ ib ++
        [.short .jumpBackward (s₄.current.function.code.length + codeSize ib + 3 - loopBegin)]) ∧
      s'.current.frame = s₂.current.frame ∧
      ∀ E Γ, StateOk s₂ → Approximates E s' → SlotsApprox Γ s'.current.locals →
        code E Γ ∧ StmtCode b (placeOf E (some ⟨loopBegin, Γ.length⟩) s₄) Γ ib Γ := by
  simp only [FunctionState.frame, Prod.mk.injEq] at hframe houter
  obtain ⟨hscope, hloop, hloopScope, -, htype, hclass, hname, harity⟩ := hframe
  obtain ⟨-, -, houterScope, houterStart, -⟩ := houter
  -- the statement is compiled with the loop depth set to the scope depth
  have hdepth' : DepthOk s₄.current := by
    intro l hl
    rw [hscope]
    exact forall_depth_of_signature (P := (· ≤ s₂.current.scopeDepth)) hhead.locals.signature
      hdepth l hl
  obtain ⟨b, ib, s₅, s₆, htok, hfits, hkeeps, hframe₅, hbody, hpatch, hs'⟩ :=
    loopBody_spec hs h hdepth' hle
  have hall := hhead.trans hkeeps
  rw [List.append_assoc] at hall
  obtain ⟨hfits', hparser, hframe₆, hlocals, hext, hdone⟩ := patchExit_spec hall hexit hpatch
  have hsize : codeSize (mid ++ (ib ++ [.short .jumpBackward
      (s₄.current.function.code.length + codeSize ib + 3 - loopBegin)])) =
      codeSize mid + codeSize ib + 3 := by
    simp [Instr.size]
    omega
  rw [hsize] at hfits' hdone
  have hreframe : Reframes s₆ s' := ⟨_, _, _, _, _, hs'⟩
  have hrest := hdone.trans hreframe.keeps
  rw [List.append_nil, ← List.append_assoc, ← List.append_assoc] at hrest
  simp only [FunctionState.frame, withLoopStart, Prod.mk.injEq] at hframe₅ hframe₆
  refine ⟨b, ib, ?_, hfits, hfits', hrest, ?_,
    fun E Γ hok hE hΓ => ⟨?_, ?_⟩⟩
  · rw [htok, hreframe.parser, hparser]
  · rw [hs']
    simp only [FunctionState.frame, Prod.mk.injEq]
    simp only [hframe₆, hframe₅, hscope, hloop, htype, hclass, hname, harity, houterScope,
      houterStart, and_self]
  · refine hcode E Γ hok (hE.of_extends ?_) (hΓ.of_stay hrest.locals).view
    exact (hkeeps.toExtends.trans hext).trans hreframe.keeps.toExtends
  · refine hbody E _ Γ (hhead.ok hok) (hE.of_extends (hext.trans hreframe.keeps.toExtends)) ?_ ?_
    · rw [hs'] at hΓ
      exact hlocals ▸ hΓ
    · have hlen : Γ.length = s₄.current.locals.length := by
        rw [hΓ.length_eq, hrest.locals.length_eq, hhead.locals.length_eq]
      refine ⟨rfl, hle, hlen.le, fun x hx => ?_, fun x hx => ?_, ?_⟩
      · have := hdepth' x (List.mem_of_mem_take hx)
        change (x.depth : Int) ≤ s₄.current.loopScopeDepth
        rw [hloopScope, ← hscope]
        exact_mod_cast this
      · rw [hlen] at hx
        change x ∈ s₄.current.locals.drop _ at hx
        rw [List.drop_length] at hx
        cases hx
      · change s₄.current.loopScopeDepth ≤ s₄.current.scopeDepth
        rw [hloopScope, hscope]

theorem whileStatement_spec (hq : ExprRoutines r q) (hs : StmtSpec r.statement q.statement)
    [MonoRoutines r] : StmtSpec (whileStatement r) (Syntax.whileStatement q) := by
  intro s s' h hdepth
  obtain ⟨_, s₁, h₁, h'⟩ := h.bind
  obtain ⟨_, s₂, h₂, h'⟩ := h'.bind
  obtain ⟨c, ic, s₃, htok, hrun, h'⟩ := condition_spec hq h'.bind_codeLength
  obtain ⟨_, s₄, h₄, h'⟩ := h'.bind_get.bind
  obtain ⟨exitJump, s₅, h₅, h'⟩ := h'.bind
  obtain ⟨_, s₆, h₆, h'⟩ := h'.bind
  obtain ⟨_, s₇, h₇, h₈⟩ := h'.bind
  have hs₁ := h₁.modifyCurrent
  have hs₂ := h₂.modifyCurrent
  have hs₄ := h₄.modifyCurrent
  have hs₇ := h₇.modifyCurrent
  obtain ⟨hjump, hw⟩ := h₅.emitJump
  rw [hs₁] at hs₂
  dsimp only at hs₂
  have hbegin : Reframes s s₂ := ⟨_, _, _, _, _, hs₂⟩
  have hinner : Reframes s₃ s₄ := ⟨_, _, _, _, _, hs₄⟩
  have hhead := (hrun.keeps.trans hinner.keeps).trans
    (Writes.codeRun hw (by simp [OpCode.operands])).keeps
  rw [List.append_nil] at hhead
  have hlen₃ := hrun.emits.length_code
  have hlen₅ := hw.emits.length_code
  have hcode₄ : s₄.current.function = s₃.current.function := by rw [hs₄]
  rw [length_encodeAll] at hlen₃ hlen₅
  rw [hcode₄] at hlen₅ hjump
  obtain ⟨b, ib, htok', hfits, hfits', hloop, hframe₆, hcode⟩ := loop_spec hs ic []
    true (fun E Γ => ExprCode E Γ c ic) (by simpa [exitCode] using hhead)
    (fun E Γ hok hE hΓ => hrun.code E Γ hok
      ((hE.of_extends hw.emits.toExtends).of_extends hinner.keeps.toExtends) hΓ)
    (by
      rw [hw.emits.frame, hs₄]
      have hframe := hrun.emits.frame
      simp only [FunctionState.frame, Prod.mk.injEq] at hframe ⊢
      simp [hframe])
    hrun.emits.frame
    (fun l hl => by
      rw [hs₂] at hl ⊢
      exact (hdepth l hl).trans (Nat.le_succ _))
    (by omega) (by rw [hjump, hlen₃]; rfl) h₆
  have hend : Reframes s₆ s₇ := ⟨_, _, _, _, _, hs₇⟩
  have hall := (hbegin.keeps.trans hloop).trans hend.keeps
  rw [List.nil_append, List.append_nil] at hall
  have hscope₇ : s₇.current.scopeDepth = s.current.scopeDepth + 1 := by
    rw [hs₇]
    exact (hloop.emits hframe₆).scopeDepth.trans (by rw [hs₂])
  obtain ⟨hparser, hkeeps, hframe, hlocals', hext⟩ :=
    endScope_keeps hall.toGrown hall.laid (hall.locals.extend _) hall.ok hscope₇ hdepth h₈
  have hlen := hall.locals.length_eq
  -- the scope of the statement declares no local, so its end pops nothing
  have hdrop : scopeEnd (slotsOf (s₇.current.locals.drop s.current.locals.length)) = [] := by
    rw [← hlen, List.drop_length]
    rfl
  rw [hdrop, List.append_nil] at hkeeps
  have hstart : s₂.current.function.code.length = s.current.function.code.length := by rw [hs₂]
  have hback : s₅.current.function.code.length + codeSize ib + 3 -
      s₂.current.function.code.length = codeSize ic + 3 + codeSize ib + 3 := by
    rw [hlen₅, hlen₃]
    simp [Instr.size]
    omega
  rw [hback] at hkeeps hfits
  refine ⟨.while c b, _, ?_, hkeeps.emits ?_, hkeeps.laid, hkeeps.locals.length_eq, fun E loop Γ hc => ?_⟩
  · unfold Syntax.whileStatement
    rw [hbegin.parser] at htok
    rw [hw.parser, hinner.parser] at htok'
    rw [SyntaxM.bind_eq htok, SyntaxM.bind_eq htok', hparser, hend.parser]
    rfl
  · rw [hframe, hs₇]
    rw [hs₂] at hframe₆
    simp only [FunctionState.frame, Prod.mk.injEq] at hframe₆ ⊢
    simp [hframe₆]
  · have hslots := hc.slots
    rw [hlocals', ← hlen, List.take_length, hs₇] at hslots
    obtain ⟨hic, hib⟩ := hcode E Γ (hbegin.keeps.ok hc.ok)
      ((hc.env.of_extends hext).of_extends hend.keeps.toExtends) hslots
    refine ⟨ic, ib, hic, ?_, ?_, hfits, ?_, rfl⟩
    · have hplace : placeOf E (some ⟨s₂.current.function.code.length, Γ.length⟩) s₅ =
          ((placeOf E loop s).nested.inLoop (placeOf E loop s).pos Γ.length).after
            (codeSize ic + 3) := by
        have hscope₅ : s₅.current.scopeDepth = s.current.scopeDepth + 1 := by
          rw [hw.emits.scopeDepth, hs₄]
          exact hrun.emits.scopeDepth.trans (by rw [hs₂])
        simp only [placeOf, Place.nested, Place.inLoop, Place.after, hlen₅, hlen₃, hstart, hscope₅]
        simp [Instr.size, Nat.add_assoc]
      exact hplace ▸ hib
    · simpa using hfits' rfl
    · simp [exitCode]

/-! ### `for` -/

theorem forInitializer_spec (hq : ExprRoutines r q) [MonoRoutines r] :
    InitSpec (forInitializer r) (Syntax.forInitializer q) := by
  intro s s' h
  obtain ⟨semi, s₁, h₁, h'⟩ := h.bind
  obtain ⟨hsemi, p, hp⟩ := h₁.matchToken
  unfold Syntax.forInitializer
  rw [SyntaxM.bind_eq hsemi]
  cases semi with
  | true =>
      obtain ⟨-, rfl⟩ := Accepts.pure h'
      have hrun := CodeRun.of_parser_eq hp
      refine ⟨.empty, [], rfl, hrun.emits, hrun.laid, fun E loop Γ _ _ hΓ => ?_⟩
      have hlen : Γ.length = s.current.locals.length := by rw [hΓ.length_eq, hp]
      exact ⟨rfl, by rw [← hlen, List.take_length]⟩
  | false =>
      refine InitSpec.of_parser_eq hp ?_
      obtain ⟨var, s₂, h₂, h'⟩ := Accepts.bind h'
      obtain ⟨hvar, p₂, hp₂⟩ := h₂.matchToken
      rw [if_neg (by simp), SyntaxM.bind_eq hvar]
      refine InitSpec.of_parser_eq hp₂ ?_
      cases var with
      | true => exact varDeclaration_spec hq _ _ h'
      | false =>
          obtain ⟨const, s₃, h₃, h'⟩ := Accepts.bind h'
          obtain ⟨hconst, p₃, hp₃⟩ := h₃.matchToken
          rw [if_neg (by simp), SyntaxM.bind_eq hconst]
          refine InitSpec.of_parser_eq hp₃ ?_
          cases const with
          | true => exact constDeclaration_spec hq _ _ h'
          | false =>
              obtain ⟨stmt, is, htok, hrun⟩ := codeRun_expressionStatement hq h'
              refine ⟨stmt, is, htok, hrun.emits, hrun.laid, fun E loop Γ hok hE hΓ => ?_⟩
              have hlen : Γ.length = s₃.current.locals.length := by rw [hΓ.length_eq, hrun.locals]
              rw [← hlen, List.take_length]
              exact hrun.initRun.code E loop Γ hok hE hΓ loop

/-- The condition of a `for` before the jump out of the loop. -/
def ConditionCode (E : Env) (Γ : List Slot) : Option Expr → List Instr → Prop
  | none, pre => pre = []
  | some e, pre => ExprCode E Γ e pre

/-- The condition of a `for`, with the jump out of the loop not yet patched. -/
theorem forCondition_spec (hq : ExprRoutines r q) [MonoRoutines r] {exitJump : Option Nat}
    (h : Accepts (forCondition r) s exitJump s') :
    ∃ c pre, Syntax.forCondition q s.parser.tokens = some (c, s'.parser.tokens) ∧
      exitJump = (if c.isSome then some (s.current.function.code.length + codeSize pre + 1)
        else none) ∧
      CodeRun s s' (pre ++ exitCode c.isSome 0) fun E Γ => ConditionCode E Γ c pre := by
  obtain ⟨semi, s₁, h₁, h'⟩ := h.bind
  obtain ⟨hsemi, p, hp⟩ := h₁.matchToken
  unfold Syntax.forCondition
  rw [SyntaxM.bind_eq hsemi]
  cases semi with
  | true =>
      obtain ⟨rfl, rfl⟩ := Accepts.pure h'
      exact ⟨none, [], rfl, rfl, (CodeRun.of_parser_eq hp).imp fun _ _ _ => rfl⟩
  | false =>
      obtain ⟨_, s₂, h₂, h'⟩ := Accepts.bind h'
      obtain ⟨_, s₃, h₃, h'⟩ := Accepts.bind h'
      obtain ⟨exit, s₄, h₄, h'⟩ := Accepts.bind h'
      obtain ⟨rfl, rfl⟩ := h'.pure
      obtain ⟨e, is, htok, -, hrun⟩ := hq.parsePrecedence _ _ _ h₂
      obtain ⟨hsemi', p', hp'⟩ := h₃.consume
      obtain ⟨hexit, hw⟩ := h₄.emitJump
      have hcond := ((CodeRun.of_parser_eq hp).trans hrun).move hp'
      refine ⟨some e, is, ?_, ?_, (hcond.write hw (by simp [OpCode.operands])).imp fun _ _ => And.right⟩
      · rw [if_neg (by simp)]
        change (q.parsePrecedence _ >>= _) _ = _
        rw [SyntaxM.bind_eq htok, SyntaxM.bind_eq hsemi', hw.parser]
        rfl
      · rw [hexit, hcond.emits.length_code, length_encodeAll]
        simp

/-- The increment of a `for` that starts `n` bytes after the beginning of the loop. -/
def IncrementCode (E : Env) (Γ : List Slot) (n : Nat) : Option Expr → List Instr → Prop
  | none, ii => ii = []
  | some e, ii => ∃ is, ExprCode E Γ e is ∧ JumpFits (codeSize is + 4) ∧
      JumpFits (n + 3 + codeSize is + 4) ∧
      ii = [.short .jumpForward (codeSize is + 4)] ++ is ++
        [.op .popTop, .short .jumpBackward (n + 3 + codeSize is + 4)]

/-- Where the body of a `for` jumps back to, `n` bytes being before the increment. -/
def forStart (n : Nat) : Option Expr → Nat
  | none => 0
  | some _ => n + 3

theorem forIncrement_spec (hq : ExprRoutines r q) [MonoRoutines r] {loopBegin start : Nat}
    (h : Accepts (forIncrement r loopBegin) s start s')
    (hle : loopBegin ≤ s.current.function.code.length) :
    ∃ i ii, Syntax.forIncrement q s.parser.tokens = some (i, s'.parser.tokens) ∧
      start = loopBegin + forStart (s.current.function.code.length - loopBegin) i ∧
      start ≤ s'.current.function.code.length ∧
      CodeRun s s' ii fun E Γ =>
        IncrementCode E Γ (s.current.function.code.length - loopBegin) i ii := by
  obtain ⟨paren, s₁, h₁, h'⟩ := h.bind
  obtain ⟨hparen, p, hp⟩ := h₁.matchToken
  unfold Syntax.forIncrement
  rw [SyntaxM.bind_eq hparen]
  cases paren with
  -- no increment: the body jumps back to the condition
  | true =>
      obtain ⟨rfl, rfl⟩ := Accepts.pure h'
      refine ⟨none, [], rfl, rfl, by rw [hp]; exact hle, ?_⟩
      exact (CodeRun.of_parser_eq hp).imp fun _ _ _ => rfl
  | false =>
      obtain ⟨bodyJump, s₂, h₂, h'⟩ := Accepts.bind h'
      obtain ⟨_, s₃, h₃, h'⟩ := h'.bind_codeLength.bind
      obtain ⟨_, s₄, h₄, h'⟩ := h'.bind
      obtain ⟨_, s₅, h₅, h'⟩ := h'.bind
      obtain ⟨_, s₆, h₆, h'⟩ := h'.bind
      obtain ⟨_, s₇, h₇, h'⟩ := h'.bind
      obtain ⟨rfl, rfl⟩ := h'.pure
      obtain ⟨hjump, hw₂⟩ := h₂.emitJump
      obtain ⟨e, is, htok, -, hrun⟩ := hq.parsePrecedence _ _ _ h₃
      have hw₄ := h₄.emitOpcode
      obtain ⟨hparen', p', hp'⟩ := h₅.consume
      obtain ⟨hfits, hw₆⟩ := h₆.emitJumpBack
      have hlen₁ : s₁.current.function.code.length = s.current.function.code.length := by rw [hp]
      have hlen₂ := hw₂.emits.length_code
      have hlen₃ := hrun.emits.length_code
      have hlen₄ := hw₄.emits.length_code
      have hlen₅ : s₅.current.function.code.length = s₄.current.function.code.length := by rw [hp']
      simp only [length_encodeAll, codeSize_cons, codeSize_nil, Instr.size, List.length_singleton]
        at hlen₂ hlen₃ hlen₄
      have hback : ((s₅.current.function.code.length : Int) + 3 - (loopBegin : Int)).toNat =
          s.current.function.code.length - loopBegin + 3 + codeSize is + 4 := by omega
      rw [hback] at hw₆
      have hall := ((((((CodeRun.of_parser_eq hp).write hw₂ (by simp [OpCode.operands])).trans
        hrun).write (w := [.op .popTop]) hw₄ (by simp [OpCode.operands])).move hp').write hw₆
        (by simp [OpCode.operands]))
      -- the jump over the increment is patched once the jump back is written
      have hsplit : [] ++ [Instr.short .jumpForward 0] ++ is ++ [.op .popTop] ++
          [.short .jumpBackward (s.current.function.code.length - loopBegin + 3 + codeSize is + 4)] =
          [] ++ [Instr.short .jumpForward 0] ++ (is ++ [.op .popTop, .short .jumpBackward
            (s.current.function.code.length - loopBegin + 3 + codeSize is + 4)]) := by simp
      rw [hsplit] at hall
      obtain ⟨hparser, hfits', hdone⟩ := CodeRun.patch hall h₇ (by rw [hjump, hlen₁]; rfl)
      have hsize : codeSize (is ++ [.op .popTop, .short .jumpBackward
          (s.current.function.code.length - loopBegin + 3 + codeSize is + 4)]) =
          codeSize is + 4 := by simp [Instr.size]
      rw [hsize] at hfits' hdone
      have hlen₇ := hdone.emits.length_code
      simp only [length_encodeAll, codeSize_append, codeSize_cons, codeSize_nil, Instr.size] at hlen₇
      refine ⟨some e, _, ?_, ?_, ?_, hdone.imp fun E Γ he => ⟨is, he.2, hfits', ?_, ?_⟩⟩
      · rw [if_neg (by simp), ← hw₂.parser]
        change (q.parsePrecedence _ >>= _) _ = _
        rw [hw₄.parser] at hparen'
        rw [SyntaxM.bind_eq htok, SyntaxM.bind_eq hparen', hparser, hw₆.parser]
        rfl
      · dsimp only [forStart]
        omega
      · omega
      · unfold JumpFits
        omega
      · simp

/-- The condition and the increment of a `for` with the jump out of the loop patched. -/
theorem forHead_of_codes {E : Env} {Γ : List Slot} {c i : Option Expr} {pre mid : List Instr}
    (bodySize : Nat) (hc : ConditionCode E Γ c pre)
    (hi : IncrementCode E Γ (codeSize (pre ++ exitCode c.isSome 0)) i mid)
    (hfits : c.isSome = true → JumpFits (codeSize mid + bodySize)) :
    ForHead E Γ c i bodySize (pre ++ exitCode c.isSome (codeSize mid + bodySize) ++ mid)
      (forStart (codeSize (pre ++ exitCode c.isSome 0)) i) := by
  have hsize : codeSize (pre ++ exitCode c.isSome 0) =
      codeSize (pre ++ exitCode c.isSome (codeSize mid + bodySize)) := by
    rw [codeSize_append, codeSize_append, codeSize_exitCode c.isSome (codeSize mid + bodySize)]
  rw [hsize] at hi ⊢
  refine ⟨_, mid, ?_, ?_, rfl⟩
  · cases c with
    | none =>
        have hpre : pre = [] := hc
        rw [hpre]
        rfl
    | some e => exact ⟨pre, hc, hfits rfl, rfl⟩
  · cases i with
    | none => exact ⟨hi, rfl⟩
    | some e =>
        obtain ⟨is, he, hfits₁, hfits₂, hmid⟩ := hi
        exact ⟨is, he, hfits₁, hfits₂, hmid, rfl⟩

/-- The loop of a `for` behind its initializer: the head with the exit patched, the body and the
jump back, from the state `s₄` in which the initializer is compiled. -/
theorem forLoop_spec (hq : ExprRoutines r q) (hs : StmtSpec r.statement q.statement)
    [MonoRoutines r] {s₄ s₅ s₆ s₇ s₈ : CompilerState} {outer : FunctionState} {start : Nat}
    {exitJump : Option Nat} (hs₅ : s₅ = { s₄ with current :=
      { s₄.current with loopScopeDepth := s₄.current.scopeDepth } })
    (houter : outer.frame = s₄.current.frame) (hdepth : DepthOk s₄.current)
    (h₆ : Accepts (forCondition r) s₅ exitJump s₆)
    (h₇ : Accepts (forIncrement r s₅.current.function.code.length) s₆ start s₇)
    (h₈ : Accepts (loopBody r outer start exitJump) s₇ () s₈) :
    ∃ c i b head ib n, Syntax.forCondition q s₄.parser.tokens = some (c, s₆.parser.tokens) ∧
      Syntax.forIncrement q s₆.parser.tokens = some (i, s₇.parser.tokens) ∧
      q.statement s₇.parser.tokens = some (b, s₈.parser.tokens) ∧
      JumpFits (codeSize head + codeSize ib + 3 - n) ∧
      Keeps s₄ s₈ (head ++ ib ++ [.short .jumpBackward (codeSize head + codeSize ib + 3 - n)]) ∧
      s₈.current.frame = s₄.current.frame ∧
      ∀ E Γ, StateOk s₄ → Approximates E s₈ → SlotsApprox Γ s₈.current.locals →
        ForHead E Γ c i (codeSize ib + 3) head n ∧
        StmtCode b ((placeOf E (some ⟨s₄.current.function.code.length + n, Γ.length⟩) s₄).after
          (codeSize head)) Γ ib Γ := by
  obtain ⟨c, pre, htok₆, hexit, hcond⟩ := forCondition_spec hq h₆
  have hlen₆ := hcond.emits.length_code
  rw [length_encodeAll] at hlen₆
  obtain ⟨i, mid, htok₇, hstart, hstartLe, hincr⟩ := forIncrement_spec hq h₇ (by omega)
  have hoffset : s₆.current.function.code.length - s₅.current.function.code.length =
      codeSize (pre ++ exitCode c.isSome 0) := by omega
  rw [hoffset] at hstart hincr
  have hlen₇ := hincr.emits.length_code
  rw [length_encodeAll] at hlen₇
  have hinner : Reframes s₄ s₅ := ⟨_, _, _, _, _, hs₅⟩
  have hruns := hcond.trans hincr
  have hhead := hinner.keeps.trans hruns.keeps
  rw [List.nil_append] at hhead
  have hfunction : s₅.current.function = s₄.current.function := by rw [hs₅]
  obtain ⟨b, ib, htok₈, hfits, hfits', hloop, hframe, hcode⟩ := loop_spec hs pre mid
    c.isSome (fun E Γ => ConditionCode E Γ c pre ∧
      IncrementCode E Γ (codeSize (pre ++ exitCode c.isSome 0)) i mid) hhead
    (fun E Γ hok hE hΓ => hruns.code E Γ (hinner.keeps.ok hok) hE (by rw [hs₅]; exact hΓ))
    (by rw [hruns.emits.frame, hs₅]) houter hdepth hstartLe (by rw [hexit, hfunction]) h₈
  have hback : s₇.current.function.code.length + codeSize ib + 3 - start =
      codeSize (pre ++ exitCode c.isSome 0 ++ mid) + codeSize ib + 3 -
        forStart (codeSize (pre ++ exitCode c.isSome 0)) i := by
    rw [hstart, hlen₇, hlen₆, codeSize_append _ mid]
    omega
  -- the patched jump out of the loop has the size of the one that was emitted
  have hsize : codeSize (pre ++ exitCode c.isSome 0 ++ mid) =
      codeSize (pre ++ exitCode c.isSome (codeSize mid + codeSize ib + 3) ++ mid) := by
    simp only [codeSize_append, codeSize_exitCode c.isSome (codeSize mid + codeSize ib + 3)]
  rw [hback, hsize] at hloop hfits
  rw [hinner.parser] at htok₆
  refine ⟨c, i, b, _, ib, _, htok₆, htok₇, htok₈, hfits, hloop, hframe, fun E Γ hok hE hΓ => ?_⟩
  obtain ⟨hhead', hib⟩ := hcode E Γ hok hE hΓ
  refine ⟨forHead_of_codes (codeSize ib + 3) hhead'.1 hhead'.2 hfits', ?_⟩
  have hplace : (placeOf E (some ⟨s₄.current.function.code.length +
      forStart (codeSize (pre ++ exitCode c.isSome 0)) i, Γ.length⟩) s₄).after
      (codeSize (pre ++ exitCode c.isSome (codeSize mid + codeSize ib + 3) ++ mid)) =
      placeOf E (some ⟨start, Γ.length⟩) s₇ := by
    have hscope₇ : s₇.current.scopeDepth = s₄.current.scopeDepth := by
      rw [hruns.emits.scopeDepth, hs₅]
    rw [← hsize, codeSize_append _ mid]
    simp only [placeOf, Place.after, hstart, hlen₇, hlen₆, hfunction, hscope₇, Nat.add_assoc]
  exact hplace ▸ hib

theorem forStatement_spec (hq : ExprRoutines r q) (hs : StmtSpec r.statement q.statement)
    [MonoRoutines r] : StmtSpec (forStatement r) (Syntax.forStatement q) := by
  intro s s' h hdepth
  obtain ⟨_, s₁, h₁, h'⟩ := h.bind
  obtain ⟨_, s₂, h₂, h'⟩ := h'.bind
  obtain ⟨_, s₃, h₃, h'⟩ := h'.bind
  obtain ⟨_, s₄, h₄, h'⟩ := h'.bind
  obtain ⟨_, s₅, h₅, h'⟩ := h'.bind_get.bind
  obtain ⟨exitJump, s₆, h₆, h'⟩ := h'.bind_codeLength.bind
  obtain ⟨start, s₇, h₇, h'⟩ := h'.bind
  obtain ⟨_, s₈, h₈, h'⟩ := h'.bind
  obtain ⟨_, s₉, h₉, h₁₀⟩ := h'.bind
  have hs₁ := h₁.modifyCurrent
  have hs₂ := h₂.modifyCurrent
  have hs' := h₁₀.modifyCurrent
  rw [hs₁] at hs₂
  dsimp only at hs₂
  obtain ⟨hparen, p, hp⟩ := h₃.consume
  obtain ⟨init, ii, htok₄, hinit⟩ := forInitializer_spec hq _ _ h₄
  have hbegin : Reframes s s₂ := ⟨_, _, _, _, _, hs₂⟩
  have hend : Reframes s₉ s' := ⟨_, _, _, _, _, hs'⟩
  have hlocals₃ : s₃.current.locals = s.current.locals := by rw [hp, hs₂]
  have hscope₃ : s₃.current.scopeDepth = s.current.scopeDepth + 1 := by rw [hp, hs₂]
  have hdepth₃ : DepthOk s₃.current := by
    intro l hl
    rw [hlocals₃] at hl
    rw [hscope₃]
    exact (hdepth l hl).trans (Nat.le_succ _)
  obtain ⟨c, i, b, head, ib, n, htok₆, htok₇, htok₈, hfits, hloop, hframe₈, hcode⟩ :=
    forLoop_spec hq hs h₅.modifyCurrent rfl (hdepth₃.of_emits hinit.emits) h₆ h₇ h₈
  have hemits := hloop.emits hframe₈
  have hbody := hinit.emits.trans hemits
  rw [← encodeAll_append] at hbody
  obtain ⟨hparser, hkeeps, hframe, hlocals₉, hext⟩ := endScope_keeps hbody.toGrown
    (hinit.laid.trans hloop.laid hinit.emits.ok hloop.constants) (hscope₃ ▸ hbody.locals) hbody.ok
    (hbody.scopeDepth.trans hscope₃) (fun l hl => hdepth l (hlocals₃ ▸ hl)) h₉
  have hall := ((hbegin.keeps.trans (CodeRun.of_parser_eq hp).keeps).trans hkeeps).trans hend.keeps
  rw [List.append_nil, List.nil_append, List.nil_append] at hall
  refine ⟨.for init c i b, _, ?_, hall.emits ?_, hall.laid, hall.locals.length_eq,
    fun E loop Γ hc => ?_⟩
  · unfold Syntax.forStatement
    rw [hbegin.parser] at hparen
    rw [SyntaxM.bind_eq hparen, SyntaxM.bind_eq htok₄, SyntaxM.bind_eq htok₆, SyntaxM.bind_eq htok₇,
      SyntaxM.bind_eq htok₈, hend.parser, hparser]
    rfl
  · have hframe₈ := hbody.frame
    have hframe₃ : s₃.current.frame = s₂.current.frame := by rw [hp]
    rw [hframe₃, hs₂] at hframe₈
    rw [hs']
    simp only [FunctionState.frame, Prod.mk.injEq] at hframe hframe₈ ⊢
    simp [hframe, hframe₈]
  · have hslots : SlotsApprox Γ s₉.current.locals := by
      have := hc.slots
      rwa [hs'] at this
    rw [hlocals₉] at hslots
    have happend := hslots.append hbody.locals.length_le
    have hlen : Γ.length = s₃.current.locals.length := by
      rw [hc.slots.length_eq, hall.locals.length_eq, hlocals₃]
    have hE := (hc.env.of_extends hend.keeps.toExtends).of_extends hext
    have hok₃ := (Emits.of_parser_eq hp).ok (hbegin.keeps.ok hc.ok)
    obtain ⟨hhead, hib⟩ := hcode E _ (hinit.emits.ok hok₃) hE happend
    have hini := hinit.code E loop _ hok₃ (hE.of_extends hemits.toExtends)
      (happend.of_stay hloop.locals)
    rw [← hlen, List.take_left, hlen] at hini
    have hpos : placeOf E loop s₃ = (placeOf E loop s).nested := by
      rw [hp, hs₂]
      rfl
    have hlen₄ := hinit.emits.length_code
    rw [length_encodeAll, show s₃.current.function.code.length = s.current.function.code.length by
      rw [hp, hs₂]] at hlen₄
    refine ⟨ii, _, _, _, ib, hpos ▸ hini, hhead, ?_, hfits, ?_, rfl⟩
    · have hscope₄ : s₄.current.scopeDepth = s.current.scopeDepth + 1 :=
        hinit.emits.scopeDepth.trans hscope₃
      simpa only [placeOf, Place.nested, Place.inLoop, Place.after, hlen₄, hscope₄,
        Nat.add_assoc] using hib
    · rw [← hlen, List.drop_left]
      simp only [List.append_assoc]

/-! ### `continue` -/

/-- The locals inside the loop, from the last one on. -/
def insideLoop (d : Int) (ls : List Local) : List Local := ls.takeWhile fun l => d < (l.depth : Int)

theorem emitLoopPops_spec {d : Int} {u : Unit} {ls : List Local}
    (h : Accepts (emitLoopPops d ls) s u s') :
    Writes s s' (encodeAll (List.replicate (insideLoop d ls).length (.op .popTop))) := by
  induction ls generalizing s with
  | nil =>
      obtain ⟨-, hs'⟩ := Accepts.pure h
      rw [hs']
      exact Writes.refl s
  | cons l ls ih =>
      unfold insideLoop
      rcases Accepts.ite h with ⟨hle, h⟩ | ⟨hlt, h⟩
      · obtain ⟨-, hs'⟩ := h.pure
        rw [List.takeWhile_cons, if_neg (by simpa using hle), hs']
        exact Writes.refl s
      · obtain ⟨_, s₁, h₁, h₂⟩ := h.bind
        rw [List.takeWhile_cons, if_pos (by simpa using hlt)]
        exact h₁.emitOpcode.trans (ih h₂)

theorem length_insideLoop {l : Loop} {c : FunctionState} (h : InLoop l c) :
    (insideLoop c.loopScopeDepth c.locals.reverse).length = c.locals.length - l.slots := by
  have hsplit : c.locals.reverse = (c.locals.drop l.slots).reverse ++ (c.locals.take l.slots).reverse := by
    rw [← List.reverse_append, List.take_append_drop]
  have hnone : (c.locals.take l.slots).reverse.takeWhile
      (fun x => decide (c.loopScopeDepth < (x.depth : Int))) = [] := by
    cases hr : (c.locals.take l.slots).reverse with
    | nil => rfl
    | cons x rest =>
        have hmem : x ∈ c.locals.take l.slots := List.mem_reverse.mp (hr ▸ List.mem_cons_self)
        rw [List.takeWhile_cons, if_neg (by simpa using h.outside x hmem)]
  unfold insideLoop
  rw [hsplit, List.takeWhile_append_of_pos, hnone, List.append_nil, List.length_reverse,
    List.length_drop]
  intro x hx
  simpa using h.inside x (List.mem_reverse.mp hx)

theorem continueStatement_spec : StmtSpec continueStatement Syntax.continueStatement := by
  intro s s' h hdepth
  obtain ⟨_, s₁, h₁, h'⟩ := h.bind_get.bind
  obtain ⟨hloop, hs₁⟩ := h₁.reportIf
  rw [hs₁] at h'
  obtain ⟨_, s₂, h₂, h'⟩ := h'.bind
  obtain ⟨_, s₃, h₃, h₄⟩ := h'.bind
  obtain ⟨hsemi, p, hp⟩ := h₂.consume
  have hw := emitLoopPops_spec h₃
  obtain ⟨hfits, hw'⟩ := h₄.emitJumpBack
  have hplain : ∀ i ∈ List.replicate (insideLoop s.current.loopScopeDepth
      s.current.locals.reverse).length (Instr.op .popTop), i.Plain := by
    simp [OpCode.operands]
  have hrun := ((CodeRun.of_parser_eq hp).write hw hplain).write hw' (by simp [OpCode.operands])
  rw [List.nil_append] at hrun
  have hlen : s₃.current.function.code.length = s.current.function.code.length +
      (insideLoop s.current.loopScopeDepth s.current.locals.reverse).length := by
    rw [hw.emits.length_code, length_encodeAll, codeSize_replicate_op, hp]
  refine ⟨.continue, _, ?_, hrun.emits, hrun.laid, by rw [hrun.locals], fun E loop Γ hc => ?_⟩
  · unfold Syntax.continueStatement
    rw [SyntaxM.bind_eq hsemi, hw'.parser, hw.parser]
    rfl
  · obtain ⟨l, hl, hin⟩ := hc.loop (by simpa using hloop)
    have hslots : Γ.length = s.current.locals.length := by rw [hc.slots.length_eq, hrun.locals]
    have hpops := length_insideLoop hin
    have hle := hin.start_le
    rw [hpops] at hlen
    rw [hin.start] at hfits
    have hback : ((s₃.current.function.code.length : Int) + 3 - (l.start : Int)).toNat =
        s.current.function.code.length + (Γ.length - l.slots) + 3 - l.start := by
      rw [hlen, hslots]
      omega
    refine ⟨l, hl, hslots ▸ hin.slots_le, hle, ?_, ?_, rfl⟩
    · unfold JumpFits placeOf
      dsimp only
      rw [← hback]
      omega
    · rw [hpops, ← hslots, hin.start, hback]
      rfl

end Compiler

end CppLox
