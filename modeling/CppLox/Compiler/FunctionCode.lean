import CppLox.Compiler.VariableCode

/-!
# Compiler — the code of functions

A function is compiled by a compiler of its own, whose enclosing compilers are the chain of the
others.  While it runs, locals of the functions around may become captured and upvalues may be
added to them (`Grows`); nothing else of them changes.  At its end the function is a constant of the
function around it and the instruction `CLOSURE` lists its upvalues.
-/

namespace CppLox

open CompilerM

set_option synthInstance.maxSize 10000

/-! ### Runs that see the slots -/

/-- A piece of compilation that appends the instructions `is` and keeps the locals, some of which
may become captured. -/
structure SlotRun (s s' : CompilerState) (is : List Instr) (code : Env → List Slot → Prop) :
    Prop where
  emits : Emits s s' (encodeAll is)
  laid : Laid s s' is
  length : s'.current.locals.length = s.current.locals.length
  code : ∀ E Γ, StateOk s → Approximates E s' → SlotsApprox Γ s'.current.locals → code E Γ

namespace SlotRun

variable {s s' s'' : CompilerState} {is is' : List Instr} {code code' : Env → List Slot → Prop}

theorem trans (h : SlotRun s s' is code) (h' : SlotRun s' s'' is' code') :
    SlotRun s s'' (is ++ is') fun E Γ => code E Γ ∧ code' E Γ where
  emits := encodeAll_append is is' ▸ h.emits.trans h'.emits
  laid := h.laid.trans h'.laid h.emits.ok h'.emits.constants
  length := h'.length.trans h.length
  code E Γ hok hE hΓ := ⟨h.code E Γ hok (hE.of_extends h'.emits.toExtends)
    (hΓ.of_stay (h'.emits.locals.stay h'.length)), h'.code E Γ (h.emits.ok hok) hE hΓ⟩

theorem imp (h : SlotRun s s' is code) (himp : ∀ E Γ, code E Γ → code' E Γ) :
    SlotRun s s' is code' :=
  ⟨h.emits, h.laid, h.length, fun E Γ hok hE hΓ => himp E Γ (h.code E Γ hok hE hΓ)⟩

end SlotRun

theorem CodeRun.slotRun {s s' : CompilerState} {is : List Instr} {code : Env → List Slot → Prop}
    (h : CodeRun s s' is code) : SlotRun s s' is code :=
  ⟨h.emits, h.laid, by rw [h.locals], fun E Γ hok hE hΓ =>
    h.code E Γ hok hE (by rw [← h.locals]; exact hΓ.view)⟩

/-! ### Parameters -/

/-- The parameters are new locals in the scope of the function. -/
structure ParamsRun (s s' : CompilerState) (xs : List Bytes) : Prop where
  grown : Grown s s' []
  laid : Laid s s' []
  locals : LocalsExtend s.current.scopeDepth s.current.locals s'.current.locals
  names : s'.current.locals.map Local.name = s.current.locals.map Local.name ++ xs
  frame : s'.current.frame = ({ s.current with function := { s.current.function with
    arity := s.current.function.arity + xs.length } } : FunctionState).frame
  ok : StateOk s → StateOk s'

/-- A routine that compiles parameters. -/
def ParamsSpec (m : CompilerM Unit) (p : SyntaxM (List Bytes)) : Prop :=
  ∀ s s', Accepts m s () s' → s.current.scopeDepth ≠ 0 →
    ∃ xs, p s.parser.tokens = some (xs, s'.parser.tokens) ∧ ParamsRun s s' xs

theorem ParamsRun.of_parser_eq {s s' : CompilerState} {p : Parser}
    (h : s' = { s with parser := p }) : ParamsRun s s' [] := by
  have hemits := Emits.of_parser_eq h
  refine ⟨hemits.toGrown, Laid.of_eq (by rw [h]) (by rw [h]), hemits.locals,
    by rw [h, List.append_nil], ?_, hemits.ok⟩
  rw [h]
  rfl

theorem ParamsRun.trans {s s' s'' : CompilerState} {xs ys : List Bytes} (h : ParamsRun s s' xs)
    (h' : ParamsRun s' s'' ys) : ParamsRun s s'' (xs ++ ys) := by
  have hframe := h.frame
  have hframe' := h'.frame
  simp only [FunctionState.frame, Prod.mk.injEq] at hframe hframe'
  refine ⟨h.grown.trans h'.grown, h.laid.trans h'.laid h.ok h'.grown.constants, h.locals.trans (hframe.1 ▸ h'.locals), ?_, ?_,
    fun hok => h'.ok (h.ok hok)⟩
  · rw [h'.names, h.names, List.append_assoc]
  · simp only [FunctionState.frame, Prod.mk.injEq]
    simp [hframe, hframe', Nat.add_assoc]

namespace Compiler

variable {r : Routines} {q : SyntaxRoutines} {s s' : CompilerState}

/-- One parameter. -/
theorem parameter_spec {message : String} {s₁ s₂ s₃ : CompilerState} {i : Nat}
    (hs₁ : s₁ = { s with current := { s.current with function := { s.current.function with
      arity := s.current.function.arity + 1 } } })
    (h₂ : Accepts (parseVariable message false) s₁ i s₂)
    (h₃ : Accepts (defineVariable i false) s₂ () s₃) (hscope : s.current.scopeDepth ≠ 0) :
    ∃ x, Syntax.name s.parser.tokens = some (x, s₃.parser.tokens) ∧ ParamsRun s s₃ [x] := by
  obtain ⟨x, hname, -, hd, -⟩ := parseVariable_spec h₂
  have hscope₁ : s₁.current.scopeDepth = s.current.scopeDepth := by rw [hs₁]
  have hscope₂ := hd.emits.scopeDepth
  rcases h₃.ite with ⟨-, h'⟩ | ⟨-, h'⟩
  · exact absurd h' Accepts.not_reportError
  rcases h'.bind_get.ite with ⟨-, h'⟩ | ⟨hzero, -⟩
  · have hs₃ := h'.modifyCurrent
    obtain ⟨hemits, ls, l, hls, hls₃, hlength, hx⟩ :=
      hd.initialize (Emits.refl s₂) rfl (hscope₁ ▸ hscope) hs₃
    -- all but the last local keep their names
    have hnames : ls.map Local.name = s₁.current.locals.map Local.name := by
      have hsig := hemits.locals.signature
      rw [hls₃, ← hlength, List.take_left] at hsig
      exact SlotsApprox.map_name_of_signature hsig
    have hparser : s₃.parser = s₂.parser := by rw [hs₃]
    have htokens : s₁.parser = s.parser := by rw [hs₁]
    rw [htokens] at hname
    refine ⟨x, by rw [hparser]; exact hname, ?_⟩
    have hframe := hemits.frame
    have hok₃ := hemits.ok
    have hlocals := hemits.locals
    obtain ⟨⟨hn, he, hu, hc, ht⟩, hcode⟩ := hemits.toGrown
    rw [hs₁] at hn he hu hc ht hcode hframe hlocals hnames hok₃
    refine ⟨⟨⟨hn, he, hu, hc, ht⟩, hcode⟩, ?_, hlocals, ?_, hframe, fun hok => hok₃ ?_⟩
    · have hlines := hd.laid.lines_eq
      refine Laid.of_eq (hcode.trans (List.append_nil _)) ?_
      rw [hs₁] at hlines
      rw [hs₃]
      exact hlines
    · rw [hls₃, List.map_append, hnames, ← hx]
      rfl
    · obtain ⟨h₁, h₂, h₃, h₄, h₅⟩ := ChainOk.compilerOk hok
      exact ChainOk.of_upvalues_eq hok ⟨h₁, h₂, h₃, h₄, h₅⟩ rfl
  · omega

theorem parameterLoop_spec (hp : ParamsSpec r.parameterLoop q.parameterLoop) [MonoRoutines r] :
    ParamsSpec (parameterLoop r) (Syntax.parameterLoop q) := by
  intro s s' h hscope
  obtain ⟨_, s₁, h₁, h'⟩ := h.bind
  have hs₁ := h₁.modifyCurrent
  rcases h'.bind_get.ite with ⟨-, h'⟩ | ⟨-, h'⟩
  · exact absurd h' Accepts.not_reportError
  obtain ⟨i, s₂, h₂, h'⟩ := h'.bind
  obtain ⟨_, s₃, h₃, h'⟩ := h'.bind
  obtain ⟨comma, s₄, h₄, h₅⟩ := h'.bind
  obtain ⟨x, hname, hrun⟩ := parameter_spec hs₁ h₂ h₃ hscope
  obtain ⟨hcomma, p, hp'⟩ := h₄.matchToken
  have hmove := hrun.trans (ParamsRun.of_parser_eq hp')
  unfold Syntax.parameterLoop
  rw [SyntaxM.bind_eq hname, SyntaxM.bind_eq hcomma]
  cases comma with
  | true =>
      obtain ⟨xs, htok, hrest⟩ := hp _ _ h₅ (by
        have hframe := hmove.frame
        simp only [FunctionState.frame, Prod.mk.injEq] at hframe
        rw [hframe.1]
        exact hscope)
      refine ⟨x :: xs, ?_, hmove.trans hrest⟩
      rw [if_pos rfl, SyntaxM.bind_eq htok]
      rfl
  | false =>
      obtain ⟨-, rfl⟩ := Accepts.pure h₅
      exact ⟨[x], rfl, hmove⟩

theorem parameters_spec (hp : ParamsSpec r.parameterLoop q.parameterLoop) [MonoRoutines r] :
    ParamsSpec (parameters r) (Syntax.parameters q) := by
  intro s s' h hscope
  have h' := h.bind_check
  change ∃ xs, (if decide (s.parser.tokens.current.tokenType = .rightParen) = true then _
    else _ : SyntaxM (List Bytes)) _ = _ ∧ _
  rcases h'.ite with ⟨hc, h'⟩ | ⟨hc, h'⟩
  · rw [if_pos hc]
    obtain ⟨-, rfl⟩ := h'.pure
    exact ⟨[], rfl, ParamsRun.of_parser_eq (p := s'.parser) rfl⟩
  · rw [if_neg hc]
    exact hp _ _ h' hscope

/-! ### Closures -/

theorem emitCaptures_spec {upvalues : List Upvalue} {u : Unit}
    (h : Accepts (emitCaptures upvalues) s u s') :
    Writes s s' (upvalues.flatMap Instr.captureBytes) := by
  induction upvalues generalizing s with
  | nil =>
      obtain ⟨-, rfl⟩ := Accepts.pure h
      exact Writes.refl s'
  | cons upvalue upvalues ih =>
      obtain ⟨_, s₁, h₁, h'⟩ := h.bind
      obtain ⟨_, s₂, h₂, h₃⟩ := h'.bind
      have hw := (h₁.emitByte.trans h₂.emitUint16Le).trans (ih h₃)
      rw [List.flatMap_cons]
      cases hlocal : upvalue.isLocal <;> simpa [Instr.captureBytes, hlocal] using hw

/-- The function becomes a constant, and the instruction `CLOSURE` with its upvalues is written. -/
theorem emitClosure_spec {compiler : FunctionState} {u : Unit}
    (h : Accepts (emitClosure compiler) s u s') :
    ∃ k s₁, k = s.current.function.constants.length ∧ k ≤ 0xFFFF ∧
      s₁ = { s with current := { s.current with function := { s.current.function with
        constants := s.current.function.constants ++ [.function compiler.function] } } } ∧
      Writes s₁ s' (encodeAll [.closure k compiler.upvalues]) := by
  obtain ⟨k, s₁, h₁, h'⟩ := h.bind
  obtain ⟨_, s₂, h₂, h₃⟩ := h'.bind
  obtain ⟨hlen, hk, hs₁⟩ := h₁.addConstant_eq
  have hw := h₂.emitConstantOp.trans (emitCaptures_spec h₃)
  have hbytes : encodeAll [.short .closure k] ++ compiler.upvalues.flatMap Instr.captureBytes =
      encodeAll [.closure k compiler.upvalues] := by
    simp [Instr.encode]
  exact ⟨k, s₁, hlen, hk, hs₁, hbytes ▸ hw⟩

/-! ### Functions -/

theorem pushCompiler_spec {type : FunctionType} {name : Bytes} {u : Unit}
    (h : Accepts (pushCompiler type name) s u s') :
    s' = { s with
      current := newFunctionState type s.nextAddress name s.current.enclosingClass
      enclosing := s.current :: s.enclosing
      nextAddress := s.nextAddress + 1 } :=
  Accepts.modify h.bind_internString

theorem popCompiler_spec {compiler : FunctionState} (h : Accepts popCompiler s compiler s') :
    compiler = s.current ∧ ∃ c cs, s.enclosing = c :: cs ∧
      s' = { s with current := c, enclosing := cs } := by
  have hrun := h.run
  unfold popCompiler at hrun
  split at hrun
  · cases hrun
  · rename_i c cs hcs
    cases hrun
    exact ⟨rfl, c, cs, hcs, rfl⟩

/-- A newly constructed compiler keeps the invariant. -/
theorem stateOk_push {type : FunctionType} {name : Bytes} {addr : Addr} {classes : List Bool}
    (hok : StateOk s) (hs' : s' = { s with
      current := newFunctionState type addr name classes
      enclosing := s.current :: s.enclosing
      nextAddress := addr + 1 }) : StateOk s' := by
  rw [hs']
  refine ⟨⟨nofun, ?_, ?_, rfl, nofun⟩, nofun, hok⟩
  · simp [newFunctionState, maxNumberOfLocalVariables]
  · simp [newFunctionState]

/-- The upvalues of a function that was compiled fit the slots of the function around it. -/
theorem upvaluesFit_of_ok {c e : FunctionState} {cs : List FunctionState} {E : List Upvalue}
    {Γ : List Slot} (hok : ChainOk c (e :: cs)) (hΓ : SlotsApprox Γ e.locals)
    (hE : e.upvalues <+: E) : UpvaluesFit Γ E c.upvalues := by
  obtain ⟨hc, hup, hrest⟩ := hok
  have he := hrest.compilerOk
  refine ⟨hc.upvalues, fun u hu => ?_⟩
  have hu := hup u hu
  cases hlocal : u.isLocal with
  | true =>
      rw [hlocal, if_pos rfl] at hu
      have hlt : u.index < e.locals.length := by
        by_contra hge
        rw [CapturedAt, List.getElem?_eq_none (by omega)] at hu
        cases hu
      have hmax := he.locals
      unfold maxNumberOfLocalVariables at hmax
      rw [if_pos rfl]
      exact ⟨by omega, hΓ.captured _ hu⟩
  | false =>
      rw [hlocal, if_neg (by simp)] at hu
      have hmax := he.upvalues
      rw [if_neg (by simp)]
      exact ⟨by omega, hu.trans_le hE.length_le⟩

theorem map_name_newFunctionState (type : FunctionType) (addr : Addr) (name : Bytes)
    (classes : List Bool) :
    (newFunctionState type addr name classes).locals.map Local.name = [slotZeroName type] := by
  unfold newFunctionState slotZeroName
  by_cases htype : type = .method ∨ type = .initializer <;> simp [htype]

theorem depth_newFunctionState (type : FunctionType) (addr : Addr) (name : Bytes)
    (classes : List Bool) : ∀ l ∈ (newFunctionState type addr name classes).locals, l.depth = 0 := by
  intro l hl
  unfold newFunctionState at hl
  rw [List.mem_singleton.mp hl]
  split <;> rfl

/-- The parameters and the body of a function, compiled by a new compiler. -/
theorem functionBody_spec (hp : ParamsSpec r.parameterLoop q.parameterLoop)
    (hb : DeclsSpec r.blockLoop q.blockLoop) [MonoRoutines r] {type : FunctionType} {name : Bytes}
    {addr : Addr} {classes : List Bool} {m : CompilerM Unit} [Mono m]
    {message message' message'' : String} (hnew : s.current = newFunctionState type addr name classes)
    (h : Accepts (do
      beginScope
      consume .leftParen message
      parameters r
      consume .rightParen message'
      consume .leftBrace message''
      block r
      emitReturn
      m) s () s') :
    ∃ params body is s₈, Syntax.functionRest q s.parser.tokens =
        some ((params, body), s₈.parser.tokens) ∧
      Grown s s₈ (encodeAll (is ++ returnCode type)) ∧ Laid s s₈ (is ++ returnCode type) ∧ s₈.current.function.arity = params.length ∧
      s₈.current.function.name = name ∧ (StateOk s → StateOk s₈) ∧
      (∀ E, StateOk s → Approximates E s₈ → ∃ zero slots Γ', zero.name = slotZeroName type ∧
        slots.map Slot.name = params ∧ StmtsCode body ⟨E, none, 1, 0⟩ (zero :: slots) is Γ') ∧
      Accepts m s₈ () s' := by
  obtain ⟨_, s₂, h₂, h'⟩ := h.bind
  obtain ⟨_, s₃, h₃, h'⟩ := h'.bind
  obtain ⟨_, s₄, h₄, h'⟩ := h'.bind
  obtain ⟨_, s₅, h₅, h'⟩ := h'.bind
  obtain ⟨_, s₆, h₆, h'⟩ := h'.bind
  obtain ⟨_, s₇, h₇, h'⟩ := h'.bind
  obtain ⟨_, s₈, h₈, h'⟩ := h'.bind
  have hs₂ := h₂.modifyCurrent
  obtain ⟨hleft, p₃, hp₃⟩ := h₃.consume
  have hreframe : Reframes s s₂ := ⟨_, _, _, _, _, hs₂⟩
  have hbegin := hreframe.keeps.trans (CodeRun.of_parser_eq hp₃).keeps
  -- the scope of the parameters is the first one of the new compiler
  have hcurrent₃ : s₃.current = { newFunctionState type addr name classes with scopeDepth := 1 } := by
    rw [hp₃, hs₂, hnew]
    rfl
  have hscope₃ : s₃.current.scopeDepth = 1 := by rw [hcurrent₃]
  obtain ⟨params, htokP, hparams⟩ := parameters_spec hp _ _ h₄ (by omega)
  obtain ⟨hright, p₅, hp₅⟩ := h₅.consume
  obtain ⟨hbrace, p₆, hp₆⟩ := h₆.consume
  have hrun₆ := (hparams.trans (ParamsRun.of_parser_eq hp₅)).trans (ParamsRun.of_parser_eq hp₆)
  rw [List.append_nil, List.append_nil] at hrun₆
  have hframe₆ := hrun₆.frame
  rw [hcurrent₃] at hframe₆
  simp only [FunctionState.frame, newFunctionState, Prod.mk.injEq] at hframe₆
  obtain ⟨hscope₆, hloop₆, -, -, htype₆, -, hname₆, harity₆⟩ := hframe₆
  have hdepth₃ : DepthOk s₃.current := by
    rw [hcurrent₃]
    intro l hl
    rw [depth_newFunctionState type addr name classes l hl]
    exact Nat.zero_le _
  have hdepth₆ := hdepth₃.of_extend hrun₆.locals (hscope₆.trans hscope₃.symm)
  obtain ⟨body, is, htokB, hbody⟩ := block_spec hb _ _ h₇ hdepth₆
  have hw := h₈.emitReturn
  have htype₇ : s₇.current.functionType = type := hbody.emits.type.trans htype₆
  rw [htype₇] at hw
  -- up to the body no code is written
  have hgrown₆ := hbegin.toGrown.trans hrun₆.grown
  have hok₆ : StateOk s → StateOk s₆ := fun hok => hrun₆.ok (hbegin.ok hok)
  refine ⟨params, body, is, s₈, ?_, ?_, ?_, ?_, ?_, ?_, fun E hok hE => ?_, h'⟩
  · rw [hreframe.parser] at hleft
    unfold Syntax.functionRest
    rw [SyntaxM.bind_eq hleft, SyntaxM.bind_eq htokP, SyntaxM.bind_eq hright, SyntaxM.bind_eq hbrace,
      SyntaxM.bind_eq htokB, hw.parser]
    rfl
  · rw [encodeAll_append]
    exact hgrown₆.trans (hbody.emits.trans hw.emits).toGrown
  · have hreturn := hw.codeRun (plain_returnCode type)
    exact (hbegin.laid.trans hrun₆.laid hbegin.ok hrun₆.grown.constants).trans
      (hbody.laid.trans hreturn.laid hbody.emits.ok hw.emits.constants) hok₆
      (hbody.emits.constants.trans hw.emits.constants)
  · rw [hw.emits.arity, hbody.emits.arity, harity₆, Nat.zero_add]
  · rw [hw.emits.name, hbody.emits.name, hname₆]
  · exact fun hok => hw.emits.ok (hbody.emits.ok (hok₆ hok))
  · have hΓ := slotsApprox_slotsOf s₇.current.locals
    have hcode := hbody.code E none _ ⟨hok₆ hok, hE.of_extends hw.emits.toExtends, hΓ,
      fun hne => absurd hloop₆ hne⟩ (fun hne => absurd hloop₆ hne)
    have hplace : placeOf E none s₆ = ⟨E, none, 1, 0⟩ := by
      have hlen : s₆.current.function.code.length = 0 := by
        rw [hgrown₆.code, hnew]
        rfl
      rw [placeOf, hscope₆, hlen]
    rw [hplace] at hcode
    have hnames := (hΓ.take hbody.emits.locals).names
    rw [hrun₆.names, hcurrent₃, map_name_newFunctionState] at hnames
    -- slot zero is the function itself or `this`, the parameters follow it
    cases htake : (slotsOf s₇.current.locals).take s₆.current.locals.length with
    | nil =>
        rw [htake] at hnames
        cases hnames
    | cons zero slots =>
        rw [htake] at hcode hnames
        obtain ⟨hzero, hslots⟩ := List.cons.inj hnames
        exact ⟨zero, slots, _, hzero, hslots, hcode⟩

/-- A new compiler that ends with well-formed code leaves a compiled function behind. -/
theorem compiled_of_laid {is : List Instr} (hlaid : Laid s s' is) (hgrown : Grown s s' (encodeAll is))
    (hcode : s.current.function.code = []) (hlines : s.current.function.lines = [])
    (hok : StateOk s) (hok' : StateOk s')
    (hwell : ∃ is', encodeAll is' = encodeAll is ∧
      WellFormedCode s'.current.function.constants is') : Compiled s'.current.function := by
  obtain ⟨is', hbytes, hwell⟩ := hwell
  -- the bytes do not say how wide their operands are, the opcodes do
  have houtline := map_outline_eq hbytes hwell.fits (hlaid.fits hok)
  have hsizes := map_size_of_outline houtline
  obtain ⟨lines, hlen, htable⟩ := hlaid.lines
  rw [hcode, hlines, List.length_nil, lineBlocks, ← hsizes] at htable
  refine .intro is' lines ?_ hwell ?_ htable (ChainOk.compilerOk hok').functions
  · rw [hgrown.code, hcode, List.nil_append, hbytes]
  · rw [hlen]
    simpa using (congrArg List.length hsizes).symm

theorem compileFunction_spec (hp : ParamsSpec r.parameterLoop q.parameterLoop)
    (hb : DeclsSpec r.blockLoop q.blockLoop) [MonoRoutines r] {type : FunctionType} {name : Bytes}
    (h : Accepts (compileFunction r type name) s () s') :
    ∃ params body k f U, Syntax.functionRest q s.parser.tokens =
        some ((params, body), s'.parser.tokens) ∧ k ≤ 0xFFFF ∧
      SlotRun s s' [.closure k U] fun E Γ => E.constants[k]? = some (.function f) ∧
        FunctionCode (StmtsCode body) E Γ type name params f U := by
  obtain ⟨_, s₁, h₁, h'⟩ := h.bind
  have hs₁ := pushCompiler_spec h₁
  obtain ⟨params, body, is, s₈, htok, hgrown, hlaid, harity, hname, hok₈, hcode, h'⟩ :=
    functionBody_spec hp hb (by rw [hs₁]) h'
  obtain ⟨compiler, s₉, h₉, h₁₀⟩ := h'.bind
  obtain ⟨hcompiler, c, cs, hcs, hs₉⟩ := popCompiler_spec h₉
  obtain ⟨k, s₁₀, hlen, hk, hs₁₀, hw⟩ := emitClosure_spec h₁₀
  have hcompiled : StateOk s → Compiled compiler.function := fun hok => by
    have hok₁ := stateOk_push hok hs₁
    obtain ⟨_, _, _, -, -, hbody⟩ := hcode _ hok₁ (approximates_envOf s₈)
    rw [hcompiler]
    exact compiled_of_laid hlaid hgrown (by rw [hs₁]; rfl) (by rw [hs₁]; rfl) hok₁ (hok₈ hok₁)
      (wellFormed_of_code hbody rfl rfl type)
  -- the chain of the inner compiler is the outer one and its chain, grown
  have hchain := hgrown.enclosing
  rw [hcs, hs₁] at hchain
  obtain ⟨hgrows, hgrows'⟩ := List.forall₂_cons.mp hchain
  have hpop : Emits s s₉ [] := by
    have hnames := hgrown.names
    rw [hs₁] at hnames
    rw [hs₉]
    refine ⟨⟨⟨hnames, hgrows', hgrows.upvalues, ?_, hgrows.functionType⟩, ?_⟩, hgrows.locals,
      hgrows.frame, fun hok => ?_⟩
    · exact hgrows.constants ▸ List.prefix_refl _
    · exact hgrows.code.trans (List.append_nil _).symm
    · have hchainOk := hok₈ (stateOk_push hok hs₁)
      unfold StateOk at hchainOk ⊢
      rw [hcs] at hchainOk
      exact hchainOk.2.2
  have hadd : Emits s s₁₀ [] := hpop.addConstant hs₁₀ fun hok g hg => by
    cases hg
    exact hcompiled hok
  have hall := hadd.trans hw.emits
  rw [List.nil_append] at hall
  -- the function is the last constant of the outer one
  have hconst : s₁₀.current.function.constants[k]? = some (.function compiler.function) := by
    rw [hs₁₀, hlen]
    simp
  have hkeep : Laid s s₁₀ [] := by
    refine Laid.of_eq ?_ ?_
    · rw [hs₁₀, hs₉]
      exact hgrows.code
    · rw [hs₁₀, hs₉]
      exact hgrows.lines
  have hlocals' : s'.current.locals = c.locals := by rw [hw.locals, hs₁₀, hs₉]
  refine ⟨params, body, k, compiler.function, compiler.upvalues, ?_, hk, hall,
    ⟨hkeep.toLined.trans hw.lined, fun hok i hi => ?_⟩, ?_,
    fun E Γ hok hE hΓ => ⟨?_, ?_⟩⟩
  · rw [hs₁] at htok
    rw [htok, hw.parser, hs₁₀, hs₉]
  · rw [List.mem_singleton.mp hi]
    refine ⟨hk, _, getElem?_of_extends hw.emits.constants hconst, ?_⟩
    rw [hcompiler]
    exact (ChainOk.compilerOk (hok₈ (stateOk_push hok hs₁))).count
  · rw [hlocals', hgrows.length]
  · exact getElem?_of_extends (hE.of_extends hw.emits.toExtends).constants hconst
  · have hE₉ : Approximates E s₉ := (hE.of_extends hw.emits.toExtends).of_extends (by
      rw [hs₁₀]
      exact ⟨List.prefix_refl _, ChainGrows.refl _, List.prefix_refl _, List.prefix_append _ _, rfl⟩)
    rw [hlocals'] at hΓ
    have hok₁ := stateOk_push hok hs₁
    have hchainOk := hok₈ hok₁
    unfold StateOk at hchainOk
    rw [hcs] at hchainOk
    have hupvalues : c.upvalues <+: E.upvalues := by
      have := hE₉.upvalues
      rwa [hs₉] at this
    rw [hcompiler]
    refine ⟨harity, hname, hchainOk.compilerOk.count, upvaluesFit_of_ok hchainOk hΓ hupvalues, ?_⟩
    -- an environment of the outer function gives one of the inner function
    have hinner : Approximates ⟨type, s₈.current.function.constants, s₈.current.upvalues,
        ⟨Γ, E.upvalues⟩ :: E.enclosing, E.globals⟩ s₈ := by
      refine ⟨?_, List.prefix_refl _, List.prefix_refl _, ?_, ?_⟩
      · rw [hgrown.type, hs₁]
        rfl
      · rw [hcs]
        have := hE₉.enclosing
        rw [hs₉] at this
        exact .cons ⟨hΓ, hupvalues⟩ this
      · have := hE₉.globals
        rwa [hs₉] at this
    obtain ⟨zero, slots, Γ', hzero, hslots, hbody⟩ := hcode _ hok₁ hinner
    refine ⟨zero, slots, is, Γ', hzero, hslots, hbody, ?_⟩
    rw [hgrown.code, hs₁]
    rfl

theorem funDeclaration_spec (hp : ParamsSpec r.parameterLoop q.parameterLoop)
    (hb : DeclsSpec r.blockLoop q.blockLoop) [MonoRoutines r] :
    InitSpec (funDeclaration r) (Syntax.funDeclaration q) := by
  intro s s' h
  obtain ⟨i, s₁, h₁, h'⟩ := h.bind
  obtain ⟨_, s₂, h₂, h'⟩ := h'.bind
  obtain ⟨_, s₃, h₃, h₄⟩ := h'.bind_previous.bind
  obtain ⟨x, hname, hx, hd, -⟩ := parseVariable_spec h₁
  obtain ⟨hparser₂, -, hd₂⟩ := markInitialized_spec hd h₂
  rw [hparser₂, ← hx] at h₃
  obtain ⟨params, body, k, f, U, htok, hk, hfun⟩ := compileFunction_spec hp hb h₃
  obtain ⟨id, hparser, hemits, hlaid, hext, hslots, hdefine⟩ :=
    defineVariable_spec hd₂ hfun.emits hfun.laid hfun.length h₄
  refine ⟨.function x params body, [.closure k U] ++ id, ?_, hemits, hlaid, fun E loop Γ hok hE hΓ => ?_⟩
  · unfold Syntax.funDeclaration
    rw [hparser₂] at htok
    rw [SyntaxM.bind_eq hname, SyntaxM.bind_eq htok, hparser]
    rfl
  · obtain ⟨hconst, hcode⟩ :=
      hfun.code E Γ (hd₂.emits.ok hok) (hE.of_extends hext) (hslots Γ hΓ)
    exact ⟨id, k, f, U, hdefine E loop Γ hok hE hΓ, hk, hconst, hcode, rfl⟩

/-! ### Methods -/

/-- A routine that compiles methods. -/
def MethodsSpec (m : CompilerM Unit) (p : SyntaxM Methods) : Prop :=
  ∀ s s', Accepts m s () s' → ∃ methods is, p s.parser.tokens = some (methods, s'.parser.tokens) ∧
    SlotRun s s' is fun E Γ => MethodsCode methods E Γ is

theorem method_spec (hp : ParamsSpec r.parameterLoop q.parameterLoop)
    (hb : DeclsSpec r.blockLoop q.blockLoop) [MonoRoutines r] (h : Accepts (method r) s () s') :
    ∃ matched t₁ x t₂ params body k kx f U,
      Syntax.matchToken .fun s.parser.tokens = some (matched, t₁) ∧ Syntax.name t₁ = some (x, t₂) ∧
      Syntax.functionRest q t₂ = some ((params, body), s'.parser.tokens) ∧
      k ≤ 0xFFFF ∧ kx ≤ 0xFFFF ∧ SlotRun s s' [.closure k U, .short .method kx] fun E Γ =>
        E.constants[k]? = some (.function f) ∧ E.constants[kx]? = some (.string x) ∧
          FunctionCode (StmtsCode body) E Γ (methodType x) x params f U := by
  obtain ⟨matched, s₁, h₁, h'⟩ := h.bind
  obtain ⟨_, s₂, h₂, h'⟩ := h'.bind
  obtain ⟨kx, s₃, h₃, h'⟩ := h'.bind_previous.bind_internString.bind
  obtain ⟨_, s₄, h₄, h₅⟩ := h'.bind
  obtain ⟨hfun, p₁, hp₁⟩ := h₁.matchToken
  obtain ⟨hident, p₂, hp₂⟩ := h₂.consume
  obtain ⟨hkx, hparser, hconst⟩ := h₃.addConstant nofun
  obtain ⟨params, body, k, f, U, htok, hk, hcompiled⟩ := compileFunction_spec hp hb h₄
  have hw := h₅.emitConstantOp
  have hname : Syntax.name s₁.parser.tokens =
      some (s₂.parser.tokens.previous.lexeme, s₂.parser.tokens) := by
    unfold Syntax.name
    rw [SyntaxM.bind_eq hident]
    rfl
  rw [hparser] at htok
  refine ⟨matched, _, _, _, params, body, k, kx, f, U, hfun, hname, by rw [htok, hw.parser], hk, hkx,
    ((((((CodeRun.of_parser_eq hp₁).move hp₂).trans hconst).slotRun.trans hcompiled).trans
      (Writes.codeRun (w := [.short .method kx]) hw (by simp [OpCode.operands])).slotRun).imp fun E Γ he => ?_)⟩
  obtain ⟨⟨⟨-, hstring⟩, hfunction, hcode⟩, -⟩ := he
  exact ⟨hfunction, hstring, hcode⟩

theorem methodLoop_spec (hp : ParamsSpec r.parameterLoop q.parameterLoop)
    (hb : DeclsSpec r.blockLoop q.blockLoop) (hm : MethodsSpec r.methodLoop q.methodLoop)
    [MonoRoutines r] : MethodsSpec (methodLoop r) (Syntax.methodLoop q) := by
  intro s s' h
  have h' := h.bind_check
  change ∃ methods is, (if decide (s.parser.tokens.current.tokenType = .rightBrace) = true then _
    else _ : SyntaxM Methods) _ = _ ∧ _
  rcases h'.ite with ⟨hc, h'⟩ | ⟨hc, h'⟩
  · rw [if_pos hc]
    obtain ⟨-, rfl⟩ := h'.pure
    exact ⟨.nil, [], rfl, (CodeRun.of_parser_eq (p := s'.parser) rfl).slotRun.imp fun _ _ _ => rfl⟩
  · rw [if_neg hc]
    have h'' := h'.bind_check
    change ∃ methods is, (if decide (s.parser.tokens.current.tokenType = .endOfFile) = true then _
      else _ : SyntaxM Methods) _ = _ ∧ _
    rcases h''.ite with ⟨hc, h''⟩ | ⟨hc, h''⟩
    · rw [if_pos hc]
      obtain ⟨-, rfl⟩ := h''.pure
      exact ⟨.nil, [], rfl, (CodeRun.of_parser_eq (p := s'.parser) rfl).slotRun.imp fun _ _ _ => rfl⟩
    · rw [if_neg hc]
      obtain ⟨_, s₁, h₁, h₂⟩ := h''.bind
      obtain ⟨matched, t₁, x, t₂, params, body, k, kx, f, U, hfun, hname, htok, hk, hkx, hrun⟩ :=
        method_spec hp hb h₁
      obtain ⟨methods, is, htok', hrest⟩ := hm _ _ h₂
      refine ⟨.cons x params body methods, _, ?_, (hrun.trans hrest).imp fun E Γ he => ?_⟩
      · rw [SyntaxM.bind_eq hfun, SyntaxM.bind_eq hname, SyntaxM.bind_eq htok]
        dsimp only
        rw [SyntaxM.bind_eq htok']
        rfl
      · obtain ⟨⟨hfunction, hstring, hcode⟩, hmethods⟩ := he
        exact ⟨k, kx, f, U, is, hk, hkx, hfunction, hstring, hcode, hmethods, rfl⟩

end Compiler

end CppLox
