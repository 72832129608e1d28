import CppLox.Compiler.LoopCode
import CppLox.Compiler.ClassCode
import CppLox.Compiler.SwitchCode

/-!
# Compiler — the code of a program

The recursive routines compile what the recursive parsers read, by induction on the fuel they share.
So a source that is compiled without an error has a tree, and the function is the code of that tree.
-/

namespace CppLox

open CompilerM

set_option synthInstance.maxSize 10000

/-! ### Sequences -/

/-- A declaration and the declarations after it. -/
theorem DeclRun.cons {s s₁ s' : CompilerState} {i is : List Instr} {stmt : Stmt} {stmts : Stmts}
    (h : DeclRun s s₁ i fun E loop Γ =>
      StmtCode stmt (placeOf E loop s) (Γ.take s.current.locals.length) i Γ)
    (h' : DeclRun s₁ s' is fun E loop Γ =>
      StmtsCode stmts (placeOf E loop s₁) (Γ.take s₁.current.locals.length) is Γ) :
    DeclRun s s' (i ++ is) fun E loop Γ =>
      StmtsCode (.cons stmt stmts) (placeOf E loop s) (Γ.take s.current.locals.length) (i ++ is) Γ where
  emits := encodeAll_append i is ▸ h.emits.trans h'.emits
  laid := h.laid.trans h'.laid h.emits.ok h'.emits.constants
  code E loop Γ hc hbelow := by
    have hslots := hc.slots.take h'.emits.locals
    have hfirst := h.code E loop _
      ⟨hc.ok, hc.env.of_extends h'.emits.toExtends, hslots, hc.loop⟩ hbelow
    have hrest := h'.code E loop Γ ⟨h.emits.ok hc.ok, hc.env, hc.slots,
      hc.loop.of_emits h.emits (.inl hbelow)⟩ (hbelow.of_emits h.emits)
    rw [List.take_take, Nat.min_eq_left h.emits.locals.length_le] at hfirst
    refine ⟨i, _, is, hfirst, ?_, rfl⟩
    rw [placeOf_after h.emits]
    exact hrest

/-- No declaration. -/
theorem DeclRun.nil (s : CompilerState) : DeclRun s s [] fun E loop Γ =>
    StmtsCode .nil (placeOf E loop s) (Γ.take s.current.locals.length) [] Γ where
  emits := Emits.refl s
  laid := Laid.of_eq rfl rfl
  code E loop Γ hc _ := ⟨rfl, by rw [hc.take_eq rfl]⟩

/-- A routine starts after a token that was matched. -/
theorem StmtSpec.of_parser_eq {s s₁ s' : CompilerState} {t : Tokens} {p : SyntaxM Stmt} {parser : Parser}
    (hp : s₁ = { s with parser })
    (h : ∃ stmt is, p t = some (stmt, s'.parser.tokens) ∧ StmtRun s₁ s' is fun E loop Γ =>
      StmtCode stmt (placeOf E loop s₁) Γ is Γ) :
    ∃ stmt is, p t = some (stmt, s'.parser.tokens) ∧ StmtRun s s' is fun E loop Γ =>
      StmtCode stmt (placeOf E loop s) Γ is Γ := by
  obtain ⟨stmt, is, htok, hrun⟩ := h
  have hall := (CodeRun.of_parser_eq hp).stmtRun.trans hrun
  rw [List.nil_append] at hall
  refine ⟨stmt, is, htok, hall.imp fun E loop Γ he => ?_⟩
  rw [hp] at he
  exact he.2

theorem DeclSpec.of_parser_eq {s s₁ s' : CompilerState} {t : Tokens} {p : SyntaxM Stmt} {parser : Parser}
    (hp : s₁ = { s with parser })
    (h : ∃ stmt is, p t = some (stmt, s'.parser.tokens) ∧ DeclRun s₁ s' is fun E loop Γ =>
      StmtCode stmt (placeOf E loop s₁) (Γ.take s₁.current.locals.length) is Γ) :
    ∃ stmt is, p t = some (stmt, s'.parser.tokens) ∧ DeclRun s s' is fun E loop Γ =>
      StmtCode stmt (placeOf E loop s) (Γ.take s.current.locals.length) is Γ := by
  obtain ⟨stmt, is, htok, hrun⟩ := h
  have hmove := Emits.of_parser_eq hp
  have hemits := hmove.trans hrun.emits
  rw [List.nil_append] at hemits
  have hkeep : Laid s s₁ [] := Laid.of_eq (by rw [hp]) (by rw [hp])
  refine ⟨stmt, is, htok, hemits, hkeep.trans hrun.laid hmove.ok hrun.emits.constants,
    fun E loop Γ hc hbelow => ?_⟩
  have hcode := hrun.code E loop Γ ⟨hmove.ok hc.ok, hc.env, hc.slots, by rw [hp]; exact hc.loop⟩
    (by rw [hp]; exact hbelow)
  rw [hp] at hcode
  exact hcode

theorem tokens_of_matchToken_false {expected : TokenType} {t t' : Tokens}
    (h : Syntax.matchToken expected t = some (false, t')) : t' = t := by
  change (if decide (t.current.tokenType = expected) = true then _ else _ : SyntaxM Bool) t = _ at h
  split at h
  · obtain ⟨_, t₁, -, h⟩ := SyntaxM.bind_eq_some h
    cases h
  · cases h
    rfl

/-- A routine that is chosen by the token it starts with. -/
theorem StmtSpec.matchToken {expected : TokenType} {m₁ m₂ : CompilerM Unit} {p₁ p₂ : SyntaxM Stmt}
    [Mono m₁] [Mono m₂] (h₁ : StmtSpec m₁ p₁) (h₂ : StmtSpec m₂ p₂) :
    StmtSpec (do if ← Compiler.matchToken expected then m₁ else m₂)
      (do if ← Syntax.matchToken expected then p₁ else p₂) := by
  intro s s' h hdepth
  obtain ⟨b, s₁, hmatch, h'⟩ := h.bind_of inferInstance fun b => by cases b <;> infer_instance
  obtain ⟨htok, p, hp⟩ := hmatch.matchToken
  have hdepth₁ := hdepth.of_emits (Emits.of_parser_eq hp)
  rw [SyntaxM.bind_eq htok]
  refine StmtSpec.of_parser_eq hp ?_
  cases b with
  | true => exact h₁ _ _ h' hdepth₁
  | false => exact h₂ _ _ h' hdepth₁

/-- A token on which the compiler reports an error starts no statement. -/
theorem StmtSpec.rejectToken {expected : TokenType} {m₁ m₂ : CompilerM Unit} {p : SyntaxM Stmt}
    [Mono m₁] [Mono m₂] (h₁ : ∀ s s', ¬ Accepts m₁ s () s') (h₂ : StmtSpec m₂ p) :
    StmtSpec (do if ← Compiler.matchToken expected then m₁ else m₂) p := by
  intro s s' h hdepth
  obtain ⟨b, s₁, hmatch, h'⟩ := h.bind_of inferInstance fun b => by cases b <;> infer_instance
  obtain ⟨htok, q, hq⟩ := hmatch.matchToken
  refine StmtSpec.of_parser_eq hq ?_
  cases b with
  | true => exact absurd h' (h₁ _ _)
  | false =>
      rw [← tokens_of_matchToken_false htok]
      exact h₂ _ _ h' (hdepth.of_emits (Emits.of_parser_eq hq))

theorem DeclSpec.matchToken {expected : TokenType} {m₁ m₂ : CompilerM Unit} {p₁ p₂ : SyntaxM Stmt}
    [Mono m₁] [Mono m₂] (h₁ : DeclSpec m₁ p₁) (h₂ : DeclSpec m₂ p₂) :
    DeclSpec (do if ← Compiler.matchToken expected then m₁ else m₂)
      (do if ← Syntax.matchToken expected then p₁ else p₂) := by
  intro s s' h hdepth
  obtain ⟨b, s₁, hmatch, h'⟩ := h.bind_of inferInstance fun b => by cases b <;> infer_instance
  obtain ⟨htok, p, hp⟩ := hmatch.matchToken
  have hdepth₁ := hdepth.of_emits (Emits.of_parser_eq hp)
  rw [SyntaxM.bind_eq htok]
  refine DeclSpec.of_parser_eq hp ?_
  cases b with
  | true => exact h₁ _ _ h' hdepth₁
  | false => exact h₂ _ _ h' hdepth₁

/-! ### The routines -/

/-- The recursive routines compile what the recursive parsers read. -/
structure StmtRoutines (r : Routines) (q : SyntaxRoutines) : Prop extends ExprRoutines r q where
  declaration : DeclSpec r.declaration q.declaration
  statement : StmtSpec r.statement q.statement
  blockLoop : DeclsSpec r.blockLoop q.blockLoop
  parameterLoop : ParamsSpec r.parameterLoop q.parameterLoop
  methodLoop : Compiler.MethodsSpec r.methodLoop q.methodLoop
  caseLoop : Compiler.CasesSpec r.caseLoop q.caseLoop
  armLoop : DeclsSpec r.armLoop q.armLoop
  programLoop : DeclsSpec r.programLoop q.programLoop

namespace Compiler

variable {r : Routines} {q : SyntaxRoutines} {s s' : CompilerState}

theorem synchronizeOnPanic_spec {u : Unit} (h : Accepts synchronizeOnPanic s u s') : s' = s := by
  have hs' := Accepts.modify h
  rw [hs', if_neg]
  rw [h.before.panicMode]
  nofun

theorem declarationOf_spec (hr : StmtRoutines r q) [MonoRoutines r] :
    DeclSpec (declarationOf r) (Syntax.declaration q) := by
  unfold declarationOf Syntax.declaration
  refine .matchToken (varDeclaration_spec hr.toExprRoutines).decl ?_
  refine .matchToken (constDeclaration_spec hr.toExprRoutines).decl ?_
  refine .matchToken (funDeclaration_spec hr.parameterLoop hr.blockLoop).decl ?_
  refine .matchToken (classDeclaration_spec hr.methodLoop) ?_
  exact hr.statement.decl

theorem declaration_spec (hr : StmtRoutines r q) [MonoRoutines r] :
    DeclSpec (declaration r) (Syntax.declaration q) := by
  intro s s' h hdepth
  obtain ⟨_, s₁, h₁, h₂⟩ := h.bind
  rw [synchronizeOnPanic_spec h₂]
  exact declarationOf_spec hr _ _ h₁ hdepth

/-- `break` is not implemented. -/
theorem not_breakStatement {u : Unit} : ¬ Accepts breakStatement s u s' := by
  intro h
  obtain ⟨_, _, -, h'⟩ := Accepts.bind (Accepts.bind_get h)
  obtain ⟨_, _, -, h'⟩ := h'.bind
  exact Accepts.not_reportError h'

theorem statement_spec (hr : StmtRoutines r q) [MonoRoutines r] :
    StmtSpec (statement r) (Syntax.statement q) := by
  have he := hr.toExprRoutines
  unfold statement Syntax.statement
  refine .matchToken (printStatement_spec he) ?_
  refine .matchToken (ifStatement_spec he hr.statement) ?_
  refine .matchToken (whileStatement_spec he hr.statement) ?_
  refine .matchToken (forStatement_spec he hr.statement) ?_
  refine .matchToken (switchStatement_spec he hr.caseLoop) ?_
  refine .matchToken (blockStatement_spec hr.blockLoop) ?_
  refine .matchToken continueStatement_spec ?_
  refine .rejectToken (fun _ _ => not_breakStatement) ?_
  refine .matchToken (returnStatement_spec he) ?_
  exact expressionStatement_spec he

theorem blockLoop_spec (hr : StmtRoutines r q) [MonoRoutines r] :
    DeclsSpec (blockLoop r) (Syntax.blockLoop q) := by
  intro s s' h hdepth
  have h' := h.bind_check
  change ∃ stmts is, (if decide (s.parser.tokens.current.tokenType = .rightBrace) = true then _
    else _ : SyntaxM Stmts) _ = _ ∧ _
  rcases h'.ite with ⟨hc, h'⟩ | ⟨hc, h'⟩
  · rw [if_pos hc]
    obtain ⟨-, rfl⟩ := h'.pure
    exact ⟨.nil, [], rfl, DeclRun.nil s'⟩
  rw [if_neg hc]
  have h'' := h'.bind_check
  change ∃ stmts is, (if decide (s.parser.tokens.current.tokenType = .endOfFile) = true then _
    else _ : SyntaxM Stmts) _ = _ ∧ _
  rcases h''.ite with ⟨hc, h''⟩ | ⟨hc, h''⟩
  · rw [if_pos hc]
    obtain ⟨-, rfl⟩ := h''.pure
    exact ⟨.nil, [], rfl, DeclRun.nil s'⟩
  rw [if_neg hc]
  obtain ⟨_, s₁, h₁, h₂⟩ := h''.bind
  obtain ⟨stmt, i, htok, hrun⟩ := hr.declaration _ _ h₁ hdepth
  obtain ⟨stmts, is, htok', hrest⟩ := hr.blockLoop _ _ h₂ (hdepth.of_emits hrun.emits)
  refine ⟨.cons stmt stmts, i ++ is, ?_, hrun.cons hrest⟩
  rw [SyntaxM.bind_eq htok, SyntaxM.bind_eq htok']
  rfl

theorem armLoop_spec (hr : StmtRoutines r q) [MonoRoutines r] :
    DeclsSpec (armLoop r) (Syntax.armLoop q) := by
  intro s s' h hdepth
  have h' := h.bind_get
  change ∃ stmts is, (if s.parser.tokens.current.tokenType = .rightBrace ∨
    s.parser.tokens.current.tokenType = .case ∨ s.parser.tokens.current.tokenType = .default ∨
    s.parser.tokens.current.tokenType = .endOfFile then _ else _ : SyntaxM Stmts) _ = _ ∧ _
  rcases h'.ite with ⟨hc, h'⟩ | ⟨hc, h'⟩
  · rw [if_pos (by simpa [Parser.check, or_assoc] using hc)]
    obtain ⟨-, rfl⟩ := h'.pure
    exact ⟨.nil, [], rfl, DeclRun.nil s'⟩
  rw [if_neg (by simpa [Parser.check, or_assoc] using hc)]
  obtain ⟨_, s₁, h₁, h₂⟩ := h'.bind
  obtain ⟨stmt, i, htok, hrun⟩ := hr.declaration _ _ h₁ hdepth
  obtain ⟨stmts, is, htok', hrest⟩ := hr.armLoop _ _ h₂ (hdepth.of_emits hrun.emits)
  refine ⟨.cons stmt stmts, i ++ is, ?_, hrun.cons hrest⟩
  rw [SyntaxM.bind_eq htok, SyntaxM.bind_eq htok']
  rfl

theorem programLoop_spec (hr : StmtRoutines r q) [MonoRoutines r] :
    DeclsSpec (programLoop r) (Syntax.programLoop q) := by
  intro s s' h hdepth
  obtain ⟨done, s₁, h₁, h'⟩ := h.bind
  obtain ⟨hdone, p, hp⟩ := h₁.matchToken
  unfold Syntax.programLoop
  rw [SyntaxM.bind_eq hdone]
  have hmove := Emits.of_parser_eq hp
  cases done with
  | true =>
      obtain ⟨-, rfl⟩ := Accepts.pure h'
      refine ⟨.nil, [], rfl, hmove, Laid.of_eq (by rw [hp]) (by rw [hp]),
        fun E loop Γ hc _ => ⟨rfl, ?_⟩⟩
      rw [hc.take_eq (by rw [hp])]
  | false =>
      obtain ⟨_, s₂, h₂, h₃⟩ := Accepts.bind h'
      obtain ⟨stmt, i, htok, hrun⟩ := DeclSpec.of_parser_eq hp
        (hr.declaration _ _ h₂ (hdepth.of_emits hmove))
      obtain ⟨stmts, is, htok', hrest⟩ := hr.programLoop _ _ h₃ (hdepth.of_emits hrun.emits)
      refine ⟨.cons stmt stmts, i ++ is, ?_, hrun.cons hrest⟩
      rw [if_neg (by simp), SyntaxM.bind_eq htok, SyntaxM.bind_eq htok']
      rfl

/-! ### The whole pass -/

variable (parseReal : ParseReal)

theorem stmtRoutines_unfold (hr : StmtRoutines r q) [MonoRoutines r] :
    StmtRoutines (unfoldRoutines r parseReal) (Syntax.unfoldRoutines parseReal q) where
  toExprRoutines := exprRoutines_unfold parseReal hr.toExprRoutines
  declaration := declaration_spec hr
  statement := statement_spec hr
  blockLoop := blockLoop_spec hr
  parameterLoop := parameterLoop_spec hr.parameterLoop
  methodLoop := methodLoop_spec hr.parameterLoop hr.blockLoop hr.methodLoop
  caseLoop := caseLoop_spec hr.toExprRoutines hr.armLoop hr.caseLoop
  armLoop := armLoop_spec hr
  programLoop := programLoop_spec hr

theorem not_accepts_outOfFuel {α : Type} {s s' : CompilerState} {a : α} :
    ¬ Accepts (fun _ => .error .outOfFuel) s a s' := by
  intro h
  have hrun := h.run
  cases hrun

/-- Without fuel nothing is accepted. -/
theorem stmtRoutines_noRoutines : StmtRoutines noRoutines Syntax.noRoutines where
  parsePrecedence _ _ _ h := absurd h not_accepts_outOfFuel
  infixLoop _ _ _ _ h := absurd h not_accepts_outOfFuel
  argumentLoop _ _ _ _ h := absurd h not_accepts_outOfFuel
  listLoop _ _ _ _ _ _ _ h := absurd h not_accepts_outOfFuel
  mapLoop _ _ _ _ _ _ _ h := absurd h not_accepts_outOfFuel
  declaration _ _ h := absurd h not_accepts_outOfFuel
  statement _ _ h := absurd h not_accepts_outOfFuel
  blockLoop _ _ h := absurd h not_accepts_outOfFuel
  parameterLoop _ _ h := absurd h not_accepts_outOfFuel
  methodLoop _ _ h := absurd h not_accepts_outOfFuel
  caseLoop := ⟨fun _ _ _ _ h => absurd h not_accepts_outOfFuel,
    fun _ _ _ _ h => absurd h not_accepts_outOfFuel⟩
  armLoop _ _ h := absurd h not_accepts_outOfFuel
  programLoop _ _ h := absurd h not_accepts_outOfFuel

theorem stmtRoutines (fuel : Nat) :
    StmtRoutines (routines parseReal fuel) (Syntax.routines parseReal fuel) := by
  induction fuel with
  | zero => exact stmtRoutines_noRoutines
  | succ fuel ih => exact stmtRoutines_unfold parseReal ih

theorem tokens_init (tokens : List Token) : (Parser.init tokens).tokens =
    ⟨tokens.headD {}, tokens.headD {}, tokens.tail⟩ := by
  unfold Parser.init Parser.reportErrorToken
  dsimp only
  split
  · split <;> rfl
  · rfl

/-- The first token of a source that is compiled without an error is not reported. -/
theorem not_isReported_of_quiet {tokens : List Token} (h : (Parser.init tokens).Quiet) :
    Syntax.isReported (tokens.headD {}) = false := by
  unfold Parser.init at h
  dsimp only at h
  split at h
  · rename_i herr
    have hno := Accepts.quiet_reportErrorToken ⟨rfl, rfl⟩ h
    rw [Syntax.isReported, hno]
    simp
  · rename_i herr
    rw [Syntax.isReported, decide_eq_false herr]
    rfl

theorem panic_init (tokens : List Token) :
    (Parser.init tokens).panicMode = true → (Parser.init tokens).hadError = true := by
  unfold Parser.init
  dsimp only
  split
  · exact (Parser.le_reportErrorToken _ _).panic nofun
  · nofun

instance (fuel : Nat) : Mono (compileScript parseReal fuel) := by
  unfold compileScript
  infer_instance

theorem stateOk_initialState (source : Bytes) (context : Context) (addr : Addr) :
    StateOk (initialState source context addr) := by
  refine ⟨⟨nofun, ?_, ?_, rfl, nofun⟩, rfl⟩
  · simp [initialState, newFunctionState, maxNumberOfLocalVariables]
  · simp [initialState, newFunctionState]

theorem compileScript_spec {fuel : Nat} {source : Bytes} {context : Context} {addr : Addr}
    (h : Accepts (compileScript parseReal fuel) (initialState source context addr) () s) :
    ∃ program, (Syntax.routines parseReal fuel).programLoop (Parser.init (Lexer.tokens source)).tokens =
        some (program, s.parser.tokens) ∧ ProgramCode s.context.names program s.current.function ∧
      Compiled s.current.function := by
  obtain ⟨_, s₁, h₁, h₂⟩ := h.bind
  obtain ⟨program, is, htok, hrun⟩ := (stmtRoutines parseReal fuel).programLoop _ _ h₁
    fun l hl => (depth_newFunctionState .script addr [] [] l hl).le
  have hw := h₂.emitReturn
  have hok := stateOk_initialState source context addr
  have hall := hrun.emits.trans hw.emits
  have htype : s₁.current.functionType = .script := hrun.emits.type
  rw [htype, ← encodeAll_append] at hall
  refine ⟨program, by rw [hw.parser]; exact htok, ?_⟩
  have henclosing : s.enclosing = [] := List.forall₂_nil_left_iff.mp hall.enclosing
  have hchain : ChainOk s.current s.enclosing := hall.ok hok
  rw [henclosing] at hchain
  have hE : Approximates ⟨.script, s.current.function.constants, [], [], s.context.names⟩ s := by
    refine ⟨(hw.emits.type.trans htype).symm, List.prefix_refl _, ?_, ?_, List.prefix_refl _⟩
    · exact hchain.2 ▸ List.prefix_refl _
    · rw [henclosing]
      exact .nil
  have hΓ := slotsApprox_slotsOf s₁.current.locals
  have hcode := hrun.code _ none _ ⟨hok, hE.of_extends hw.emits.toExtends, hΓ,
    fun hne => absurd rfl hne⟩ (fun hne => absurd rfl hne)
  have hnames := (hΓ.take hrun.emits.locals).names
  rw [show (initialState source context addr).current.locals.map Local.name = [slotZeroName .script]
    from map_name_newFunctionState .script addr [] []] at hnames
  obtain ⟨zero, hzero, hname⟩ := List.map_eq_singleton_iff.mp hnames
  rw [hzero] at hcode
  refine ⟨⟨hall.arity, hall.name, ?_, zero, is, _, hname, hcode, hall.code⟩, ?_⟩
  · rw [hchain.1.count, hchain.2]
    rfl
  · have hreturn := Writes.codeRun (htype ▸ hw) (plain_returnCode .script)
    exact compiled_of_laid (hrun.laid.trans hreturn.laid hrun.emits.ok hw.emits.constants)
      hall.toGrown rfl rfl hok (hall.ok hok) (wellFormed_of_code hcode rfl rfl .script)

/-- A source that is compiled without an error is accepted by the whole pass. -/
theorem accepts_of_compile {fuel : Nat} {source : Bytes} {context : Context} {addr : Addr}
    {f : ObjectFunction} (h : compile parseReal fuel source context addr = .ok (some f, s)) :
    Accepts (compileScript parseReal fuel) (initialState source context addr) () s ∧
      f = s.current.function := by
  unfold compile at h
  split at h
  · rename_i s₂ hrun
    cases hquiet : s₂.parser.hadError with
    | true =>
        rw [hquiet, if_pos rfl] at h
        cases h
    | false =>
    rw [hquiet, if_neg (by simp)] at h
    cases h
    have hle : Parser.Le (Parser.init (Lexer.tokens source)) s.parser :=
      Mono.le (m := compileScript parseReal fuel) _ _ _ hrun
    have hpanic : s.parser.panicMode = false := by
      by_contra hne
      have := hle.panic (panic_init _) (by simpa using hne)
      rw [hquiet] at this
      cases this
    exact ⟨⟨hrun, hle.quiet ⟨hquiet, hpanic⟩ (panic_init _), ⟨hquiet, hpanic⟩⟩, rfl⟩
  · cases h

/-- A source that is compiled without an error has a tree, and the function is its code. -/
theorem compile_code {fuel : Nat} {source : Bytes} {context : Context} {addr : Addr}
    {f : ObjectFunction} (h : compile parseReal fuel source context addr = .ok (some f, s)) :
    ∃ program, Syntax.parse parseReal fuel source = some program ∧
      ProgramCode s.context.names program f := by
  obtain ⟨haccepts, rfl⟩ := accepts_of_compile parseReal h
  obtain ⟨program, htree, hcode, -⟩ := compileScript_spec parseReal haccepts
  refine ⟨program, ?_, hcode⟩
  unfold Syntax.parse
  dsimp only
  rw [if_neg (by rw [not_isReported_of_quiet haccepts.before]; nofun), ← tokens_init, htree]
  rfl

/-- A source that is compiled without an error has well-formed code. -/
theorem compile_compiled {fuel : Nat} {source : Bytes} {context : Context} {addr : Addr}
    {f : ObjectFunction} (h : compile parseReal fuel source context addr = .ok (some f, s)) :
    Compiled f := by
  obtain ⟨haccepts, rfl⟩ := accepts_of_compile parseReal h
  obtain ⟨_, -, -, hcompiled⟩ := compileScript_spec parseReal haccepts
  exact hcompiled

end Compiler

end CppLox
