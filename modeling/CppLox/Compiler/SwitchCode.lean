import CppLox.Compiler.VariableCode

/-!
# Compiler — the code of `switch`

The switch value stays on the stack while the arms are tried.  Each arm takes it as a local of its
own and ends with a jump to the end of the statement, which is patched when all arms are compiled.
-/

namespace CppLox

open CompilerM

set_option synthInstance.maxSize 10000

/-! ### The jumps to the end -/

/-- The arms before their jumps to the end are patched. -/
def rawArms : List (List Instr) → List Instr
  | [] => []
  | arm :: arms => arm ++ [.short .jumpForward 0] ++ rawArms arms

/-- The arms with their jumps to the end, which follows `tail`. -/
def linkArms (tail : List Instr) : List (List Instr) → List Instr
  | [] => tail
  | arm :: arms =>
    arm ++ [.short .jumpForward (codeSize (linkArms tail arms))] ++ linkArms tail arms

/-- The jumps to the end fit their operands. -/
def ExitsFit (tail : List Instr) : List (List Instr) → Prop
  | [] => True
  | _ :: arms => JumpFits (codeSize (linkArms tail arms)) ∧ ExitsFit tail arms

/-- The offsets of the jumps to the end, for arms that start at `n`. -/
def exitOffsets (n : Nat) : List (List Instr) → List Nat
  | [] => []
  | arm :: arms => (n + codeSize arm + 1) :: exitOffsets (n + codeSize arm + 3) arms

theorem codeSize_linkArms (tail : List Instr) (arms : List (List Instr)) :
    codeSize (linkArms tail arms) = codeSize (rawArms arms) + codeSize tail := by
  induction arms with
  | nil => simp [linkArms, rawArms]
  | cons arm arms ih =>
      simp only [linkArms, rawArms, codeSize_append, codeSize_cons, codeSize_nil, Instr.size, ih]
      omega

/-- The code that pops the switch value when no arm was taken. -/
def switchPop (defaultCaseCompiled : Bool) : List Instr :=
  if defaultCaseCompiled then [] else [.op .popTop]

namespace Compiler

variable {r : Routines} {q : SyntaxRoutines} {s s' : CompilerState}

/-- All jumps to the end are patched. -/
theorem patchJumps_spec {code : Env → Option Loop → List Slot → Prop} {tail pre : List Instr}
    {arms : List (List Instr)} {u : Unit} {s₀ : CompilerState}
    (hrun : StmtRun s₀ s (pre ++ (rawArms arms ++ tail)) code)
    (h : Accepts (patchJumps (exitOffsets (s₀.current.function.code.length + codeSize pre) arms))
      s u s') :
    s'.parser = s.parser ∧ ExitsFit tail arms ∧ StmtRun s₀ s' (pre ++ linkArms tail arms) code := by
  induction arms generalizing s pre with
  | nil =>
      obtain ⟨-, rfl⟩ := Accepts.pure h
      exact ⟨rfl, trivial, hrun⟩
  | cons arm arms ih =>
      obtain ⟨_, s₁, h₁, h₂⟩ := h.bind
      -- the first jump is patched; the code behind it is already as long as it will be
      have hsplit : pre ++ (rawArms (arm :: arms) ++ tail) =
          (pre ++ arm) ++ [.short .jumpForward 0] ++ (rawArms arms ++ tail) := by
        simp [rawArms]
      rw [hsplit] at hrun
      obtain ⟨hparser, hfits, hpatched⟩ := hrun.patch h₁ (by
        rw [codeSize_append]
        omega)
      have hsize : codeSize (rawArms arms ++ tail) = codeSize (linkArms tail arms) := by
        rw [codeSize_linkArms, codeSize_append]
      rw [hsize] at hfits hpatched
      obtain ⟨hparser', hfits', hdone⟩ := ih hpatched (by
          convert h₂ using 3
          simp [Instr.size, Nat.add_assoc])
      refine ⟨hparser'.trans hparser, ⟨hfits, hfits'⟩, ?_⟩
      have hlink : pre ++ linkArms tail (arm :: arms) = pre ++ arm ++
          [.short .jumpForward (codeSize (linkArms tail arms))] ++ linkArms tail arms := by
        simp [linkArms]
      rw [hlink]
      exact hdone

/-! ### Arms -/

/-- The state in which an arm is compiled: the switch value is a local in a scope of its own. -/
def enterArm (s : CompilerState) : CompilerState :=
  { s with current := { s.current with
    scopeDepth := s.current.scopeDepth + 1
    locals := s.current.locals ++
      [⟨switchVariableName, s.current.scopeDepth + 1, true, false, false⟩] } }

/-- The part of an arm after its label, with the end of its scope. -/
theorem armBody_spec (ha : DeclsSpec r.armLoop q.armLoop) [MonoRoutines r] {s₁ s₂ : CompilerState}
    {pre : List Instr} {code : Env → List Slot → Prop} (hdepth : DepthOk s.current)
    (hlen : s.current.locals.length ≠ maxNumberOfLocalVariables)
    (hpre : CodeRun (enterArm s) s₁ pre code) (h : Accepts (armBody r) s₁ () s₂) :
    ∃ t body ib captured rest, Syntax.consume .colon s₁.parser.tokens = some ((), t) ∧
      q.armLoop t = some (body, s₂.parser.tokens) ∧
      Keeps s s₂ (pre ++ (ib ++ scopeEnd (⟨switchVariableName, captured⟩ :: rest))) ∧
      s₂.current.frame = s.current.frame ∧
      ∀ E loop Γ, StmtContext E loop Γ s s₂ →
        code E (Γ ++ [⟨switchVariableName, captured⟩]) ∧
        StmtsCode body (placeOf E loop s₁) (Γ ++ [⟨switchVariableName, captured⟩]) ib
          (Γ ++ ⟨switchVariableName, captured⟩ :: rest) := by
  obtain ⟨_, s₃, h₃, h'⟩ := h.bind
  obtain ⟨_, s₄, h₄, h'⟩ := h'.bind_get.bind
  obtain ⟨_, s₅, h₅, h₆⟩ := h'.bind
  obtain ⟨hcolon, p, hp⟩ := h₃.consume
  obtain ⟨-, hs₄⟩ := h₄.reportIf
  rw [hs₄] at h₅
  have henter : DepthOk (enterArm s).current := by
    intro l hl
    rcases List.mem_append.mp hl with hl | hl
    · exact (hdepth l hl).trans (Nat.le_succ _)
    · rw [List.mem_singleton.mp hl]
      exact le_rfl
  have hmove := hpre.move hp
  obtain ⟨body, ib, htok, hbody⟩ := ha _ _ h₅ (henter.of_emits hmove.emits)
  -- the new local is there from the beginning of the scope on
  have hnew : Emits { s with current := { s.current with scopeDepth := s.current.scopeDepth + 1 } }
      (enterArm s) [] :=
    Emits.of_locals rfl (LocalsExtend.append_one s.current.locals
      ⟨switchVariableName, s.current.scopeDepth + 1, true, false, false⟩) fun hle => by
      rw [List.length_append, List.length_singleton]
      dsimp only at hle
      omega
  have hall := (hnew.trans hmove.emits).trans hbody.emits
  rw [List.nil_append, ← encodeAll_append] at hall
  -- the scope is left as it was entered, with the new local and those of the body on top
  have hbegin : Reframes s { s with current := { s.current with
      scopeDepth := s.current.scopeDepth + 1 } } := ⟨_, _, _, _, _, rfl⟩
  have hgrown := hbegin.keeps.toGrown.trans hall.toGrown
  rw [encodeAll_nil, List.nil_append] at hgrown
  have hmark : Laid s (enterArm s) [] := Laid.of_eq rfl rfl
  obtain ⟨hparser, hkeeps, hframe, hlocals₂, hext⟩ := endScope_keeps hgrown
    (hmark.trans (hmove.laid.trans hbody.laid hmove.emits.ok hbody.emits.constants)
      (fun hok => hnew.ok (hbegin.keeps.ok hok)) (hmove.emits.constants.trans hbody.emits.constants))
    hall.locals
    (fun hok => hall.ok (hbegin.keeps.ok hok)) hall.scopeDepth hdepth h₆
  -- the first slot that is dropped is the one of the switch value; a closure may capture it
  have hlast : ∃ captured rest, slotsOf (s₅.current.locals.drop s.current.locals.length) =
      ⟨switchVariableName, captured⟩ :: rest := by
    have hsig := (hmove.emits.trans hbody.emits).locals.signature
    have hnames := SlotsApprox.map_name_of_signature hsig
    have hdrop := congrArg (List.drop s.current.locals.length) hnames
    rw [← List.map_drop, ← List.map_drop, List.drop_take] at hdrop
    have hone : (enterArm s).current.locals.length - s.current.locals.length = 1 := by
      simp [enterArm]
    rw [hone, enterArm, List.drop_left] at hdrop
    cases hl : s₅.current.locals.drop s.current.locals.length with
    | nil => simp [hl] at hdrop
    | cons l rest =>
        rw [hl] at hdrop
        exact ⟨l.isCaptured, slotsOf rest, by simpa [slotsOf] using hdrop⟩
  obtain ⟨captured, rest, hlast⟩ := hlast
  rw [hlast, List.append_assoc] at hkeeps
  refine ⟨_, body, ib, captured, rest, hcolon, by rw [htok, hparser], hkeeps, ?_,
    fun E loop Γ hc => ?_⟩
  · rw [hframe, hall.frame]
    rfl
  · have hslots := hc.slots
    rw [hlocals₂] at hslots
    have happend := hslots.append hall.locals.length_le
    rw [hlast] at happend
    have hE₅ := hc.env.of_extends hext
    have hok := hnew.ok (hbegin.keeps.ok hc.ok)
    obtain ⟨hloop, hbelow⟩ := hc.loop.nest rfl
    have hΓ : Γ.length = s.current.locals.length := by
      rw [hc.slots.length_eq, hkeeps.locals.length_eq]
    -- the slots of the label are those of the body up to the switch value
    have htake : (Γ ++ ⟨switchVariableName, captured⟩ :: rest).take
        (enterArm s).current.locals.length = Γ ++ [⟨switchVariableName, captured⟩] := by
      have hlength : (enterArm s).current.locals.length =
          (Γ ++ [(⟨switchVariableName, captured⟩ : Slot)]).length := by
        rw [List.length_append, hΓ]
        simp [enterArm]
      rw [hlength, List.append_cons Γ _ rest, List.take_left]
    refine ⟨hpre.code E _ hok (hE₅.of_extends ?_) ?_, ?_⟩
    · exact ((Emits.of_parser_eq hp).trans hbody.emits).toExtends
    · rw [← htake]
      exact (happend.take (hmove.emits.trans hbody.emits).locals).view
    · have hcode := hbody.code E loop _ ⟨hmove.emits.ok hok, hE₅, happend,
        (hloop.of_emits (hnew.trans hmove.emits) (.inl hbelow))⟩
        (hbelow.of_emits (hnew.trans hmove.emits))
      have hlocals₃ : s₃.current.locals = (enterArm s).current.locals := hmove.locals
      have hplace : placeOf E loop s₃ = placeOf E loop s₁ := by
        rw [hp]
        rfl
      rw [hlocals₃, htake, hplace] at hcode
      exact hcode

theorem enterArm_eq {s₁ s₂ : CompilerState} {u u' : Unit} (h₁ : Accepts beginScope s u s₁)
    (h₂ : Accepts (addLocal switchVariableName false) s₁ u' s₂) :
    s.current.locals.length ≠ maxNumberOfLocalVariables ∧ s₂ = enterArm s := by
  have hs₁ := h₁.modifyCurrent
  obtain ⟨hlen, hs₂⟩ := addLocal_spec h₂
  rw [hs₁] at hlen hs₂
  exact ⟨hlen, hs₂⟩

/-- The code of a `case` before its jump to the end. -/
def caseCode (il ib : List Instr) : List Instr :=
  [.op .dupTop] ++ il ++ [.op .equal, .short .popJumpIfFalse (codeSize ib + 3)] ++ ib

theorem codeSize_caseCode (il ib : List Instr) :
    codeSize (caseCode il ib) = codeSize il + 5 + codeSize ib := by
  simp [caseCode, Instr.size]
  omega

theorem caseArm_spec (hq : ExprRoutines r q) (ha : DeclsSpec r.armLoop q.armLoop) [MonoRoutines r]
    {b : Bool} {exit : Nat} (hdepth : DepthOk s.current) (h : Accepts (caseArm r b) s exit s') :
    b = false ∧ ∃ label il body ib captured rest t₁ t₂,
      Syntax.expression q s.parser.tokens = some (label, t₁) ∧
      Syntax.consume .colon t₁ = some ((), t₂) ∧ q.armLoop t₂ = some (body, s'.parser.tokens) ∧
      exit = s.current.function.code.length + codeSize (caseCode il
        (ib ++ scopeEnd (⟨switchVariableName, captured⟩ :: rest))) + 1 ∧
      JumpFits (codeSize (ib ++ scopeEnd (⟨switchVariableName, captured⟩ :: rest)) + 3) ∧
      StmtRun s s' (caseCode il (ib ++ scopeEnd (⟨switchVariableName, captured⟩ :: rest)) ++
        [.short .jumpForward 0]) fun E loop Γ =>
          ExprCode E (Γ ++ [⟨switchVariableName, captured⟩]) label il ∧
          StmtsCode body ((placeOf E loop s).nested.after (codeSize il + 5))
            (Γ ++ [⟨switchVariableName, captured⟩]) ib
            (Γ ++ ⟨switchVariableName, captured⟩ :: rest) := by
  obtain ⟨_, s₁, h₁, h'⟩ := h.bind
  obtain ⟨_, s₂, h₂, h'⟩ := h'.bind
  obtain ⟨_, s₃, h₃, h'⟩ := h'.bind
  obtain ⟨_, s₃', h₃', h'⟩ := h'.bind
  obtain ⟨hb, hs₃'⟩ := h₃'.reportIf
  rw [hs₃'] at h'
  obtain ⟨_, s₄, h₄, h'⟩ := h'.bind
  obtain ⟨_, s₅, h₅, h'⟩ := h'.bind
  obtain ⟨skip, s₆, h₆, h'⟩ := h'.bind
  obtain ⟨_, s₇, h₇, h'⟩ := h'.bind
  obtain ⟨exit', s₈, h₈, h'⟩ := h'.bind
  obtain ⟨_, s₉, h₉, h'⟩ := h'.bind
  obtain ⟨rfl, rfl⟩ := h'.pure
  refine ⟨hb, ?_⟩
  have hw₁ := h₁.emitOpcode
  obtain ⟨hlen, hs₃⟩ := enterArm_eq h₂ h₃
  obtain ⟨label, il, htok, -, hrun⟩ := hq.parsePrecedence _ _ _ h₄
  have hw₅ := h₅.emitOpcode
  obtain ⟨hskip, hw₆⟩ := h₆.emitJump
  rw [hs₃] at htok hrun
  -- the test, with its jump over the body still open
  have hequal := hrun.write (w := [.op .equal]) hw₅ (by simp [OpCode.operands])
  have hpre := hequal.write hw₆ (by simp [OpCode.operands])
  have hdup : StmtRun s s₁ [.op .dupTop] fun _ _ _ => True :=
    (Writes.codeRun (w := [.op .dupTop]) hw₁ (by simp [OpCode.operands])).stmtRun
  obtain ⟨t₂, body, ib, captured, rest, hcolon, htokB, hkeeps, hframe, hcode⟩ :=
    armBody_spec ha (hdepth.of_emits hdup.emits) hlen hpre h₇
  obtain ⟨hexit, hw₈⟩ := h₈.emitJump
  have harm : StmtRun s₁ s₇ _ _ := ⟨hkeeps.emits hframe, hkeeps.laid, hkeeps.locals.length_eq, hcode⟩
  have hall := (hdup.trans harm).write hw₈ (by simp [OpCode.operands])
  have hsplit : [.op .dupTop] ++ (il ++ [.op .equal] ++ [.short .popJumpIfFalse 0] ++
        (ib ++ scopeEnd (⟨switchVariableName, captured⟩ :: rest))) ++ [.short .jumpForward 0] =
      [.op .dupTop] ++ il ++ [.op .equal] ++ [.short .popJumpIfFalse 0] ++
        ((ib ++ scopeEnd (⟨switchVariableName, captured⟩ :: rest)) ++
          [.short .jumpForward 0]) := by simp
  rw [hsplit] at hall
  -- where the open jump stands
  have hlen₁ := hw₁.emits.length_code
  have hlen₅ := hequal.emits.length_code
  have hlen₇ := harm.emits.length_code
  have henter : (enterArm s₁).current.function = s₁.current.function := rfl
  simp only [length_encodeAll, codeSize_append, codeSize_cons, codeSize_nil, Instr.size, henter,
    List.length_singleton] at hlen₁ hlen₅ hlen₇
  -- the jump of the test goes behind the jump to the end
  obtain ⟨hparser, hfits, hdone⟩ := StmtRun.patch hall h₉ (by
    rw [hskip, hlen₅, hlen₁]
    simp only [codeSize_append, codeSize_cons, codeSize_nil, Instr.size]
    omega)
  have hsize : codeSize ((ib ++ scopeEnd (⟨switchVariableName, captured⟩ :: rest)) ++
      [.short .jumpForward 0]) =
      codeSize (ib ++ scopeEnd (⟨switchVariableName, captured⟩ :: rest)) + 3 := by
    rw [codeSize_append]
    rfl
  rw [hsize] at hfits hdone
  have hcaseCode : [.op .dupTop] ++ il ++ [.op .equal] ++ [.short .popJumpIfFalse
        (codeSize (ib ++ scopeEnd (⟨switchVariableName, captured⟩ :: rest)) + 3)] ++
        ((ib ++ scopeEnd (⟨switchVariableName, captured⟩ :: rest)) ++ [.short .jumpForward 0]) =
      caseCode il (ib ++ scopeEnd (⟨switchVariableName, captured⟩ :: rest)) ++
        [.short .jumpForward 0] := by simp [caseCode]
  rw [hcaseCode] at hdone
  rw [hw₆.parser, hw₅.parser] at hcolon
  refine ⟨label, il, body, ib, captured, rest, _, t₂, ?_, hcolon, ?_, ?_, hfits,
    hdone.imp fun E loop Γ he => ⟨he.2.1, ?_⟩⟩
  · rw [← hw₁.parser]
    exact htok
  · rw [htokB, hparser, hw₈.parser]
  · rw [hexit, hlen₇, hlen₁, codeSize_caseCode, codeSize_append]
    omega
  · have hplace : placeOf E loop s₆ = (placeOf E loop s).nested.after (codeSize il + 5) := by
      have hlen₆ := hw₆.emits.length_code
      have hscope₆ := hpre.emits.scopeDepth
      simp only [length_encodeAll, codeSize_cons, codeSize_nil, Instr.size] at hlen₆
      have henter' : (enterArm s₁).current.scopeDepth = s.current.scopeDepth + 1 :=
        congrArg (· + 1) hw₁.emits.scopeDepth
      rw [henter'] at hscope₆
      simp only [placeOf, Place.nested, Place.after, hscope₆, hlen₆, hlen₅, hlen₁, Place.mk.injEq,
        true_and]
      omega
    rw [← hplace]
    exact he.2.2

theorem defaultArm_spec (ha : DeclsSpec r.armLoop q.armLoop) [MonoRoutines r] {b : Bool} {exit : Nat}
    (hdepth : DepthOk s.current) (h : Accepts (defaultArm r b) s exit s') :
    b = false ∧ ∃ body ib captured rest t, Syntax.consume .colon s.parser.tokens = some ((), t) ∧
      q.armLoop t = some (body, s'.parser.tokens) ∧
      exit = s.current.function.code.length +
        codeSize (ib ++ scopeEnd (⟨switchVariableName, captured⟩ :: rest)) + 1 ∧
      StmtRun s s' (ib ++ scopeEnd (⟨switchVariableName, captured⟩ :: rest) ++
        [.short .jumpForward 0]) fun E loop Γ =>
          StmtsCode body (placeOf E loop s).nested (Γ ++ [⟨switchVariableName, captured⟩]) ib
            (Γ ++ ⟨switchVariableName, captured⟩ :: rest) := by
  obtain ⟨_, s₁, h₁, h'⟩ := h.bind
  obtain ⟨_, s₂, h₂, h'⟩ := h'.bind
  obtain ⟨_, s₃, h₃, h'⟩ := h'.bind
  obtain ⟨hb, hs₃⟩ := h₃.reportIf
  rw [hs₃] at h'
  obtain ⟨_, s₄, h₄, h₅⟩ := h'.bind
  obtain ⟨hlen, hs₂⟩ := enterArm_eq h₁ h₂
  obtain ⟨t, body, ib, captured, rest, hcolon, htok, hkeeps, hframe, hcode⟩ :=
    armBody_spec ha hdepth hlen (CodeRun.of_parser_eq
      (show s₂ = { enterArm s with parser := (enterArm s).parser } from hs₂)) h₄
  obtain ⟨hexit, hw⟩ := h₅.emitJump
  rw [hs₂] at hcolon
  have harm : StmtRun s s₄ _ _ := ⟨hkeeps.emits hframe, hkeeps.laid, hkeeps.locals.length_eq, hcode⟩
  rw [List.nil_append] at harm
  refine ⟨hb, body, ib, captured, rest, t, hcolon, by rw [htok, hw.parser], ?_,
    (harm.write hw (by simp [OpCode.operands])).imp fun E loop Γ he => ?_⟩
  · rw [hexit, harm.emits.length_code, length_encodeAll]
  · rw [hs₂] at he
    exact he.2

/-! ### The statement -/

/-- A routine that compiles the arms of a `switch`.  After a `default` there is no further arm. -/
structure CasesSpec (m : List Nat → Bool → CompilerM (Option (List Nat × Bool)))
    (p : SyntaxM Cases) : Prop where
  arms : ∀ exits s out s', Accepts (m exits false) s out s' → DepthOk s.current →
    ∃ cases arms b, p s.parser.tokens = some (cases, s'.parser.tokens) ∧
      out = some (exits ++ exitOffsets s.current.function.code.length arms, b) ∧
      StmtRun s s' (rawArms arms) fun E loop Γ => ExitsFit (switchPop b) arms →
        CasesCode cases (placeOf E loop s) Γ (linkArms (switchPop b) arms)
  done : ∀ exits s out s', Accepts (m exits true) s out s' → DepthOk s.current →
    out = some (exits, true) ∧ s' = s

theorem caseLoop_done (hq : ExprRoutines r q) (ha : DeclsSpec r.armLoop q.armLoop) [MonoRoutines r]
    {exits : List Nat} {out : Option (List Nat × Bool)} (hdepth : DepthOk s.current)
    (h : Accepts (caseLoop r exits true) s out s') : out = some (exits, true) ∧ s' = s := by
  rcases h.bind_check.ite with ⟨-, h'⟩ | ⟨-, h'⟩
  · exact h'.pure
  rcases h'.bind_check.ite with ⟨-, h'⟩ | ⟨-, h'⟩
  · exact h'.pure
  obtain ⟨case, s₁, h₁, h'⟩ := h'.bind
  obtain ⟨-, p₁, hp₁⟩ := h₁.matchToken
  have hdepth₁ : DepthOk s₁.current := by
    rw [hp₁]
    exact hdepth
  cases case with
  -- a second `default` and a `case` behind it are errors, so the compilation is not accepted
  | true =>
      obtain ⟨exit, s₂, h₂, -⟩ := Accepts.bind h'
      cases (caseArm_spec hq ha hdepth₁ h₂).1
  | false =>
      obtain ⟨default, s₂, h₂, h'⟩ := Accepts.bind h'
      obtain ⟨-, p₂, hp₂⟩ := h₂.matchToken
      cases default with
      | true =>
          obtain ⟨exit, s₃, h₃, -⟩ := Accepts.bind h'
          cases (defaultArm_spec ha (by rw [hp₂]; exact hdepth₁) h₃).1
      | false =>
          obtain ⟨_, s₃, h₃, -⟩ := Accepts.bind h'
          exact absurd h₃ Accepts.not_reportError

/-- No further arm. -/
theorem casesSpec_nil {exits : List Nat} {out : Option (List Nat × Bool)}
    (h : Accepts (pure (some (exits, false)) : CompilerM (Option (List Nat × Bool))) s out s') :
    ∃ cases arms b, (pure .nil : SyntaxM Cases) s.parser.tokens = some (cases, s'.parser.tokens) ∧
      out = some (exits ++ exitOffsets s.current.function.code.length arms, b) ∧
      StmtRun s s' (rawArms arms) fun E loop Γ => ExitsFit (switchPop b) arms →
        CasesCode cases (placeOf E loop s) Γ (linkArms (switchPop b) arms) := by
  obtain ⟨rfl, rfl⟩ := h.pure
  refine ⟨.nil, [], false, rfl, by rw [exitOffsets, List.append_nil], ?_⟩
  exact (CodeRun.of_parser_eq (p := s'.parser) rfl).stmtRun.imp fun _ _ _ _ _ => rfl

theorem caseLoop_spec (hq : ExprRoutines r q) (ha : DeclsSpec r.armLoop q.armLoop)
    (hc : CasesSpec r.caseLoop q.caseLoop) [MonoRoutines r] :
    CasesSpec (caseLoop r) (Syntax.caseLoop q) where
  done exits s out s' h hdepth := caseLoop_done hq ha hdepth h
  arms exits s out s' h hdepth := by
    have h' := h.bind_check
    change ∃ cases arms b, (if decide (s.parser.tokens.current.tokenType = .rightBrace) = true then _
      else _ : SyntaxM Cases) _ = _ ∧ _
    rcases h'.ite with ⟨hif, h'⟩ | ⟨hif, h'⟩
    · rw [if_pos hif]
      exact casesSpec_nil h'
    rw [if_neg hif]
    have h'' := h'.bind_check
    change ∃ cases arms b, (if decide (s.parser.tokens.current.tokenType = .endOfFile) = true then _
      else _ : SyntaxM Cases) _ = _ ∧ _
    rcases h''.ite with ⟨hif, h''⟩ | ⟨hif, h''⟩
    · rw [if_pos hif]
      exact casesSpec_nil h''
    rw [if_neg hif]
    obtain ⟨case, s₁, h₁, h'⟩ := h''.bind
    obtain ⟨hcase, p₁, hp₁⟩ := h₁.matchToken
    rw [SyntaxM.bind_eq hcase]
    have hmove₁ := CodeRun.of_parser_eq hp₁
    have hdepth₁ := hdepth.of_emits hmove₁.emits
    have hlen₁ : s₁.current.function.code.length = s.current.function.code.length := by rw [hp₁]
    have hplace₁ : ∀ E loop, placeOf E loop s₁ = placeOf E loop s := fun E loop => by
      rw [hp₁]
      rfl
    cases case with
    | true =>
        obtain ⟨exit, s₂, h₂, h₃⟩ := Accepts.bind h'
        obtain ⟨-, label, il, body, ib, captured, rest, t₁, t₂, htok₁, hcolon, htok₂, hexit, hfits,
          harm⟩ := caseArm_spec hq ha hdepth₁ h₂
        -- the other arms are those of the recursive call
        obtain ⟨cases, arms, b, htok₃, hout, hrest⟩ :=
          hc.arms _ _ _ _ h₃ (hdepth₁.of_emits harm.emits)
        have hlen₂ := harm.emits.length_code
        rw [length_encodeAll, codeSize_append, codeSize_cons, codeSize_nil, Instr.size] at hlen₂
        refine ⟨.case label body cases, _ :: arms, b, ?_, ?_,
          ((hmove₁.stmtRun.trans harm).trans hrest).imp fun E loop Γ he hexits => ?_⟩
        · rw [if_pos rfl, SyntaxM.bind_eq htok₁, SyntaxM.bind_eq hcolon, SyntaxM.bind_eq htok₂,
            SyntaxM.bind_eq htok₃]
          rfl
        · rw [hout, hexit, hlen₂, hlen₁, List.append_assoc]
          rfl
        · obtain ⟨⟨-, hlabel, hbody⟩, hcases⟩ := he
          rw [hplace₁] at hbody
          have hplace₂ : placeOf E loop s₂ = (placeOf E loop s).after (codeSize il + 5 +
              codeSize (ib ++ scopeEnd (⟨switchVariableName, captured⟩ :: rest)) + 3) := by
            rw [← placeOf_after harm.emits, hplace₁, codeSize_append, codeSize_caseCode]
            rfl
          rw [hplace₂] at hcases
          refine ⟨il, ib, Γ ++ ⟨switchVariableName, captured⟩ :: rest, captured,
            linkArms (switchPop b) arms, hlabel, hbody, ?_⟩
          rw [List.drop_left]
          exact ⟨hcases hexits.2, hfits, hexits.1, rfl⟩
    | false =>
        obtain ⟨default, s₂, h₂, h'⟩ := Accepts.bind h'
        obtain ⟨hdefault, p₂, hp₂⟩ := h₂.matchToken
        rw [if_neg (by simp), SyntaxM.bind_eq hdefault]
        have hmove₂ := CodeRun.of_parser_eq hp₂
        have hdepth₂ := hdepth₁.of_emits hmove₂.emits
        have hlen₂ : s₂.current.function.code.length = s₁.current.function.code.length := by rw [hp₂]
        cases default with
        | true =>
            obtain ⟨exit, s₃, h₃, h₄⟩ := Accepts.bind h'
            obtain ⟨-, body, ib, captured, rest, t, hcolon, htok, hexit, harm⟩ :=
              defaultArm_spec ha hdepth₂ h₃
            -- no arm follows a `default`
            obtain ⟨hout, hs'⟩ := hc.done _ _ _ _ h₄ (hdepth₂.of_emits harm.emits)
            rw [hs']
            refine ⟨.default body, [ib ++ scopeEnd (⟨switchVariableName, captured⟩ :: rest)], true, ?_,
              ?_, ?_⟩
            · rw [if_pos rfl, SyntaxM.bind_eq hcolon, SyntaxM.bind_eq htok]
              rfl
            · rw [hout, hexit, hlen₂, hlen₁]
              rfl
            · have hall := (hmove₁.stmtRun.trans hmove₂.stmtRun).trans harm
              refine ⟨by simpa [rawArms] using hall.emits, by simpa [rawArms] using hall.laid,
                hall.length, fun E loop Γ hcx _ => ?_⟩
              have hbody := (hall.code E loop Γ hcx).2
              refine ⟨ib, Γ ++ ⟨switchVariableName, captured⟩ :: rest, captured, ?_, ?_⟩
              · rw [hp₂] at hbody
                exact hplace₁ E loop ▸ hbody
              · rw [List.drop_left]
                simp [linkArms, switchPop]
        | false =>
            obtain ⟨_, s₃, h₃, -⟩ := Accepts.bind h'
            exact absurd h₃ Accepts.not_reportError

theorem switchStatement_spec (hq : ExprRoutines r q) (hc : CasesSpec r.caseLoop q.caseLoop)
    [MonoRoutines r] : StmtSpec (switchStatement r) (Syntax.switchStatement q) := by
  intro s s' h hdepth
  obtain ⟨_, s₁, h₁, h'⟩ := h.bind
  obtain ⟨_, s₂, h₂, h'⟩ := h'.bind
  obtain ⟨out, s₃, h₃, h₄⟩ := h'.bind
  obtain ⟨e, ie, htok, -, hrun⟩ := hq.parsePrecedence _ _ _ h₁
  obtain ⟨hleft, p, hp⟩ := h₂.consume
  have hvalue := hrun.move hp
  obtain ⟨cases, arms, b, htok', hout, harms⟩ := hc.arms _ _ _ _ h₃ (hdepth.of_emits hvalue.emits)
  rw [hout] at h₄
  obtain ⟨_, s₄, h₅, h'⟩ := Accepts.bind h₄
  obtain ⟨_, s₅, h₆, h₇⟩ := Accepts.bind h'
  -- the value is popped only if there is no `default`, in which case no arm may be taken
  have hw : Writes s₃ s₄ (encodeAll (switchPop b)) := by
    cases b with
    | true =>
        obtain ⟨-, rfl⟩ := Accepts.pure h₅
        exact Writes.refl s₄
    | false => exact Accepts.emitOpcode h₅
  obtain ⟨hright, p', hp'⟩ := h₆.consume
  have hall := ((hvalue.stmtRun.trans harms).write hw
    (by cases b <;> simp [switchPop, OpCode.operands])).move hp'
  rw [List.append_assoc] at hall
  have hlen := hvalue.emits.length_code
  rw [length_encodeAll] at hlen
  rw [List.nil_append, hlen] at h₇
  obtain ⟨hparser, hexits, hdone⟩ := patchJumps_spec hall h₇
  refine ⟨.switch e cases, _, ?_, hdone.imp fun E loop Γ he => ?_⟩
  · unfold Syntax.switchStatement Syntax.expression
    rw [hw.parser] at hright
    rw [SyntaxM.bind_eq htok, SyntaxM.bind_eq hleft, SyntaxM.bind_eq htok', SyntaxM.bind_eq hright,
      hparser]
    rfl
  · refine ⟨ie, _, he.1, ?_, rfl, rfl⟩
    have hcode := he.2 hexits
    rw [← placeOf_after hvalue.emits] at hcode
    exact hcode

end Compiler

end CppLox
