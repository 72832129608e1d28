import CppLox.Compiler.FunctionCode

/-!
# Compiler — the code of classes

The class is defined first and loaded again for its methods.  A superclass lives in a scope of its
own as the local `super`, which the methods capture and `end_super_scope` ends.
-/

namespace CppLox

open CompilerM

set_option synthInstance.maxSize 10000

theorem Declared.codeRun {s s₁ s₂ : CompilerState} {x : Bytes} {i : Nat}
    {code : Env → List Slot → Prop} (hd : Declared s s₁ x i) (h : CodeRun s₁ s₂ [] code) :
    Declared s s₂ x i where
  emits := hd.emits.trans h.emits
  laid := hd.laid.trans h.laid hd.emits.ok h.emits.constants
  global hzero := by
    obtain ⟨hlocals, hglobal⟩ := hd.global hzero
    exact ⟨h.locals.trans hlocals, fun E hok hE => hglobal E hok (hE.of_extends h.emits.toExtends)⟩
  inScope hne := by
    rw [h.locals]
    exact hd.inScope hne

/-- The code of a class after its definition. -/
def ClassRestCode (E : Env) (Γ : List Slot) (x : Bytes) (methods : Methods) :
    Option Bytes → List Instr → Prop
  | none, is => ∃ ref im, Resolves E Γ x ref ∧ MethodsCode methods E Γ im ∧
      is = [ref.load] ++ im ++ [.op .popTop]
  | some y, is => ∃ ref ref' superRef captured im, Resolves E Γ y superRef ∧
      Resolves E (Γ ++ [⟨superName, captured⟩]) x ref ∧
      Resolves E (Γ ++ [⟨superName, captured⟩]) x ref' ∧
      MethodsCode methods E (Γ ++ [⟨superName, captured⟩]) im ∧
      is = [superRef.load, ref.load, .op .inherit, ref'.load] ++ im ++ [.op .popTop] ++
        scopeEnd [⟨superName, captured⟩]

namespace Compiler

variable {r : Routines} {q : SyntaxRoutines} {s s' : CompilerState}

/-- The class is loaded and its methods are added to it. -/
theorem classMethods_spec (hm : MethodsSpec r.methodLoop q.methodLoop) [MonoRoutines r]
    {token : Token} {m : CompilerM Unit} [Mono m] (h : Accepts (do
      namedVariable r token false
      classBody r
      m) s () s') :
    ∃ ref methods im s₁ t₁ t₂, Syntax.consume .leftBrace s.parser.tokens = some ((), t₁) ∧
      q.methodLoop t₁ = some (methods, t₂) ∧
      Syntax.consume .rightBrace t₂ = some ((), s₁.parser.tokens) ∧
      SlotRun s s₁ ([ref.load] ++ im ++ [.op .popTop]) (fun E Γ =>
        Resolves E Γ token.lexeme ref ∧ MethodsCode methods E Γ im) ∧ Accepts m s₁ () s' := by
  obtain ⟨_, s₁, h₁, h'⟩ := h.bind
  obtain ⟨_, s₅, h₂, h₆⟩ := h'.bind
  obtain ⟨_, s₂, h₂, h'⟩ := h₂.bind
  obtain ⟨_, s₃, h₃, h'⟩ := h'.bind
  obtain ⟨_, s₄, h₄, h₅⟩ := h'.bind
  obtain ⟨hparser, ref, hload⟩ := codeRun_load h₁
  obtain ⟨hleft, p₂, hp₂⟩ := h₂.consume
  obtain ⟨methods, im, htok, hmethods⟩ := hm _ _ h₃
  obtain ⟨hright, p₄, hp₄⟩ := h₄.consume
  have hw := h₅.emitOpcode
  rw [hparser] at hleft
  refine ⟨ref, methods, im, s₅, _, _, hleft, htok, by rw [hright, hw.parser],
    ((((hload.move hp₂).slotRun.trans hmethods).trans (((CodeRun.of_parser_eq hp₄).write
      (w := [.op .popTop]) hw (by simp [OpCode.operands])).slotRun)).imp fun E Γ he => he.1), h₆⟩

/-- The state in which the methods of a class with a superclass are compiled: the local `super` is in
a scope of its own. -/
def enterSuper (s : CompilerState) : CompilerState :=
  { s with current := { s.current with
    scopeDepth := s.current.scopeDepth + 1
    locals := s.current.locals ++ [⟨superName, s.current.scopeDepth + 1, false, true, false⟩]
    enclosingClass := true :: s.current.enclosingClass.tail } }

theorem superClause_spec [MonoRoutines r] {token : Token}
    (h : Accepts (superClause r token) s () s') :
    (Syntax.superClause s.parser.tokens = some (none, s'.parser.tokens) ∧
      ∃ p, s' = { s with parser := p }) ∨
    ∃ y superRef ref s₁, Syntax.superClause s.parser.tokens = some (some y, s'.parser.tokens) ∧
      CodeRun s s₁ [superRef.load] (fun E Γ => Resolves E Γ y superRef) ∧
      s₁.current.locals.length ≠ maxNumberOfLocalVariables ∧
      CodeRun (enterSuper s₁) s' [ref.load, .op .inherit] fun E Γ => Resolves E Γ token.lexeme ref := by
  obtain ⟨colon, s₁, h₁, h'⟩ := h.bind
  obtain ⟨hcolon, p₁, hp₁⟩ := h₁.matchToken
  unfold Syntax.superClause
  rw [SyntaxM.bind_eq hcolon]
  cases colon with
  | false =>
      obtain ⟨-, rfl⟩ := Accepts.pure h'
      exact .inl ⟨rfl, p₁, hp₁⟩
  | true =>
      obtain ⟨_, s₂, h₂, h'⟩ := Accepts.bind h'
      obtain ⟨_, s₃, h₃, h'⟩ := h'.bind
      obtain ⟨_, s₄, h₄, h'⟩ := h'.bind_previous.bind
      obtain ⟨_, s₅, h₅, h'⟩ := h'.bind
      obtain ⟨_, s₆, h₆, h'⟩ := h'.bind
      obtain ⟨_, s₇, h₇, h'⟩ := h'.bind
      obtain ⟨_, s₈, h₈, h'⟩ := h'.bind
      obtain ⟨_, s₉, h₉, h₁₀⟩ := h'.bind
      obtain ⟨hident, p₂, hp₂⟩ := h₂.consume
      obtain ⟨hparser₃, superRef, hload⟩ := codeRun_load h₃.bind_previous
      obtain ⟨-, hs₄⟩ := h₄.reportIf
      have hs₅ := h₅.modifyCurrent
      obtain ⟨hlen, hs₆⟩ := addLocal_spec h₆
      have hs₈ := h₈.modifyCurrent
      obtain ⟨hparser₉, ref, hload'⟩ := codeRun_load h₉
      have hw := h₁₀.emitOpcode
      -- `super` is a local of a scope that was just opened, so it is not global
      have hs₇ : s₇ = { s₆ with current := { s₆.current with
          locals := setLastInitialized s₆.current.locals } } := by
        rcases h₇.ite with ⟨hgt, -⟩ | ⟨-, h₇⟩
        · omega
        rcases h₇.bind_get.ite with ⟨-, h₇⟩ | ⟨hzero, -⟩
        · exact h₇.modifyCurrent
        · rw [hs₆, hs₅] at hzero
          simp at hzero
      have henter : s₈ = enterSuper s₃ := by
        rw [hs₈, hs₇, hs₆, hs₅, hs₄]
        dsimp only
        rw [setLastInitialized_append]
        rfl
      refine .inr ⟨s₂.parser.tokens.previous.lexeme, superRef, ref, s₃, ?_, ?_, ?_, ?_⟩
      · rw [if_pos rfl]
        unfold Syntax.name
        rw [SyntaxM.bind_eq (SyntaxM.bind_eq hident), hw.parser, hparser₉, henter]
        change _ = some (_, s₃.parser.tokens)
        rw [hparser₃]
        rfl
      · exact (((CodeRun.of_parser_eq hp₁).move hp₂).trans hload).imp fun _ _ => And.right
      · rw [hs₅, hs₄] at hlen
        exact hlen
      · rw [← henter]
        exact hload'.write (w := [.op .inherit]) hw (by simp [OpCode.operands])

theorem endSuperScope_spec {u : Unit} (h : Accepts endSuperScope s u s') :
    s.current.enclosingClass.headD false = true ∧ Accepts endScope s u s' ∨
      s.current.enclosingClass.headD false = false ∧ s' = s := by
  rcases h.bind_get.ite with ⟨hc, h'⟩ | ⟨hc, h'⟩
  · exact .inl ⟨hc, h'⟩
  · exact .inr ⟨by simpa using hc, h'.pure.2⟩

/-- The scope of `super`, from its beginning to its end. -/
theorem superScope_spec {s₁ s₂ s₃ : CompilerState} {is is' : List Instr}
    {code code' : Env → List Slot → Prop} {u : Unit} (hdepth : DepthOk s.current)
    (hlen : s.current.locals.length ≠ maxNumberOfLocalVariables)
    (h₁ : CodeRun (enterSuper s) s₁ is code) (h₂ : SlotRun s₁ s₂ is' code')
    (h₃ : Accepts endScope s₂ u s₃) :
    ∃ captured, s₃.parser = s₂.parser ∧
      Keeps s s₃ (is ++ is' ++ scopeEnd [⟨superName, captured⟩]) ∧
      s₃.current.frame = { s.current with
        enclosingClass := true :: s.current.enclosingClass.tail : FunctionState }.frame ∧
      ∀ E Γ, StateOk s → Approximates E s₃ → SlotsApprox Γ s₃.current.locals →
        code E (Γ ++ [⟨superName, captured⟩]) ∧ code' E (Γ ++ [⟨superName, captured⟩]) := by
  have hrun := h₁.slotRun.trans h₂
  have hone := LocalsExtend.append_one s.current.locals
    ⟨superName, s.current.scopeDepth + 1, false, true, false⟩
  have hstay := hrun.emits.locals.stay hrun.length
  have hlocals : LocalsExtend (s.current.scopeDepth + 1) s.current.locals s₂.current.locals :=
    hone.trans (hstay.extend _)
  have hok : StateOk s → StateOk (enterSuper s) := by
    intro hs
    obtain ⟨hnum, hloc, hup, hcount, hfun⟩ := ChainOk.compilerOk hs
    refine ChainOk.of_upvalues_eq hs ⟨hnum, ?_, hup, hcount, hfun⟩ rfl
    simp only [enterSuper, List.length_append, List.length_singleton]
    omega
  have hgrown : Grown s s₂ (encodeAll (is ++ is')) :=
    (Grown.of_current (show enterSuper s = { s with current := (enterSuper s).current } from rfl)
      rfl rfl rfl).trans hrun.emits.toGrown
  have henter : Laid s (enterSuper s) [] := Laid.of_eq rfl rfl
  obtain ⟨hparser, hkeeps, hframe, hlocals₃, hext⟩ := endScope_keeps hgrown
    (henter.trans hrun.laid hok hrun.emits.constants) hlocals
    (fun hs => hrun.emits.ok (hok hs)) (hrun.emits.scopeDepth.trans rfl) hdepth h₃
  -- the one slot of the scope is `super`, which a method may have captured
  have hlast : ∃ captured, slotsOf (s₂.current.locals.drop s.current.locals.length) =
      [⟨superName, captured⟩] := by
    have hnames := SlotsApprox.map_name_of_signature hstay.signature
    have hdrop := congrArg (List.drop s.current.locals.length) hnames
    rw [← List.map_drop, ← List.map_drop, enterSuper, List.drop_left] at hdrop
    obtain ⟨l, hl, hname⟩ := List.map_eq_singleton_iff.mp hdrop
    rw [hl]
    exact ⟨l.isCaptured, by simp [slotsOf, hname]⟩
  obtain ⟨captured, hlast⟩ := hlast
  rw [hlast] at hkeeps
  refine ⟨captured, hparser, hkeeps, ?_, fun E Γ hs hE hΓ => ?_⟩
  · rw [hframe, hrun.emits.frame]
    rfl
  · rw [hlocals₃] at hΓ
    have happend := hΓ.append hlocals.length_le
    rw [hlast] at happend
    exact hrun.code E _ (hok hs) (hE.of_extends hext) happend

/-- A class after its definition. -/
theorem classRest_spec (hm : MethodsSpec r.methodLoop q.methodLoop) [MonoRoutines r] {token : Token}
    (hdepth : DepthOk s.current) (h : Accepts (do
      modifyCurrent fun c => { c with enclosingClass := false :: c.enclosingClass }
      superClause r token
      namedVariable r token false
      classBody r
      endSuperScope
      modifyCurrent fun c => { c with enclosingClass := c.enclosingClass.tail }) s () s') :
    ∃ superclass methods is t₁ t₂ t₃,
      Syntax.superClause s.parser.tokens = some (superclass, t₁) ∧
      Syntax.consume .leftBrace t₁ = some ((), t₂) ∧ q.methodLoop t₂ = some (methods, t₃) ∧
      Syntax.consume .rightBrace t₃ = some ((), s'.parser.tokens) ∧
      SlotRun s s' is fun E Γ => ClassRestCode E Γ token.lexeme methods superclass is := by
  obtain ⟨_, s₁, h₁, h'⟩ := h.bind
  obtain ⟨_, s₂, h₂, h'⟩ := h'.bind
  obtain ⟨ref', methods, im, s₃, t₁, t₂, hleft, htok, hright, hmethods, h'⟩ := classMethods_spec hm h'
  obtain ⟨_, s₄, h₄, h₅⟩ := h'.bind
  have hs₁ := h₁.modifyCurrent
  have hs' := h₅.modifyCurrent
  have hbegin : Reframes s s₁ := ⟨_, _, _, _, _, hs₁⟩
  have hend : Reframes s₄ s' := ⟨_, _, _, _, _, hs'⟩
  rcases superClause_spec h₂ with ⟨hsuper, p, hp⟩ | ⟨y, superRef, ref, s₅, hsuper, hload, hlen, hload'⟩
  · rw [hbegin.parser] at hsuper
    -- without a superclass there is no scope of `super` to end
    have hclass : s₃.current.enclosingClass = false :: s.current.enclosingClass := by
      rw [hmethods.emits.enclosingClass, hp, hs₁]
    rcases endSuperScope_spec h₄ with ⟨hc, -⟩ | ⟨-, hs₄⟩
    · rw [hclass] at hc
      cases hc
    rw [hs₄] at hend hs'
    have hkeeps := ((hbegin.keeps.trans (CodeRun.of_parser_eq hp).keeps).trans
      (hmethods.emits.keeps hmethods.laid hmethods.length)).trans hend.keeps
    rw [List.append_nil, List.nil_append, List.nil_append] at hkeeps
    refine ⟨none, methods, _, _, _, _, hsuper, hleft, htok, by rw [hright, hend.parser],
      hkeeps.emits ?_, hkeeps.laid, hkeeps.locals.length_eq, fun E Γ hok hE hΓ => ?_⟩
    · have hframe := hmethods.emits.frame
      rw [hp, hs₁] at hframe
      rw [hs']
      simp only [FunctionState.frame, Prod.mk.injEq] at hframe ⊢
      simp [hframe]
    · have hslots : SlotsApprox Γ s₃.current.locals := by rwa [hs'] at hΓ
      obtain ⟨href, hcode⟩ := hmethods.code E Γ ((Emits.of_parser_eq hp).ok (hbegin.keeps.ok hok))
        (hE.of_extends hend.keeps.toExtends) hslots
      exact ⟨ref', im, href, hcode, rfl⟩
  · rw [hbegin.parser] at hsuper
    -- with one its scope ends behind the methods
    have hclass : s₃.current.enclosingClass = true :: s.current.enclosingClass := by
      rw [hmethods.emits.enclosingClass, hload'.emits.enclosingClass]
      change true :: s₅.current.enclosingClass.tail = _
      rw [hload.emits.enclosingClass, hs₁]
      rfl
    rcases endSuperScope_spec h₄ with ⟨-, h₄⟩ | ⟨hc, -⟩
    · have hdepth₅ : DepthOk s₅.current := by
        refine DepthOk.of_emits ?_ hload.emits
        rw [hs₁]
        exact hdepth
      obtain ⟨captured, hparser, hscope, hframe, hcode⟩ :=
        superScope_spec hdepth₅ hlen hload' hmethods h₄
      have hkeeps := ((hbegin.keeps.trans hload.keeps).trans hscope).trans hend.keeps
      rw [List.append_nil, List.nil_append] at hkeeps
      refine ⟨some y, methods, _, _, _, _, hsuper, hleft, htok, by rw [hright, hend.parser, hparser],
        hkeeps.emits ?_, hkeeps.laid, hkeeps.locals.length_eq, fun E Γ hok hE hΓ => ?_⟩
      · have hframe₅ := hload.emits.frame
        rw [hs₁] at hframe₅
        rw [hs']
        simp only [FunctionState.frame, Prod.mk.injEq] at hframe hframe₅ ⊢
        simp [hframe, hframe₅]
      · have hE₄ := hE.of_extends hend.keeps.toExtends
        have hslots : SlotsApprox Γ s₄.current.locals := by rwa [hs'] at hΓ
        have hok₁ := hbegin.keeps.ok hok
        obtain ⟨href, href', hcode'⟩ := hcode E Γ (hload.emits.ok hok₁) hE₄ hslots
        have hslots₅ := hslots.of_stay hscope.locals
        rw [hload.locals] at hslots₅
        refine ⟨ref, ref', superRef, captured, im,
          hload.code E Γ hok₁ (hE₄.of_extends hscope.toExtends) hslots₅.view, href, href', hcode', ?_⟩
        simp
    · rw [hclass] at hc
      cases hc

theorem classDeclaration_spec (hm : MethodsSpec r.methodLoop q.methodLoop) [MonoRoutines r] :
    DeclSpec (classDeclaration r) (Syntax.classDeclaration q) := by
  intro s s' h hdepth
  obtain ⟨i, s₁, h₁, h'⟩ := h.bind
  obtain ⟨k, s₂, h₂, h'⟩ := h'.bind_previous.bind_internString.bind
  obtain ⟨_, s₃, h₃, h'⟩ := h'.bind
  obtain ⟨_, s₄, h₄, h'⟩ := h'.bind
  obtain ⟨_, s₅, h₅, h'⟩ := h'.bind
  obtain ⟨x, hname, hx, hd₁, -⟩ := parseVariable_spec h₁
  obtain ⟨hk, hparser₂, hconst⟩ := h₂.addConstant nofun
  obtain ⟨hparser₃, hext₃, hd₃⟩ := markInitialized_spec (hd₁.codeRun hconst) h₃
  have hw := h₄.emitConstantOp
  have hclass := Writes.codeRun (w := [.short .class k]) hw (by simp [OpCode.operands])
  obtain ⟨id, hparser₅, hemits, hlaid, hext, hslots, hdefine⟩ :=
    defineVariable_spec hd₃ hw.emits hclass.laid (by rw [hw.locals]) h₅
  obtain ⟨superclass, methods, is, t₁, t₂, t₃, hsuper, hleft, htok, hright, hrest⟩ :=
    classRest_spec hm (hdepth.of_emits hemits) h'
  have hparser : s₅.parser = s₁.parser := by rw [hparser₅, hw.parser, hparser₃, hparser₂]
  have hall := hemits.trans hrest.emits
  rw [← encodeAll_append] at hall
  refine ⟨.class x superclass methods, _, ?_, hall,
    hlaid.trans hrest.laid hemits.ok hrest.emits.constants, fun E loop Γ hc _ => ?_⟩
  · unfold Syntax.classDeclaration
    rw [hparser] at hsuper
    rw [SyntaxM.bind_eq hname, SyntaxM.bind_eq hsuper, SyntaxM.bind_eq hleft, SyntaxM.bind_eq htok,
      SyntaxM.bind_eq hright]
    rfl
  · have hE₅ := hc.env.of_extends hrest.emits.toExtends
    have hslots₅ := hc.slots.of_stay (hrest.emits.locals.stay hrest.length)
    have hdef := hdefine E loop Γ hc.ok hE₅ hslots₅
    have hE₂ := ((hE₅.of_extends hext).of_extends hw.emits.toExtends).of_extends hext₃
    have hstring := hconst.code E _ (hd₁.emits.ok hc.ok) hE₂ (slotsApprox_slotsOf _).view
    have hcode := hrest.code E Γ (hemits.ok hc.ok) hc.env hc.slots
    rw [← hx] at hstring hcode
    cases superclass with
    | none =>
        obtain ⟨ref, im, href, hmethods, rfl⟩ := hcode
        refine ⟨id, k, ref, im, hdef, hk, hstring, href, hmethods, ?_⟩
        simp
    | some y =>
        obtain ⟨ref, ref', superRef, captured, im, hsup, href, href', hmethods, rfl⟩ := hcode
        refine ⟨id, k, ref, ref', superRef, captured, im, hdef, hk, hstring, hsup, href, href',
          hmethods, ?_⟩
        simp

end Compiler

end CppLox
