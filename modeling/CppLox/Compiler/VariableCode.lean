import CppLox.Compiler.StatementCode

/-!
# Compiler — the code of variable declarations

A declaration names its variable first (`parse_variable`), then compiles the initializer, and last
defines the variable (`define_variable`).  In between the new local is there, but marked as
uninitialized, so the initializer sees the slots before it.
-/

namespace CppLox

open CompilerM

/-- A token that was matched could have been consumed. -/
theorem Syntax.consume_of_matchToken {expected : TokenType} {t t' : Tokens}
    (h : Syntax.matchToken expected t = some (true, t')) :
    Syntax.consume expected t = some ((), t') := by
  change (if decide (t.current.tokenType = expected) = true then _ else _ : SyntaxM Bool) t = _ at h
  change (if decide (t.current.tokenType = expected) = true then _ else _ : SyntaxM Unit) t = _
  split at h
  · rename_i hc
    rw [if_pos hc]
    obtain ⟨_, t₁, hadvance, h⟩ := SyntaxM.bind_eq_some h
    cases h
    exact hadvance
  · cases h

/-! ### The last local -/

theorem setLastInitialized_append (ls : List Local) (l : Local) :
    Compiler.setLastInitialized (ls ++ [l]) = ls ++ [{ l with uninitialized := false }] := by
  unfold Compiler.setLastInitialized
  rw [List.length_append, List.length_singleton, Nat.add_sub_cancel]
  refine List.ext_getElem? fun i => ?_
  rw [List.getElem?_modify]
  rcases Nat.lt_trichotomy i ls.length with hi | rfl | hi
  · simp [List.getElem?_append_left hi, hi.ne']
  · simp
  · rw [List.getElem?_eq_none (by simp; omega), List.getElem?_eq_none (by simp; omega)]
    rfl

/-- A local that is marked as uninitialized is not found. -/
theorem ViewOf.append_uninitialized {Γ : List Slot} {ls : List Local} {l : Local}
    (h : ViewOf Γ ls) (hl : l.uninitialized = true) : ViewOf Γ (ls ++ [l]) := by
  have hfind : ∀ name, Compiler.findLocal (ls ++ [l]) name =
      if l.name == name then some ls.length else Compiler.findLocal ls name := by
    intro name
    unfold Compiler.findLocal
    rw [List.reverse_append, List.reverse_singleton, List.singleton_append, List.findIdx?_cons,
      List.length_append, List.length_singleton]
    split
    · simp
    · cases ls.reverse.findIdx? fun l => l.name == name with
      | none => rfl
      | some i => simp; omega
  constructor
  · intro name hname
    rw [hfind] at hname
    split at hname
    · cases hname
    · exact h.absent name hname
  · intro name i hname hinit
    rw [hfind] at hname
    split at hname
    · cases hname
      simp [hl] at hinit
    · refine h.found name i hname ?_
      have hlt := Compiler.findLocal_lt hname
      rw [List.getD_eq_getElem?_getD, List.getElem?_append_left hlt] at hinit
      rwa [List.getD_eq_getElem?_getD]

/-! ### The name of a declaration -/

/-- The state after the name of a declaration: in the global scope the index of the global is known,
elsewhere there is a new local. -/
structure Declared (s s₁ : CompilerState) (x : Bytes) (i : Nat) : Prop where
  emits : Emits s s₁ []
  laid : Laid s s₁ []
  global : s.current.scopeDepth = 0 → s₁.current.locals = s.current.locals ∧
    ∀ E, StateOk s → Approximates E s₁ → E.globals[i]? = some x
  inScope : s.current.scopeDepth ≠ 0 → ∃ l, s₁.current.locals = s.current.locals ++ [l] ∧ l.name = x ∧
    l.depth = s.current.scopeDepth

/-- New locals in the innermost scope. -/
theorem Emits.of_locals {s s' : CompilerState} {ls : List Local}
    (h : s' = { s with current := { s.current with locals := ls } })
    (hlocals : LocalsExtend s.current.scopeDepth s.current.locals ls)
    (hle : s.current.locals.length ≤ Compiler.maxNumberOfLocalVariables →
      ls.length ≤ Compiler.maxNumberOfLocalVariables) : Emits s s' [] := by
  rw [h]
  refine ⟨Grown.of_current rfl rfl rfl rfl, hlocals, rfl, fun hok => ?_⟩
  obtain ⟨h₁, h₂, h₃, h₄, h₅⟩ := ChainOk.compilerOk hok
  exact ChainOk.of_upvalues_eq hok ⟨h₁, hle h₂, h₃, h₄, h₅⟩ rfl

theorem LocalsExtend.append_one (ls : List Local) (l : Local) : LocalsExtend l.depth ls (ls ++ [l]) where
  signature := by simp
  captured i hi := by
    have hlt : i < ls.length := by
      by_contra hge
      rw [CapturedAt, List.getElem?_eq_none (by omega)] at hi
      cases hi
    rw [CapturedAt, List.getElem?_append_left hlt]
    exact hi
  depth := by simp

/-- Locals whose last one is initialized have the same names and captures. -/
theorem SlotsApprox.of_setLastInitialized {Γ : List Slot} {ls : List Local} {l : Local}
    (h : SlotsApprox Γ (Compiler.setLastInitialized (ls ++ [l]))) : SlotsApprox Γ (ls ++ [l]) := by
  rw [setLastInitialized_append] at h
  refine ⟨by simpa using h.names, fun i hi => h.captured i ?_⟩
  unfold CapturedAt at hi ⊢
  rcases Nat.lt_or_ge i ls.length with hlt | hge
  · rw [List.getElem?_append_left hlt] at hi ⊢
    exact hi
  · rw [List.getElem?_append_right hge] at hi ⊢
    cases hi' : i - ls.length with
    | zero => simpa [hi'] using hi
    | succ k => simp [hi'] at hi

/-- The new local of a declaration after the code in between. -/
theorem Declared.exists_last {s s₁ s₂ : CompilerState} {x : Bytes} {i : Nat} {bytes : List UInt8}
    (hd : Declared s s₁ x i) (hm : Emits s₁ s₂ bytes)
    (hlen : s₂.current.locals.length = s₁.current.locals.length)
    (hscope : s.current.scopeDepth ≠ 0) :
    ∃ ls l, s₂.current.locals = ls ++ [l] ∧ ls.length = s.current.locals.length ∧ l.name = x ∧
      LocalsExtend s.current.scopeDepth s.current.locals
        (ls ++ [{ l with uninitialized := false }]) := by
  obtain ⟨l₁, hl₁, hname, hdepth⟩ := hd.inScope hscope
  have hsig := hm.locals.signature_eq hlen
  rw [hl₁, List.map_append] at hsig
  obtain ⟨ls, rest, hls, hsig₁, hsig₂⟩ := List.map_eq_append_iff.mp hsig
  obtain ⟨l, rfl, hl⟩ := List.map_eq_singleton_iff.mp hsig₂
  have hlength : ls.length = s.current.locals.length := by
    simpa using congrArg List.length hsig₁
  refine ⟨ls, l, hls, hlength, ?_, ?_, fun j hj => ?_, ?_⟩
  · have := congrArg Local.name hl
    exact this.trans hname
  · rw [← hlength, List.take_left]
    exact hsig₁
  · have hj₂ := hm.locals.captured j (hd.emits.locals.captured j hj)
    rw [hls] at hj₂
    have hlt : j < ls.length := by
      by_contra hge
      rw [CapturedAt, List.getElem?_eq_none (by omega)] at hj
      cases hj
    unfold CapturedAt at hj₂ ⊢
    rw [List.getElem?_append_left hlt] at hj₂ ⊢
    exact hj₂
  · rw [← hlength, List.drop_left]
    intro l' hl'
    rw [List.mem_singleton.mp hl']
    have := congrArg Local.depth hl
    exact this.trans hdepth

/-- The new local of a declaration is marked as initialized. -/
theorem Declared.initialize {s s₁ s₂ s₃ : CompilerState} {x : Bytes} {i : Nat} {bytes : List UInt8}
    (hd : Declared s s₁ x i) (hm : Emits s₁ s₂ bytes)
    (hlen : s₂.current.locals.length = s₁.current.locals.length)
    (hscope : s.current.scopeDepth ≠ 0) (hs₃ : s₃ = { s₂ with current := { s₂.current with
      locals := Compiler.setLastInitialized s₂.current.locals } }) :
    Emits s s₃ bytes ∧ ∃ ls l, s₂.current.locals = ls ++ [l] ∧
      s₃.current.locals = ls ++ [{ l with uninitialized := false }] ∧
      ls.length = s.current.locals.length ∧ l.name = x := by
  obtain ⟨ls, l, hls, hlength, hname, hextend⟩ := hd.exists_last hm hlen hscope
  have hlocals : s₃.current.locals = ls ++ [{ l with uninitialized := false }] := by
    rw [hs₃, hls, ← setLastInitialized_append]
  refine ⟨?_, ls, l, hls, hlocals, hlength, hname⟩
  have hall := hd.emits.trans hm
  rw [List.nil_append] at hall
  rw [← hlocals] at hextend
  rw [hs₃] at hextend ⊢
  refine ⟨⟨⟨hall.names, hall.enclosing, hall.upvalues, hall.constants, hall.type⟩, hall.code⟩,
    hextend, hall.frame, fun hok => ?_⟩
  obtain ⟨h₁, h₂, h₃, h₄, h₅⟩ := ChainOk.compilerOk (hall.ok hok)
  refine ChainOk.of_upvalues_eq (hall.ok hok) ⟨h₁, ?_, h₃, h₄, h₅⟩ rfl
  simpa [Compiler.setLastInitialized] using h₂

namespace Compiler

variable {r : Routines} {q : SyntaxRoutines} {s s' : CompilerState}

theorem addLocal_spec {name : Bytes} {isConst : Bool} {u : Unit}
    (h : Accepts (addLocal name isConst) s u s') :
    s.current.locals.length ≠ maxNumberOfLocalVariables ∧ s' = { s with current := { s.current with
      locals := s.current.locals ++ [⟨name, s.current.scopeDepth, true, isConst, false⟩] } } := by
  rcases h.bind_get.ite with ⟨-, h'⟩ | ⟨hlen, h'⟩
  · exact absurd h' Accepts.not_reportError
  · exact ⟨hlen, h'.modifyCurrent⟩

theorem parseVariable_spec {message : String} {isConst : Bool} {i : Nat}
    (h : Accepts (parseVariable message isConst) s i s') :
    ∃ x, Syntax.name s.parser.tokens = some (x, s'.parser.tokens) ∧
      x = s'.parser.tokens.previous.lexeme ∧ Declared s s' x i ∧
      ∀ Γ, SlotsApprox Γ s.current.locals → ViewOf Γ s'.current.locals := by
  obtain ⟨_, s₁, h₁, h'⟩ := h.bind
  obtain ⟨_, s₂, h₂, h'⟩ := h'.bind
  obtain ⟨hident, p, hp⟩ := h₁.consume
  have hname : Syntax.name s.parser.tokens =
      some (s₁.parser.tokens.previous.lexeme, s₁.parser.tokens) := by
    unfold Syntax.name
    rw [SyntaxM.bind_eq hident]
    rfl
  have hscope : s₁.current.scopeDepth = s.current.scopeDepth := by rw [hp]
  have hlocals : s₁.current.locals = s.current.locals := by rw [hp]
  refine ⟨s₁.parser.tokens.previous.lexeme, ?_⟩
  rcases h₂.bind_get.ite with ⟨hzero, h₂⟩ | ⟨hzero, h₂⟩
  -- at the top level the name is a global
  · obtain ⟨-, hs₂⟩ := h₂.pure
    rw [hs₂] at h'
    rcases h'.bind_get.ite with ⟨hpos, -⟩ | ⟨-, h'⟩
    · omega
    · obtain ⟨hparser, hrun⟩ := h'.bind_previous.identifier
      have hall := (CodeRun.of_parser_eq hp).trans hrun
      refine ⟨by rw [hparser]; exact hname, by rw [hparser], ⟨hall.emits, hall.laid,
        fun _ => ⟨hall.locals, fun E hok hE => ?_⟩, fun hne => absurd (hscope ▸ hzero) hne⟩, fun Γ hΓ => ?_⟩
      · exact (hall.code E _ hok hE (slotsApprox_slotsOf _).view).2
      · rw [hall.locals]
        exact hΓ.view
  · rcases h₂.bind_previous.ite with ⟨-, h₂⟩ | ⟨-, h₂⟩
    · exact absurd h₂ Accepts.not_reportError
    -- elsewhere it is a local, which is not initialized yet
    · obtain ⟨hlen, hs₂⟩ := addLocal_spec h₂
      rcases h'.bind_get.ite with ⟨-, h'⟩ | ⟨hnot, -⟩
      · obtain ⟨-, hs'⟩ := h'.pure
        rw [hs']
        refine ⟨by rw [hs₂]; exact hname, by rw [hs₂], ⟨?_, ?_,
          fun h0 => absurd (hscope ▸ h0) hzero, fun _ => ?_⟩, ?_⟩
        · have hone := LocalsExtend.append_one s₁.current.locals
            ⟨s₁.parser.tokens.previous.lexeme, s₁.current.scopeDepth, true, isConst, false⟩
          refine (Emits.of_parser_eq hp).trans (Emits.of_locals hs₂ hone fun hle => ?_)
          rw [List.length_append, List.length_singleton]
          omega
        · exact Laid.of_eq (by rw [hs₂, hp]) (by rw [hs₂, hp])
        · refine ⟨_, by rw [hs₂]; exact congrArg (· ++ _) hlocals, rfl, hscope⟩
        · intro Γ hΓ
          rw [hs₂]
          exact ViewOf.append_uninitialized (hlocals ▸ hΓ.view) rfl
      · rw [hs₂] at hnot
        simp only [gt_iff_lt, not_lt, Nat.le_zero] at hnot
        exact absurd hnot hzero

theorem markInitialized_spec {s₁ s₂ : CompilerState} {x : Bytes} {i : Nat} {u : Unit}
    (hd : Declared s s₁ x i) (h : Accepts markInitialized s₁ u s₂) :
    s₂.parser = s₁.parser ∧ Extends s₁ s₂ ∧ Declared s s₂ x i := by
  have hscope := hd.emits.scopeDepth
  rcases h.bind_get.ite with ⟨hpos, h'⟩ | ⟨hzero, h'⟩
  · have hs₂ := h'.modifyCurrent
    have hne : s.current.scopeDepth ≠ 0 := by omega
    obtain ⟨hemits, ls, l, hls, hls₂, -, hname⟩ := hd.initialize (Emits.refl s₁) rfl hne hs₂
    have hkeep : Laid s₁ s₂ [] := Laid.of_eq (by rw [hs₂]) (by rw [hs₂])
    refine ⟨by rw [hs₂], ?_, hemits, hd.laid.trans hkeep hd.emits.ok (hs₂ ▸ List.prefix_refl _),
      fun h0 => absurd h0 hne, fun _ => ?_⟩
    · rw [hs₂]
      exact ⟨List.prefix_refl _, ChainGrows.refl _, List.prefix_refl _, List.prefix_refl _, rfl⟩
    obtain ⟨l₁, hl₁, hname₁, hdepth₁⟩ := hd.inScope hne
    obtain ⟨rfl, hl⟩ := List.append_inj' (hls.symm.trans hl₁) rfl
    cases hl
    exact ⟨_, hls₂, hname, hdepth₁⟩
  · obtain ⟨-, hs₂⟩ := h'.pure
    rw [hs₂]
    exact ⟨rfl, Extends.refl s₁, hd⟩

/-- The end of a declaration. -/
theorem defineVariable_spec {s₁ s₂ s₃ : CompilerState} {x : Bytes} {i : Nat} {isConst : Bool}
    {is : List Instr} {u : Unit} (hd : Declared s s₁ x i) (hm : Emits s₁ s₂ (encodeAll is))
    (hlaid : Laid s₁ s₂ is) (hlen : s₂.current.locals.length = s₁.current.locals.length)
    (h : Accepts (defineVariable i isConst) s₂ u s₃) :
    ∃ id, s₃.parser = s₂.parser ∧ Emits s s₃ (encodeAll (is ++ id)) ∧ Laid s s₃ (is ++ id) ∧
      Extends s₂ s₃ ∧ (∀ Γ, SlotsApprox Γ s₃.current.locals → SlotsApprox Γ s₂.current.locals) ∧
      ∀ E loop Γ, StateOk s → Approximates E s₃ → SlotsApprox Γ s₃.current.locals →
        DefineCode (placeOf E loop s) (Γ.take s.current.locals.length) x id Γ := by
  have hscope : s₂.current.scopeDepth = s.current.scopeDepth :=
    hm.scopeDepth.trans hd.emits.scopeDepth
  have hbefore : Laid s s₂ is := hd.laid.trans hlaid hd.emits.ok hm.constants
  rcases h.ite with ⟨-, h'⟩ | ⟨hfits, h'⟩
  · exact absurd h' Accepts.not_reportError
  rcases h'.bind_get.ite with ⟨hpos, h'⟩ | ⟨hzero, h'⟩
  -- a local: no code, the value on the stack is its slot
  · have hs₃ := h'.modifyCurrent
    have hne : s.current.scopeDepth ≠ 0 := by omega
    obtain ⟨hemits, ls, l, hls, hls₃, hlength, hname⟩ := hd.initialize hm hlen hne hs₃
    have hkeep : Laid s₂ s₃ [] := Laid.of_eq (by rw [hs₃]) (by rw [hs₃])
    refine ⟨[], by rw [hs₃], by rw [List.append_nil]; exact hemits,
      hbefore.trans hkeep (fun hok => hm.ok (hd.emits.ok hok)) (hs₃ ▸ List.prefix_refl _), ?_, fun Γ hΓ => ?_,
      fun E loop Γ hok hE hΓ => ?_⟩
    · rw [hs₃]
      exact ⟨List.prefix_refl _, ChainGrows.refl _, List.prefix_refl _, List.prefix_refl _, rfl⟩
    · rw [hls₃, ← setLastInitialized_append] at hΓ
      rw [hls]
      exact hΓ.of_setLastInitialized
    · unfold DefineCode
      rw [if_neg (show (placeOf E loop s).depth ≠ 0 from hne)]
      have hnames := hΓ.names
      rw [hls₃, List.map_append] at hnames
      obtain ⟨Γ₁, rest, rfl, hΓ₁, hrest⟩ := List.map_eq_append_iff.mp hnames
      obtain ⟨slot, rfl, hslot⟩ := List.map_eq_singleton_iff.mp hrest
      have hlen₁ : Γ₁.length = s.current.locals.length := by
        rw [← hlength]
        simpa using congrArg List.length hΓ₁
      refine ⟨slot.captured, rfl, ?_⟩
      rw [← hlen₁, List.take_left, ← hname]
      exact congrArg (Γ₁ ++ [·]) (by cases slot; cases hslot; rfl)
  · rcases h'.ite with ⟨-, h'⟩ | ⟨-, h'⟩
    · exact absurd h' Accepts.not_reportError
    -- a global: `DEFINE_GLOBAL` takes the value from the stack
    · have hmono : Mono (CompilerM.modify fun s => { s with
          context := s.context.modify i fun val => { val with isConst } }) :=
        obeys_modify fun _ => errorsStay.refl _
      obtain ⟨_, s₄, h₄, h₅⟩ := h'.bind_of hmono fun _ => inferInstance
      have hs₄ := Accepts.modify h₄
      have hw := Accepts.emitConstantOp h₅
      have hzero' : s.current.scopeDepth = 0 := by omega
      obtain ⟨hlocals, hglobal⟩ := hd.global hzero'
      have hcontext : Emits s₂ s₄ [] := by
        rw [hs₄]
        exact ⟨⟨⟨List.prefix_refl _, ChainGrows.refl _, List.prefix_refl _, List.prefix_refl _, rfl⟩,
          by simp⟩, LocalsExtend.refl _ _, rfl, id⟩
      have hdefine := hcontext.trans hw.emits
      rw [List.nil_append] at hdefine
      have hlocals₃ : s₃.current.locals = s₂.current.locals := by rw [hw.locals, hs₄]
      have hall := (hd.emits.trans hm).trans hdefine
      rw [List.nil_append, ← encodeAll_append] at hall
      have hkeep : Laid s₂ s₄ [] := Laid.of_eq (by rw [hs₄]) (by rw [hs₄])
      have hwrite := (Writes.codeRun (w := [.short .defineGlobal i]) hw (by simp [OpCode.operands])).laid
      have hafter := hkeep.trans hwrite hcontext.ok hw.emits.constants
      refine ⟨[.short .defineGlobal i], by rw [hw.parser, hs₄], hall,
        hbefore.trans hafter (fun hok => hm.ok (hd.emits.ok hok)) hdefine.constants,
        hdefine.toExtends,
        fun Γ hΓ => hlocals₃ ▸ hΓ, fun E loop Γ hok hE hΓ => ?_⟩
      unfold DefineCode
      rw [if_pos (show (placeOf E loop s).depth = 0 from hzero')]
      refine ⟨i, ?_, by omega, rfl, ?_⟩
      · exact hglobal E hok ((hE.of_extends hdefine.toExtends).of_extends hm.toExtends)
      · rw [List.take_of_length_le]
        rw [hΓ.length_eq, hlocals₃, hlen, hlocals]

/-- The initializer of a declaration is compiled between its name and its definition. -/
theorem initializer_spec {s₁ s₂ s₃ : CompilerState} {x : Bytes} {i : Nat} {isConst : Bool}
    {is : List Instr} {code : Env → List Slot → Prop} {u : Unit} (hd : Declared s s₁ x i)
    (hview : ∀ Γ, SlotsApprox Γ s.current.locals → ViewOf Γ s₁.current.locals)
    (hm : CodeRun s₁ s₂ is code) (h : Accepts (defineVariable i isConst) s₂ u s₃) :
    ∃ id, s₃.parser = s₂.parser ∧ InitRun s s₃ (is ++ id) fun E loop Γ =>
      DefineCode (placeOf E loop s) (Γ.take s.current.locals.length) x id Γ ∧
        code E (Γ.take s.current.locals.length) := by
  obtain ⟨id, hparser, hemits, hlaid, hext, -, hdefine⟩ :=
    defineVariable_spec hd hm.emits hm.laid (by rw [hm.locals]) h
  refine ⟨id, hparser, hemits, hlaid, fun E loop Γ hok hE hΓ => ⟨hdefine E loop Γ hok hE hΓ, ?_⟩⟩
  exact hm.code E _ (hd.emits.ok hok) (hE.of_extends hext) (hview _ (hΓ.take hemits.locals))

/-- The initializer of a `var`. -/
theorem varInitializer_spec (hq : ExprRoutines r q) [MonoRoutines r]
    (h : Accepts (varInitializer r) s () s') :
    ∃ e is, Syntax.varInitializer q s.parser.tokens = some (e, s'.parser.tokens) ∧
      CodeRun s s' is fun E Γ => match e with
        | none => is = [.op .uninitialized]
        | some e => ExprCode E Γ e is := by
  obtain ⟨equal, s₁, h₁, h'⟩ := h.bind
  obtain ⟨hequal, p, hp⟩ := h₁.matchToken
  unfold Syntax.varInitializer
  rw [SyntaxM.bind_eq hequal]
  cases equal with
  | true =>
      obtain ⟨e, is, htok, -, hrun⟩ := hq.parsePrecedence _ _ _ h'
      refine ⟨some e, is, ?_, ((CodeRun.of_parser_eq hp).trans hrun).imp fun _ _ => And.right⟩
      rw [if_pos rfl]
      change (q.parsePrecedence _ >>= _) _ = _
      rw [SyntaxM.bind_eq htok]
      rfl
  | false =>
      have hw := Accepts.emitOpcode h'
      refine ⟨none, [.op .uninitialized], by rw [hw.parser]; rfl,
        ((CodeRun.of_parser_eq hp).write (w := [.op .uninitialized]) hw
          (by simp [OpCode.operands])).imp fun _ _ _ => rfl⟩

theorem varDeclaration_spec (hq : ExprRoutines r q) [MonoRoutines r] :
    InitSpec (varDeclaration r) (Syntax.varDeclaration q) := by
  intro s s' h
  obtain ⟨i, s₁, h₁, h'⟩ := h.bind
  obtain ⟨_, s₂, h₂, h'⟩ := h'.bind
  obtain ⟨_, s₃, h₃, h₄⟩ := h'.bind
  obtain ⟨x, hname, -, hd, hview⟩ := parseVariable_spec h₁
  obtain ⟨e, is, htok, hrun⟩ := varInitializer_spec hq h₂
  obtain ⟨hsemi, p, hp⟩ := h₃.consume
  obtain ⟨id, hparser, hdecl⟩ := initializer_spec hd hview (hrun.move hp) h₄
  refine ⟨.var x e, is ++ id, ?_, hdecl.imp fun E loop Γ hcode => ?_⟩
  · unfold Syntax.varDeclaration
    rw [SyntaxM.bind_eq hname, SyntaxM.bind_eq htok, SyntaxM.bind_eq hsemi, hparser]
    rfl
  · cases e with
    | none =>
        obtain ⟨hdefine, rfl⟩ := hcode
        exact ⟨id, hdefine, rfl⟩
    | some e => exact ⟨is, id, hcode.1, hcode.2, rfl⟩

theorem constDeclaration_spec (hq : ExprRoutines r q) [MonoRoutines r] :
    InitSpec (constDeclaration r) (Syntax.constDeclaration q) := by
  intro s s' h
  obtain ⟨i, s₁, h₁, h'⟩ := h.bind
  obtain ⟨equal, s₂, h₂, h'⟩ := h'.bind
  obtain ⟨x, hname, -, hd, hview⟩ := parseVariable_spec h₁
  obtain ⟨hequal, p, hp⟩ := h₂.matchToken
  cases equal with
  | false => exact absurd h' Accepts.not_reportError
  | true =>
      obtain ⟨_, s₃, h₃, h'⟩ := Accepts.bind h'
      obtain ⟨_, s₄, h₄, h₅⟩ := h'.bind
      obtain ⟨e, is, htok, -, hrun⟩ := hq.parsePrecedence _ _ _ h₃
      obtain ⟨hsemi, p', hp'⟩ := h₄.consume
      obtain ⟨id, hparser, hdecl⟩ := initializer_spec hd hview
        (((CodeRun.of_parser_eq hp).trans hrun).move hp') h₅
      refine ⟨.const x e, is ++ id, ?_, hdecl.imp fun E loop Γ hcode => ?_⟩
      · unfold Syntax.constDeclaration Syntax.expression
        rw [SyntaxM.bind_eq hname, SyntaxM.bind_eq (Syntax.consume_of_matchToken hequal),
          SyntaxM.bind_eq htok, SyntaxM.bind_eq hsemi, hparser]
        rfl
      · exact ⟨is, id, hcode.1, hcode.2.2, rfl⟩

end Compiler

end CppLox
