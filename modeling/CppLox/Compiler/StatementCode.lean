import CppLox.Compiler.ExpressionCode

/-!
# Compiler — the code of statements

Each routine that parses statements, when it accepts, reads the tree the parser of `Syntax` reads
and emits its code (`StmtCode`).  The slots of a statement carry the `is_captured` members the
locals have at the end of their scope, so the property of a run speaks of all slots that agree
with the locals after it and have at least those captured.
-/

namespace CppLox

open CompilerM

/-! ### Locals that stay -/

/-- Locals that may have become captured. -/
structure LocalsStay (ls ls' : List Local) : Prop where
  signature : ls'.map Local.signature = ls.map Local.signature
  captured : ∀ i, CapturedAt ls i → CapturedAt ls' i

namespace LocalsStay

variable {ls ls' ls'' : List Local}

theorem refl (ls : List Local) : LocalsStay ls ls := ⟨rfl, fun _ => id⟩

theorem trans (h : LocalsStay ls ls') (h' : LocalsStay ls' ls'') : LocalsStay ls ls'' :=
  ⟨h'.signature.trans h.signature, fun i hi => h'.captured i (h.captured i hi)⟩

theorem length_eq (h : LocalsStay ls ls') : ls'.length = ls.length := by
  simpa using congrArg List.length h.signature

theorem extend (h : LocalsStay ls ls') (d : Nat) : LocalsExtend d ls ls' where
  signature := by
    rw [← h.length_eq, List.take_length]
    exact h.signature
  captured := h.captured
  depth := by
    rw [← h.length_eq, List.drop_length]
    nofun

end LocalsStay

theorem LocalsExtend.stay {d : Nat} {ls ls' : List Local} (h : LocalsExtend d ls ls')
    (hlen : ls'.length = ls.length) : LocalsStay ls ls' :=
  ⟨h.signature_eq hlen, h.captured⟩

/-- A piece of compilation that appends the instructions `is` and keeps the locals, whatever it does
to scopes and loops. -/
structure Keeps (s s' : CompilerState) (is : List Instr) : Prop
    extends Grown s s' (encodeAll is) where
  laid : Laid s s' is
  locals : LocalsStay s.current.locals s'.current.locals
  ok : StateOk s → StateOk s'

/-- A change of scopes, loops and classes. -/
def Reframes (s s' : CompilerState) : Prop :=
  ∃ scopeDepth loopDepth loopScopeDepth loopStartOffset enclosingClass,
    s' = { s with current := { s.current with
      scopeDepth, loopDepth, loopScopeDepth, loopStartOffset, enclosingClass } }

namespace Keeps

variable {s s' s'' : CompilerState} {is is' : List Instr}

theorem trans (h : Keeps s s' is) (h' : Keeps s' s'' is') : Keeps s s'' (is ++ is') where
  toGrown := encodeAll_append is is' ▸ h.toGrown.trans h'.toGrown
  laid := h.laid.trans h'.laid h.ok h'.constants
  locals := h.locals.trans h'.locals
  ok := fun hs => h'.ok (h.ok hs)

theorem emits (h : Keeps s s' is) (hframe : s'.current.frame = s.current.frame) :
    Emits s s' (encodeAll is) := ⟨h.toGrown, h.locals.extend _, hframe, h.ok⟩

end Keeps

theorem Emits.keeps {s s' : CompilerState} {is : List Instr} (h : Emits s s' (encodeAll is))
    (hlaid : Laid s s' is) (hlen : s'.current.locals.length = s.current.locals.length) :
    Keeps s s' is :=
  ⟨h.toGrown, hlaid, h.locals.stay hlen, h.ok⟩

theorem CodeRun.keeps {s s' : CompilerState} {is : List Instr} {code : Env → List Slot → Prop}
    (h : CodeRun s s' is code) : Keeps s s' is := h.emits.keeps h.laid (by rw [h.locals])

theorem Reframes.keeps {s s' : CompilerState} (h : Reframes s s') : Keeps s s' [] := by
  obtain ⟨_, _, _, _, _, rfl⟩ := h
  refine ⟨Grown.of_current rfl rfl rfl rfl, Laid.of_eq rfl rfl, LocalsStay.refl _, fun hok => ?_⟩
  obtain ⟨h₁, h₂, h₃, h₄, h₅⟩ := ChainOk.compilerOk hok
  exact ChainOk.of_upvalues_eq hok ⟨h₁, h₂, h₃, h₄, h₅⟩ rfl

theorem Reframes.parser {s s' : CompilerState} (h : Reframes s s') : s'.parser = s.parser := by
  obtain ⟨_, _, _, _, _, rfl⟩ := h
  rfl

/-! ### Loops -/

/-- The loop around a piece of code, in terms of the compiler: the locals inside it are those of a
greater depth. -/
structure InLoop (l : Loop) (c : FunctionState) : Prop where
  start : c.loopStartOffset = l.start
  start_le : l.start ≤ c.function.code.length
  slots_le : l.slots ≤ c.locals.length
  outside : ∀ x ∈ c.locals.take l.slots, (x.depth : Int) ≤ c.loopScopeDepth
  inside : ∀ x ∈ c.locals.drop l.slots, c.loopScopeDepth < (x.depth : Int)
  scope : c.loopScopeDepth ≤ c.scopeDepth

/-- The loop `continue` belongs to, if there is one. -/
def LoopView (loop : Option Loop) (c : FunctionState) : Prop :=
  c.loopDepth ≠ 0 → ∃ l, loop = some l ∧ InLoop l c

/-- A declaration stands in a scope inside the loop. -/
def BelowLoop (c : FunctionState) : Prop := c.loopDepth ≠ 0 → c.loopScopeDepth < c.scopeDepth

/-- No local has a greater depth than the scope. -/
def DepthOk (c : FunctionState) : Prop := ∀ l ∈ c.locals, l.depth ≤ c.scopeDepth

theorem map_depth_of_signature {ls ls' : List Local}
    (h : ls'.map Local.signature = ls.map Local.signature) :
    ls'.map Local.depth = ls.map Local.depth := by
  have := congrArg (List.map Local.depth) h
  simpa [Function.comp_def, Local.signature] using this

theorem forall_depth_of_signature {ls ls' : List Local} {P : Nat → Prop}
    (h : ls'.map Local.signature = ls.map Local.signature) (hP : ∀ l ∈ ls, P l.depth) :
    ∀ l ∈ ls', P l.depth := by
  have hd := map_depth_of_signature h
  intro l hl
  have hmem : l.depth ∈ ls.map Local.depth := hd ▸ List.mem_map_of_mem hl
  obtain ⟨l', hl', heq⟩ := List.mem_map.mp hmem
  exact heq ▸ hP l' hl'

theorem DepthOk.of_extend {c c' : FunctionState} (h : DepthOk c)
    (hlocals : LocalsExtend c.scopeDepth c.locals c'.locals) (hscope : c'.scopeDepth = c.scopeDepth) :
    DepthOk c' := by
  intro l hl
  rw [hscope]
  rw [← List.take_append_drop c.locals.length c'.locals] at hl
  rcases List.mem_append.mp hl with hl | hl
  · exact forall_depth_of_signature (P := (· ≤ c.scopeDepth)) hlocals.signature h l hl
  · exact (hlocals.depth l hl).le

theorem DepthOk.of_emits {s s' : CompilerState} {bytes : List UInt8} (h : DepthOk s.current)
    (he : Emits s s' bytes) : DepthOk s'.current := h.of_extend he.locals he.scopeDepth

theorem take_signature {ls ls' : List Local} {n : Nat}
    (h : (ls'.take ls.length).map Local.signature = ls.map Local.signature) (hn : n ≤ ls.length) :
    (ls'.take n).map Local.signature = (ls.take n).map Local.signature := by
  have htake := congrArg (List.take n) h
  rwa [← List.map_take, ← List.map_take, List.take_take, Nat.min_eq_left hn] at htake

theorem InLoop.of_emits {l : Loop} {s s' : CompilerState} {bytes : List UInt8}
    (h : InLoop l s.current) (he : Emits s s' bytes)
    (hnew : ∀ x ∈ s'.current.locals.drop s.current.locals.length,
      s.current.loopScopeDepth < (x.depth : Int)) : InLoop l s'.current where
  start := he.loopStartOffset.trans h.start
  start_le := by
    rw [he.length_code]
    exact h.start_le.trans (Nat.le_add_right _ _)
  slots_le := h.slots_le.trans he.locals.length_le
  outside := by
    rw [he.loopScopeDepth]
    exact forall_depth_of_signature (P := fun d => (d : Int) ≤ s.current.loopScopeDepth)
      (take_signature he.locals.signature h.slots_le) h.outside
  inside := by
    rw [he.loopScopeDepth]
    intro x hx
    rw [← List.take_append_drop s.current.locals.length s'.current.locals] at hx
    rw [List.drop_append_of_le_length] at hx
    · rcases List.mem_append.mp hx with hx | hx
      · refine forall_depth_of_signature (P := fun d => s.current.loopScopeDepth < (d : Int)) ?_
          h.inside x hx
        rw [List.map_drop, List.map_drop, he.locals.signature]
      · exact hnew x hx
    · rw [List.length_take, Nat.min_eq_left he.locals.length_le]
      exact h.slots_le
  scope := by
    rw [he.loopScopeDepth, he.scopeDepth]
    exact h.scope

theorem LoopView.of_emits {loop : Option Loop} {s s' : CompilerState} {bytes : List UInt8}
    (h : LoopView loop s.current) (he : Emits s s' bytes)
    (hnew : BelowLoop s.current ∨ s'.current.locals.length = s.current.locals.length) :
    LoopView loop s'.current := by
  intro hdepth
  rw [he.loopDepth] at hdepth
  obtain ⟨l, hl, hin⟩ := h hdepth
  refine ⟨l, hl, hin.of_emits he fun x hx => ?_⟩
  rcases hnew with hbelow | hlen
  · rw [he.locals.depth x hx]
    exact hbelow hdepth
  · rw [← hlen, List.drop_length] at hx
    cases hx

theorem BelowLoop.of_emits {s s' : CompilerState} {bytes : List UInt8} (h : BelowLoop s.current)
    (he : Emits s s' bytes) : BelowLoop s'.current := by
  intro hdepth
  rw [he.loopDepth] at hdepth
  rw [he.loopScopeDepth, he.scopeDepth]
  exact h hdepth

/-- A nested scope is inside the loop. -/
theorem LoopView.nest {loop : Option Loop} {c c' : FunctionState} (h : LoopView loop c)
    (hc' : c' = { c with scopeDepth := c.scopeDepth + 1 }) : LoopView loop c' ∧ BelowLoop c' := by
  subst hc'
  constructor
  · intro hdepth
    obtain ⟨l, hl, hin⟩ := h hdepth
    exact ⟨l, hl, hin.start, hin.start_le, hin.slots_le, hin.outside, hin.inside,
      hin.scope.trans (by simp)⟩
  · intro hdepth
    obtain ⟨l, -, hin⟩ := h hdepth
    have hscope := hin.scope
    change c.loopScopeDepth < ((c.scopeDepth + 1 : Nat) : Int)
    omega

theorem SlotsApprox.append {Γ : List Slot} {ls : List Local} {n : Nat}
    (h : SlotsApprox Γ (ls.take n)) (hn : n ≤ ls.length) :
    SlotsApprox (Γ ++ slotsOf (ls.drop n)) ls where
  names := by
    rw [List.map_append, h.names, (slotsApprox_slotsOf _).names, ← List.map_append,
      List.take_append_drop]
  captured i hi := by
    have hlen : Γ.length = n := by
      rw [h.length_eq, List.length_take, Nat.min_eq_left hn]
    by_cases hlt : i < n
    · rw [List.getElem?_append_left (by omega)]
      refine h.captured i ?_
      unfold CapturedAt at hi ⊢
      rwa [List.getElem?_take, if_pos hlt]
    · rw [List.getElem?_append_right (by omega), hlen]
      refine (slotsApprox_slotsOf _).captured _ ?_
      unfold CapturedAt at hi ⊢
      rwa [List.getElem?_drop, Nat.add_sub_cancel' (by omega)]

/-! ### Runs -/

/-- What the property of a run of statements speaks of: the function and the slots at the end. -/
structure StmtContext (E : Env) (loop : Option Loop) (Γ : List Slot) (s s' : CompilerState) :
    Prop where
  ok : StateOk s
  env : Approximates E s'
  slots : SlotsApprox Γ s'.current.locals
  loop : LoopView loop s.current

/-- A piece of compilation that appends the instructions `is` and keeps the locals. -/
structure StmtRun (s s' : CompilerState) (is : List Instr)
    (code : Env → Option Loop → List Slot → Prop) : Prop where
  emits : Emits s s' (encodeAll is)
  laid : Laid s s' is
  length : s'.current.locals.length = s.current.locals.length
  code : ∀ E loop Γ, StmtContext E loop Γ s s' → code E loop Γ

theorem SlotsApprox.of_stay {Γ : List Slot} {ls ls' : List Local} (h : SlotsApprox Γ ls')
    (hs : LocalsStay ls ls') : SlotsApprox Γ ls := by
  have := h.take (hs.extend 0)
  rwa [List.take_of_length_le (by rw [h.length_eq, hs.length_eq])] at this

namespace StmtRun

variable {s s' s'' : CompilerState} {is is' : List Instr}
variable {code code' : Env → Option Loop → List Slot → Prop}

theorem trans (h : StmtRun s s' is code) (h' : StmtRun s' s'' is' code') :
    StmtRun s s'' (is ++ is') fun E loop Γ => code E loop Γ ∧ code' E loop Γ where
  emits := encodeAll_append is is' ▸ h.emits.trans h'.emits
  laid := h.laid.trans h'.laid h.emits.ok h'.emits.constants
  length := h'.length.trans h.length
  code E loop Γ hc := by
    refine ⟨h.code E loop Γ ⟨hc.ok, hc.env.of_extends h'.emits.toExtends, ?_, hc.loop⟩,
      h'.code E loop Γ ⟨h.emits.ok hc.ok, hc.env, hc.slots, ?_⟩⟩
    · exact hc.slots.of_stay (h'.emits.locals.stay h'.length)
    · exact hc.loop.of_emits h.emits (.inr h.length)

theorem imp (h : StmtRun s s' is code) (himp : ∀ E loop Γ, code E loop Γ → code' E loop Γ) :
    StmtRun s s' is code' :=
  ⟨h.emits, h.laid, h.length, fun E loop Γ hc => himp E loop Γ (h.code E loop Γ hc)⟩

end StmtRun

theorem CodeRun.stmtRun {s s' : CompilerState} {is : List Instr} {code : Env → List Slot → Prop}
    (h : CodeRun s s' is code) : StmtRun s s' is fun E _ Γ => code E Γ :=
  ⟨h.emits, h.laid, by rw [h.locals], fun E _ Γ hc =>
    h.code E Γ hc.ok hc.env (by rw [← h.locals]; exact hc.slots.view)⟩

namespace StmtRun

variable {s s' s'' : CompilerState} {is is' : List Instr}
variable {code code' : Env → Option Loop → List Slot → Prop}

theorem write {w : List Instr} (h : StmtRun s s' is code) (hw : Writes s' s'' (encodeAll w))
    (hplain : ∀ i ∈ w, i.Plain) : StmtRun s s'' (is ++ w) code :=
  (h.trans (hw.codeRun hplain).stmtRun).imp fun _ _ _ => And.left

theorem move {p : Parser} (h : StmtRun s s' is code) (hp : s'' = { s' with parser := p }) :
    StmtRun s s'' is code := by
  have := (h.trans (CodeRun.of_parser_eq hp).stmtRun).imp fun _ _ _ => And.left
  rwa [List.append_nil] at this

theorem recode (h : StmtRun s s' is code)
    (hs : s'' = { s' with current := { s'.current with function := { s'.current.function with
      code := s.current.function.code ++ encodeAll is' } } })
    (hsizes : is'.map Instr.size = is.map Instr.size)
    (hfits : StateOk s → ∀ i ∈ is', i.Fits s'.current.function.constants) :
    StmtRun s s'' is' code := by
  have hlen : (s.current.function.code ++ encodeAll is').length =
      s'.current.function.code.length := by
    rw [List.length_append, length_encodeAll, h.laid.length, codeSize, codeSize, hsizes]
  refine ⟨h.emits.recode hs, h.laid.recode hs hlen hsizes hfits, by rw [hs]; exact h.length,
    fun E loop Γ hc => ?_⟩
  obtain ⟨hok, henv, hslots, hloop⟩ := hc
  rw [hs] at henv hslots
  exact h.code E loop Γ ⟨hok,
    ⟨henv.type, henv.constants, henv.upvalues, henv.enclosing, henv.globals⟩, hslots, hloop⟩

/-- A forward jump is patched after the code it skips. -/
theorem patch {offset : Nat} {op : OpCode} {pre mid : List Instr} {u : Unit}
    (h : StmtRun s s' (pre ++ [.short op 0] ++ mid) code)
    (hp : Accepts (Compiler.patchJump offset) s' u s'')
    (hoffset : offset = s.current.function.code.length + codeSize pre + 1) :
    s''.parser = s'.parser ∧ JumpFits (codeSize mid) ∧
      StmtRun s s'' (pre ++ [.short op (codeSize mid)] ++ mid) code := by
  have hemits := h.emits
  rw [encodeAll_append, encodeAll_append] at hemits
  obtain ⟨hfits, hs''⟩ := hemits.toGrown.patch hp (by rw [length_encodeAll]; exact hoffset)
  rw [length_encodeAll] at hfits hs''
  refine ⟨by rw [hs''], hfits, h.recode ?_ (by simp [Instr.size])
    fun hok => Instr.fits_patch (h.laid.fits hok)⟩
  rw [hs'', encodeAll_append, encodeAll_append]

end StmtRun

/-- A piece of compilation that appends the instructions `is` and may declare locals; the slots its
property speaks of are those after it. -/
structure DeclRun (s s' : CompilerState) (is : List Instr)
    (code : Env → Option Loop → List Slot → Prop) : Prop where
  emits : Emits s s' (encodeAll is)
  laid : Laid s s' is
  code : ∀ E loop Γ, StmtContext E loop Γ s s' → BelowLoop s.current → code E loop Γ

/-- A declaration whose code does not depend on the loop around it. -/
structure InitRun (s s' : CompilerState) (is : List Instr)
    (code : Env → Option Loop → List Slot → Prop) : Prop where
  emits : Emits s s' (encodeAll is)
  laid : Laid s s' is
  code : ∀ E loop Γ, StateOk s → Approximates E s' → SlotsApprox Γ s'.current.locals → code E loop Γ

theorem InitRun.imp {s s' : CompilerState} {is : List Instr}
    {code code' : Env → Option Loop → List Slot → Prop} (h : InitRun s s' is code)
    (himp : ∀ E loop Γ, code E loop Γ → code' E loop Γ) : InitRun s s' is code' :=
  ⟨h.emits, h.laid, fun E loop Γ hok hE hΓ => himp E loop Γ (h.code E loop Γ hok hE hΓ)⟩

theorem InitRun.declRun {s s' : CompilerState} {is : List Instr}
    {code : Env → Option Loop → List Slot → Prop} (h : InitRun s s' is code) : DeclRun s s' is code :=
  ⟨h.emits, h.laid, fun E loop Γ hc _ => h.code E loop Γ hc.ok hc.env hc.slots⟩

theorem CodeRun.initRun {s s' : CompilerState} {is : List Instr} {code : Env → List Slot → Prop}
    (h : CodeRun s s' is code) : InitRun s s' is fun E _ Γ => code E Γ :=
  ⟨h.emits, h.laid, fun E _ Γ hok hE hΓ => h.code E Γ hok hE (by rw [← h.locals]; exact hΓ.view)⟩

/-- The place of the code a state goes on with. -/
def placeOf (E : Env) (loop : Option Loop) (s : CompilerState) : Place :=
  ⟨E, loop, s.current.scopeDepth, s.current.function.code.length⟩

theorem placeOf_after {E : Env} {loop : Option Loop} {s s' : CompilerState} {is : List Instr}
    (h : Emits s s' (encodeAll is)) :
    (placeOf E loop s).after (codeSize is) = placeOf E loop s' := by
  simp only [placeOf, Place.after, h.scopeDepth, h.length_code, length_encodeAll]

/-- A routine that compiles a statement. -/
def StmtSpec (m : CompilerM Unit) (p : SyntaxM Stmt) : Prop :=
  ∀ s s', Accepts m s () s' → DepthOk s.current →
    ∃ stmt is, p s.parser.tokens = some (stmt, s'.parser.tokens) ∧
    StmtRun s s' is fun E loop Γ => StmtCode stmt (placeOf E loop s) Γ is Γ

/-- A routine that compiles a declaration. -/
def DeclSpec (m : CompilerM Unit) (p : SyntaxM Stmt) : Prop :=
  ∀ s s', Accepts m s () s' → DepthOk s.current →
    ∃ stmt is, p s.parser.tokens = some (stmt, s'.parser.tokens) ∧
    DeclRun s s' is fun E loop Γ =>
      StmtCode stmt (placeOf E loop s) (Γ.take s.current.locals.length) is Γ

/-- A routine that compiles the initializer of a loop. -/
def InitSpec (m : CompilerM Unit) (p : SyntaxM Stmt) : Prop :=
  ∀ s s', Accepts m s () s' →
    ∃ stmt is, p s.parser.tokens = some (stmt, s'.parser.tokens) ∧
    InitRun s s' is fun E loop Γ =>
      StmtCode stmt (placeOf E loop s) (Γ.take s.current.locals.length) is Γ

/-- A routine starts after a token that was matched. -/
theorem InitSpec.of_parser_eq {s s₁ s' : CompilerState} {t : Tokens} {p : SyntaxM Stmt} {parser : Parser}
    (hp : s₁ = { s with parser })
    (h : ∃ stmt is, p t = some (stmt, s'.parser.tokens) ∧ InitRun s₁ s' is fun E loop Γ =>
      StmtCode stmt (placeOf E loop s₁) (Γ.take s₁.current.locals.length) is Γ) :
    ∃ stmt is, p t = some (stmt, s'.parser.tokens) ∧ InitRun s s' is fun E loop Γ =>
      StmtCode stmt (placeOf E loop s) (Γ.take s.current.locals.length) is Γ := by
  obtain ⟨stmt, is, htok, hrun⟩ := h
  have hmove := Emits.of_parser_eq hp
  have hemits := hmove.trans hrun.emits
  rw [List.nil_append] at hemits
  refine ⟨stmt, is, htok, hemits, ?_, fun E loop Γ hok hE hΓ => ?_⟩
  · exact (Laid.of_eq (by rw [hp]) (by rw [hp])).trans hrun.laid hmove.ok hrun.emits.constants
  have hcode := hrun.code E loop Γ (hmove.ok hok) hE hΓ
  rw [hp] at hcode
  exact hcode

theorem InitSpec.decl {m : CompilerM Unit} {p : SyntaxM Stmt} (h : InitSpec m p) : DeclSpec m p := by
  intro s s' hrun hdepth
  obtain ⟨stmt, is, htok, hinit⟩ := h s s' hrun
  exact ⟨stmt, is, htok, hinit.declRun⟩

/-- A routine that compiles declarations. -/
def DeclsSpec (m : CompilerM Unit) (p : SyntaxM Stmts) : Prop :=
  ∀ s s', Accepts m s () s' → DepthOk s.current →
    ∃ stmts is, p s.parser.tokens = some (stmts, s'.parser.tokens) ∧
    DeclRun s s' is fun E loop Γ =>
      StmtsCode stmts (placeOf E loop s) (Γ.take s.current.locals.length) is Γ

theorem StmtContext.take_eq {E : Env} {loop : Option Loop} {Γ : List Slot} {s s' : CompilerState}
    (h : StmtContext E loop Γ s s')
    (hlen : s'.current.locals.length = s.current.locals.length) :
    Γ.take s.current.locals.length = Γ :=
  List.take_of_length_le (by rw [h.slots.length_eq, hlen])

/-- A statement is a declaration that declares nothing. -/
theorem StmtSpec.decl {m : CompilerM Unit} {p : SyntaxM Stmt} (h : StmtSpec m p) : DeclSpec m p := by
  intro s s' hrun hdepth
  obtain ⟨stmt, is, htok, hstmt⟩ := h s s' hrun hdepth
  refine ⟨stmt, is, htok, hstmt.emits, hstmt.laid, fun E loop Γ hc _ => ?_⟩
  rw [hc.take_eq hstmt.length]
  exact hstmt.code E loop Γ hc

namespace Compiler

variable {r : Routines} {q : SyntaxRoutines} {s s' : CompilerState}

/-! ### Statements without a scope -/

theorem codeRun_expressionStatement (hq : ExprRoutines r q) [MonoRoutines r]
    (h : Accepts (expressionStatement r) s () s') :
    ∃ stmt is, Syntax.expressionStatement q s.parser.tokens = some (stmt, s'.parser.tokens) ∧
      CodeRun s s' is fun E Γ => ∀ loop, StmtCode stmt (placeOf E loop s) Γ is Γ := by
  have h' := h.bind_check
  change ∃ stmt is, (if decide (s.parser.tokens.current.tokenType = .semicolon) = true then _
    else _ : SyntaxM Stmt) _ = _ ∧ _
  rcases h'.ite with ⟨hc, h'⟩ | ⟨hc, h'⟩
  · rw [if_pos hc]
    obtain ⟨hadvance, p, hp⟩ := h'.advance
    refine ⟨.empty, [], ?_, (CodeRun.of_parser_eq hp).imp fun E Γ _ _ => ⟨rfl, rfl⟩⟩
    rw [SyntaxM.bind_eq hadvance]
    rfl
  · rw [if_neg hc]
    obtain ⟨_, s₁, h₁, h'⟩ := h'.bind
    obtain ⟨_, s₂, h₂, h₃⟩ := h'.bind
    obtain ⟨e, is, htok, -, hrun⟩ := hq.parsePrecedence _ _ _ h₁
    obtain ⟨hsemi, p, hp⟩ := h₂.consume
    have hw := h₃.emitOpcode
    refine ⟨.expression e, is ++ [Instr.op .popTop], ?_,
      ((hrun.move hp).write (w := [.op .popTop]) hw (by simp [OpCode.operands])).imp
        fun E Γ he _ => ⟨is, he, rfl, rfl⟩⟩
    unfold Syntax.expression
    rw [SyntaxM.bind_eq htok, SyntaxM.bind_eq hsemi, hw.parser]
    rfl

theorem expressionStatement_spec (hq : ExprRoutines r q) [MonoRoutines r] :
    StmtSpec (expressionStatement r) (Syntax.expressionStatement q) := by
  intro s s' h hdepth
  obtain ⟨stmt, is, htok, hrun⟩ := codeRun_expressionStatement hq h
  exact ⟨stmt, is, htok, hrun.stmtRun.imp fun E loop Γ hcode => hcode loop⟩

theorem printStatement_spec (hq : ExprRoutines r q) [MonoRoutines r] :
    StmtSpec (printStatement r) (Syntax.printStatement q) := by
  intro s s' h hdepth
  obtain ⟨_, s₁, h₁, h'⟩ := h.bind
  obtain ⟨_, s₂, h₂, h₃⟩ := h'.bind
  obtain ⟨e, is, htok, -, hrun⟩ := hq.parsePrecedence _ _ _ h₁
  obtain ⟨hsemi, p, hp⟩ := h₂.consume
  have hw := h₃.emitOpcode
  refine ⟨.print e, is ++ [Instr.op .print], ?_,
    ((hrun.move hp).write (w := [.op .print]) hw (by simp [OpCode.operands])).stmtRun.imp fun E loop Γ he =>
      ⟨is, he, rfl, rfl⟩⟩
  unfold Syntax.printStatement Syntax.expression
  rw [SyntaxM.bind_eq htok, SyntaxM.bind_eq hsemi, hw.parser]
  rfl

theorem returnStatement_spec (hq : ExprRoutines r q) [MonoRoutines r] :
    StmtSpec (returnStatement r) (Syntax.returnStatement q) := by
  intro s s' h hdepth
  obtain ⟨_, s₁, h₁, h'⟩ := h.bind_get.bind
  obtain ⟨-, hs₁⟩ := h₁.reportIf
  rw [hs₁] at h'
  obtain ⟨semi, s₂, h₂, h'⟩ := h'.bind
  obtain ⟨hsemi, p, hp⟩ := h₂.matchToken
  unfold Syntax.returnStatement
  rw [SyntaxM.bind_eq hsemi]
  cases semi with
  | true =>
      have hw := Accepts.emitReturn h'
      have hrun := ((CodeRun.of_parser_eq hp).write hw (plain_returnCode _)).stmtRun
      refine ⟨.return none, _, by rw [hw.parser]; rfl, hrun.emits, hrun.laid,
        hrun.length, fun E loop Γ hc => ⟨?_, rfl⟩⟩
      have htype : E.type = s₂.current.functionType :=
        hc.env.type.trans hw.emits.type
      rw [← htype]
      rfl
  | false =>
      obtain ⟨_, s₃, h₃, h'⟩ := Accepts.bind h'
      obtain ⟨-, hs₃⟩ := h₃.reportIf
      rw [hs₃] at h'
      obtain ⟨_, s₄, h₄, h'⟩ := h'.bind
      obtain ⟨_, s₅, h₅, h₆⟩ := h'.bind
      obtain ⟨e, is, htok, -, hrun⟩ := hq.parsePrecedence _ _ _ h₄
      obtain ⟨hend, p', hp'⟩ := h₅.consume
      have hw := h₆.emitOpcode
      refine ⟨.return (some e), is ++ [Instr.op .return], ?_,
        ((((CodeRun.of_parser_eq hp).trans hrun).move hp').write (w := [.op .return]) hw
          (by simp [OpCode.operands])).stmtRun.imp fun E loop Γ he => ⟨is, he.2, rfl, rfl⟩⟩
      change (q.parsePrecedence _ >>= _) _ = _
      rw [SyntaxM.bind_eq htok, SyntaxM.bind_eq hend, hw.parser]
      rfl

/-- A condition in parentheses. -/
theorem condition_spec (hq : ExprRoutines r q) [MonoRoutines r] {message message' : String}
    {m : CompilerM Unit} [Mono m] (h : Accepts (do
      consume .leftParen message
      expression r
      consume .rightParen message'
      m) s () s') :
    ∃ e is s₁, Syntax.condition q s.parser.tokens = some (e, s₁.parser.tokens) ∧
      CodeRun s s₁ is (fun E Γ => ExprCode E Γ e is) ∧ Accepts m s₁ () s' := by
  obtain ⟨_, s₁, h₁, h'⟩ := h.bind
  obtain ⟨_, s₂, h₂, h'⟩ := h'.bind
  obtain ⟨_, s₃, h₃, h'⟩ := h'.bind
  obtain ⟨hleft, p, hp⟩ := h₁.consume
  obtain ⟨e, is, htok, -, hrun⟩ := hq.parsePrecedence _ _ _ h₂
  obtain ⟨hright, p', hp'⟩ := h₃.consume
  refine ⟨e, is, s₃, ?_, (((CodeRun.of_parser_eq hp).trans hrun).move hp').imp fun _ _ => And.right,
    h'⟩
  unfold Syntax.condition Syntax.expression
  rw [SyntaxM.bind_eq hleft, SyntaxM.bind_eq htok, SyntaxM.bind_eq hright]
  rfl

theorem ifStatement_spec (hq : ExprRoutines r q) (hs : StmtSpec r.statement q.statement)
    [MonoRoutines r] : StmtSpec (ifStatement r) (Syntax.ifStatement q) := by
  intro s s' h hdepth
  obtain ⟨c, ic, s₁, htok, hrun, h'⟩ := condition_spec hq h
  obtain ⟨thenJump, s₂, h₂, h'⟩ := h'.bind
  obtain ⟨hthen, hw⟩ := h₂.emitJump
  obtain ⟨_, s₃, h₃, h'⟩ := h'.bind
  obtain ⟨els, s₄, h₄, h'⟩ := h'.bind
  obtain ⟨helse, p, hp⟩ := h₄.matchToken
  have hoffset : thenJump = s.current.function.code.length + codeSize ic + 1 := by
    rw [hthen, hrun.emits.length_code, length_encodeAll]
  have hstart := hrun.write hw (by simp [OpCode.operands])
  have hplace : ∀ E loop, placeOf E loop s₂ = (placeOf E loop s).after (codeSize ic + 3) := by
    intro E loop
    rw [← placeOf_after hstart.emits]
    simp [Instr.size]
  obtain ⟨t, it, htok', hrun'⟩ := hs _ _ h₃ (hdepth.of_emits hstart.emits)
  rw [hw.parser.symm] at htok
  unfold Syntax.ifStatement
  rw [SyntaxM.bind_eq htok, SyntaxM.bind_eq htok', SyntaxM.bind_eq helse]
  have hbranch := (hstart.stmtRun.trans hrun').move hp
  cases els with
  | true =>
      obtain ⟨elseJump, s₅, h₅, h'⟩ := Accepts.bind h'
      obtain ⟨_, s₆, h₆, h'⟩ := Accepts.bind h'
      obtain ⟨_, s₇, h₇, h₈⟩ := Accepts.bind h'
      obtain ⟨helse', hw'⟩ := h₅.emitJump
      have hjump := hbranch.write hw' (by simp [OpCode.operands])
      rw [List.append_assoc] at hjump
      -- the first jump is patched before the second branch is compiled, the second one behind it
      obtain ⟨hparser, hfits, hpatched⟩ := StmtRun.patch hjump h₆ hoffset
      obtain ⟨e, ie, htok'', hrun''⟩ := hs _ _ h₇ (hdepth.of_emits hpatched.emits)
      have hall := hpatched.trans hrun''
      have hsplit : ic ++ [Instr.short .popJumpIfFalse (codeSize (it ++ [.short .jumpForward 0]))] ++
          (it ++ [.short .jumpForward 0]) ++ ie =
          (ic ++ [.short .popJumpIfFalse (codeSize (it ++ [.short .jumpForward 0]))] ++ it) ++
            [.short .jumpForward 0] ++ ie := by simp
      rw [hsplit] at hall
      obtain ⟨hparser', hfits', hdone⟩ := StmtRun.patch hall h₈ (by
        rw [helse', hbranch.emits.length_code, length_encodeAll]
        simp [Instr.size])
      -- the first jump leads over the second one too
      have hsize : codeSize (it ++ [.short .jumpForward 0]) = codeSize it + 3 := by simp [Instr.size]
      rw [hsize] at hdone hfits
      refine ⟨.ifElse c t e, _, ?_, hdone.emits, hdone.laid, hdone.length,
        fun E loop Γ hc => ?_⟩
      · rw [if_pos rfl, ← hw'.parser, ← hparser, SyntaxM.bind_eq htok'', hparser']
        rfl
      · obtain ⟨⟨hic, hit⟩, hie⟩ := hdone.code E loop Γ hc
        refine ⟨ic, it, ie, hic, ?_, ?_, hfits, hfits', rfl, rfl⟩
        · rw [← hplace]
          exact hit
        · rw [← placeOf_after hpatched.emits] at hie
          simpa [Instr.size, Nat.add_assoc] using hie
  | false =>
      obtain ⟨hparser, hfits, hdone⟩ := StmtRun.patch hbranch h' hoffset
      refine ⟨.if c t, _, by rw [hparser]; rfl, hdone.imp fun E loop Γ hcode => ?_⟩
      refine ⟨ic, it, hcode.1, ?_, hfits, rfl, rfl⟩
      rw [← hplace]
      exact hcode.2

/-! ### Scopes -/

theorem popLocals_spec {d : Nat} {u : Unit} {ls : List Local} (rs : List Local)
    (h : Accepts (popLocals d (rs ++ ls.reverse)) s u s')
    (hlocals : s.current.locals = ls ++ rs.reverse) (hin : ∀ l ∈ rs, d < l.depth)
    (hout : ∀ l ∈ ls, l.depth ≤ d) :
    Laid s s' (scopeEnd (slotsOf rs.reverse)) ∧ ∃ lines, s' = { s with current := { s.current with
      locals := ls
      function := { s.current.function with
        code := s.current.function.code ++ encodeAll (scopeEnd (slotsOf rs.reverse)), lines } } } := by
  induction rs generalizing s with
  | nil =>
      -- the next local is outside the scope, so the loop ends
      have hs' : s' = s := by
        cases hr : ls.reverse with
        | nil =>
            rw [List.nil_append, hr] at h
            exact (Accepts.pure h).2
        | cons l rest =>
            rw [List.nil_append, hr] at h
            have hmem : l ∈ ls := List.mem_reverse.mp (hr ▸ List.mem_cons_self)
            rcases Accepts.ite h with ⟨hgt, -⟩ | ⟨-, h⟩
            · have := hout l hmem
              omega
            · exact h.pure.2
      rw [List.reverse_nil, List.append_nil] at hlocals
      refine ⟨Laid.of_eq (by rw [hs']) (by rw [hs']), s.current.function.lines, ?_⟩
      rw [hs', ← hlocals]
      simp [scopeEnd, slotsOf, ObjectFunction.eta]
  | cons l rs ih =>
      rcases Accepts.ite h with ⟨-, h⟩ | ⟨hle, -⟩
      · obtain ⟨_, s₁, h₁, h⟩ := h.bind
        obtain ⟨_, s₂, h₂, h₃⟩ := h.bind
        have hw := h₁.emitOpcode
        obtain ⟨lines, hs₁⟩ := hw.exists_eq
        have hs₂ := h₂.modifyCurrent
        obtain ⟨hlaid, lines', hs'⟩ := ih h₃ (by
          rw [hs₂, hs₁]
          simp [hlocals]) (fun x hx => hin x (List.mem_cons_of_mem _ hx))
        have hpop : CodeRun s s₁ [.op (if l.isCaptured then .closeUpvalue else .popTop)]
            fun _ _ => True :=
          Writes.codeRun hw (by cases l.isCaptured <;> simp [OpCode.operands])
        -- taking a local away keeps the invariant
        have hok : StateOk s → StateOk s₂ := fun hok => by
          have hok₁ := hpop.emits.ok hok
          have hc := ChainOk.compilerOk hok₁
          rw [hs₂]
          exact ChainOk.of_upvalues_eq hok₁ ⟨hc.numbers, (by simp; have := hc.locals; omega),
            hc.upvalues, hc.count, hc.functions⟩ rfl
        have hpopped : Laid s s₂ [.op (if l.isCaptured then .closeUpvalue else .popTop)] := by
          have hdrop : Laid s₁ s₂ [] := Laid.of_eq (by rw [hs₂]) (by rw [hs₂])
          simpa using hpop.laid.trans hdrop hpop.emits.ok (hs₂ ▸ List.prefix_refl _)
        refine ⟨?_, lines', ?_⟩
        · have := hpopped.trans hlaid hok (hs' ▸ List.prefix_refl _)
          simpa [scopeEnd, slotsOf] using this
        · rw [hs', hs₂, hs₁]
          simp [scopeEnd, slotsOf, Instr.encode]
      · have := hin l List.mem_cons_self
        omega

theorem endScope_spec {u : Unit} {ls ls' : List Local} (h : Accepts endScope s u s')
    (hlocals : s.current.locals = ls ++ ls') (hin : ∀ l ∈ ls', s.current.scopeDepth - 1 < l.depth)
    (hout : ∀ l ∈ ls, l.depth ≤ s.current.scopeDepth - 1) :
    Laid s s' (scopeEnd (slotsOf ls')) ∧ ∃ lines, s' = { s with current := { s.current with
      scopeDepth := s.current.scopeDepth - 1
      locals := ls
      function := { s.current.function with
        code := s.current.function.code ++ encodeAll (scopeEnd (slotsOf ls')), lines } } } := by
  obtain ⟨_, s₁, h₁, h'⟩ := h.bind
  have hs₁ := h₁.modifyCurrent
  have h'' := h'.bind_get
  have hlocals₁ : s₁.current.locals = ls ++ ls' := by rw [hs₁]; exact hlocals
  have hdepth : s₁.current.scopeDepth = s.current.scopeDepth - 1 := by rw [hs₁]
  rw [hdepth, hlocals₁, List.reverse_append] at h''
  obtain ⟨hlaid, lines, hs'⟩ := popLocals_spec ls'.reverse h'' (by simp [hlocals₁])
    (fun l hl => hin l (List.mem_reverse.mp hl)) hout
  rw [List.reverse_reverse] at hs' hlaid
  have hreframe : Reframes s s₁ := ⟨_, _, _, _, _, hs₁⟩
  refine ⟨hreframe.keeps.laid.trans hlaid hreframe.keeps.ok (hs' ▸ List.prefix_refl _), lines, ?_⟩
  rw [hs', hs₁]

/-- The end of a scope that began in `s₁`: its locals are popped, the others are as before it. -/
theorem endScope_keeps {u : Unit} {s₁ s₂ : CompilerState} {is : List Instr} {d : Nat}
    (hgrown : Grown s₁ s₂ (encodeAll is)) (hbefore : Laid s₁ s₂ is)
    (hlocals : LocalsExtend (d + 1) s₁.current.locals s₂.current.locals)
    (hok : StateOk s₁ → StateOk s₂) (hscope : s₂.current.scopeDepth = d + 1)
    (hdepth : ∀ l ∈ s₁.current.locals, l.depth ≤ d) (h : Accepts endScope s₂ u s') :
    s'.parser = s₂.parser ∧
      Keeps s₁ s' (is ++ scopeEnd (slotsOf
        (s₂.current.locals.drop s₁.current.locals.length))) ∧
      s'.current.frame = (d, s₂.current.frame.2) ∧
      s'.current.locals = s₂.current.locals.take s₁.current.locals.length ∧ Extends s₂ s' := by
  obtain ⟨hlaid, lines, hs'⟩ := endScope_spec h (List.take_append_drop s₁.current.locals.length _).symm
    (fun l hl => by
      rw [hscope, hlocals.depth l hl]
      omega)
    (fun l hl => by
      rw [hscope]
      exact forall_depth_of_signature (P := (· ≤ d)) hlocals.signature hdepth l hl)
  have hall := hbefore.trans hlaid hok (hs' ▸ List.prefix_refl _)
  rw [hs'] at hall ⊢
  refine ⟨rfl, ⟨⟨⟨hgrown.names, hgrown.enclosing, hgrown.upvalues, hgrown.constants, hgrown.type⟩, ?_⟩,
    hall, ⟨hlocals.signature, fun i hi => ?_⟩, fun hs₁ => ?_⟩, ?_, rfl,
    ⟨List.prefix_refl _, ChainGrows.refl _, List.prefix_refl _, List.prefix_refl _, rfl⟩⟩
  · dsimp only
    rw [hgrown.code, encodeAll_append, List.append_assoc]
  · have hlt : i < s₁.current.locals.length := by
      by_contra hge
      rw [CapturedAt, List.getElem?_eq_none (by omega)] at hi
      cases hi
    unfold CapturedAt
    rw [List.getElem?_take, if_pos hlt]
    exact hlocals.captured i hi
  · obtain ⟨h₁, h₂, h₃, h₄, h₅⟩ := ChainOk.compilerOk (hok hs₁)
    refine ChainOk.of_upvalues_eq (hok hs₁) ⟨h₁, ?_, h₃, h₄, h₅⟩ rfl
    exact (List.length_take_le' _ _).trans h₂
  · unfold FunctionState.frame
    dsimp only
    rw [hscope]
    rfl

theorem block_spec (hb : DeclsSpec r.blockLoop q.blockLoop) [MonoRoutines r] :
    DeclsSpec (block r) (Syntax.block q) := by
  intro s s' h hdepth
  obtain ⟨_, s₁, h₁, h₂⟩ := h.bind
  obtain ⟨body, is, htok, hrun⟩ := hb _ _ h₁ hdepth
  obtain ⟨hbrace, p, hp⟩ := h₂.consume
  refine ⟨body, is, ?_, ?_, ?_, fun E loop Γ hc => hrun.code E loop Γ ⟨hc.ok, ?_, ?_, hc.loop⟩⟩
  · unfold Syntax.block
    rw [SyntaxM.bind_eq htok, SyntaxM.bind_eq hbrace]
    rfl
  · have := hrun.emits.trans (Emits.of_parser_eq hp)
    rwa [List.append_nil] at this
  · have hmove : Laid s₁ s' [] := Laid.of_eq (by rw [hp]) (by rw [hp])
    simpa using hrun.laid.trans hmove hrun.emits.ok (Emits.of_parser_eq hp).constants
  · exact hc.env.of_extends (Emits.of_parser_eq hp).toExtends
  · have := hc.slots
    rwa [hp] at this

theorem blockStatement_spec (hb : DeclsSpec r.blockLoop q.blockLoop) [MonoRoutines r] :
    StmtSpec (blockStatement r) (Syntax.blockStatement q) := by
  intro s s' h hdepth
  obtain ⟨_, s₁, h₁, h'⟩ := h.bind
  obtain ⟨_, s₂, h₂, h₃⟩ := h'.bind
  have hs₁ := h₁.modifyCurrent
  have hreframe : Reframes s s₁ := ⟨_, _, _, _, _, hs₁⟩
  have hlocals : s₁.current.locals = s.current.locals := by rw [hs₁]
  have hout : ∀ l ∈ s₁.current.locals, l.depth ≤ s.current.scopeDepth := by
    rw [hlocals]
    exact hdepth
  obtain ⟨body, is, htok, hrun⟩ := block_spec hb _ _ h₂ (fun l hl => by
    rw [hs₁]
    exact (hout l hl).trans (Nat.le_succ _))
  have hscope : s₁.current.scopeDepth = s.current.scopeDepth + 1 := by rw [hs₁]
  obtain ⟨hparser, hkeeps, hframe, hlocals', hext⟩ :=
    endScope_keeps hrun.emits.toGrown hrun.laid (hscope ▸ hrun.emits.locals) hrun.emits.ok
      (hrun.emits.scopeDepth.trans hscope) hout h₃
  have hkeeps' := hreframe.keeps.trans hkeeps
  rw [List.nil_append] at hkeeps'
  refine ⟨.block body, _, ?_, hkeeps'.emits ?_, hkeeps'.laid, hkeeps'.locals.length_eq,
    fun E loop Γ hc => ?_⟩
  · unfold Syntax.blockStatement
    rw [hreframe.parser] at htok
    rw [SyntaxM.bind_eq htok, hparser]
    rfl
  · rw [hframe, hrun.emits.frame, hs₁]
    rfl
  · have hlen := hkeeps'.locals.length_eq
    have hslots := hc.slots
    rw [hlocals'] at hslots
    have happend := hslots.append hrun.emits.locals.length_le
    obtain ⟨hloop, hbelow⟩ := hc.loop.nest (show s₁.current = _ by rw [hs₁])
    have hcode := hrun.code E loop _ ⟨hreframe.keeps.ok hc.ok, hc.env.of_extends hext, happend, hloop⟩ hbelow
    have hΓ : Γ.length = s₁.current.locals.length := by
      rw [hc.slots.length_eq, hlen, hlocals]
    rw [← hΓ, List.take_left] at hcode
    refine ⟨is, Γ ++ slotsOf (s₂.current.locals.drop Γ.length), ?_, ?_, rfl⟩
    · have hplace : (placeOf E loop s).nested = placeOf E loop s₁ := by
        rw [hs₁]
        rfl
      rw [hplace]
      exact hcode
    · rw [List.drop_left, ← hΓ]

end Compiler

end CppLox
