import CppLox.Compiler.Layout
import CppLox.Compiler.Resolution

/-!
# Compiler — the code of expressions

Each routine that parses an expression, when it accepts, reads the tree the parser of `Syntax`
reads and emits its code (`ExprCode`).  A routine in infix position extends the code of the
expression to its left.
-/

namespace CppLox

open CompilerM

/-- A routine that compiles an expression. -/
def ExprSpec (m : CompilerM Unit) (p : SyntaxM Expr) : Prop :=
  ∀ s s', Accepts m s () s' → ∃ e is, p s.parser.tokens = some (e, s'.parser.tokens) ∧ is ≠ [] ∧
    CodeRun s s' is fun E Γ => ExprCode E Γ e is

/-- A routine that compiles what follows an expression. -/
def InfixSpec (m : CompilerM Unit) (p : Expr → SyntaxM Expr) : Prop :=
  ∀ s s', Accepts m s () s' → ∃ (f : Expr → Expr) (is : List Instr),
    (∀ left, p left s.parser.tokens = some (f left, s'.parser.tokens)) ∧
    CodeRun s s' is fun E Γ => ∀ left il, ExprCode E Γ left il → ExprCode E Γ (f left) (il ++ is)

/-- A routine that compiles arguments after the first `n`. -/
def ArgumentsSpec (m : CompilerM Nat) (p : SyntaxM Exprs) (n : Nat) : Prop :=
  ∀ s k s', Accepts m s k s' → n ≤ 255 → ∃ es is, p s.parser.tokens = some (es, s'.parser.tokens) ∧
    k = n + es.length ∧ k ≤ 255 ∧ CodeRun s s' is fun E Γ => ExprsCode E Γ es is

/-- A routine that compiles the elements of a list after the first `n`. -/
def ElementsSpec (m : CompilerM (Nat × Bool)) (p : SyntaxM Exprs) (n : Nat) : Prop :=
  ∀ s k b s', Accepts m s (k, b) s' → ∃ es is, p s.parser.tokens = some (es, s'.parser.tokens) ∧
    b = decide (k < listBuildAppendThreshold) ∧ is ≠ [] ∧
    CodeRun s s' is fun E Γ =>
      ElementsCode E Γ es n (is ++ buildCode .list listBuildAppendThreshold k)

/-- A routine that compiles the entries of a map after the first `n`. -/
def EntriesSpec (m : CompilerM (Nat × Bool)) (p : SyntaxM Entries) (n : Nat) : Prop :=
  ∀ s k b s', Accepts m s (k, b) s' → ∃ es is, p s.parser.tokens = some (es, s'.parser.tokens) ∧
    b = decide (k < mapBuildAddThreshold) ∧ is ≠ [] ∧
    CodeRun s s' is fun E Γ => EntriesCode E Γ es n (is ++ buildCode .map mapBuildAddThreshold k)

/-- The recursive routines compile the expressions the recursive parsers read. -/
structure ExprRoutines (r : Routines) (q : SyntaxRoutines) : Prop where
  parsePrecedence : ∀ p, ExprSpec (r.parsePrecedence p) (q.parsePrecedence p)
  infixLoop : ∀ p b, InfixSpec (r.infixLoop p b) (q.infixLoop p b)
  argumentLoop : ∀ n, ArgumentsSpec (r.argumentLoop n) q.argumentLoop n
  listLoop : ∀ n b, b = decide (n < listBuildAppendThreshold) →
    ElementsSpec (r.listLoop n b) q.listLoop n
  mapLoop : ∀ n b, b = decide (n < mapBuildAddThreshold) → EntriesSpec (r.mapLoop n b) q.mapLoop n

namespace CodeRun

variable {s s' s'' : CompilerState} {is is' : List Instr} {code code' : Env → List Slot → Prop}

/-- Instructions are written after a run. -/
theorem write {w : List Instr} (h : CodeRun s s' is code) (hw : Writes s' s'' (encodeAll w))
    (hplain : ∀ i ∈ w, i.Plain) :
    CodeRun s s'' (is ++ w) code :=
  (h.trans (hw.codeRun hplain)).imp fun _ _ => And.left

/-- The parser moves on after a run. -/
theorem move {p : Parser} (h : CodeRun s s' is code) (hp : s'' = { s' with parser := p }) :
    CodeRun s s'' is code := by
  have := (h.trans (of_parser_eq hp)).imp fun _ _ => And.left
  rwa [List.append_nil] at this

/-- The code that was appended is changed. -/
theorem recode (h : CodeRun s s' is code)
    (hs : s'' = { s' with current := { s'.current with function := { s'.current.function with
      code := s.current.function.code ++ encodeAll is' } } })
    (hsizes : is'.map Instr.size = is.map Instr.size)
    (hfits : StateOk s → ∀ i ∈ is', i.Fits s'.current.function.constants) :
    CodeRun s s'' is' code := by
  have hlen : (s.current.function.code ++ encodeAll is').length =
      s'.current.function.code.length := by
    rw [List.length_append, length_encodeAll, h.laid.length, codeSize, codeSize, hsizes]
  refine ⟨h.emits.recode hs, h.laid.recode hs hlen hsizes hfits, by rw [hs]; exact h.locals,
    fun E Γ hok hE hΓ => ?_⟩
  rw [hs] at hE
  exact h.code E Γ hok ⟨hE.type, hE.constants, hE.upvalues, hE.enclosing, hE.globals⟩ hΓ

/-- A forward jump is patched after the code it skips. -/
theorem patch {offset : Nat} {op : OpCode} {a b : List Instr} {u : Unit}
    (h : CodeRun s s' (a ++ [.short op 0] ++ b) code)
    (hp : Accepts (Compiler.patchJump offset) s' u s'')
    (hoffset : offset = s.current.function.code.length + codeSize a + 1) :
    s''.parser = s'.parser ∧ JumpFits (codeSize b) ∧
      CodeRun s s'' (a ++ [.short op (codeSize b)] ++ b) code := by
  have hemits := h.emits
  rw [encodeAll_append, encodeAll_append] at hemits
  obtain ⟨hfits, hs''⟩ := hemits.toGrown.patch hp (by rw [length_encodeAll]; exact hoffset)
  rw [length_encodeAll] at hfits hs''
  refine ⟨by rw [hs''], hfits, h.recode ?_ (by simp [Instr.size]) fun hok => Instr.fits_patch (h.laid.fits hok)⟩
  rw [hs'', encodeAll_append, encodeAll_append]

end CodeRun

/-- A constant is added after a run. -/
theorem Emits.addConstant {s₀ s s' : CompilerState} {bytes : List UInt8}
    {value : Constant ObjectFunction} (h : Emits s₀ s bytes)
    (hs' : s' = { s with current := { s.current with function := { s.current.function with
      constants := s.current.function.constants ++ [value] } } })
    (hvalue : StateOk s₀ → ∀ g, value = .function g → Compiled g) : Emits s₀ s' bytes := by
  rw [hs']
  refine ⟨⟨⟨h.names, h.enclosing, h.upvalues, h.constants.trans (List.prefix_append _ _), h.type⟩,
    h.code⟩, h.locals, h.frame, fun hok => ?_⟩
  have hc := ChainOk.compilerOk (h.ok hok)
  refine ChainOk.of_upvalues_eq (h.ok hok)
    ⟨fun v k hk => ?_, hc.locals, hc.upvalues, hc.count, fun g hg => ?_⟩ rfl
  · exact getElem?_of_extends (List.prefix_append _ _) (hc.numbers v k hk)
  · rcases List.mem_append.mp hg with hg | hg
    · exact hc.functions g hg
    · exact hvalue hok g (List.mem_singleton.mp hg).symm

namespace Accepts

variable {s s' : CompilerState}

theorem addConstant_eq {value : Constant ObjectFunction} {k : Nat}
    (h : Accepts (Compiler.addConstant value) s k s') :
    k = s.current.function.constants.length ∧ k ≤ 0xFFFF ∧
      s' = { s with current := { s.current with function := { s.current.function with
        constants := s.current.function.constants ++ [value] } } } := by
  have hrun := h.run
  unfold Compiler.addConstant Chunk.addConstant at hrun
  split at hrun
  · rename_i index f hf
    split at hf
    · cases hf
    · rename_i hlen
      cases hf
      cases hrun
      exact ⟨rfl, by omega, rfl⟩
  · cases hrun

theorem addConstant {value : Constant ObjectFunction} {k : Nat}
    (h : Accepts (Compiler.addConstant value) s k s') (hvalue : ∀ g, value ≠ .function g) :
    k ≤ 0xFFFF ∧ s'.parser = s.parser ∧
      CodeRun s s' [] fun E _ => E.constants[k]? = some value := by
  obtain ⟨rfl, hk, hs'⟩ := h.addConstant_eq
  refine ⟨hk, by rw [hs'], (Emits.refl s).addConstant hs' fun _ g hg => absurd hg (hvalue g),
    Laid.of_eq (by rw [hs']) (by rw [hs']), by rw [hs'], fun E Γ _ hE _ => ?_⟩
  rw [hs'] at hE
  exact getElem?_of_extends hE.constants (by simp)

end Accepts

namespace Compiler

variable (parseReal : ParseReal) {r : Routines} {q : SyntaxRoutines} {s s' : CompilerState}

/-! ### Literals -/

/-- An instruction that loads a literal. -/
theorem codeRun_literal {e : Expr} {op : OpCode} (h : Accepts (emitOpcode op) s () s')
    (hop : op.operands = some .none) (hcode : ∀ E Γ, ExprCode E Γ e [.op op]) :
    s'.parser = s.parser ∧ CodeRun s s' [.op op] fun E Γ => ExprCode E Γ e [.op op] :=
  ⟨h.emitOpcode.parser, (Writes.codeRun (w := [.op op]) h.emitOpcode (by simpa using hop)).imp
    fun E Γ _ => hcode E Γ⟩

/-- A value is added to the constants and loaded. -/
theorem codeRun_constant {value : Constant ObjectFunction} {f : Nat → CompilerM Unit}
    [∀ k, Mono (f k)] (h : Accepts (addConstant value >>= f) s () s')
    (hvalue : ∀ g, value ≠ .function g) :
    ∃ k s₁, k ≤ 0xFFFF ∧ s₁.parser = s.parser ∧
      CodeRun s s₁ [] (fun E _ => E.constants[k]? = some value) ∧ Accepts (f k) s₁ () s' := by
  obtain ⟨k, s₁, h₁, h₂⟩ := h.bind
  obtain ⟨hk, hparser, hrun⟩ := h₁.addConstant hvalue
  exact ⟨k, s₁, hk, hparser, hrun, h₂⟩

theorem codeRun_loadInteger {value : Int64} {line : Int32} {found : Option Nat}
    (hfound : found = s.current.constantNumbers.lookup value)
    (hline : line = s.parser.tokens.previous.line)
    (h : Accepts (loadInteger value line found) s () s') :
    s'.parser = s.parser ∧ ∃ k ≤ 0xFFFF,
      CodeRun s s' [loadConstant k] fun E _ => E.constants[k]? = some (.integer value) := by
  cases found with
  | some k =>
      obtain ⟨hk, hw⟩ := Accepts.writeLoadConstant h hline
      have hrun := hw.codeRun (List.forall_mem_singleton.mpr (tame_loadConstant k).1)
      refine ⟨hw.parser, k, hk, hw.emits, hrun.laid, hw.locals, fun E Γ hok hE _ => ?_⟩
      have hget := hok.compilerOk.numbers value k hfound.symm
      exact getElem?_of_extends (hE.of_extends hw.emits.toExtends).constants hget
  | none =>
      obtain ⟨k, s₁, hk, hparser, hrun, h'⟩ := codeRun_constant h nofun
      obtain ⟨_, s₂, h₂, h₃⟩ := h'.bind
      obtain ⟨-, hw⟩ := h₂.writeLoadConstant (hparser ▸ hline)
      have hs' := h₃.modifyCurrent
      have hrun₂ := hrun.write (w := [loadConstant k]) hw
        (List.forall_mem_singleton.mpr (tame_loadConstant k).1)
      refine ⟨by rw [hs']; exact hw.parser.trans hparser, k, hk, ?_⟩
      obtain ⟨⟨⟨⟨names, enclosing, upvalues, constants, type⟩, code⟩, locals, frame, ok⟩,
        ⟨⟨length, lines⟩, fits⟩, hlocals, hcode⟩ := hrun₂
      rw [hs']
      refine ⟨⟨⟨⟨names, enclosing, upvalues, constants, type⟩, code⟩, locals, frame, fun hok => ?_⟩,
        ⟨⟨length, lines⟩, fits⟩, hlocals, fun E Γ hok hE hΓ => hcode E Γ hok
          ⟨hE.type, hE.constants, hE.upvalues, hE.enclosing, hE.globals⟩ hΓ⟩
      have hget := hcode _ _ hok (approximates_envOf s₂) (slotsApprox_slotsOf _).view
      obtain ⟨hnum, h₁, h₂, h₃, h₄⟩ := ChainOk.compilerOk (ok hok)
      refine ChainOk.of_upvalues_eq (ok hok) ⟨fun v j hj => ?_, h₁, h₂, h₃, h₄⟩ rfl
      rw [List.lookup_cons] at hj
      split at hj
      · rename_i heq
        cases hj
        rw [eq_of_beq heq]
        exact hget
      · exact hnum v j hj

theorem codeRun_integerLiteral {token : Token} {value : Int64}
    (hline : token.line = s.parser.tokens.previous.line)
    (h : Accepts (integerLiteral token (some value)) s () s') :
    s'.parser = s.parser ∧ ∃ i, CodeRun s s' [i] fun E Γ => ExprCode E Γ (.integer value) [i] := by
  rcases Accepts.ite h with ⟨hzero, h⟩ | ⟨hzero, h⟩
  · obtain ⟨hparser, hrun⟩ := codeRun_literal (e := .integer value) h rfl fun _ _ => by
      simp [ExprCode, hzero]
    exact ⟨hparser, _, hrun⟩
  · rcases h.ite with ⟨hone, h⟩ | ⟨hone, h⟩
    · obtain ⟨hparser, hrun⟩ := codeRun_literal (e := .integer value) h rfl fun _ _ => by
        simp [ExprCode, hone]
      exact ⟨hparser, _, hrun⟩
    · obtain ⟨hparser, k, hk, hrun⟩ := codeRun_loadInteger rfl hline h.bind_get
      refine ⟨hparser, _, hrun.imp fun E Γ hget => ?_⟩
      simp only [ExprCode, if_neg hzero, if_neg hone]
      exact ⟨k, hk, hget, rfl⟩

theorem number_spec {s s' : CompilerState} (h : Accepts (number parseReal) s () s')
    (htype : s.parser.tokens.previous.tokenType = .numberInt ∨
      s.parser.tokens.previous.tokenType = .numberReal) :
    ∃ e is, Syntax.number parseReal s.parser.tokens = some (e, s'.parser.tokens) ∧ is ≠ [] ∧
      CodeRun s s' is fun E Γ => ExprCode E Γ e is := by
  have h' := h.bind_previous
  change ∃ e is, (if s.parser.tokens.previous.tokenType = .numberInt then _ else _ : SyntaxM Expr) _ =
    _ ∧ _
  rcases h'.ite with ⟨hint, h'⟩ | ⟨hint, h'⟩
  · rw [if_pos hint]
    cases hvalue : parseInt s.parser.tokens.previous.lexeme with
    | none =>
        rw [hvalue] at h'
        exact absurd h' Accepts.not_reportError
    | some value =>
        rw [hvalue] at h'
        obtain ⟨hparser, i, hrun⟩ := codeRun_integerLiteral rfl h'
        exact ⟨_, [i], by rw [hparser]; rfl, List.cons_ne_nil _ _, hrun⟩
  · rw [if_neg hint]
    rcases h'.ite with ⟨hreal, h'⟩ | ⟨hreal, -⟩
    · cases hvalue : parseReal s.parser.tokens.previous.lexeme with
      | none =>
          rw [hvalue] at h'
          exact absurd h' Accepts.not_reportError
      | some value =>
          rw [hvalue] at h'
          obtain ⟨k, s₁, hk, hparser, hconst, h₁⟩ := codeRun_constant h' nofun
          obtain ⟨-, hw⟩ := h₁.writeLoadConstant (by rw [hparser])
          refine ⟨.real value, [loadConstant k], by rw [hw.parser, hparser]; rfl,
            List.cons_ne_nil _ _, ?_⟩
          exact (hconst.write (w := [loadConstant k]) hw
            (List.forall_mem_singleton.mpr (tame_loadConstant k).1)).imp
            fun E Γ hget => ⟨k, hk, hget, rfl⟩
    · exact absurd htype (by simp [hint, hreal])

theorem literal_spec : ExprSpec literal Syntax.literal := by
  intro s s' h
  have h' : Accepts (emitLiteral s.parser.tokens.previous.tokenType) s () s' := h.bind_previous
  unfold emitLiteral at h'
  split at h' <;> rename_i htype
  · obtain ⟨hparser, hrun⟩ := codeRun_literal (e := .boolean false) h' rfl fun _ _ => rfl
    exact ⟨_, _, by rw [Syntax.literal, Syntax.bind_previous, htype, hparser]; rfl, List.cons_ne_nil _ _, hrun⟩
  · obtain ⟨hparser, hrun⟩ := codeRun_literal (e := .boolean true) h' rfl fun _ _ => rfl
    exact ⟨_, _, by rw [Syntax.literal, Syntax.bind_previous, htype, hparser]; rfl, List.cons_ne_nil _ _, hrun⟩
  · obtain ⟨hparser, hrun⟩ := codeRun_literal (e := .nil) h' rfl fun _ _ => rfl
    exact ⟨_, _, by rw [Syntax.literal, Syntax.bind_previous, htype, hparser]; rfl, List.cons_ne_nil _ _, hrun⟩
  · exact absurd h' Accepts.not_throw

theorem string_spec : ExprSpec string Syntax.string := by
  intro s s' h
  obtain ⟨k, s₁, hk, hparser, hconst, h₁⟩ := codeRun_constant h.bind_previous.bind_internString nofun
  obtain ⟨-, hw⟩ := h₁.writeLoadConstant (by rw [hparser])
  refine ⟨_, [loadConstant k], by rw [hw.parser, hparser]; rfl, List.cons_ne_nil _ _, ?_⟩
  exact (hconst.write (w := [loadConstant k]) hw
    (List.forall_mem_singleton.mpr (tame_loadConstant k).1)).imp fun E Γ hget => ⟨k, hk, hget, rfl⟩

/-! ### Operators -/

theorem grouping_spec (hq : ExprRoutines r q) [MonoRoutines r] :
    ExprSpec (grouping r) (Syntax.grouping q) := by
  intro s s' h
  obtain ⟨_, s₁, h₁, h₂⟩ := h.bind
  obtain ⟨e, is, htok, hne, hrun⟩ := hq.parsePrecedence _ _ _ h₁
  obtain ⟨hparen, p, hp⟩ := h₂.consume
  refine ⟨e, is, ?_, hne, hrun.move hp⟩
  unfold Syntax.grouping Syntax.expression
  rw [SyntaxM.bind_eq htok, SyntaxM.bind_eq hparen]
  rfl

theorem binaryOpcodes_eq {type : TokenType} {codes : List OpCode} (h : binaryOpcodes type = some codes) :
    ∃ op, Syntax.binaryOp type = some op ∧ op.opcodes = codes := by
  cases type <;> simp only [binaryOpcodes] at h <;> cases h <;> exact ⟨_, rfl, rfl⟩

theorem binary_spec (hq : ExprRoutines r q) [MonoRoutines r] :
    InfixSpec (binary r) (Syntax.binary q) := by
  intro s s' h
  obtain ⟨_, s₁, h₁, h₂⟩ := h.bind_previous.bind
  obtain ⟨e, is, htok, -, hrun⟩ := hq.parsePrecedence _ _ _ h₁
  cases hcodes : binaryOpcodes s.parser.tokens.previous.tokenType with
  | none =>
      rw [hcodes] at h₂
      exact absurd h₂ Accepts.not_throw
  | some codes =>
      rw [hcodes] at h₂
      obtain ⟨op, hop, rfl⟩ := binaryOpcodes_eq hcodes
      have hw := Accepts.emitOpcodes h₂
      refine ⟨fun left => .binary op left e, is ++ op.opcodes.map .op, fun left => ?_, ?_⟩
      · change (q.parsePrecedence _ >>= _) _ = _
        rw [SyntaxM.bind_eq htok, hop, hw.parser]
        rfl
      · refine (hrun.write hw fun i hi => (tame_opcodes op i hi).1).imp fun E Γ he left il hl =>
          ⟨il, is, hl, he, ?_⟩
        rw [List.append_assoc]

/-- The right operand of `and` and `or` is skipped by a jump. -/
theorem codeRun_shortCircuit {op : OpCode} {m : CompilerM Unit} {p : SyntaxM Expr} [Mono m]
    (hop : op.operands = some .short) (hm : ExprSpec m p) (h : Accepts (do
      let endJump ← emitJump op
      emitOpcode .popTop
      m
      patchJump endJump) s () s') :
    ∃ e is, p s.parser.tokens = some (e, s'.parser.tokens) ∧ JumpFits (1 + codeSize is) ∧
      CodeRun s s' ([.short op (1 + codeSize is), .op .popTop] ++ is) fun E Γ => ExprCode E Γ e is := by
  obtain ⟨endJump, s₁, h₁, h⟩ := h.bind
  obtain ⟨_, s₂, h₂, h⟩ := h.bind
  obtain ⟨_, s₃, h₃, h₄⟩ := h.bind
  obtain ⟨hjump, hw₁⟩ := h₁.emitJump
  have hw₂ := h₂.emitOpcode
  obtain ⟨e, is, htok, -, hrun⟩ := hm _ _ h₃
  have hrun' := ((Writes.codeRun hw₁ (by simpa using hop)).write (w := [.op .popTop]) hw₂
    (by simp [OpCode.operands])).trans hrun
  obtain ⟨hparser, hfits, hrun''⟩ :=
    CodeRun.patch (a := []) (b := .op .popTop :: is) hrun' h₄ hjump
  refine ⟨e, is, ?_, hfits, hrun''.imp fun E Γ he => he.2⟩
  rw [← hw₁.parser, ← hw₂.parser, htok, hparser]

theorem and_spec (hq : ExprRoutines r q) [MonoRoutines r] : InfixSpec (and_ r) (Syntax.and_ q) := by
  intro s s' h
  obtain ⟨e, is, htok, hfits, hrun⟩ := codeRun_shortCircuit rfl (hq.parsePrecedence .and) h
  refine ⟨fun left => .and left e, _, fun left => ?_, hrun.imp fun E Γ he left il hl =>
    ⟨il, is, hl, he, hfits, by simp⟩⟩
  unfold Syntax.and_
  rw [SyntaxM.bind_eq htok]
  rfl

theorem or_spec (hq : ExprRoutines r q) [MonoRoutines r] : InfixSpec (or_ r) (Syntax.or_ q) := by
  intro s s' h
  obtain ⟨e, is, htok, hfits, hrun⟩ := codeRun_shortCircuit rfl (hq.parsePrecedence .or) h
  refine ⟨fun left => .or left e, _, fun left => ?_, hrun.imp fun E Γ he left il hl =>
    ⟨il, is, hl, he, hfits, by simp⟩⟩
  unfold Syntax.or_
  rw [SyntaxM.bind_eq htok]
  rfl

theorem ternary_spec (hq : ExprRoutines r q) [MonoRoutines r] :
    InfixSpec (ternary r) (Syntax.ternary q) := by
  intro s s' h
  obtain ⟨_, s₁, h₁, h⟩ := h.bind
  obtain ⟨_, s₂, h₂, h₃⟩ := h.bind
  obtain ⟨t, it, htok, -, hrun⟩ := hq.parsePrecedence _ _ _ h₁
  obtain ⟨hcolon, p, hp⟩ := h₂.consume
  obtain ⟨e, ie, htok', -, hrun'⟩ := hq.parsePrecedence _ _ _ h₃
  refine ⟨fun left => .conditional left t e, it ++ ie, fun left => ?_,
    ((hrun.move hp).trans hrun').imp fun E Γ he left il hl => ⟨il, it, ie, hl, he.1, he.2, by simp⟩⟩
  unfold Syntax.ternary
  rw [SyntaxM.bind_eq htok, SyntaxM.bind_eq hcolon, SyntaxM.bind_eq htok']
  rfl

/-! ### Calls -/

theorem argumentList_spec (hq : ExprRoutines r q) [MonoRoutines r] :
    ArgumentsSpec (argumentList r) (Syntax.argumentList q) 0 := by
  intro s k s' h hn
  have h' := h.bind_check
  change ∃ es is, (if decide (s.parser.tokens.current.tokenType = .rightParen) = true then _
    else _ : SyntaxM Exprs) _ = _ ∧ _
  rcases h'.ite with ⟨hc, h'⟩ | ⟨hc, h'⟩
  · rw [if_pos hc]
    obtain ⟨_, s₁, h₁, h₂⟩ := h'.bind
    obtain ⟨hparen, p, hp⟩ := h₁.consume
    obtain ⟨rfl, rfl⟩ := h₂.pure
    refine ⟨.nil, [], ?_, rfl, by decide, (CodeRun.of_parser_eq hp).imp fun _ _ _ => rfl⟩
    rw [SyntaxM.bind_eq hparen]
    rfl
  · rw [if_neg hc]
    obtain ⟨n, s₁, h₁, h'⟩ := h'.bind
    obtain ⟨_, s₂, h₂, h₃⟩ := h'.bind
    obtain ⟨es, is, htok, hk, hle, hrun⟩ := hq.argumentLoop 0 _ _ _ h₁ hn
    obtain ⟨hparen, p, hp⟩ := h₂.consume
    obtain ⟨rfl, rfl⟩ := h₃.pure
    refine ⟨es, is, ?_, hk, hle, hrun.move hp⟩
    rw [SyntaxM.bind_eq htok, SyntaxM.bind_eq hparen]
    rfl

theorem argumentLoop_spec (hq : ExprRoutines r q) [MonoRoutines r] (n : Nat) :
    ArgumentsSpec (argumentLoop r n) (Syntax.argumentLoop q) n := by
  intro s k s' h hn
  obtain ⟨_, s₁, h₁, h'⟩ := h.bind
  obtain ⟨e, is, htok, -, hrun⟩ := hq.parsePrecedence _ _ _ h₁
  unfold Syntax.argumentLoop Syntax.expression
  rw [SyntaxM.bind_eq htok]
  rcases h'.ite with ⟨hmax, h'⟩ | ⟨hmax, h'⟩
  · obtain ⟨_, _, h₂, -⟩ := h'.bind
    exact absurd h₂ Accepts.not_reportError
  · unfold maxFunctionParameters at hmax
    obtain ⟨comma, s₂, h₂, h'⟩ := h'.bind
    obtain ⟨hcomma, p, hp⟩ := h₂.matchToken
    rw [SyntaxM.bind_eq hcomma]
    cases comma with
    | true =>
        obtain ⟨es, is', htok', hk, hle, hrun'⟩ := hq.argumentLoop _ _ _ _ h' (by omega)
        refine ⟨.cons e es, is ++ is', ?_, ?_, hle,
          ((hrun.move hp).trans hrun').imp fun E Γ he => ⟨is, is', he.1, he.2, rfl⟩⟩
        · change (q.argumentLoop >>= _) _ = _
          rw [SyntaxM.bind_eq htok']
          rfl
        · rw [hk, Exprs.length]
          omega
    | false =>
        obtain ⟨rfl, rfl⟩ := Accepts.pure h'
        exact ⟨.cons e .nil, is, rfl, by simp [Exprs.length], by omega,
          (hrun.move hp).imp fun E Γ he => ⟨is, [], he, rfl, by simp⟩⟩

theorem call_spec (hq : ExprRoutines r q) [MonoRoutines r] : InfixSpec (call r) (Syntax.call q) := by
  intro s s' h
  obtain ⟨k, s₁, h₁, h₂⟩ := h.bind
  obtain ⟨es, is, htok, hk, hle, hrun⟩ := argumentList_spec hq _ _ _ h₁ (by decide)
  have hw := Accepts.emitBuild h₂
  rw [Nat.zero_add] at hk
  refine ⟨fun left => .call left es, is ++ [Instr.byte .call es.length], fun left => ?_, ?_⟩
  · unfold Syntax.call
    rw [SyntaxM.bind_eq htok, hw.parser]
    rfl
  · rw [hk] at hw hle
    exact (hrun.write hw (by simp [OpCode.operands])).imp fun E Γ he left il hl =>
      ⟨il, is, hl, he, hle, by simp⟩

/-! ### Variables -/

/-- A variable that is not assigned to. -/
theorem codeRun_load {token : Token} [MonoRoutines r]
    (h : Accepts (namedVariable r token false) s () s') :
    s'.parser = s.parser ∧ ∃ ref : Ref,
      CodeRun s s' [ref.load] fun E Γ => Resolves E Γ token.lexeme ref := by
  obtain ⟨resolved, s₁, h₁, h₂⟩ := h.bind
  obtain ⟨ref, hload, -, hparser, hrun⟩ := h₁.resolve
  have hw := Accepts.emitConstantOp h₂
  rw [hload] at hw
  exact ⟨hw.parser.trans hparser, ref,
    hrun.write hw (List.forall_mem_singleton.mpr ref.tame_load.1)⟩

theorem variable_spec (hq : ExprRoutines r q) [MonoRoutines r] (canAssign : Bool) :
    ExprSpec («variable» r canAssign) (Syntax.variable q canAssign) := by
  intro s s' h
  obtain ⟨resolved, s₁, h₁, h'⟩ := h.bind_previous.bind
  obtain ⟨equal, s₂, h₂, h'⟩ := h'.bind
  obtain ⟨ref, hload, hstore, hparser, hrun⟩ := h₁.resolve
  obtain ⟨hequal, p, hp⟩ := h₂.matchIf
  rw [hparser] at hequal
  change ∃ e is, (Syntax.matchIf canAssign .equal >>= _) _ = _ ∧ _
  rw [SyntaxM.bind_eq hequal]
  cases equal with
  | true =>
      rw [if_pos rfl] at h'
      cases hconst : resolved.constError with
      | some message =>
          rw [hconst] at h'
          exact absurd h' Accepts.not_reportError
      | none =>
          rw [hconst] at h'
          obtain ⟨_, s₃, h₃, h₄⟩ := h'.bind
          obtain ⟨e, is, htok, -, hrun'⟩ := hq.parsePrecedence _ _ _ h₃
          have hw := h₄.emitConstantOp
          rw [hstore] at hw
          refine ⟨.assign s.parser.tokens.previous.lexeme e, is ++ [ref.store], ?_, by simp,
            (((hrun.move hp).trans hrun').write hw
              (List.forall_mem_singleton.mpr ref.tame_store.1)).imp
              fun E Γ he => ⟨ref, is, he.1, he.2, rfl⟩⟩
          rw [if_pos rfl]
          change (q.parsePrecedence _ >>= _) _ = _
          rw [SyntaxM.bind_eq htok, hw.parser]
          rfl
  | false =>
      have hw := Accepts.emitConstantOp h'
      rw [hload] at hw
      refine ⟨.variable s.parser.tokens.previous.lexeme, [ref.load], by rw [hw.parser]; rfl, by simp,
        ((hrun.move hp).write hw (List.forall_mem_singleton.mpr ref.tame_load.1)).imp
          fun E Γ he => ⟨ref, he, rfl⟩⟩

theorem this_spec (hq : ExprRoutines r q) [MonoRoutines r] :
    ExprSpec (this_ r) (Syntax.variable q false) := by
  intro s s' h
  rcases h.bind_get.ite with ⟨-, h'⟩ | ⟨-, h'⟩
  · exact absurd h' Accepts.not_reportError
  · exact variable_spec hq false _ _ h'

/-! ### Properties -/

/-- The name of a property is consumed and added to the constants. -/
theorem codeRun_name {message : String} {f : Nat → CompilerM Unit} [∀ k, Mono (f k)]
    (h : Accepts (do
      consume .identifier message
      let token ← previous
      let name ← internString token.lexeme
      let k ← addConstant (.string name)
      f k) s () s') :
    ∃ x k s₁, Syntax.name s.parser.tokens = some (x, s₁.parser.tokens) ∧ k ≤ 0xFFFF ∧
      CodeRun s s₁ [] (fun E _ => E.constants[k]? = some (.string x)) ∧ Accepts (f k) s₁ () s' := by
  obtain ⟨_, s₁, h₁, h'⟩ := h.bind
  obtain ⟨hname, p, hp⟩ := h₁.consume
  obtain ⟨k, s₂, hk, hparser, hrun, h₂⟩ := codeRun_constant h'.bind_previous.bind_internString nofun
  refine ⟨_, k, s₂, ?_, hk, ((CodeRun.of_parser_eq hp).trans hrun).imp fun _ _ => And.right, h₂⟩
  unfold Syntax.name
  rw [SyntaxM.bind_eq hname, hparser]
  rfl

theorem dot_spec (hq : ExprRoutines r q) [MonoRoutines r] (canAssign : Bool) :
    InfixSpec (dot r canAssign) fun left => Syntax.dot q left canAssign := by
  intro s s' h
  obtain ⟨x, k, s₁, hname, hk, hconst, h'⟩ := codeRun_name h
  obtain ⟨equal, s₂, h₂, h'⟩ := h'.bind
  obtain ⟨hequal, p, hp⟩ := h₂.matchIf
  simp only [Syntax.dot]
  cases equal with
  | true =>
      obtain ⟨_, s₃, h₃, h₄⟩ := h'.bind
      obtain ⟨e, is, htok, -, hrun⟩ := hq.parsePrecedence _ _ _ h₃
      have hw := h₄.emitConstantOp
      refine ⟨fun left => .setProperty left x e, is ++ [Instr.short .storeProperty k], fun left => ?_,
        (((hconst.move hp).trans hrun).write hw (by simp [OpCode.operands])).imp fun E Γ he left il hl =>
          ⟨il, is, k, hl, he.2, hk, he.1, by simp⟩⟩
      rw [SyntaxM.bind_eq hname, SyntaxM.bind_eq hequal]
      change (q.parsePrecedence _ >>= _) _ = _
      rw [SyntaxM.bind_eq htok, hw.parser]
      rfl
  | false =>
      obtain ⟨paren, s₃, h₃, h'⟩ := Accepts.bind h'
      obtain ⟨hparen, p', hp'⟩ := h₃.matchToken
      cases paren with
      | true =>
          obtain ⟨n, s₄, h₄, h'⟩ := Accepts.bind h'
          obtain ⟨es, is, htok, hn, hle, hrun⟩ := argumentList_spec hq _ _ _ h₄ (by decide)
          rw [Nat.zero_add] at hn
          rw [hn] at hle h'
          obtain ⟨_, s₅, h₅, h₆⟩ := Accepts.bind h'
          have hw : Writes s₄ s' (encodeAll [.shortByte .invoke k es.length]) :=
            h₅.emitConstantOp.trans h₆.emitByte
          refine ⟨fun left => .invoke left x es, is ++ [Instr.shortByte .invoke k es.length],
            fun left => ?_, ((((hconst.move hp).move hp').trans hrun).write hw
              (by simp [OpCode.operands])).imp
              fun E Γ he left il hl => ⟨il, is, k, hl, he.2, hle, hk, he.1, by simp⟩⟩
          rw [SyntaxM.bind_eq hname, SyntaxM.bind_eq hequal]
          change (Syntax.matchToken _ >>= _) _ = _
          rw [SyntaxM.bind_eq hparen]
          change (Syntax.argumentList q >>= _) _ = _
          rw [SyntaxM.bind_eq htok, hw.parser]
          rfl
      | false =>
          have hw := Accepts.emitConstantOp h'
          refine ⟨fun left => .property left x, [.short .loadProperty k], fun left => ?_,
            (((hconst.move hp).move hp').write hw (by simp [OpCode.operands])).imp fun E Γ he left il hl =>
              ⟨il, k, hl, hk, he, rfl⟩⟩
          rw [SyntaxM.bind_eq hname, SyntaxM.bind_eq hequal]
          change (Syntax.matchToken _ >>= _) _ = _
          rw [SyntaxM.bind_eq hparen, hw.parser]
          rfl

theorem safeDot_spec (canAssign : Bool) :
    InfixSpec (safeDot canAssign) fun left => Syntax.safeDot left canAssign := by
  intro s s' h
  obtain ⟨x, k, s₁, hname, hk, hconst, h'⟩ := codeRun_name h
  obtain ⟨equal, s₂, h₂, h'⟩ := h'.bind
  obtain ⟨hequal, p, hp⟩ := h₂.matchIf
  cases equal with
  | true => exact absurd h' Accepts.not_reportError
  | false =>
      have hw := Accepts.emitConstantOp h'
      refine ⟨fun left => .propertySafe left x, [.short .loadPropertySafe k], fun left => ?_,
        ((hconst.move hp).write hw (by simp [OpCode.operands])).imp fun E Γ he left il hl =>
          ⟨il, k, hl, hk, he, rfl⟩⟩
      simp only [Syntax.safeDot]
      rw [SyntaxM.bind_eq hname, SyntaxM.bind_eq hequal, hw.parser]
      rfl

theorem index_spec (hq : ExprRoutines r q) [MonoRoutines r] (canAssign : Bool) :
    InfixSpec (index r canAssign) fun left => Syntax.index q left canAssign := by
  intro s s' h
  obtain ⟨_, s₁, h₁, h'⟩ := h.bind
  obtain ⟨_, s₂, h₂, h'⟩ := h'.bind
  obtain ⟨equal, s₃, h₃, h'⟩ := h'.bind
  obtain ⟨key, ik, htok, -, hrun⟩ := hq.parsePrecedence _ _ _ h₁
  obtain ⟨hbracket, p, hp⟩ := h₂.consume
  obtain ⟨hequal, p', hp'⟩ := h₃.matchIf
  simp only [Syntax.index, Syntax.expression]
  cases equal with
  | true =>
      obtain ⟨_, s₄, h₄, h₅⟩ := h'.bind
      obtain ⟨e, ie, htok', -, hrun'⟩ := hq.parsePrecedence _ _ _ h₄
      have hw := h₅.emitOpcode
      refine ⟨fun left => .setIndex left key e, ik ++ ie ++ [Instr.op .storeIndex], fun left => ?_,
        ((((hrun.move hp).move hp').trans hrun').write (w := [.op .storeIndex]) hw
          (by simp [OpCode.operands])).imp
          fun E Γ he left il hl => ⟨il, ik, ie, hl, he.1, he.2, by simp⟩⟩
      rw [SyntaxM.bind_eq htok, SyntaxM.bind_eq hbracket, SyntaxM.bind_eq hequal, if_pos rfl,
        SyntaxM.bind_eq htok', hw.parser]
      rfl
  | false =>
      have hw := Accepts.emitOpcode h'
      refine ⟨fun left => .index left key, ik ++ [Instr.op .loadIndex], fun left => ?_,
        (((hrun.move hp).move hp').write (w := [.op .loadIndex]) hw
          (by simp [OpCode.operands])).imp
          fun E Γ he left il hl => ⟨il, ik, hl, he, by simp⟩⟩
      rw [SyntaxM.bind_eq htok, SyntaxM.bind_eq hbracket, SyntaxM.bind_eq hequal, hw.parser]
      rfl

theorem checkSuper_spec {enclosingClass : List Bool} {u : Unit}
    (h : Accepts (checkSuper enclosingClass) s u s') : s' = s := by
  unfold checkSuper at h
  split at h
  · exact absurd h Accepts.not_reportError
  · exact h.reportIf.2

theorem super_spec (hq : ExprRoutines r q) [MonoRoutines r] :
    ExprSpec (super_ r) (Syntax.super_ q) := by
  intro s s' h
  obtain ⟨_, s₁, h₁, h'⟩ := h.bind_get.bind
  have hs₁ := checkSuper_spec h₁
  rw [hs₁] at h'
  obtain ⟨_, s₂, h₂, h'⟩ := h'.bind
  obtain ⟨hdot, p, hp⟩ := h₂.consume
  obtain ⟨_, s₃, h₃, h'⟩ := h'.bind
  obtain ⟨hname, p', hp'⟩ := h₃.consume
  obtain ⟨k, s₄, hk, hparser₄, hconst, h'⟩ := codeRun_constant h'.bind_previous.bind_internString nofun
  obtain ⟨_, s₅, h₅, h'⟩ := h'.bind
  obtain ⟨hparser₅, this, hthis⟩ := codeRun_load h₅
  obtain ⟨paren, s₆, h₆, h'⟩ := h'.bind
  obtain ⟨hparen, p'', hp''⟩ := h₆.matchToken
  have hstart := ((((CodeRun.of_parser_eq hp).move hp').trans hconst).trans hthis).move hp''
  -- up to here both forms read the same tokens
  have htokens : (do
      Syntax.consume .dot
      let method ← Syntax.name
      if ← Syntax.matchToken .leftParen then
        let args ← Syntax.argumentList q
        return .superInvoke method args
      else return .super method : SyntaxM Expr) s.parser.tokens =
      (if paren = true then Syntax.argumentList q >>= fun args =>
          pure (.superInvoke s₃.parser.tokens.previous.lexeme args)
        else pure (.super s₃.parser.tokens.previous.lexeme) : SyntaxM Expr) s₆.parser.tokens := by
    have hn : Syntax.name s₂.parser.tokens =
        some (s₃.parser.tokens.previous.lexeme, s₃.parser.tokens) := by
      unfold Syntax.name
      rw [SyntaxM.bind_eq hname]
      rfl
    rw [hparser₅, hparser₄] at hparen
    rw [SyntaxM.bind_eq hdot, SyntaxM.bind_eq hn, SyntaxM.bind_eq hparen]
  simp only [Syntax.super_]
  rw [htokens]
  cases paren with
  | true =>
      obtain ⟨n, s₇, h₇, h'⟩ := Accepts.bind h'
      obtain ⟨es, is, htok, hn, hle, hrun⟩ := argumentList_spec hq _ _ _ h₇ (by decide)
      rw [Nat.zero_add] at hn
      rw [hn] at hle h'
      obtain ⟨_, s₈, h₈, h'⟩ := Accepts.bind h'
      obtain ⟨hparser₈, super, hsuper⟩ := codeRun_load h₈
      obtain ⟨_, s₉, h₉, h₁₀⟩ := Accepts.bind h'
      -- `super` is loaded last, above the arguments
      have hw : Writes s₈ s' (encodeAll [.shortByte .superInvoke k es.length]) :=
        h₉.emitConstantOp.trans h₁₀.emitByte
      refine ⟨.superInvoke s₃.parser.tokens.previous.lexeme es, _, ?_, by simp,
        (((hstart.trans hrun).trans hsuper).write hw (by simp [OpCode.operands])).imp fun E Γ he =>
          ⟨this, super, is, k, he.1.1.2, he.2, he.1.2, hle, hk, he.1.1.1.2, by simp⟩⟩
      rw [if_pos rfl, SyntaxM.bind_eq htok, hw.parser, hparser₈]
      rfl
  | false =>
      obtain ⟨_, s₇, h₇, h₈⟩ := Accepts.bind h'
      obtain ⟨hparser₇, super, hsuper⟩ := codeRun_load h₇
      have hw := h₈.emitConstantOp
      refine ⟨.super s₃.parser.tokens.previous.lexeme, _, ?_, by simp,
        ((hstart.trans hsuper).write hw (by simp [OpCode.operands])).imp fun E Γ he =>
          ⟨this, super, k, he.1.2, he.2, hk, he.1.1.2, by simp⟩⟩
      rw [hw.parser, hparser₇]
      rfl

/-! ### Lists and maps -/

/-- What is emitted after an element. -/
theorem codeRun_element {buildOp appendOp : OpCode} {threshold n : Nat} {b b' : Bool}
    (h : Accepts (emitElement buildOp appendOp threshold (n + 1) b) s b' s')
    (hb : b = decide (n < threshold)) :
    s'.parser = s.parser ∧ b' = decide (n + 1 < threshold) ∧
      Writes s s' (encodeAll (elementCode buildOp appendOp threshold (n + 1))) := by
  obtain ⟨_, s₁, h₁, h'⟩ := h.bind
  have hw₁ : Writes s s₁ (encodeAll (if threshold < n + 1 then [.op appendOp] else [])) := by
    rcases Accepts.ite h₁ with ⟨hbuild, h₁⟩ | ⟨hbuild, h₁⟩
    · rw [hb, decide_eq_true_eq] at hbuild
      obtain ⟨-, rfl⟩ := h₁.pure
      rw [if_neg (by omega)]
      exact Writes.refl _
    · rw [hb, decide_eq_true_eq] at hbuild
      rw [if_pos (by omega)]
      exact h₁.emitOpcode
  unfold elementCode
  rw [encodeAll_append]
  rcases h'.ite with ⟨heq, h'⟩ | ⟨hne, h'⟩
  · obtain ⟨_, s₂, h₂, h₃⟩ := h'.bind
    obtain ⟨rfl, rfl⟩ := h₃.pure
    have hw₂ := h₂.emitBuild
    refine ⟨hw₂.parser.trans hw₁.parser, by simp [heq], hw₁.trans ?_⟩
    rw [if_pos heq]
    exact hw₂
  · obtain ⟨rfl, rfl⟩ := h'.pure
    refine ⟨hw₁.parser, ?_, ?_⟩
    · rw [hb]
      exact decide_eq_decide.mpr (by omega)
    · rw [if_neg hne]
      simpa using hw₁

theorem listLoop_spec (hq : ExprRoutines r q) [MonoRoutines r] (n : Nat) (b : Bool)
    (hb : b = decide (n < listBuildAppendThreshold)) :
    ElementsSpec (listLoop r n b) (Syntax.listLoop q) n := by
  intro s k b' s' h
  obtain ⟨_, s₁, h₁, h'⟩ := h.bind
  obtain ⟨b₁, s₂, h₂, h'⟩ := h'.bind
  obtain ⟨comma, s₃, h₃, h'⟩ := h'.bind
  obtain ⟨e, is, htok, hne, hrun⟩ := hq.parsePrecedence _ _ _ h₁
  obtain ⟨hparser, hb₁, hw⟩ := codeRun_element h₂ hb
  obtain ⟨hcomma, p, hp⟩ := h₃.matchToken
  rw [hparser] at hcomma
  have hrun' := (hrun.write hw fun i hi => (tame_elementCode rfl rfl rfl rfl i hi).1).move hp
  simp only [Syntax.listLoop, Syntax.expression]
  rw [SyntaxM.bind_eq htok, SyntaxM.bind_eq hcomma]
  have hlast : CodeRun s s₃ _ fun E Γ => ElementsCode E Γ (.cons e .nil) n
      (is ++ elementCode .list .listAppend listBuildAppendThreshold (n + 1) ++
        buildCode .list listBuildAppendThreshold (n + 1)) :=
    hrun'.imp fun E Γ he => ⟨is, _, he, rfl, rfl⟩
  cases comma with
  | true =>
      have h'' := Accepts.bind_check h'
      rw [if_pos rfl]
      change ∃ es is, (if decide (s₃.parser.tokens.current.tokenType = .rightBracket) = true then _
        else _ : SyntaxM Exprs) _ = _ ∧ _
      rcases h''.ite with ⟨hc, h''⟩ | ⟨hc, h''⟩
      · obtain ⟨heq, rfl⟩ := h''.pure
        cases heq
        rw [if_pos hc]
        exact ⟨.cons e .nil, _, rfl, hb₁, by simp [hne], hlast⟩
      · rw [if_neg hc]
        obtain ⟨es, is', htok', hk, -, hrun''⟩ := hq.listLoop _ _ hb₁ _ _ _ _ h''
        refine ⟨.cons e es, _, ?_, hk, by simp [hne], (hrun'.trans hrun'').imp fun E Γ he =>
          ⟨is, _, he.1, he.2, by simp⟩⟩
        rw [SyntaxM.bind_eq htok']
        rfl
  | false =>
      obtain ⟨heq, rfl⟩ := Accepts.pure h'
      cases heq
      exact ⟨.cons e .nil, _, rfl, hb₁, by simp [hne], hlast⟩

/-- The object is built after the last element, unless it was built before. -/
theorem codeRun_build {buildOp : OpCode} {threshold k : Nat} {b : Bool}
    (h : Accepts (if b then emitBuild buildOp k else pure () : CompilerM Unit) s () s')
    (hb : b = decide (k < threshold)) :
    s'.parser = s.parser ∧ Writes s s' (encodeAll (buildCode buildOp threshold k)) := by
  unfold buildCode
  rcases h.ite with ⟨hbuild, h⟩ | ⟨hbuild, h⟩
  · rw [hb, decide_eq_true_eq] at hbuild
    rw [if_pos hbuild]
    exact ⟨h.emitBuild.parser, h.emitBuild⟩
  · rw [hb, decide_eq_true_eq] at hbuild
    obtain ⟨-, rfl⟩ := h.pure
    rw [if_neg hbuild]
    exact ⟨rfl, Writes.refl _⟩

theorem list_spec (hq : ExprRoutines r q) [MonoRoutines r] : ExprSpec (list r) (Syntax.list q) := by
  intro s s' h
  have h' := h.bind_check
  change ∃ e is, (if decide (s.parser.tokens.current.tokenType = .rightBracket) = true then _
    else _ : SyntaxM Expr) _ = _ ∧ _
  rcases h'.ite with ⟨hc, h'⟩ | ⟨hc, h'⟩
  · rw [if_pos hc]
    obtain ⟨_, s₁, h₁, h₂⟩ := h'.bind
    obtain ⟨hbracket, p, hp⟩ := h₁.consume
    have hw := h₂.emitBuild
    refine ⟨.list .nil, _, ?_, by simp,
      ((CodeRun.of_parser_eq hp).write hw (by simp [OpCode.operands])).imp fun _ _ _ => rfl⟩
    rw [SyntaxM.bind_eq hbracket, hw.parser]
    rfl
  · rw [if_neg hc]
    obtain ⟨⟨k, b⟩, s₁, h₁, h'⟩ := h'.bind
    obtain ⟨_, s₂, h₂, h₃⟩ := Accepts.bind h'
    obtain ⟨es, is, htok, hb, hne, hrun⟩ := hq.listLoop 0 true rfl _ _ _ _ h₁
    obtain ⟨hbracket, p, hp⟩ := h₂.consume
    obtain ⟨hparser, hw⟩ := codeRun_build h₃ hb
    refine ⟨.list es, _, ?_, by simp [hne],
      (hrun.move hp).write hw fun i hi => (tame_buildCode rfl rfl i hi).1⟩
    rw [SyntaxM.bind_eq htok, SyntaxM.bind_eq hbracket, hparser]
    rfl

theorem mapLoop_spec (hq : ExprRoutines r q) [MonoRoutines r] (n : Nat) (b : Bool)
    (hb : b = decide (n < mapBuildAddThreshold)) :
    EntriesSpec (mapLoop r n b) (Syntax.mapLoop q) n := by
  intro s k b' s' h
  obtain ⟨_, s₁, h₁, h'⟩ := h.bind
  obtain ⟨_, s₂, h₂, h'⟩ := h'.bind
  obtain ⟨_, s₃, h₃, h'⟩ := h'.bind
  obtain ⟨b₁, s₄, h₄, h'⟩ := h'.bind
  obtain ⟨comma, s₅, h₅, h'⟩ := h'.bind
  obtain ⟨key, ik, htok, hne, hrun⟩ := hq.parsePrecedence _ _ _ h₁
  obtain ⟨hcolon, p, hp⟩ := h₂.consume
  obtain ⟨value, iv, htok', -, hrun'⟩ := hq.parsePrecedence _ _ _ h₃
  obtain ⟨hparser, hb₁, hw⟩ := codeRun_element h₄ hb
  obtain ⟨hcomma, p', hp'⟩ := h₅.matchToken
  rw [hparser] at hcomma
  have hentry := (((hrun.move hp).trans hrun').write hw
    fun i hi => (tame_elementCode rfl rfl rfl rfl i hi).1).move hp'
  simp only [Syntax.mapLoop, Syntax.expression]
  rw [SyntaxM.bind_eq htok, SyntaxM.bind_eq hcolon, SyntaxM.bind_eq htok', SyntaxM.bind_eq hcomma]
  have hlast : CodeRun s s₅ _ fun E Γ => EntriesCode E Γ (.cons key value .nil) n
      (ik ++ iv ++ elementCode .map .mapAdd mapBuildAddThreshold (n + 1) ++
        buildCode .map mapBuildAddThreshold (n + 1)) :=
    hentry.imp fun E Γ he => ⟨ik, iv, _, he.1, he.2, rfl, rfl⟩
  cases comma with
  | true =>
      have h'' := Accepts.bind_check h'
      rw [if_pos rfl]
      change ∃ es is, (if decide (s₅.parser.tokens.current.tokenType = .rightBrace) = true then _
        else _ : SyntaxM Entries) _ = _ ∧ _
      rcases h''.ite with ⟨hc, h''⟩ | ⟨hc, h''⟩
      · obtain ⟨heq, rfl⟩ := h''.pure
        cases heq
        rw [if_pos hc]
        exact ⟨.cons key value .nil, _, rfl, hb₁, by simp [hne], hlast⟩
      · rw [if_neg hc]
        obtain ⟨es, is', htok'', hk, -, hrun''⟩ := hq.mapLoop _ _ hb₁ _ _ _ _ h''
        refine ⟨.cons key value es, _, ?_, hk, by simp [hne], (hentry.trans hrun'').imp fun E Γ he =>
          ⟨ik, iv, _, he.1.1, he.1.2, he.2, by simp⟩⟩
        rw [SyntaxM.bind_eq htok'']
        rfl
  | false =>
      obtain ⟨heq, rfl⟩ := Accepts.pure h'
      cases heq
      exact ⟨.cons key value .nil, _, rfl, hb₁, by simp [hne], hlast⟩

theorem map_spec (hq : ExprRoutines r q) [MonoRoutines r] : ExprSpec (map r) (Syntax.map q) := by
  intro s s' h
  have h' := h.bind_check
  change ∃ e is, (if decide (s.parser.tokens.current.tokenType = .rightBrace) = true then _
    else _ : SyntaxM Expr) _ = _ ∧ _
  rcases h'.ite with ⟨hc, h'⟩ | ⟨hc, h'⟩
  · rw [if_pos hc]
    obtain ⟨_, s₁, h₁, h₂⟩ := h'.bind
    obtain ⟨hbrace, p, hp⟩ := h₁.consume
    have hw := h₂.emitBuild
    refine ⟨.map .nil, _, ?_, by simp,
      ((CodeRun.of_parser_eq hp).write hw (by simp [OpCode.operands])).imp fun _ _ _ => rfl⟩
    rw [SyntaxM.bind_eq hbrace, hw.parser]
    rfl
  · rw [if_neg hc]
    obtain ⟨⟨k, b⟩, s₁, h₁, h'⟩ := h'.bind
    obtain ⟨_, s₂, h₂, h₃⟩ := Accepts.bind h'
    obtain ⟨es, is, htok, hb, hne, hrun⟩ := hq.mapLoop 0 true rfl _ _ _ _ h₁
    obtain ⟨hbrace, p, hp⟩ := h₂.consume
    obtain ⟨hparser, hw⟩ := codeRun_build h₃ hb
    refine ⟨.map es, _, ?_, by simp [hne],
      (hrun.move hp).write hw fun i hi => (tame_buildCode rfl rfl i hi).1⟩
    rw [SyntaxM.bind_eq htok, SyntaxM.bind_eq hbrace, hparser]
    rfl

end Compiler

/-! ### Unary operators -/

namespace Compiler

variable {r : Routines} {q : SyntaxRoutines} {s s' : CompilerState}

/-- The last instruction of an expression is no closure. -/
theorem plain_last_of_code {E : Env} {Γ : List Slot} {e : Expr} {init : List Instr} {i : Instr}
    {constants : List (Constant ObjectFunction)} (hcode : ExprCode E Γ e (init ++ [i]))
    (hfits : ∀ j ∈ init ++ [i], j.Fits constants) : i.Plain := by
  obtain ⟨js, hjs, htidy⟩ := exprCode_tidy e hcode
  have houtline := map_outline_eq hjs (fun j hj => (htidy.plain j hj).fits constants) hfits
  have hmem : i.outline ∈ js.map Instr.outline := by
    rw [houtline]
    exact List.mem_map_of_mem (by simp)
  obtain ⟨j, hj, heq⟩ := List.mem_map.mp hmem
  have hplain := htidy.plain j hj
  have hi := (hfits i (by simp)).operands
  rw [← show j.opcode = i.opcode from congrArg Prod.fst heq, hplain.1] at hi
  refine ⟨(hfits i (by simp)).operands, ?_⟩
  rw [← Option.some.inj hi]
  exact hplain.2

/-- Unary `-` changes the last byte of the operand or appends an instruction. -/
theorem codeRun_negate {e : Expr} {is : List Instr} {s₁ : CompilerState}
    (hne : is ≠ []) (hrun : CodeRun s s₁ is fun E Γ => ExprCode E Γ e is)
    (h : Accepts emitNegate s₁ () s') :
    s'.parser = s₁.parser ∧ ∃ is', is' ≠ [] ∧
      CodeRun s s' is' fun E Γ => ExprCode E Γ (.negate e) is' := by
  have hbytes : encodeAll is ≠ [] := encodeAll_ne_nil hne
  have hlast : s₁.current.function.code.getLast? = (encodeAll is).getLast? := by
    rw [hrun.emits.code, List.getLast?_append_of_ne_nil _ hbytes]
  rcases h.bind_get.ite with ⟨hone, h'⟩ | ⟨hone, h'⟩
  · obtain ⟨init, i, i', hinit, his', hsize, hkind⟩ := exists_setLast hne
    have hs' := Accepts.modify h'
    dsimp only at hs'
    rw [hrun.emits.code, dropLast_append_of_ne_nil hbytes, List.append_assoc, ← his'] at hs'
    have hrecode := hrun.recode hs' (by rw [hinit]; simp [hsize]) fun hok j hj => ?_
    · refine ⟨by rw [hs'], init ++ [i'], by simp, hrecode.imp fun E Γ he => ⟨is, he, ?_⟩⟩
      rw [if_pos (hlast ▸ hone)]
      exact his'
    · have hfits := hrun.laid.fits hok
      have hcode := hrun.code_envOf hok
      rw [hinit] at hfits hcode
      rcases List.mem_append.mp hj with hj | hj
      · exact hfits j (List.mem_append.mpr (.inl hj))
      · rw [List.mem_singleton.mp hj]
        exact (hkind (plain_last_of_code hcode hfits)).1.fits _
  · have hw := h'.emitOpcode
    refine ⟨hw.parser, is ++ [Instr.op .negate], by simp,
      (hrun.write (w := [.op .negate]) hw (by simp [OpCode.operands])).imp fun E Γ he => ⟨is, he, ?_⟩⟩
    rw [if_neg (hlast ▸ hone)]

theorem unary_spec (hq : ExprRoutines r q) [MonoRoutines r] (h : Accepts (unary r) s () s')
    (htype : s.parser.tokens.previous.tokenType = .minus ∨
      s.parser.tokens.previous.tokenType = .bang ∨ s.parser.tokens.previous.tokenType = .not) :
    ∃ e is, Syntax.unary q s.parser.tokens = some (e, s'.parser.tokens) ∧ is ≠ [] ∧
      CodeRun s s' is fun E Γ => ExprCode E Γ e is := by
  obtain ⟨_, s₁, h₁, h₂⟩ := h.bind_previous.bind
  obtain ⟨e, is, htok, hne, hrun⟩ := hq.parsePrecedence _ _ _ h₁
  have hsource : Syntax.unary q s.parser.tokens =
      some (if s.parser.tokens.previous.tokenType = .minus then .negate e else .not e,
        s₁.parser.tokens) := by
    change (q.parsePrecedence _ >>= _) _ = _
    rw [SyntaxM.bind_eq htok]
    rfl
  rw [hsource]
  have hnot : s.parser.tokens.previous.tokenType ≠ .minus → Accepts (emitOpcode .not) s₁ () s' →
      ∃ e' is, some (if s.parser.tokens.previous.tokenType = .minus then Expr.negate e else .not e,
        s₁.parser.tokens) = some (e', s'.parser.tokens) ∧ is ≠ [] ∧
        CodeRun s s' is fun E Γ => ExprCode E Γ e' is := by
    intro hminus h₂
    have hw := h₂.emitOpcode
    refine ⟨.not e, is ++ [Instr.op .not], by rw [if_neg hminus, hw.parser], by simp, ?_⟩
    exact (hrun.write (w := [.op .not]) hw (by simp [OpCode.operands])).imp fun E Γ he => ⟨is, he, rfl⟩
  rcases htype with htype | htype | htype <;> rw [htype] at h₂
  · obtain ⟨hparser, is', hne', hrun'⟩ := codeRun_negate hne hrun h₂
    exact ⟨_, is', by rw [if_pos htype, hparser], hne', hrun'⟩
  · exact hnot (by rw [htype]; decide) h₂
  · exact hnot (by rw [htype]; decide) h₂

/-! ### The table of rules -/

/-- The functions that stand in the column of prefix rules. -/
def isPrefix : ParseFunction → Bool
  | .grouping | .map | .unary | .variable | .string | .number | .literal | .super_ | .this_
  | .list => true
  | _ => false

/-- The functions that stand in the column of infix rules. -/
def isInfix : ParseFunction → Bool
  | .call | .safeDot | .dot | .binary | .and_ | .or_ | .ternary | .index => true
  | _ => false

theorem isPrefix_of_prefixRule {type : TokenType} {f : ParseFunction}
    (h : (getRule type).prefixRule = some f) : isPrefix f = true := by
  cases type <;> cases h <;> rfl

theorem isInfix_of_infixRule {type : TokenType} {f : ParseFunction}
    (h : (getRule type).infixRule = some f) : isInfix f = true := by
  cases type <;> cases h <;> rfl

/-- The operators of `unary`. -/
theorem unary_of_prefixRule {type : TokenType} (h : (getRule type).prefixRule = some .unary) :
    type = .minus ∨ type = .bang ∨ type = .not := by
  cases type <;> cases h <;> decide

/-- The tokens of `number`. -/
theorem number_of_prefixRule {type : TokenType} (h : (getRule type).prefixRule = some .number) :
    type = .numberInt ∨ type = .numberReal := by
  cases type <;> cases h <;> decide

variable (parseReal : ParseReal)

theorem prefixFunction_spec (hq : ExprRoutines r q) [MonoRoutines r] {canAssign : Bool}
    {f : ParseFunction} (h : Accepts (parseFunction parseReal r canAssign f) s () s')
    (hrule : (getRule s.parser.tokens.previous.tokenType).prefixRule = some f) :
    ∃ e is, Syntax.prefixFunction parseReal q canAssign f s.parser.tokens =
        some (e, s'.parser.tokens) ∧ is ≠ [] ∧ CodeRun s s' is fun E Γ => ExprCode E Γ e is := by
  cases f with
  | grouping => exact grouping_spec hq _ _ h
  | map => exact map_spec hq _ _ h
  | unary => exact unary_spec hq h (unary_of_prefixRule hrule)
  | «variable» => exact variable_spec hq canAssign _ _ h
  | string => exact string_spec _ _ h
  | number => exact number_spec parseReal h (number_of_prefixRule hrule)
  | literal => exact literal_spec _ _ h
  | super_ => exact super_spec hq _ _ h
  | this_ => exact this_spec hq _ _ h
  | list => exact list_spec hq _ _ h
  | call | safeDot | dot | binary | and_ | or_ | ternary | index =>
      exact nomatch isPrefix_of_prefixRule hrule

theorem infixFunction_spec (hq : ExprRoutines r q) [MonoRoutines r] {canAssign : Bool}
    {type : TokenType} {f : ParseFunction} (hrule : (getRule type).infixRule = some f) :
    InfixSpec (parseFunction parseReal r canAssign f)
      fun left => Syntax.infixFunction q left canAssign f := by
  cases f with
  | call => exact call_spec hq
  | safeDot => exact safeDot_spec canAssign
  | dot => exact dot_spec hq canAssign
  | binary => exact binary_spec hq
  | and_ => exact and_spec hq
  | or_ => exact or_spec hq
  | ternary => exact ternary_spec hq
  | index => exact index_spec hq canAssign
  | grouping | map | unary | «variable» | string | number | literal | super_ | this_ | list =>
      exact nomatch isInfix_of_infixRule hrule

theorem infixLoop_spec (hq : ExprRoutines r q) [MonoRoutines r] (precedence : ParsePrecedence)
    (canAssign : Bool) :
    InfixSpec (infixLoop parseReal r precedence canAssign) (Syntax.infixLoop q precedence canAssign) := by
  intro s s' h
  have h' := h.bind_peek
  rcases h'.ite with ⟨hc, h'⟩ | ⟨hc, h'⟩
  · obtain ⟨_, s₁, h₁, h'⟩ := h'.bind
    obtain ⟨hadvance, p, hp⟩ := h₁.advance
    have h'' := h'.bind_previous
    cases hrule : (getRule s₁.parser.tokens.previous.tokenType).infixRule with
    | none =>
        rw [hrule] at h''
        exact absurd h'' Accepts.not_throw
    | some f =>
        rw [hrule] at h''
        obtain ⟨_, s₂, h₂, h₃⟩ := Accepts.bind h''
        obtain ⟨g, is, htok, hrun⟩ := infixFunction_spec parseReal hq hrule _ _ h₂
        obtain ⟨g', is', htok', hrun'⟩ := hq.infixLoop _ _ _ _ h₃
        refine ⟨fun left => g' (g left), is ++ is', fun left => ?_, ?_⟩
        · rw [Syntax.infixLoop, Syntax.bind_peek, if_pos hc, SyntaxM.bind_eq hadvance,
            Syntax.bind_previous, hrule]
          dsimp only
          rw [SyntaxM.bind_eq (htok left)]
          exact htok' (g left)
        · have hmove := CodeRun.of_parser_eq hp
          refine ((hmove.trans hrun).trans hrun').imp fun E Γ he left il hl => ?_
          rw [← List.append_assoc]
          exact he.2 _ _ (he.1.2 _ _ hl)
  · obtain ⟨-, rfl⟩ := h'.pure
    refine ⟨id, [], fun left => ?_, ⟨Emits.refl _, Laid.of_eq rfl rfl, rfl, fun E Γ _ _ _ left il hl => ?_⟩⟩
    · rw [Syntax.infixLoop, Syntax.bind_peek, if_neg hc]
      rfl
    · rw [List.append_nil]
      exact hl

theorem parsePrecedence_spec (hq : ExprRoutines r q) [MonoRoutines r] (precedence : ParsePrecedence) :
    ExprSpec (parsePrecedence parseReal r precedence) (Syntax.parsePrecedence parseReal q precedence) := by
  intro s s' h
  obtain ⟨_, s₁, h₁, h'⟩ := h.bind
  obtain ⟨hadvance, p, hp⟩ := h₁.advance
  have h'' := h'.bind_previous
  unfold Syntax.parsePrecedence
  rw [SyntaxM.bind_eq hadvance, Syntax.bind_previous]
  cases hrule : (getRule s₁.parser.tokens.previous.tokenType).prefixRule with
  | none =>
      rw [hrule] at h''
      exact absurd h'' Accepts.not_reportError
  | some f =>
      rw [hrule] at h''
      obtain ⟨_, s₂, h₂, h''⟩ := Accepts.bind h''
      obtain ⟨_, s₃, h₃, h''⟩ := Accepts.bind h''
      obtain ⟨invalid, s₄, h₄, h₅⟩ := Accepts.bind h''
      obtain ⟨left, is, htok, hne, hrun⟩ := prefixFunction_spec parseReal hq h₂ hrule
      obtain ⟨g, is', htok', hrun'⟩ := hq.infixLoop _ _ _ _ h₃
      obtain ⟨hinvalid, p', hp'⟩ := h₄.matchIf
      obtain ⟨hfalse, rfl⟩ := h₅.reportIf
      have hmove := CodeRun.of_parser_eq hp
      refine ⟨g left, is ++ is', ?_, by simp [hne],
        (((hmove.trans hrun).trans hrun').move hp').imp fun E Γ he => he.2 _ _ he.1.2⟩
      dsimp only
      rw [SyntaxM.bind_eq htok, SyntaxM.bind_eq (htok' left), SyntaxM.bind_eq hinvalid, hfalse]
      rfl

/-- One unfolding of the routines keeps to the trees, if the routines do. -/
theorem exprRoutines_unfold (hq : ExprRoutines r q) [MonoRoutines r] :
    ExprRoutines (unfoldRoutines r parseReal) (Syntax.unfoldRoutines parseReal q) where
  parsePrecedence := parsePrecedence_spec parseReal hq
  infixLoop := infixLoop_spec parseReal hq
  argumentLoop := argumentLoop_spec hq
  listLoop := listLoop_spec hq
  mapLoop := mapLoop_spec hq

end Compiler

end CppLox
