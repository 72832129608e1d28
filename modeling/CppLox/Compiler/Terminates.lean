import CppLox.Compiler.Progress
import CppLox.Compiler.Scanning

/-!
# Compiler — termination

The routines of `Compiler` call each other without a bound of their own.  `Call` names the
recursive ones and the loops, and `Call.rank` orders them: a call is made with fewer tokens left, or
with as many by a routine of greater rank (`calls_descend`).  So a chain of calls comes back to a
routine only after a token was consumed, and its length is bounded by the number of tokens.
-/

namespace CppLox

open CompilerM

namespace Compiler

/-- A routine of `Routines` with its arguments. -/
inductive Call where
  | parsePrecedence (precedence : ParsePrecedence)
  | infixLoop (precedence : ParsePrecedence) (canAssign : Bool)
  | declaration
  | statement
  | argumentLoop (argCount : Nat)
  | listLoop (length : Nat) (shouldEmitBuildOp : Bool)
  | mapLoop (length : Nat) (shouldEmitBuildOp : Bool)
  | blockLoop
  | parameterLoop
  | methodLoop
  | caseLoop (exitJumps : List Nat) (defaultCaseCompiled : Bool)
  | armLoop
  | programLoop

namespace Call

/-- The order in which routines may call each other without consuming a token. -/
def rank : Call → Nat
  | parsePrecedence _ | infixLoop _ _ | parameterLoop | caseLoop _ _ => 0
  | argumentLoop _ | listLoop _ _ | mapLoop _ _ | statement => 1
  | declaration => 2
  | blockLoop | armLoop | programLoop => 3
  | methodLoop => 4

theorem rank_le (c : Call) : c.rank ≤ 4 := by
  cases c <;> simp [rank]

end Call

/-- The routine of a call keeps to a discipline. -/
def ObeysCall (D : Discipline) (r : Routines) : Call → Prop
  | .parsePrecedence precedence => Obeys D (r.parsePrecedence precedence)
  | .infixLoop precedence canAssign => Obeys D (r.infixLoop precedence canAssign)
  | .declaration => Obeys D r.declaration
  | .statement => Obeys D r.statement
  | .argumentLoop argCount => Obeys D (r.argumentLoop argCount)
  | .listLoop length shouldEmitBuildOp => Obeys D (r.listLoop length shouldEmitBuildOp)
  | .mapLoop length shouldEmitBuildOp => Obeys D (r.mapLoop length shouldEmitBuildOp)
  | .blockLoop => Obeys D r.blockLoop
  | .parameterLoop => Obeys D r.parameterLoop
  | .methodLoop => Obeys D r.methodLoop
  | .caseLoop exitJumps defaultCaseCompiled => Obeys D (r.caseLoop exitJumps defaultCaseCompiled)
  | .armLoop => Obeys D r.armLoop
  | .programLoop => Obeys D r.programLoop

theorem ObeysRoutines.of_calls {D : Discipline} {r : Routines} (h : ∀ c, ObeysCall D r c) :
    ObeysRoutines D r where
  parsePrecedence p := h (.parsePrecedence p)
  infixLoop p b := h (.infixLoop p b)
  declaration := h .declaration
  statement := h .statement
  argumentLoop n := h (.argumentLoop n)
  listLoop n b := h (.listLoop n b)
  mapLoop n b := h (.mapLoop n b)
  blockLoop := h .blockLoop
  parameterLoop := h .parameterLoop
  methodLoop := h .methodLoop
  caseLoop jumps b := h (.caseLoop jumps b)
  armLoop := h .armLoop
  programLoop := h .programLoop

end Compiler

theorem CompilerError.logicError_ne_outOfFuel (message : String) :
    CompilerError.logicError message ≠ .outOfFuel := by
  intro h
  cases h

/-- With at most `n` tokens left the fuel is enough. -/
def ends (n : Nat) : Discipline where
  pre p := p.left ≤ n
  rel := Parser.Moves
  err e := e ≠ .outOfFuel
  refl := Parser.Moves.refl
  trans := Parser.Moves.trans
  pre_of_rel h hrel := hrel.le.trans h
  reportError := Parser.moves_reportError
  advance := Parser.moves_advance
  synchronize := Parser.moves_synchronize
  logicError := CompilerError.logicError_ne_outOfFuel

namespace Ends

variable {α β : Type} {n : Nat} {m : CompilerM α} {f : α → CompilerM β}

/-- A routine that gives no token back ends when it does not run out of fuel. -/
theorem intro [Obeys shrinks m]
    (h : ∀ s, s.parser.left ≤ n → m s ≠ .error .outOfFuel) : Obeys (ends n) m where
  rel _ _ _ _ hrun := Obeys.moves hrun
  err s _ hpre hrun he := h s hpre (he ▸ hrun)

theorem ne_outOfFuel [h : Obeys (ends n) m] {s : CompilerState} (hs : s.parser.left ≤ n) :
    m s ≠ .error .outOfFuel :=
  fun hrun => h.err s _ hs hrun rfl

theorem bind_ne_outOfFuel {s : CompilerState} (hm : m s ≠ .error .outOfFuel)
    (hf : ∀ a s', m s = .ok (a, s') → f a s' ≠ .error .outOfFuel) :
    (m >>= f) s ≠ .error .outOfFuel := by
  intro h
  rcases CompilerM.bind_eq_error h with h | ⟨a, s', h₁, h₂⟩
  · exact hm h
  · exact hf a s' h₁ h₂

/-- After a routine that consumes a token there is one less. -/
theorem bind_consumes {stops : List TokenType} {s : CompilerState} [Obeys (ends n) m]
    (hm : Consumes stops m) (hs : s.parser.peek.tokenType ∉ stops) (hle : s.parser.left ≤ n)
    (hf : ∀ k < n, ∀ a, Obeys (ends k) (f a)) : (m >>= f) s ≠ .error .outOfFuel := by
  refine bind_ne_outOfFuel (Ends.ne_outOfFuel hle) fun a s' hrun => ?_
  have hlt := (hm s a s' hrun hs).trans_le hle
  have := hf _ hlt a
  exact Ends.ne_outOfFuel (n := s'.parser.left) le_rfl

/-- A choice by the next token: a match leaves one token less. -/
theorem choice {expected : TokenType} {m n' : CompilerM α} [Obeys shrinks m] [Obeys shrinks n']
    (hm : ∀ k < n, Obeys (ends k) m) (hn : Obeys (ends n) n') (hne : expected ≠ .endOfFile) :
    Obeys (ends n)
      (Compiler.matchToken expected >>= fun b => if b = true then m else n') := by
  refine Ends.intro fun s hs => bind_ne_outOfFuel nofun fun matched s₁ h₁ => ?_
  have hrun : Compiler.matchToken expected s =
      .ok ((s.parser.match expected).1, { s with parser := (s.parser.match expected).2 }) := rfl
  rw [hrun] at h₁
  unfold Parser.match at h₁
  split at h₁
  · rename_i hc
    cases h₁
    have hlt : s.parser.advance.left < s.parser.left :=
      Parser.left_advance_lt ((of_decide_eq_true hc).trans_ne hne)
    have := hm _ (hlt.trans_le hs)
    exact Ends.ne_outOfFuel (m := m) (n := s.parser.advance.left) le_rfl
  · cases h₁
    exact Ends.ne_outOfFuel (m := n') hs

end Ends

namespace Compiler

section

set_option synthInstance.maxSize 10000

variable (parseReal : ParseReal) {r : Routines} {n : Nat} [ObeysRoutines shrinks r]

/-! ### The calls of each routine -/

theorem ends_parsePrecedence (hless : ∀ k < n, ObeysRoutines (ends k) r)
    (precedence : ParsePrecedence) : Obeys (ends n) (parsePrecedence parseReal r precedence) := by
  refine Ends.intro fun s hs => ?_
  have hrun : parsePrecedence parseReal r precedence s =
      callPrefix parseReal r precedence
        (decide (precedence.toNat ≤ ParsePrecedence.assignment.toNat))
        (getRule s.parser.advance.previous.tokenType).prefixRule
        { s with parser := s.parser.advance } := rfl
  rw [hrun, Parser.previous_advance]
  by_cases heof : s.parser.peek.tokenType = .endOfFile
  · -- the end of the file has no prefix rule
    rw [heof]
    nofun
  · have hlt := (Parser.left_advance_lt heof).trans_le hs
    have := hless _ hlt
    exact Ends.ne_outOfFuel (n := s.parser.advance.left) le_rfl

theorem ends_infixLoop (hless : ∀ k < n, ObeysRoutines (ends k) r) (precedence : ParsePrecedence)
    (canAssign : Bool) : Obeys (ends n) (infixLoop parseReal r precedence canAssign) := by
  refine Ends.intro fun s hs => Ends.bind_ne_outOfFuel nofun fun token s₁ h₁ => ?_
  cases h₁
  split
  · have hrun : (advance >>= fun _ => previous >>= fun operator =>
        callInfix parseReal r precedence canAssign (getRule operator.tokenType).infixRule) s =
        callInfix parseReal r precedence canAssign
          (getRule s.parser.advance.previous.tokenType).infixRule
          { s with parser := s.parser.advance } := rfl
    rw [hrun, Parser.previous_advance]
    by_cases heof : s.parser.peek.tokenType = .endOfFile
    · -- the end of the file has no infix rule
      rw [heof]
      nofun
    · have hlt := (Parser.left_advance_lt heof).trans_le hs
      have := hless _ hlt
      exact Ends.ne_outOfFuel (n := s.parser.advance.left) le_rfl
  · nofun

theorem ends_parameterLoop (hless : ∀ k < n, ObeysRoutines (ends k) r) :
    Obeys (ends n) (parameterLoop r) := by
  unfold parameterLoop
  refine Obeys.bind inferInstance fun _ => Obeys.bind inferInstance fun s => ?_
  split
  · infer_instance
  · refine Obeys.bind inferInstance fun _ => Obeys.bind inferInstance fun _ => ?_
    exact Ends.choice (fun k hk => (hless k hk).parameterLoop) inferInstance (by decide)

theorem ends_caseLoop (hless : ∀ k < n, ObeysRoutines (ends k) r) (jumps : List Nat) (b : Bool) :
    Obeys (ends n) (caseLoop r jumps b) := by
  unfold caseLoop
  refine Obeys.bind inferInstance fun found => ?_
  split
  · infer_instance
  · refine Obeys.bind inferInstance fun found => ?_
    split
    · infer_instance
    · refine Ends.choice (fun k hk => ?_)
        (Ends.choice (fun k hk => ?_) inferInstance (by decide)) (by decide)
      all_goals
        have := hless k hk
        infer_instance

theorem ends_argumentLoop (hless : ∀ k < n, ObeysRoutines (ends k) r)
    (hexpr : ∀ p, Obeys (ends n) (r.parsePrecedence p)) (argCount : Nat) :
    Obeys (ends n) (argumentLoop r argCount) := by
  unfold argumentLoop
  refine Obeys.bind (hexpr _) fun _ => ?_
  split
  · infer_instance
  · exact Ends.choice (fun k hk => (hless k hk).argumentLoop _) inferInstance (by decide)

theorem ends_listLoop (hless : ∀ k < n, ObeysRoutines (ends k) r)
    (hexpr : ∀ p, Obeys (ends n) (r.parsePrecedence p)) (length : Nat) (b : Bool) :
    Obeys (ends n) (listLoop r length b) := by
  unfold listLoop
  refine Obeys.bind (hexpr _) fun _ => Obeys.bind inferInstance fun _ => ?_
  refine Ends.choice (fun k hk => ?_) inferInstance (by decide)
  have := hless k hk
  infer_instance

theorem ends_mapLoop (hless : ∀ k < n, ObeysRoutines (ends k) r)
    (hexpr : ∀ p, Obeys (ends n) (r.parsePrecedence p)) (length : Nat) (b : Bool) :
    Obeys (ends n) (mapLoop r length b) := by
  unfold mapLoop
  refine Obeys.bind (hexpr _) fun _ => Obeys.bind inferInstance fun _ =>
    Obeys.bind (hexpr _) fun _ => Obeys.bind inferInstance fun _ => ?_
  refine Ends.choice (fun k hk => ?_) inferInstance (by decide)
  have := hless k hk
  infer_instance

theorem ends_statement (hless : ∀ k < n, ObeysRoutines (ends k) r)
    (hexpr : ∀ p, Obeys (ends n) (r.parsePrecedence p)) : Obeys (ends n) (statement r) := by
  have hexpression : Obeys (ends n) (expressionStatement r) := by
    have : Obeys (ends n) (expression r) := hexpr _
    unfold expressionStatement
    infer_instance
  unfold statement
  iterate 9
    refine Ends.choice (fun k hk => ?_) ?_ (by decide)
    · have := hless k hk
      infer_instance
  exact hexpression

theorem ends_declaration (hless : ∀ k < n, ObeysRoutines (ends k) r)
    (hstatement : Obeys (ends n) r.statement) : Obeys (ends n) (declaration r) := by
  unfold declaration declarationOf
  refine Obeys.bind ?_ inferInstance
  iterate 4
    refine Ends.choice (fun k hk => ?_) ?_ (by decide)
    · have := hless k hk
      infer_instance
  exact hstatement

theorem ends_blockLoop (hr : ConsumesRoutines r) (hless : ∀ k < n, Obeys (ends k) r.blockLoop)
    (hdecl : Obeys (ends n) r.declaration) : Obeys (ends n) (blockLoop r) := by
  refine Ends.intro fun s hs => Ends.bind_ne_outOfFuel nofun fun b s₁ h₁ => ?_
  cases h₁
  split
  · nofun
  · refine Ends.bind_ne_outOfFuel nofun fun b s₁ h₁ => ?_
    cases h₁
    split
    · nofun
    · rename_i heof
      have hstop : s.parser.peek.tokenType ∉ atEnd := by
        simpa [atEnd, Parser.check, Parser.peek] using heof
      exact Ends.bind_consumes hr.declaration hstop hs fun k hk _ => hless k hk

theorem ends_armLoop (hr : ConsumesRoutines r) (hless : ∀ k < n, Obeys (ends k) r.armLoop)
    (hdecl : Obeys (ends n) r.declaration) : Obeys (ends n) (armLoop r) := by
  refine Ends.intro fun s hs => Ends.bind_ne_outOfFuel nofun fun t s₁ h₁ => ?_
  cases h₁
  split
  · nofun
  · rename_i hstops
    have hstop : s.parser.peek.tokenType ∉ atEnd := by
      simp only [Parser.check, Bool.or_eq_true, decide_eq_true_eq, not_or] at hstops
      simpa [atEnd, Parser.peek] using hstops.2
    exact Ends.bind_consumes hr.declaration hstop hs fun k hk _ => hless k hk

theorem ends_programLoop (hr : ConsumesRoutines r) (hless : ∀ k < n, Obeys (ends k) r.programLoop)
    (hdecl : Obeys (ends n) r.declaration) : Obeys (ends n) (programLoop r) := by
  refine Ends.intro fun s hs => ?_
  by_cases heof : s.parser.peek.tokenType = .endOfFile
  · have hmatch : matchToken .endOfFile s = .ok (true, { s with parser := s.parser.advance }) := by
      simp [matchToken, Parser.match, Parser.check, show s.parser.tokens.current.tokenType = _ from heof]
    refine Ends.bind_ne_outOfFuel (by rw [hmatch]; nofun) fun b s₁ h₁ => ?_
    rw [hmatch] at h₁
    cases h₁
    nofun
  · have hmatch : matchToken .endOfFile s = .ok (false, s) := by
      simp [matchToken, Parser.match, Parser.check, show ¬ s.parser.tokens.current.tokenType = _ from heof]
    refine Ends.bind_ne_outOfFuel (by rw [hmatch]; nofun) fun b s₁ h₁ => ?_
    rw [hmatch] at h₁
    cases h₁
    have hstop : s.parser.peek.tokenType ∉ atEnd := by simpa [atEnd] using heof
    exact Ends.bind_consumes hr.declaration hstop hs fun k hk _ => hless k hk

theorem ends_methodLoop (hr : ConsumesRoutines r) (hless : ∀ k < n, Obeys (ends k) r.methodLoop)
    (hparam : Obeys (ends n) r.parameterLoop) (hblock : Obeys (ends n) r.blockLoop) :
    Obeys (ends n) (methodLoop r) := by
  have hparameters : Obeys (ends n) (parameters r) := by
    unfold parameters
    infer_instance
  have hbody : Obeys (ends n) (block r) := by
    unfold block
    infer_instance
  have hfunction : ∀ type name, Obeys (ends n) (compileFunction r type name) := by
    intro type name
    unfold compileFunction
    infer_instance
  have hmethod : Obeys (ends n) (method r) := by
    unfold method
    infer_instance
  refine Ends.intro fun s hs => Ends.bind_ne_outOfFuel nofun fun b s₁ h₁ => ?_
  cases h₁
  split
  · nofun
  · rename_i hbrace
    refine Ends.bind_ne_outOfFuel nofun fun b s₁ h₁ => ?_
    cases h₁
    split
    · nofun
    · rename_i heof
      have hstop : s.parser.peek.tokenType ∉ atBlockEnd := by
        simp only [Parser.check, decide_eq_true_eq] at hbrace heof
        simpa [atBlockEnd, Parser.peek] using ⟨hbrace, heof⟩
      exact Ends.bind_consumes (consumes_method hr) hstop hs fun k hk _ => hless k hk

/-- Every call a routine makes is made with fewer tokens left, or with as many by a routine of
greater rank: a routine ends when the calls below it end, whatever the others do. -/
theorem calls_descend (hr : ConsumesRoutines r) (c : Call)
    (hcalls : ∀ k c', k < n ∨ k = n ∧ c'.rank < c.rank → ObeysCall (ends k) r c') :
    ObeysCall (ends n) (unfoldRoutines r parseReal) c := by
  have hless : ∀ k < n, ObeysRoutines (ends k) r := fun k hk =>
    ObeysRoutines.of_calls fun c' => hcalls k c' (.inl hk)
  have hrank : ∀ c' : Call, c'.rank < c.rank → ObeysCall (ends n) r c' := fun c' hc' =>
    hcalls n c' (.inr ⟨rfl, hc'⟩)
  cases c with
  | parsePrecedence p => exact ends_parsePrecedence parseReal hless p
  | infixLoop p b => exact ends_infixLoop parseReal hless p b
  | parameterLoop => exact ends_parameterLoop hless
  | caseLoop jumps b => exact ends_caseLoop hless jumps b
  | argumentLoop k =>
      exact ends_argumentLoop hless (fun p => hrank (.parsePrecedence p) Nat.zero_lt_one) k
  | listLoop k b => exact ends_listLoop hless (fun p => hrank (.parsePrecedence p) Nat.zero_lt_one) k b
  | mapLoop k b => exact ends_mapLoop hless (fun p => hrank (.parsePrecedence p) Nat.zero_lt_one) k b
  | statement => exact ends_statement hless fun p => hrank (.parsePrecedence p) Nat.zero_lt_one
  | declaration => exact ends_declaration hless (hrank .statement (by decide))
  | blockLoop =>
      exact ends_blockLoop hr (fun k hk => (hless k hk).blockLoop) (hrank .declaration (by decide))
  | armLoop =>
      exact ends_armLoop hr (fun k hk => (hless k hk).armLoop) (hrank .declaration (by decide))
  | programLoop =>
      exact ends_programLoop hr (fun k hk => (hless k hk).programLoop)
        (hrank .declaration (by decide))
  | methodLoop =>
      exact ends_methodLoop hr (fun k hk => (hless k hk).methodLoop)
        (hrank .parameterLoop (by decide)) (hrank .blockLoop (by decide))

end

/-- The fuel a call needs with `n` tokens left. -/
theorem ends_routines (parseReal : ParseReal) {fuel n : Nat} (c : Call) (h : 5 * n + c.rank < fuel) :
    ObeysCall (ends n) (routines parseReal fuel) c := by
  induction fuel generalizing n c with
  | zero => omega
  | succ fuel ih =>
      refine calls_descend parseReal (consumesRoutines parseReal fuel) c fun k c' hbelow => ih c' ?_
      have := c'.rank_le
      omega

theorem left_init_le (tokens : List Token) : (Parser.init tokens).left ≤ tokens.length := by
  have hleft : (Parser.init tokens).left =
      Parser.left { tokens := { previous := tokens.headD {}, current := tokens.headD {},
                                rest := tokens.tail } } := by
    unfold Parser.init
    dsimp only
    split
    · exact Parser.left_of_tokens (Parser.tokens_reportErrorToken _ _)
    · rfl
  rw [hleft]
  cases tokens with
  | nil => exact Nat.le_refl 0
  | cons token rest =>
      unfold Parser.left
      split <;> simp

theorem compile_ne_outOfFuel (parseReal : ParseReal) (source : Bytes) (context : Context)
    (addr : Addr) {fuel : Nat} (h : 5 * (Lexer.tokens source).length + 3 < fuel) :
    compile parseReal fuel source context addr ≠ .error .outOfFuel := by
  have hloop : Obeys (ends (Lexer.tokens source).length) (routines parseReal fuel).programLoop :=
    ends_routines parseReal .programLoop h
  have hscript : Obeys (ends (Lexer.tokens source).length) (compileScript parseReal fuel) := by
    unfold compileScript
    infer_instance
  have hrun : compileScript parseReal fuel (initialState source context addr) ≠ .error .outOfFuel :=
    Ends.ne_outOfFuel (left_init_le _)
  unfold compile
  intro hout
  split at hout
  · cases hout
  · rename_i e he
    cases hout
    exact hrun he

/-- Compilation terminates on every source.  The loops of the lexer end by their conditions and its
iterator reaches the end of the file; `advance` consumes a token before the end of the file and the
loop of `synchronize` ends by its conditions; each call a routine makes, and each further iteration
of its loop, is made with fewer tokens left or by a routine of greater rank with as many; and with
fuel linear in the number of tokens `compile` comes to an end. -/
theorem compile_terminates (parseReal : ParseReal) (source : Bytes) (context : Context)
    (addr : Addr) :
    (∀ it : Lexer.TokenIterator, it.LoopsEnd) ∧
    (∃ k ≤ source.length,
      (Lexer.TokenIterator.next^[k] (Lexer.begin source)).currentTokenType = .endOfFile) ∧
    (∀ fuel, source.length < fuel → (Lexer.begin source).tokensFrom fuel = Lexer.tokens source) ∧
    (∀ p : Parser, p.synchronize.Synchronized ∧
      (p.peek.tokenType ≠ .endOfFile → p.advance.left < p.left)) ∧
    (∀ fuel, ObeysRoutines shrinks (routines parseReal fuel) ∧
      ConsumesRoutines (routines parseReal fuel)) ∧
    (∀ r, ObeysRoutines shrinks r → ConsumesRoutines r → ∀ n c,
      (∀ k c', k < n ∨ k = n ∧ c'.rank < c.rank → ObeysCall (ends k) r c') →
        ObeysCall (ends n) (unfoldRoutines r parseReal) c) ∧
    ∀ fuel, 5 * (Lexer.tokens source).length + 3 < fuel →
      compile parseReal fuel source context addr ≠ .error .outOfFuel := by
  refine ⟨Lexer.TokenIterator.loopsEnd, Lexer.begin_endOfFile source,
    fun fuel => Lexer.tokensFrom_begin, fun p => ?_, fun fuel => ?_, fun r hshrinks hr n c hcalls => ?_, fun fuel h => ?_⟩
  · exact ⟨p.synchronized_synchronize, Parser.left_advance_lt⟩
  · exact ⟨inferInstance, consumesRoutines parseReal fuel⟩
  · exact calls_descend parseReal hr c hcalls
  · exact compile_ne_outOfFuel parseReal source context addr h

end Compiler

end CppLox
