import CppLox.Compiler.Discipline

/-!
# Compiler — progress of the parser

`Parser.left` counts the tokens before the end of the file.  No routine gives tokens back, and a
routine that leaves their number unchanged leaves the tokens themselves unchanged (`Moves`).
`consume` does not advance on a mismatch and `synchronize` may stop at once, so whether a routine
consumes a token depends on what it calls: `Consumes stops m` says that `m` does, unless it starts
at one of the tokens `stops`.
-/

namespace CppLox

open CompilerM

namespace Parser

/-- The tokens before the end of the file. -/
def left (p : Parser) : Nat :=
  p.tokens.rest.length + if p.tokens.current.tokenType = .endOfFile then 0 else 1

/-- Tokens are consumed, or the parser stays where it is. -/
structure Moves (p q : Parser) : Prop where
  le : q.left ≤ p.left
  stays : p.tokens.current.tokenType ≠ .endOfFile → q.left < p.left ∨ q.tokens = p.tokens

theorem left_of_tokens {p q : Parser} (h : q.tokens = p.tokens) : q.left = p.left := by
  unfold left
  rw [h]

theorem Moves.of_tokens {p q : Parser} (h : q.tokens = p.tokens) : Moves p q :=
  ⟨(left_of_tokens h).le, fun _ => .inr h⟩

theorem Moves.refl (p : Parser) : Moves p p := Moves.of_tokens rfl

theorem Moves.trans {p q t : Parser} (h : Moves p q) (h' : Moves q t) : Moves p t where
  le := h'.le.trans h.le
  stays hp := by
    obtain hlt | heq := h.stays hp
    · exact .inl (h'.le.trans_lt hlt)
    · obtain hlt' | heq' := h'.stays (by rwa [heq])
      · exact .inl (hlt'.trans_le h.le)
      · exact .inr (heq'.trans heq)

theorem tokens_reportError (p : Parser) (message : String) :
    (p.reportError message).tokens = p.tokens := by
  unfold reportError
  split <;> rfl

theorem tokens_reportErrorToken (p : Parser) (token : Token) :
    (p.reportErrorToken token).tokens = p.tokens := by
  unfold reportErrorToken
  split <;> first | exact tokens_reportError p _ | rfl

theorem left_advanceFrom_le (rest : List Token) (p : Parser) :
    (advanceFrom rest p).left ≤ rest.length := by
  induction rest generalizing p with
  | nil => exact Nat.le_refl 0
  | cons token rest ih =>
      unfold advanceFrom
      dsimp only
      split
      · exact (ih _).trans (Nat.le_succ _)
      · unfold left
        split <;> simp

theorem previous_advanceFrom (rest : List Token) (p : Parser) :
    (advanceFrom rest p).tokens.previous = p.tokens.previous := by
  induction rest generalizing p with
  | nil => rfl
  | cons token rest ih =>
      unfold advanceFrom
      dsimp only
      split
      · rw [ih, tokens_reportErrorToken]
      · rfl

theorem left_advance_le (p : Parser) : p.advance.left ≤ p.tokens.rest.length :=
  left_advanceFrom_le _ _

@[simp] theorem previous_advance (p : Parser) : p.advance.previous = p.peek :=
  previous_advanceFrom _ _

/-- `advance` consumes a token, except at the end of the file. -/
theorem left_advance_lt {p : Parser} (h : p.peek.tokenType ≠ .endOfFile) :
    p.advance.left < p.left := by
  have hle := left_advance_le p
  have hleft : p.left = p.tokens.rest.length + 1 := by
    unfold left
    rw [if_neg (show ¬ p.tokens.current.tokenType = .endOfFile from h)]
  omega

theorem moves_reportError (p : Parser) (message : String) : Moves p (p.reportError message) :=
  Moves.of_tokens (p.tokens_reportError message)

theorem moves_advance (p : Parser) : Moves p p.advance where
  le := (left_advance_le p).trans (Nat.le_add_right _ _)
  stays h := .inl (left_advance_lt h)

theorem moves_synchronizeFrom (fuel : Nat) (p : Parser) : Moves p (synchronizeFrom fuel p) := by
  induction fuel generalizing p with
  | zero => exact Moves.of_tokens rfl
  | succ fuel ih =>
      unfold synchronizeFrom
      split
      · exact Moves.of_tokens rfl
      · split
        · exact Moves.of_tokens rfl
        · split
          · exact Moves.of_tokens rfl
          · exact (moves_advance p).trans (ih _)

theorem moves_synchronize (p : Parser) : Moves p p.synchronize :=
  Moves.trans (q := { p with panicMode := false }) (Moves.of_tokens rfl) (moves_synchronizeFrom _ _)

/-- The tokens at which the loop of `synchronize` ends. -/
def Synchronized (p : Parser) : Prop :=
  p.peek.tokenType = .endOfFile ∨ p.previous.tokenType = .semicolon ∨
    startsStatement p.peek.tokenType = true

theorem peek_of_left_eq_zero {p : Parser} (h : p.left = 0) : p.peek.tokenType = .endOfFile := by
  by_contra hne
  have hlt := left_advance_lt hne
  omega

theorem synchronized_synchronizeFrom {fuel : Nat} {p : Parser} (h : p.left ≤ fuel) :
    (synchronizeFrom fuel p).Synchronized := by
  induction fuel generalizing p with
  | zero => exact .inl (peek_of_left_eq_zero (Nat.le_zero.mp h))
  | succ fuel ih =>
      unfold synchronizeFrom
      split
      · rename_i heof
        exact .inl (of_decide_eq_true heof)
      · rename_i heof
        split
        · rename_i hsemi
          exact .inr (.inl hsemi)
        · split
          · rename_i hstart
            exact .inr (.inr hstart)
          · have hlt : p.advance.left < p.left :=
              left_advance_lt fun hp => heof (decide_eq_true hp)
            exact ih (by omega)

/-- The loop of `synchronize` ends by one of its conditions. -/
theorem synchronized_synchronize (p : Parser) : p.synchronize.Synchronized := by
  refine synchronized_synchronizeFrom ?_
  unfold left
  dsimp only
  split <;> omega

end Parser

/-- No routine gives tokens back. -/
def shrinks : Discipline where
  pre _ := True
  rel := Parser.Moves
  err _ := True
  refl := Parser.Moves.refl
  trans := Parser.Moves.trans
  pre_of_rel _ _ := trivial
  reportError := Parser.moves_reportError
  advance := Parser.moves_advance
  synchronize := Parser.moves_synchronize
  logicError _ := trivial

theorem Obeys.moves {α : Type} {m : CompilerM α} [h : Obeys shrinks m] {s s' : CompilerState} {a : α}
    (hrun : m s = .ok (a, s')) : s.parser.Moves s'.parser :=
  h.rel s a s' trivial hrun

/-- A routine consumes a token, unless it starts at one of the given tokens. -/
def Consumes {α : Type} (stops : List TokenType) (m : CompilerM α) : Prop :=
  ∀ s a s', m s = .ok (a, s') → s.parser.peek.tokenType ∉ stops → s'.parser.left < s.parser.left

namespace Consumes

variable {α β : Type} {stops : List TokenType} {m : CompilerM α} {f : α → CompilerM β}

/-- The first routine consumes a token. -/
theorem bind_left (hm : Consumes stops m) [∀ a, Obeys shrinks (f a)] : Consumes stops (m >>= f) := by
  intro s b s' h hs
  obtain ⟨a, s₁, h₁, h₂⟩ := CompilerM.bind_eq_ok h
  exact (Obeys.moves h₂).le.trans_lt (hm s a s₁ h₁ hs)

/-- The first routine consumes a token or leaves the parser to the second. -/
theorem bind_right (hstop : .endOfFile ∈ stops) [Obeys shrinks m] [∀ a, Obeys shrinks (f a)]
    (hf : ∀ a, Consumes stops (f a)) : Consumes stops (m >>= f) := by
  intro s b s' h hs
  obtain ⟨a, s₁, h₁, h₂⟩ := CompilerM.bind_eq_ok h
  have hmoves := Obeys.moves h₁
  obtain hlt | heq := hmoves.stays fun heof => hs (heof ▸ hstop)
  · exact (Obeys.moves h₂).le.trans_lt hlt
  · have hs₁ : s₁.parser.peek.tokenType ∉ stops := by
      unfold Parser.peek
      rwa [heq]
    exact (hf a s₁ b s' h₂ hs₁).trans_le hmoves.le

/-- A choice by the next token: a match consumes it. -/
theorem choice {expected : TokenType} (hstop : .endOfFile ∈ stops) {m n : CompilerM α}
    [Obeys shrinks m] (hn : Consumes stops n) :
    Consumes stops (Compiler.matchToken expected >>= fun b => if b = true then m else n) := by
  intro s b s' h hs
  obtain ⟨matched, s₁, h₁, h₂⟩ := CompilerM.bind_eq_ok h
  have hrun : Compiler.matchToken expected s =
      .ok ((s.parser.match expected).1, { s with parser := (s.parser.match expected).2 }) := rfl
  rw [hrun] at h₁
  unfold Parser.match at h₁
  split at h₁
  · cases h₁
    have hlt := Parser.left_advance_lt fun heof => hs (heof ▸ hstop)
    exact (Obeys.moves (m := m) h₂).le.trans_lt hlt
  · cases h₁
    exact hn _ b s' h₂ hs

/-- A choice by the next token: at `expected` the routine stops. -/
theorem of_check {expected : TokenType} (hstop : expected ∈ stops) {m n : CompilerM α}
    (hn : Consumes stops n) :
    Consumes stops (Compiler.check expected >>= fun b => if b = true then m else n) := by
  intro s b s' h hs
  obtain ⟨found, s₁, h₁, h₂⟩ := CompilerM.bind_eq_ok h
  cases h₁
  have hne : ¬ (s.parser.check expected) = true := fun hc =>
    hs ((of_decide_eq_true hc : s.parser.peek.tokenType = expected) ▸ hstop)
  rw [if_neg hne] at h₂
  exact hn s b s' h₂ hs

theorem advance (hstop : .endOfFile ∈ stops) : Consumes stops Compiler.advance := by
  intro s b s' h hs
  cases h
  exact Parser.left_advance_lt fun heof => hs (heof ▸ hstop)

end Consumes

namespace Compiler

/-- The end of the file. -/
def atEnd : List TokenType := [.endOfFile]

/-- Where a block or a class body ends. -/
def atBlockEnd : List TokenType := [.rightBrace, .endOfFile]

/-- The routines that consume a token. -/
structure ConsumesRoutines (r : Routines) : Prop where
  parsePrecedence : ∀ precedence, Consumes atEnd (r.parsePrecedence precedence)
  statement : Consumes atEnd r.statement
  declaration : Consumes atEnd r.declaration
  blockLoop : Consumes atBlockEnd r.blockLoop

section

set_option synthInstance.maxSize 10000

variable (parseReal : ParseReal) {r : Routines}

theorem consumes_expressionStatement (hr : ConsumesRoutines r) :
    Consumes atEnd (expressionStatement r) := by
  unfold expressionStatement
  intro s a s' h hs
  obtain ⟨found, s₁, h₁, h₂⟩ := CompilerM.bind_eq_ok h
  cases h₁
  split at h₂
  · exact Consumes.advance (by decide) s a s' h₂ hs
  · exact Consumes.bind_left (hr.parsePrecedence _) s a s' h₂ hs

variable [ObeysRoutines shrinks r]

theorem consumes_parsePrecedence (precedence : ParsePrecedence) :
    Consumes atEnd (parsePrecedence parseReal r precedence) := by
  unfold parsePrecedence
  exact Consumes.bind_left (Consumes.advance (by decide))

theorem consumes_statement (hr : ConsumesRoutines r) : Consumes atEnd (statement r) := by
  have hend : .endOfFile ∈ atEnd := by decide
  unfold statement
  iterate 9 refine Consumes.choice hend ?_
  exact consumes_expressionStatement hr

theorem consumes_declaration (hr : ConsumesRoutines r) : Consumes atEnd (declaration r) := by
  have hend : .endOfFile ∈ atEnd := by decide
  unfold declaration declarationOf
  refine Consumes.bind_left ?_
  iterate 4 refine Consumes.choice hend ?_
  exact hr.statement

theorem consumes_blockLoop (hr : ConsumesRoutines r) : Consumes atBlockEnd (blockLoop r) := by
  unfold blockLoop
  refine Consumes.of_check (by decide) (Consumes.of_check (by decide) (Consumes.bind_left ?_))
  intro s a s' h hs
  exact hr.declaration s a s' h fun hmem => hs (List.mem_cons_of_mem _ hmem)

theorem ConsumesRoutines.unfold (hr : ConsumesRoutines r) :
    ConsumesRoutines (unfoldRoutines r parseReal) where
  parsePrecedence := consumes_parsePrecedence parseReal
  statement := consumes_statement hr
  declaration := consumes_declaration hr
  blockLoop := consumes_blockLoop hr

/-- Before the body of a method only matching tokens are consumed, and its block consumes a token
unless it is at its end. -/
theorem consumes_method (hr : ConsumesRoutines r) : Consumes atBlockEnd (method r) := by
  have hend : .endOfFile ∈ atBlockEnd := by decide
  unfold method
  iterate 5 refine Consumes.bind_right hend fun _ => ?_
  refine Consumes.bind_left ?_
  unfold compileFunction
  iterate 6 refine Consumes.bind_right hend fun _ => ?_
  refine Consumes.bind_left ?_
  unfold block
  exact Consumes.bind_left hr.blockLoop

end

variable (parseReal : ParseReal)

instance : ObeysRoutines shrinks noRoutines := by
  constructor <;> intros <;> exact ⟨fun _ _ _ _ h => (nomatch h), fun _ _ _ _ => trivial⟩

instance (fuel : Nat) : ObeysRoutines shrinks (routines parseReal fuel) := by
  induction fuel with
  | zero => exact inferInstanceAs (ObeysRoutines shrinks noRoutines)
  | succ fuel ih => exact inferInstanceAs (ObeysRoutines shrinks (unfoldRoutines _ parseReal))

theorem consumesRoutines (fuel : Nat) : ConsumesRoutines (routines parseReal fuel) := by
  induction fuel with
  | zero => constructor <;> intros <;> intro _ _ _ h <;> cases h
  | succ fuel ih => exact ih.unfold parseReal

end Compiler

end CppLox
