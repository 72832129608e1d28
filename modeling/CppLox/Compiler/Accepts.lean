import CppLox.Compiler.Discipline

/-!
# Compiler — runs without an error

An error is never taken back: once `had_error` is set it stays set (`Mono`).  So a run that ends
without an error is made of runs without an error (`Accepts.bind`), and in each of them the parser
only moves on.
-/

namespace CppLox

open CompilerM

/-! ### Errors stay -/

namespace Parser

/-- No error was reported. -/
structure Quiet (p : Parser) : Prop where
  hadError : p.hadError = false
  panicMode : p.panicMode = false

/-- Panic mode comes from an error, and an error stays. -/
structure Le (p q : Parser) : Prop where
  panic : (p.panicMode = true → p.hadError = true) → q.panicMode = true → q.hadError = true
  error : p.hadError = true → q.hadError = true

theorem Le.refl (p : Parser) : Le p p := ⟨id, id⟩

theorem Le.trans {p q t : Parser} (h : Le p q) (h' : Le q t) : Le p t :=
  ⟨fun hp => h'.panic (h.panic hp), fun hp => h'.error (h.error hp)⟩

/-- The flags decide. -/
theorem Le.of_eq {p q : Parser} (he : q.hadError = p.hadError) (hp : q.panicMode = p.panicMode) :
    Le p q := by
  constructor
  · rw [he, hp]
    exact id
  · rw [he]
    exact id

theorem Le.quiet {p q : Parser} (h : Le p q) (hq : q.Quiet)
    (hp : p.panicMode = true → p.hadError = true) : p.Quiet := by
  have he : p.hadError = false := by
    by_contra hne
    have := h.error (by simpa using hne)
    rw [hq.hadError] at this
    cases this
  refine ⟨he, ?_⟩
  by_contra hne
  have := hp (by simpa using hne)
  rw [he] at this
  cases this

theorem le_reportError (p : Parser) (message : String) : Le p (p.reportError message) := by
  unfold reportError
  split
  · exact Le.refl p
  · exact ⟨fun _ _ => rfl, fun _ => rfl⟩

theorem le_reportErrorToken (p : Parser) (token : Token) : Le p (p.reportErrorToken token) := by
  unfold reportErrorToken
  split <;> first | exact le_reportError p _ | exact Le.refl p

theorem le_advanceFrom (rest : List Token) (p : Parser) : Le p (advanceFrom rest p) := by
  induction rest generalizing p with
  | nil => exact Le.of_eq rfl rfl
  | cons token rest ih =>
      unfold advanceFrom
      dsimp only
      have hle : Le p { p with tokens := { p.tokens with current := token, rest := rest } } :=
        Le.of_eq rfl rfl
      split
      · exact hle.trans ((le_reportErrorToken _ token).trans (ih _))
      · exact hle

theorem le_advance (p : Parser) : Le p p.advance := by
  have hle : Le p { p with tokens := { p.tokens with previous := p.tokens.current } } :=
    Le.of_eq rfl rfl
  exact hle.trans (le_advanceFrom _ _)

theorem le_synchronizeFrom (fuel : Nat) (p : Parser) : Le p (synchronizeFrom fuel p) := by
  induction fuel generalizing p with
  | zero => exact Le.refl p
  | succ fuel ih =>
      unfold synchronizeFrom
      split
      · exact Le.refl p
      · split
        · exact Le.refl p
        · split
          · exact Le.refl p
          · exact (le_advance p).trans (ih _)

theorem le_synchronize (p : Parser) : Le p p.synchronize := by
  refine Le.trans (q := { p with panicMode := false }) ⟨fun _ h => ?_, id⟩ (le_synchronizeFrom _ _)
  cases h

/-- A report in a quiet parser is an error. -/
theorem Quiet.not_reportError {p : Parser} {message : String} (hp : p.Quiet) :
    ¬ (p.reportError message).Quiet := by
  intro h
  have := h.hadError
  rw [reportError, hp.panicMode] at this
  cases this

end Parser

/-- Errors stay. -/
def errorsStay : Discipline where
  pre _ := True
  rel := Parser.Le
  err _ := True
  refl := Parser.Le.refl
  trans := Parser.Le.trans
  pre_of_rel _ _ := trivial
  reportError := Parser.le_reportError
  advance := Parser.le_advance
  synchronize := Parser.le_synchronize
  logicError _ := trivial

/-- A routine keeps errors. -/
abbrev Mono {α : Type} (m : CompilerM α) : Prop := Obeys errorsStay m

theorem Mono.le {α : Type} {m : CompilerM α} [Mono m] (s : CompilerState) (a : α)
    (s' : CompilerState) (h : m s = .ok (a, s')) : s.parser.Le s'.parser :=
  Obeys.rel (D := errorsStay) s a s' trivial h

namespace Compiler

/-- The routines that are called recursively keep errors. -/
abbrev MonoRoutines (r : Routines) : Prop := ObeysRoutines errorsStay r

variable (parseReal : ParseReal)

instance : MonoRoutines noRoutines := by
  constructor <;> intros <;> exact ⟨fun _ _ _ _ h => (nomatch h), fun _ _ _ _ => trivial⟩

instance (fuel : Nat) : MonoRoutines (routines parseReal fuel) := by
  induction fuel with
  | zero => exact inferInstanceAs (MonoRoutines noRoutines)
  | succ fuel ih => exact inferInstanceAs (MonoRoutines (unfoldRoutines _ parseReal))

end Compiler

/-! ### Accepting runs -/

/-- A run that starts and ends without an error. -/
structure Accepts {α : Type} (m : CompilerM α) (s : CompilerState) (a : α) (s' : CompilerState) :
    Prop where
  run : m s = .ok (a, s')
  before : s.parser.Quiet
  after : s'.parser.Quiet

namespace Accepts

variable {α β : Type} {m n : CompilerM α} {f : α → CompilerM β} {s s' : CompilerState} {a : α} {b : β}

/-- An accepting run of two routines is made of two accepting runs. -/
theorem bind_of (h : Accepts (m >>= f) s b s') (hm : Mono m) (hf : ∀ a, Mono (f a)) :
    ∃ a s₁, Accepts m s a s₁ ∧ Accepts (f a) s₁ b s' := by
  obtain ⟨a, s₁, h₁, h₂⟩ := CompilerM.bind_eq_ok h.run
  have hpanic : s₁.parser.panicMode = true → s₁.parser.hadError = true := by
    refine (Mono.le s a s₁ h₁).panic fun hp => ?_
    rw [h.before.panicMode] at hp
    cases hp
  have hquiet := (Mono.le s₁ b s' h₂).quiet h.after hpanic
  exact ⟨a, s₁, ⟨h₁, h.before, hquiet⟩, ⟨h₂, hquiet, h.after⟩⟩

theorem bind [Mono m] [∀ a, Mono (f a)] (h : Accepts (m >>= f) s b s') :
    ∃ a s₁, Accepts m s a s₁ ∧ Accepts (f a) s₁ b s' :=
  h.bind_of inferInstance inferInstance

theorem pure {b' : α} (h : Accepts (Pure.pure a : CompilerM α) s b' s') : b' = a ∧ s' = s := by
  have := h.run
  cases this
  exact ⟨rfl, rfl⟩

/-! A routine that only looks at the state leaves it to what follows. -/

theorem bind_get {f : CompilerState → CompilerM β} (h : Accepts (CompilerM.get >>= f) s b s') :
    Accepts (f s) s b s' := ⟨h.run, h.before, h.after⟩

theorem bind_previous {f : Token → CompilerM β} (h : Accepts (Compiler.previous >>= f) s b s') :
    Accepts (f s.parser.tokens.previous) s b s' := ⟨h.run, h.before, h.after⟩

theorem bind_peek {f : Token → CompilerM β} (h : Accepts (Compiler.peek >>= f) s b s') :
    Accepts (f s.parser.tokens.current) s b s' := ⟨h.run, h.before, h.after⟩

theorem bind_check {expected : TokenType} {f : Bool → CompilerM β}
    (h : Accepts (Compiler.check expected >>= f) s b s') :
    Accepts (f (decide (s.parser.tokens.current.tokenType = expected))) s b s' :=
  ⟨h.run, h.before, h.after⟩

theorem bind_codeLength {f : Nat → CompilerM β} (h : Accepts (Compiler.codeLength >>= f) s b s') :
    Accepts (f s.current.function.code.length) s b s' := ⟨h.run, h.before, h.after⟩

theorem bind_internString {name : Bytes} {f : Bytes → CompilerM β}
    (h : Accepts (Compiler.internString name >>= f) s b s') : Accepts (f name) s b s' :=
  ⟨h.run, h.before, h.after⟩

theorem ite {c : Prop} [Decidable c] (h : Accepts (if c then m else n) s a s') :
    c ∧ Accepts m s a s' ∨ ¬ c ∧ Accepts n s a s' := by
  by_cases hc : c
  · rw [if_pos hc] at h
    exact .inl ⟨hc, h⟩
  · rw [if_neg hc] at h
    exact .inr ⟨hc, h⟩

theorem get {t : CompilerState} (h : Accepts CompilerM.get s t s') : t = s ∧ s' = s := by
  have := h.run
  cases this
  exact ⟨rfl, rfl⟩

theorem modify {g : CompilerState → CompilerState} {u : Unit}
    (h : Accepts (CompilerM.modify g) s u s') : s' = g s := by
  have := h.run
  cases this
  rfl

theorem modifyCurrent {g : FunctionState → FunctionState} {u : Unit}
    (h : Accepts (CompilerM.modifyCurrent g) s u s') : s' = { s with current := g s.current } :=
  Accepts.modify h

theorem not_reportError {message : String} {u : Unit} :
    ¬ Accepts (Compiler.reportError message) s u s' := by
  intro h
  have hs := Accepts.modify h
  have hq := h.after
  rw [hs] at hq
  exact h.before.not_reportError hq

theorem reportIf {c : Bool} {message : String} {u : Unit}
    (h : Accepts (Compiler.reportIf c message) s u s') : c = false ∧ s' = s := by
  obtain ⟨hc, h⟩ | ⟨hc, h⟩ := Accepts.ite h
  · exact absurd h not_reportError
  · exact ⟨by simpa using hc, h.pure.2⟩

theorem not_throw {message : String} : ¬ Accepts (throwLogicError message : CompilerM α) s a s' := by
  intro h
  have := h.run
  cases this

end Accepts

end CppLox
