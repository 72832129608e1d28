import Mathlib.Logic.Relation

/-!
# Library — runs of a step relation

`Reaches r s Q` says that some run from `s` comes to a state of `Q`, `Lasts r Q n s` that one with at
least `n` steps does.  Where a state has at most one step, two runs to states without a step are the
same run, and a state from which such a state is reached does not last for ever.
-/

universe u

namespace SmallStep

open Relation

variable {σ : Type u} {r : σ → σ → Prop} {s t : σ} {Q Q' : σ → Prop} {n : Nat}

/-- A run from `s` comes to a state of `Q`. -/
def Reaches (r : σ → σ → Prop) (s : σ) (Q : σ → Prop) : Prop := ∃ t, ReflTransGen r s t ∧ Q t

/-- A run of at least `n` steps from `s` comes to a state of `Q`. -/
def Lasts (r : σ → σ → Prop) (Q : σ → Prop) : Nat → σ → Prop
  | 0, s => Reaches r s Q
  | n + 1, s => ∃ t, r s t ∧ Lasts r Q n t

/-- A state has at most one step. -/
def Deterministic (r : σ → σ → Prop) : Prop := ∀ ⦃s t t'⦄, r s t → r s t' → t = t'

/-- A state without a step. -/
def Final (r : σ → σ → Prop) (s : σ) : Prop := ∀ t, ¬ r s t

theorem Reaches.of (h : Q s) : Reaches r s Q := ⟨s, .refl, h⟩

theorem Reaches.head (hr : r s t) (h : Reaches r t Q) : Reaches r s Q := by
  obtain ⟨u, hu, hQ⟩ := h
  exact ⟨u, .head hr hu, hQ⟩

theorem Reaches.bind (h : Reaches r s Q) (hQ : ∀ t, Q t → Reaches r t Q') : Reaches r s Q' := by
  obtain ⟨t, ht, hq⟩ := h
  obtain ⟨u, hu, hq'⟩ := hQ t hq
  exact ⟨u, ht.trans hu, hq'⟩

theorem Reaches.mono (h : Reaches r s Q) (hQ : ∀ t, Q t → Q' t) : Reaches r s Q' := by
  obtain ⟨t, ht, hq⟩ := h
  exact ⟨t, ht, hQ t hq⟩

theorem Lasts.pred (h : Lasts r Q (n + 1) s) : Lasts r Q n s := by
  induction n generalizing s with
  | zero =>
      obtain ⟨t, hr, ht⟩ := h
      exact ht.head hr
  | succ n ih =>
      obtain ⟨t, hr, ht⟩ := h
      exact ⟨t, hr, ih ht⟩

theorem Lasts.of_steps (hs : ReflTransGen r s t) (h : Lasts r Q n t) : Lasts r Q n s := by
  induction hs using ReflTransGen.head_induction_on with
  | refl => exact h
  | head hr _ ih => exact Lasts.pred ⟨_, hr, ih⟩

/-! ### At most one step -/

theorem Deterministic.rightUnique (h : Deterministic r) : Relator.RightUnique r :=
  fun _ _ _ hb hc => h hb hc

/-- Of two states that are reached, the one without a step comes last. -/
theorem Deterministic.reaches_final {u : σ} (h : Deterministic r) (ht : ReflTransGen r s t)
    (hfinal : Final r t) (hu : ReflTransGen r s u) : ReflTransGen r u t := by
  rcases ReflTransGen.total_of_right_unique h.rightUnique ht hu with htu | hut
  · rcases ReflTransGen.cases_head htu with rfl | ⟨v, hv, -⟩
    · exact .refl
    · exact absurd hv (hfinal v)
  · exact hut

theorem Deterministic.final_unique {u : σ} (h : Deterministic r) (ht : ReflTransGen r s t)
    (hfinal : Final r t) (hu : ReflTransGen r s u) (hfinal' : Final r u) : t = u := by
  rcases ReflTransGen.cases_head (h.reaches_final ht hfinal hu) with rfl | ⟨v, hv, -⟩
  · rfl
  · exact absurd hv (hfinal' v)

/-- A run that can end has a bound on its steps. -/
theorem Deterministic.not_lasts (h : Deterministic r) (ht : ReflTransGen r s t)
    (hfinal : Final r t) : ∃ n, ∀ Q, ¬ Lasts r Q n s := by
  induction ht using ReflTransGen.head_induction_on with
  | refl => exact ⟨1, fun Q ⟨u, hu, _⟩ => hfinal u hu⟩
  | @head s s₁ hr _ ih =>
      obtain ⟨n, hn⟩ := ih
      refine ⟨n + 1, fun Q hlasts => ?_⟩
      obtain ⟨u, hu, hlasts⟩ := hlasts
      rw [h hu hr] at hlasts
      exact hn Q hlasts

end SmallStep
