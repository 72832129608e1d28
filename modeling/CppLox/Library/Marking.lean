import Mathlib.Data.Finset.Card
import Mathlib.Logic.Function.Basic
import Mathlib.Logic.Relation

/-!
# Library — marking by worklist

A marker keeps a set of marked nodes and a stack of grey ones: marked, with successors not yet
looked at.  `mark` marks a node and makes it grey unless it is marked already; `trace` takes grey
nodes off the stack and marks their successors until none is left.

`Marks succ roots s` is the invariant: what is marked is reachable from the roots, the roots are
marked, and so are the successors of every marked node that is not grey.  With no grey node left
the marked nodes are the reachable ones (`Marks.marked_iff`).  When the nodes lie in a finite set
that is closed under successors, `trace` ends (`trace_isSome`).
-/

universe u

namespace Marking

variable {α : Type u} [DecidableEq α]

/-- The state of a marker. -/
structure State (α : Type u) where
  marked : α → Bool
  grey : List α

/-- Mark a node. -/
def mark (s : State α) (a : α) : State α :=
  if s.marked a then s
  else ⟨Function.update s.marked a true, a :: s.grey⟩

/-- Mark some nodes, one after the other. -/
def markAll (s : State α) (l : List α) : State α := l.foldl mark s

/-- Blacken grey nodes until none is left, or the fuel is used up. -/
def trace (succ : α → List α) : Nat → State α → Option (State α)
  | 0, s => match s.grey with
    | [] => some s
    | _ :: _ => none
  | fuel + 1, s => match s.grey with
    | [] => some s
    | a :: grey => trace succ fuel (markAll ⟨s.marked, grey⟩ (succ a))

/-- A node is reachable from the roots along successors. -/
inductive Reachable (succ : α → List α) (roots : List α) : α → Prop where
  | root {a : α} : a ∈ roots → Reachable succ roots a
  | step {a b : α} : Reachable succ roots a → b ∈ succ a → Reachable succ roots b

/-- The invariant of marking. -/
structure Marks (succ : α → List α) (roots : List α) (s : State α) : Prop where
  sound : ∀ a, s.marked a = true → Reachable succ roots a
  roots_marked : ∀ a ∈ roots, s.marked a = true
  grey_marked : ∀ a ∈ s.grey, s.marked a = true
  black : ∀ a, s.marked a = true → a ∉ s.grey → ∀ b ∈ succ a, s.marked b = true

variable {succ : α → List α} {roots : List α}

@[simp] theorem markAll_nil (s : State α) : markAll s [] = s := rfl

@[simp] theorem markAll_cons (s : State α) (a : α) (l : List α) :
    markAll s (a :: l) = markAll (mark s a) l := rfl

theorem markAll_append (s : State α) (l l' : List α) :
    markAll s (l ++ l') = markAll (markAll s l) l' := List.foldl_append

theorem mark_marked_iff {s : State α} {a b : α} :
    (mark s a).marked b = true ↔ s.marked b = true ∨ b = a := by
  unfold mark
  split
  · rename_i h
    exact ⟨.inl, fun hb => hb.elim id fun e => e ▸ h⟩
  · by_cases hb : b = a
    · simp [hb]
    · simp [hb]

theorem mem_mark_grey {s : State α} {a b : α} :
    b ∈ (mark s a).grey ↔ b ∈ s.grey ∨ (b = a ∧ s.marked a = false) := by
  unfold mark
  split
  · rename_i h
    simp [h]
  · rename_i h
    simp only [List.mem_cons]
    simp only [Bool.not_eq_true] at h
    simp only [h, and_true]
    exact or_comm

theorem markAll_marked_iff {s : State α} {l : List α} {b : α} :
    (markAll s l).marked b = true ↔ s.marked b = true ∨ b ∈ l := by
  induction l generalizing s with
  | nil => simp
  | cons a l ih => rw [markAll_cons, ih, mark_marked_iff, List.mem_cons, or_assoc]

theorem mem_markAll_grey {s : State α} {l : List α} {b : α} :
    b ∈ (markAll s l).grey ↔ b ∈ s.grey ∨ (b ∈ l ∧ s.marked b = false) := by
  induction l generalizing s with
  | nil => simp
  | cons a l ih =>
      rw [markAll_cons, ih, mem_mark_grey]
      by_cases hb : b = a
      · subst hb
        cases hm : s.marked b with
        | true => simp [mark, hm]
        | false => simp
      · have hmark : (mark s a).marked b = s.marked b := by
          unfold mark
          split
          · rfl
          · exact Function.update_of_ne hb _ _
        simp [hb, hmark]

/-! ### The invariant -/

/-- The invariant after the roots are marked in a state with nothing marked. -/
theorem marks_init {s : State α} (hs : ∀ a, s.marked a = false) (hg : s.grey = []) :
    Marks succ roots (markAll s roots) := by
  refine ⟨fun a ha => ?_, fun a ha => markAll_marked_iff.mpr (.inr ha), fun a ha => ?_,
    fun a ha hna => ?_⟩
  · rcases markAll_marked_iff.mp ha with h | h
    · rw [hs a] at h
      cases h
    · exact .root h
  · rcases mem_markAll_grey.mp ha with h | h
    · rw [hg] at h
      cases h
    · exact markAll_marked_iff.mpr (.inr h.1)
  · exfalso
    rcases markAll_marked_iff.mp ha with h | h
    · rw [hs a] at h
      cases h
    · exact hna (mem_markAll_grey.mpr (.inr ⟨h, hs a⟩))

/-- Blackening a node keeps the invariant. -/
theorem Marks.blacken {s : State α} {a : α} {grey : List α} (h : Marks succ roots s)
    (hg : s.grey = a :: grey) : Marks succ roots (markAll ⟨s.marked, grey⟩ (succ a)) := by
  have ha : s.marked a = true := h.grey_marked a (hg ▸ List.mem_cons_self)
  refine ⟨fun b hb => ?_, fun b hb => ?_, fun b hb => ?_, fun b hb hnb c hc => ?_⟩
  · rcases markAll_marked_iff.mp hb with hb | hb
    · exact h.sound b hb
    · exact .step (h.sound a ha) hb
  · exact markAll_marked_iff.mpr (.inl (h.roots_marked b hb))
  · rcases mem_markAll_grey.mp hb with hb | hb
    · exact markAll_marked_iff.mpr (.inl (h.grey_marked b (hg ▸ List.mem_cons_of_mem _ hb)))
    · exact markAll_marked_iff.mpr (.inr hb.1)
  · rw [mem_markAll_grey, not_or] at hnb
    obtain ⟨hng, hnew⟩ := hnb
    by_cases hba : b = a
    · exact markAll_marked_iff.mpr (.inr (hba ▸ hc))
    · -- a node that is marked now and not grey was marked before
      have hbm : s.marked b = true := by
        rcases markAll_marked_iff.mp hb with hb | hb
        · exact hb
        · by_contra hf
          exact hnew ⟨hb, by simpa using hf⟩
      have hbg : b ∉ s.grey := by
        rw [hg, List.mem_cons, not_or]
        exact ⟨hba, hng⟩
      exact markAll_marked_iff.mpr (.inl (h.black b hbm hbg c hc))

theorem Marks.trace {fuel : Nat} {s t : State α} (h : Marks succ roots s)
    (ht : trace succ fuel s = some t) : Marks succ roots t ∧ t.grey = [] := by
  induction fuel generalizing s with
  | zero =>
      unfold Marking.trace at ht
      split at ht
      · rename_i hg
        cases ht
        exact ⟨h, hg⟩
      · cases ht
  | succ fuel ih =>
      unfold Marking.trace at ht
      split at ht
      · rename_i hg
        cases ht
        exact ⟨h, hg⟩
      · rename_i a grey hg
        exact ih (h.blacken hg) ht

omit [DecidableEq α] in
/-- With no grey node left, the marked nodes are the reachable ones. -/
theorem Marks.marked_iff {s : State α} (h : Marks succ roots s) (hg : s.grey = []) {a : α} :
    s.marked a = true ↔ Reachable succ roots a := by
  refine ⟨h.sound a, fun hr => ?_⟩
  induction hr with
  | root ha => exact h.roots_marked _ ha
  | step _ hb ih => exact h.black _ ih (by simp [hg]) _ hb

/-! ### Termination -/

/-- The nodes of `D` that are not marked, and the grey ones. -/
def work (D : Finset α) (s : State α) : Nat :=
  (D.filter fun a => s.marked a = false).card + s.grey.length

theorem work_mark {D : Finset α} (s : State α) {a : α} (ha : a ∈ D) :
    work D (mark s a) = work D s := by
  unfold mark
  split
  · rfl
  · rename_i hm
    rw [Bool.not_eq_true] at hm
    have hfilter : D.filter (fun b => Function.update s.marked a true b = false) =
        (D.filter fun b => s.marked b = false).erase a := by
      ext b
      by_cases hb : b = a
      · simp [hb]
      · simp [hb]
    have hmem : a ∈ D.filter fun b => s.marked b = false := by simp [ha, hm]
    have hpos := Finset.card_pos.mpr ⟨a, hmem⟩
    simp only [work, hfilter, Finset.card_erase_of_mem hmem, List.length_cons]
    omega

theorem work_markAll {D : Finset α} (s : State α) {l : List α} (hl : ∀ a ∈ l, a ∈ D) :
    work D (markAll s l) = work D s := by
  induction l generalizing s with
  | nil => rfl
  | cons a l ih =>
      rw [markAll_cons, ih _ fun b hb => hl b (List.mem_cons_of_mem _ hb),
        work_mark s (hl a List.mem_cons_self)]

/-- Marking inside a finite set closed under successors ends. -/
theorem trace_isSome (succ : α → List α) (D : Finset α) (hD : ∀ a ∈ D, ∀ b ∈ succ a, b ∈ D) (fuel : Nat) :
    ∀ s : State α, (∀ a ∈ s.grey, a ∈ D) → work D s ≤ fuel → ∃ t, trace succ fuel s = some t := by
  induction fuel with
  | zero =>
      intro s _ hw
      unfold Marking.trace
      split
      · exact ⟨s, rfl⟩
      · rename_i a grey hg
        simp [work, hg] at hw
  | succ fuel ih =>
      intro s hs hw
      unfold Marking.trace
      split
      · exact ⟨s, rfl⟩
      · rename_i a grey hg
        have ha : a ∈ D := hs a (hg ▸ List.mem_cons_self)
        refine ih _ (fun b hb => ?_) ?_
        · rcases mem_markAll_grey.mp hb with hb | hb
          · exact hs b (hg ▸ List.mem_cons_of_mem _ hb)
          · exact hD a ha b hb.1
        · rw [work_markAll _ (hD a ha)]
          simp only [work, hg, List.length_cons] at hw ⊢
          omega

end Marking
