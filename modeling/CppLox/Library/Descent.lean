import Mathlib.Data.Finset.Card
import Mathlib.Logic.Relation
import Mathlib.Order.WellFounded

/-!
# Library — descents of bounded length

A recursion along a relation that is cut off after `n` steps comes to its end when every chain of
the relation has at most `n` steps (`Within`).  Where only finitely many elements have a
successor, some bound exists exactly when no element that is reached reaches itself again, and the
number of these elements is one (`within_card_iff`).
-/

namespace CppLox

open Relation

namespace Descent

variable {α : Type} {r : α → α → Prop} {a b : α}

/-- Every chain from an element has at most `n` steps. -/
def Within (r : α → α → Prop) : Nat → α → Prop
  | 0, a => ∀ b, ¬ r a b
  | n + 1, a => ∀ b, r a b → Within r n b

theorem Within.succ {n : Nat} (h : Within r n a) : Within r (n + 1) a := by
  induction n generalizing a with
  | zero => exact fun b hb => absurd hb (h b)
  | succ n ih => exact fun b hb => ih (h b hb)

theorem Within.mono {n m : Nat} (h : Within r n a) (hle : n ≤ m) : Within r m a := by
  induction hle with
  | refl => exact h
  | step _ ih => exact ih.succ

/-- No element that is reached from `a` reaches itself again. -/
def Acyclic (r : α → α → Prop) (a : α) : Prop := ∀ b, ReflTransGen r a b → ¬ TransGen r b b

theorem Acyclic.step (h : Acyclic r a) (hr : r a b) : Acyclic r b :=
  fun c hc => h c (.head hr hc)

theorem Within.acc {n : Nat} (h : Within r n a) : Acc (Function.swap r) a := by
  induction n generalizing a with
  | zero => exact ⟨a, fun b hb => absurd hb (h b)⟩
  | succ n ih => exact ⟨a, fun b hb => ih (h b hb)⟩

theorem not_self_of_acc (h : Acc r a) : ¬ r a a := by
  induction h with
  | intro a _ ih => exact fun hr => ih a hr hr

theorem acc_of_reflTransGen (h : Acc (Function.swap r) a) (hb : ReflTransGen r a b) :
    Acc (Function.swap r) b := by
  induction hb with
  | refl => exact h
  | tail _ hr ih => exact ih.inv hr

theorem acyclic_of_acc (h : Acc (Function.swap r) a) : Acyclic r a := by
  intro b hb hcycle
  have htrans := (acc_of_reflTransGen h hb).transGen
  exact not_self_of_acc htrans (transGen_swap.mpr hcycle)

theorem Within.acyclic {n : Nat} (h : Within r n a) : Acyclic r a := acyclic_of_acc h.acc

/-- The chains from an element do not come to the elements they have passed. -/
theorem Acyclic.within {s : Finset α} (hs : ∀ a b, r a b → a ∈ s) :
    ∀ (n : Nat) (visited : Finset α) (a : α), Acyclic r a → visited ⊆ s →
      s.card = visited.card + n → (∀ x ∈ visited, TransGen r x a) → Within r n a := by
  classical
  intro n
  induction n with
  | zero =>
      intro visited a hacyclic hsub hcard hvisited b hr
      have heq : visited = s := Finset.eq_of_subset_of_card_le hsub (by omega)
      exact hacyclic a .refl (hvisited a (heq ▸ hs a b hr))
  | succ n ih =>
      intro visited a hacyclic hsub hcard hvisited b hr
      have hnew : a ∉ visited := fun hmem => hacyclic a .refl (hvisited a hmem)
      refine ih (insert a visited) b (hacyclic.step hr)
        (Finset.insert_subset (hs a b hr) hsub) ?_ ?_
      · rw [Finset.card_insert_of_notMem hnew]
        omega
      · intro x hx
        rcases Finset.mem_insert.mp hx with rfl | hx
        · exact .single hr
        · exact (hvisited x hx).tail hr

theorem within_card_iff {s : Finset α} (hs : ∀ a b, r a b → a ∈ s) :
    Within r s.card a ↔ Acyclic r a := by
  constructor
  · exact Within.acyclic
  · intro h
    exact h.within hs s.card ∅ a (Finset.empty_subset s) (by simp) (by simp)

end Descent

end CppLox
