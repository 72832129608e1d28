import CppLox.Container.Probing
import CppLox.Memory.Heap

/-!
# Memory — the keys of the table of interned strings

`InternedStringCmp` is an equivalence that the hash respects, and the key of a string is never
equal to the default key: the empty string has the hash `2166136261`.
-/

namespace CppLox.Memory

theorem strncmpEqual_refl (a : Bytes) : strncmpEqual a a = true := by
  induction a with
  | nil => rfl
  | cons x xs ih => simp [strncmpEqual, ih]

theorem strncmpEqual_symm {a b : Bytes} (h : strncmpEqual a b = true) :
    strncmpEqual b a = true := by
  induction a generalizing b with
  | nil => cases b <;> rfl
  | cons x xs ih =>
      cases b with
      | nil => rfl
      | cons y ys =>
          simp only [strncmpEqual, Bool.and_eq_true, beq_iff_eq, Bool.or_eq_true] at h ⊢
          obtain ⟨rfl, h⟩ := h
          exact ⟨rfl, h.imp id ih⟩

theorem strncmpEqual_trans {a b c : Bytes} (hab : a.length = b.length)
    (h : strncmpEqual a b = true) (h' : strncmpEqual b c = true) : strncmpEqual a c = true := by
  induction a generalizing b c with
  | nil => cases c <;> rfl
  | cons x xs ih =>
      cases b with
      | nil => cases hab
      | cons y ys =>
          cases c with
          | nil => rfl
          | cons z zs =>
              simp only [strncmpEqual, Bool.and_eq_true, beq_iff_eq, Bool.or_eq_true] at h h' ⊢
              obtain ⟨rfl, h⟩ := h
              obtain ⟨rfl, h'⟩ := h'
              refine ⟨rfl, ?_⟩
              rcases h with h | h
              · exact .inl h
              · exact h'.imp id fun h' => ih (by simpa using hab) h h'

theorem keyEqual_iff {a b : InternedString} : keyEqual a b = true ↔
    a.str.length = b.str.length ∧ a.hash = b.hash ∧ strncmpEqual a.str b.str = true := by
  simp only [keyEqual]
  split
  · rename_i h
    simp [h]
  · split
    · rename_i h
      simp [h]
    · rename_i h h'
      simp [not_not.mp h, not_not.mp h']

instance : LawfulHashKey InternedString where
  refl a := keyEqual_iff.mpr ⟨rfl, rfl, strncmpEqual_refl _⟩
  symm h := by
    obtain ⟨h₁, h₂, h₃⟩ := keyEqual_iff.mp h
    exact keyEqual_iff.mpr ⟨h₁.symm, h₂.symm, strncmpEqual_symm h₃⟩
  trans h h' := by
    obtain ⟨h₁, h₂, h₃⟩ := keyEqual_iff.mp h
    obtain ⟨h₁', h₂', h₃'⟩ := keyEqual_iff.mp h'
    exact keyEqual_iff.mpr ⟨h₁.trans h₁', h₂.trans h₂', strncmpEqual_trans h₁ h₃ h₃'⟩
  hash h := congrArg UInt32.toNat (keyEqual_iff.mp h).2.1

/-- The key of a string is not the default key. -/
theorem isReal_internKey (data : Bytes) : HashMap.IsReal (internKey data) := by
  by_contra h
  rw [HashMap.IsReal, Bool.not_eq_false, keyEqual_iff] at h
  obtain ⟨hlen, hhash, -⟩ := h
  have hnil : data = [] := List.eq_nil_of_length_eq_zero hlen.symm
  rw [hnil] at hhash
  exact absurd hhash (by decide)

end CppLox.Memory
