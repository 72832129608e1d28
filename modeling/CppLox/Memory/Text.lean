import CppLox.Library.Descent
import CppLox.Memory.Heap

/-!
# Memory — the text of an object

`Value::to_string` (`src/common/value.cpp`) at the level of pointers, as far as the collector needs it:
whether it returns.  It calls itself on the elements of a list, on the keys and values of a map and on
the receiver of a bound method, and reads the names of functions and classes through pointers.

* `Value.hasText` is the recursion, cut off at a depth.
* `Value.hasText_iff`: with enough depth it returns exactly when what is read is there for every object
  it comes to, and none of them contains itself.
-/

namespace CppLox.Memory

open Relation

/-- The values `to_string` calls itself on. -/
def Object.parts : Object → List Value
  | .boundMethod receiver _ => [receiver]
  | .list values => values
  | .map slots => slots.flatMap fun slot =>
      if slot.state = .filled then [slot.key, slot.value] else []
  | _ => []

/-- A pointer to a string, whose bytes `get()` returns. -/
def Heap.hasString (heap : Heap) (p : Option Ptr) : Bool :=
  match p.bind heap with
  | some (.string _) => true
  | _ => false

/-- The name in the text of an object can be read. -/
def Heap.hasName (heap : Heap) : Object → Bool
  | .function name _ | .class_ name _ _ => heap.hasString name
  | .closure function _ =>
    match function.bind heap with
    | some (.function name _) => heap.hasString name
    | _ => false
  | .instance_ klass _ =>
    match klass.bind heap with
    | some (.class_ name _ _) => heap.hasString name
    | _ => false
  | _ => true

/-- `Value::to_string` returns, through at most `fuel` lists, maps and bound methods. -/
def Value.hasText (heap : Heap) : Nat → Value → Bool
  | 0, .object p => (p.bind heap).any fun object => heap.hasName object && object.parts.isEmpty
  | fuel + 1, .object p => (p.bind heap).any fun object =>
      heap.hasName object && object.parts.all (Value.hasText heap fuel)
  | _, _ => true

/-- The object at `p` contains the one at `q`. -/
def Heap.Contains (heap : Heap) (p q : Ptr) : Prop :=
  ∃ object, heap p = some object ∧ Value.object (some q) ∈ object.parts

/-- What `to_string` reads of the object at `p` itself is there: the name, and no part is a null
pointer. -/
def Heap.Readable (heap : Heap) (p : Ptr) : Prop :=
  ∃ object, heap p = some object ∧ heap.hasName object = true ∧ Value.object none ∉ object.parts

variable {heap : Heap} {p q : Ptr} {fuel : Nat}

theorem hasText_null : Value.hasText heap fuel (.object none) = false := by
  cases fuel <;> rfl

theorem hasText_of_ne {v : Value} (h : ∀ p, v ≠ .object p) : v.hasText heap fuel = true := by
  cases v with
  | object p => exact absurd rfl (h p)
  | _ => cases fuel <;> rfl

theorem hasText_succ_iff :
    Value.hasText heap (fuel + 1) (.object (some p)) = true ↔
      ∃ object, heap p = some object ∧ heap.hasName object = true ∧
        ∀ v ∈ object.parts, v.hasText heap fuel = true := by
  simp [Value.hasText, Option.any_eq_true]

/-- The text of an object needs the texts of its parts. -/
theorem Value.readable_of_hasText (h : Value.hasText heap fuel (.object (some p)) = true) :
    heap.Readable p := by
  cases fuel with
  | zero =>
      obtain ⟨object, hobject, h⟩ := (Option.any_eq_true _ _).mp h
      obtain ⟨hname, hparts⟩ := Bool.and_eq_true_iff.mp h
      refine ⟨object, hobject, hname, ?_⟩
      rw [List.isEmpty_iff.mp hparts]
      exact List.not_mem_nil
  | succ fuel =>
      obtain ⟨object, hobject, hname, hparts⟩ := hasText_succ_iff.mp h
      refine ⟨object, hobject, hname, fun hnull => ?_⟩
      have hpart := hparts _ hnull
      rw [hasText_null] at hpart
      cases hpart

theorem Value.within_of_hasText (h : Value.hasText heap fuel (.object (some p)) = true) :
    Descent.Within heap.Contains fuel p := by
  induction fuel generalizing p with
  | zero =>
      rintro q ⟨object, hobject, hq⟩
      obtain ⟨object', hobject', h⟩ := (Option.any_eq_true _ _).mp h
      cases hobject.symm.trans hobject'
      rw [List.isEmpty_iff.mp (Bool.and_eq_true_iff.mp h).2] at hq
      cases hq
  | succ fuel ih =>
      rintro q ⟨object, hobject, hq⟩
      obtain ⟨object', hobject', -, hparts⟩ := hasText_succ_iff.mp h
      cases hobject.symm.trans hobject'
      exact ih (hparts _ hq)

theorem Value.hasText_of_contains (h : Value.hasText heap fuel (.object (some p)) = true)
    (hq : heap.Contains p q) : ∃ fuel', Value.hasText heap fuel' (.object (some q)) = true := by
  obtain ⟨object, hobject, hq⟩ := hq
  cases fuel with
  | zero => exact absurd ⟨object, hobject, hq⟩ (within_of_hasText h q)
  | succ fuel =>
      obtain ⟨object', hobject', -, hparts⟩ := hasText_succ_iff.mp h
      cases hobject.symm.trans hobject'
      exact ⟨fuel, hparts _ hq⟩

theorem Value.hasText_of_reflTransGen (h : Value.hasText heap fuel (.object (some p)) = true)
    (hq : ReflTransGen heap.Contains p q) :
    ∃ fuel', Value.hasText heap fuel' (.object (some q)) = true := by
  induction hq with
  | refl => exact ⟨fuel, h⟩
  | tail _ hcontains ih =>
      obtain ⟨fuel', h'⟩ := ih
      exact hasText_of_contains h' hcontains

/-- The depth that is needed is that of the chains of objects in one another. -/
theorem Value.hasText_of_within {n : Nat}
    (hread : ∀ q, ReflTransGen heap.Contains p q → heap.Readable q)
    (h : Descent.Within heap.Contains n p) :
    Value.hasText heap (n + 1) (.object (some p)) = true := by
  induction n generalizing p with
  | zero =>
      obtain ⟨object, hobject, hname, hnull⟩ := hread p .refl
      refine hasText_succ_iff.mpr ⟨object, hobject, hname, fun v hv => hasText_of_ne ?_⟩
      rintro (_ | q) rfl
      · exact hnull hv
      · exact h q ⟨object, hobject, hv⟩
  | succ n ih =>
      obtain ⟨object, hobject, hname, hnull⟩ := hread p .refl
      refine hasText_succ_iff.mpr ⟨object, hobject, hname, fun v hv => ?_⟩
      by_cases hne : ∀ p, v ≠ .object p
      · exact hasText_of_ne hne
      · push Not at hne
        obtain ⟨_ | q, rfl⟩ := hne
        · exact absurd hv hnull
        · have hq : heap.Contains p q := ⟨object, hobject, hv⟩
          exact ih (fun q' hq' => hread q' (.head hq hq')) (h q hq)

/-- **When `to_string` returns.**  With `s` all objects that contain others, every depth above their
number is enough: there `to_string` returns exactly when what it reads is there for every object it
comes to, and none of them contains itself. -/
theorem Value.hasText_iff {s : Finset Ptr} (hs : ∀ p q, heap.Contains p q → p ∈ s)
    (hfuel : s.card < fuel) :
    Value.hasText heap fuel (.object (some p)) = true ↔
      (∀ q, ReflTransGen heap.Contains p q → heap.Readable q) ∧
        Descent.Acyclic heap.Contains p := by
  constructor
  · intro h
    refine ⟨fun q hq => ?_, (within_of_hasText h).acyclic⟩
    obtain ⟨fuel', h'⟩ := hasText_of_reflTransGen h hq
    exact readable_of_hasText h'
  · rintro ⟨hread, hacyclic⟩
    obtain ⟨n, rfl⟩ : ∃ n, fuel = n + 1 := ⟨fuel - 1, by omega⟩
    have hwithin : Descent.Within heap.Contains n p :=
      ((Descent.within_card_iff hs).mpr hacyclic).mono (by omega)
    exact hasText_of_within hread hwithin

end CppLox.Memory
