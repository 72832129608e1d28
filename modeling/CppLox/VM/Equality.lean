import CppLox.Library.Binary64
import CppLox.VM.State

/-!
# Virtual machine — equality of values

`Value::operator==` selects a branch by the kind of the left operand.  Three of the branches cast
the right operand: those of strings, bound methods and upvalues.
-/

namespace CppLox

/-- `ObjectType`. -/
inductive ObjectType where
  | string | function | closure | nativeFunction | upvalue | «class» | «instance» | boundMethod
  | list | map
  deriving Repr, DecidableEq

/-- `get_type` of an object in the heap. -/
def HeapObject.type : HeapObject → ObjectType
  | .closure _ _ => .closure
  | .upvalue _ => .upvalue
  | .class _ _ _ => .class
  | .instance _ _ => .instance
  | .boundMethod _ _ => .boundMethod
  | .list _ => .list
  | .map _ => .map

/-- `get_type`. -/
def Object.type (heap : Heap) : Object → Option ObjectType
  | .string _ => some .string
  | .function _ => some .function
  | .native _ => some .nativeFunction
  | .heap a => heap[a]?.map HeapObject.type

namespace Value

/-- The type of the object a value refers to. -/
def objectType (heap : Heap) : Value → Option ObjectType
  | .object o => o.type heap
  | _ => none

/-- The casts of the right operand that `Value::operator==` makes: the class with the operand. -/
def equalsCasts (heap : Heap) : Nat → Value → Value → List (ObjectType × Value)
  | fuel, .object a, .object b =>
    match heapObject heap (.object a), heapObject heap (.object b), fuel with
    | some (.boundMethod receiver method), some (.boundMethod receiver' method'), fuel + 1 =>
      (.boundMethod, .object b) ::
        if method = method' then equalsCasts heap fuel receiver receiver' else []
    | some (.boundMethod _ _), _, _ => [(.boundMethod, .object b)]
    | some (.upvalue _), _, _ => [(.upvalue, .object b)]
    | _, _, _ => if a.type heap = some .string then [(.string, .object b)] else []
  | _, _, _ => []

/-- A cast of a value to the class of its type. -/
def CastOk (heap : Heap) (cast : ObjectType × Value) : Prop :=
  cast.2.objectType heap = some cast.1

/-- A comparison confuses no kinds of objects. -/
structure NeverConfuses (heap : Heap) (fuel : Nat) (a b : Value) : Prop where
  casts : ∀ cast ∈ equalsCasts heap fuel a b, CastOk heap cast
  differ : a.objectType heap ≠ b.objectType heap → equals heap fuel a b = some false
  exchange : equals heap fuel a b = equals heap fuel b a

/-- The types whose branch of `Value::operator==` casts the right operand. -/
def castsOperand : List ObjectType := [.string, .boundMethod, .upvalue]

/-- The types whose branch works on the operand it casts. -/
def readsOperand : List ObjectType := [.boundMethod, .upvalue]

/-- Two operands that may be compared: they have the same type, or the branch of the left one casts
nothing and the branch of the right one would read nothing.  Two bound methods of one closure are
compared by their receivers. -/
def Comparable (heap : Heap) : Nat → Value → Value → Prop
  | fuel, .object a, .object b =>
    match heapObject heap (.object a), heapObject heap (.object b), fuel with
    | some (.boundMethod receiver method), some (.boundMethod receiver' method'), fuel + 1 =>
      method = method' → Comparable heap fuel receiver receiver'
    | _, _, _ => a.type heap = b.type heap ∨
      (∀ t ∈ castsOperand, a.type heap ≠ some t) ∧ ∀ t ∈ readsOperand, b.type heap ≠ some t
  | _, _, _ => True

/-! ### Pointers -/

theorem samePointer_comm (a b : Object) : samePointer a b = samePointer b a := by
  cases a <;> cases b <;> simp only [samePointer, Bool.beq_comm]

theorem type_eq_of_samePointer {heap : Heap} {a b : Object} (h : samePointer a b = true) :
    a.type heap = b.type heap := by
  cases a <;> cases b <;> simp only [samePointer, beq_iff_eq, Bool.false_eq_true] at h
  all_goals first | rfl | (subst h; rfl)

theorem samePointer_eq_false {heap : Heap} {a b : Object} (h : a.type heap ≠ b.type heap) :
    samePointer a b = false :=
  Bool.eq_false_iff.mpr fun hsame => h (type_eq_of_samePointer hsame)

theorem sameLocation_comm (a b : Object) (l l' : Location) :
    sameLocation (a, l) (b, l') = sameLocation (b, l') (a, l) := by
  cases l <;> cases l' <;> simp only [sameLocation, Bool.beq_comm, samePointer_comm a b]

/-! ### The branches -/

section

variable {heap : Heap} {a b : Object}

theorem type_of_heapObject {o : HeapObject} (h : heapObject heap (.object a) = some o) :
    a.type heap = some o.type := by
  cases a with
  | heap a =>
      change heap[a]? = some o at h
      exact congrArg (Option.map HeapObject.type) h
  | _ => cases h

theorem boundMethod_of_type (h : a.type heap = some .boundMethod) :
    ∃ receiver method, heapObject heap (.object a) = some (.boundMethod receiver method) := by
  cases a with
  | heap a =>
      obtain ⟨o, ho, htype⟩ := Option.map_eq_some_iff.mp h
      cases o <;> cases htype
      exact ⟨_, _, ho⟩
  | _ => cases h

theorem upvalue_of_type (h : a.type heap = some .upvalue) :
    ∃ location, heapObject heap (.object a) = some (.upvalue location) := by
  cases a with
  | heap a =>
      obtain ⟨o, ho, htype⟩ := Option.map_eq_some_iff.mp h
      cases o <;> cases htype
      exact ⟨_, ho⟩
  | _ => cases h

/-- A left operand that is neither a bound method nor an upvalue. -/
theorem equals_pointer (fuel : Nat) (h : ∀ t ∈ readsOperand, a.type heap ≠ some t) :
    equals heap fuel (.object a) (.object b) = some (samePointer a b) := by
  unfold equals
  cases ha : heapObject heap (.object a) with
  | none => rfl
  | some o =>
      have htype := type_of_heapObject ha
      cases o with
      | boundMethod receiver method => exact absurd htype (h _ (by simp [readsOperand, HeapObject.type]))
      | upvalue location => exact absurd htype (h _ (by simp [readsOperand, HeapObject.type]))
      | _ => rfl

theorem equalsCasts_pointer (fuel : Nat) (h : ∀ t ∈ readsOperand, a.type heap ≠ some t) :
    equalsCasts heap fuel (.object a) (.object b) =
      if a.type heap = some .string then [(.string, .object b)] else [] := by
  unfold equalsCasts
  cases ha : heapObject heap (.object a) with
  | none => rfl
  | some o =>
      have htype := type_of_heapObject ha
      cases o with
      | boundMethod receiver method => exact absurd htype (h _ (by simp [readsOperand, HeapObject.type]))
      | upvalue location => exact absurd htype (h _ (by simp [readsOperand, HeapObject.type]))
      | _ => rfl

/-- A bound method on the left and an object of another type on the right. -/
theorem equals_boundMethod_other (fuel : Nat) (h : a.type heap = some .boundMethod)
    (hb : b.type heap ≠ some .boundMethod) :
    equals heap fuel (.object a) (.object b) = none ∧
      equalsCasts heap fuel (.object a) (.object b) = [(.boundMethod, .object b)] := by
  obtain ⟨receiver, method, ha⟩ := boundMethod_of_type h
  unfold equals equalsCasts
  rw [ha]
  cases hob : heapObject heap (.object b) with
  | none => exact ⟨rfl, rfl⟩
  | some o =>
      have htype := type_of_heapObject hob
      cases o with
      | boundMethod receiver' method' => exact absurd htype hb
      | _ => exact ⟨rfl, rfl⟩

theorem equals_upvalue_other (fuel : Nat) (h : a.type heap = some .upvalue)
    (hb : b.type heap ≠ some .upvalue) :
    equals heap fuel (.object a) (.object b) = none ∧
      equalsCasts heap fuel (.object a) (.object b) = [(.upvalue, .object b)] := by
  obtain ⟨location, ha⟩ := upvalue_of_type h
  unfold equals equalsCasts
  rw [ha]
  cases hob : heapObject heap (.object b) with
  | none => exact ⟨rfl, rfl⟩
  | some o =>
      have htype := type_of_heapObject hob
      cases o with
      | upvalue location' => exact absurd htype hb
      | _ => exact ⟨rfl, rfl⟩

theorem equals_upvalues (fuel : Nat) {location location' : Location}
    (ha : heapObject heap (.object a) = some (.upvalue location))
    (hb : heapObject heap (.object b) = some (.upvalue location')) :
    equals heap fuel (.object a) (.object b) = some (sameLocation (a, location) (b, location')) ∧
      equalsCasts heap fuel (.object a) (.object b) = [(.upvalue, .object b)] := by
  unfold equals equalsCasts
  rw [ha, hb]
  exact ⟨rfl, rfl⟩

theorem equals_boundMethods (fuel : Nat) {receiver receiver' : Value} {method method' : Addr}
    (ha : heapObject heap (.object a) = some (.boundMethod receiver method))
    (hb : heapObject heap (.object b) = some (.boundMethod receiver' method')) :
    equals heap (fuel + 1) (.object a) (.object b) =
        (if method = method' then equals heap fuel receiver receiver' else some false) ∧
      equalsCasts heap (fuel + 1) (.object a) (.object b) = (.boundMethod, .object b) ::
        if method = method' then equalsCasts heap fuel receiver receiver' else [] := by
  constructor
  · rw [equals.eq_def]
    simp only [ha, hb]
  · rw [equalsCasts.eq_def]
    simp only [ha, hb]

end

/-! ### When a comparison confuses nothing -/

/-- The casts are right and the result does not depend on the order of the operands. -/
structure Exchanges (heap : Heap) (fuel : Nat) (a b : Value) : Prop where
  casts : ∀ cast ∈ equalsCasts heap fuel a b, CastOk heap cast
  exchange : equals heap fuel a b = equals heap fuel b a

/-- Two objects of different types. -/
theorem exchanges_other {heap : Heap} {a b : Object} (fuel : Nat)
    (h : a.type heap ≠ b.type heap) : Exchanges heap fuel (.object a) (.object b) ↔
      (∀ t ∈ castsOperand, a.type heap ≠ some t) ∧ ∀ t ∈ readsOperand, b.type heap ≠ some t := by
  constructor
  · rintro ⟨hcasts, hexchange⟩
    have ha : ∀ t ∈ readsOperand, a.type heap ≠ some t := by
      intro t ht heq
      simp only [readsOperand, List.mem_cons, List.not_mem_nil, or_false] at ht
      rcases ht with rfl | rfl
      · rw [(equals_boundMethod_other fuel heq (fun hb => h (heq.trans hb.symm))).2] at hcasts
        exact h (heq.trans (hcasts _ (List.mem_singleton_self _)).symm)
      · rw [(equals_upvalue_other fuel heq (fun hb => h (heq.trans hb.symm))).2] at hcasts
        exact h (heq.trans (hcasts _ (List.mem_singleton_self _)).symm)
    rw [equalsCasts_pointer fuel ha] at hcasts
    rw [equals_pointer fuel ha] at hexchange
    refine ⟨fun t ht heq => ?_, fun t ht heq => ?_⟩
    · rcases List.mem_cons.mp ht with rfl | ht
      · rw [if_pos heq] at hcasts
        exact h (heq.trans (hcasts _ (List.mem_singleton_self _)).symm)
      · exact ha t ht heq
    · simp only [readsOperand, List.mem_cons, List.not_mem_nil, or_false] at ht
      rcases ht with rfl | rfl
      · rw [(equals_boundMethod_other fuel heq (fun hb => h (hb.trans heq.symm))).1] at hexchange
        cases hexchange
      · rw [(equals_upvalue_other fuel heq (fun hb => h (hb.trans heq.symm))).1] at hexchange
        cases hexchange
  · rintro ⟨ha, hb⟩
    have hreads : ∀ t ∈ readsOperand, a.type heap ≠ some t :=
      fun t ht => ha t (List.mem_cons_of_mem _ ht)
    refine ⟨?_, ?_⟩
    · rw [equalsCasts_pointer fuel hreads, if_neg (ha _ (List.mem_cons_self ..))]
      exact fun _ hmem => nomatch hmem
    · rw [equals_pointer fuel hreads, equals_pointer fuel hb, samePointer_comm]

/-- Two objects of one type, apart from bound methods that are compared by their receivers. -/
theorem exchanges_same {heap : Heap} {a b : Object} (fuel : Nat)
    (h : a.type heap = b.type heap) (hbound : a.type heap = some .boundMethod → fuel = 0) :
    Exchanges heap fuel (.object a) (.object b) := by
  by_cases hmethod : a.type heap = some .boundMethod
  · obtain ⟨receiver, method, ha⟩ := boundMethod_of_type hmethod
    obtain ⟨receiver', method', hb⟩ := boundMethod_of_type (h.symm.trans hmethod)
    obtain rfl := hbound hmethod
    refine ⟨?_, ?_⟩
    · have hcasts : equalsCasts heap 0 (.object a) (.object b) = [(.boundMethod, .object b)] := by
        rw [equalsCasts.eq_def]
        simp only [ha, hb]
      rw [hcasts]
      intro cast hcast
      rw [List.mem_singleton.mp hcast]
      exact h.symm.trans hmethod
    · rw [equals.eq_def, equals.eq_def heap 0 (.object b)]
      simp only [ha, hb]
  by_cases hupvalue : a.type heap = some .upvalue
  · obtain ⟨location, ha⟩ := upvalue_of_type hupvalue
    obtain ⟨location', hb⟩ := upvalue_of_type (h.symm.trans hupvalue)
    refine ⟨?_, ?_⟩
    · rw [(equals_upvalues fuel ha hb).2]
      intro cast hcast
      rw [List.mem_singleton.mp hcast]
      exact h.symm.trans hupvalue
    · rw [(equals_upvalues fuel ha hb).1, (equals_upvalues fuel hb ha).1, sameLocation_comm]
  have hreads : ∀ t ∈ readsOperand, a.type heap ≠ some t := by
    intro t ht
    simp only [readsOperand, List.mem_cons, List.not_mem_nil, or_false] at ht
    rcases ht with rfl | rfl
    · exact hmethod
    · exact hupvalue
  refine ⟨?_, ?_⟩
  · rw [equalsCasts_pointer fuel hreads]
    split
    · rename_i hstring
      intro cast hcast
      rw [List.mem_singleton.mp hcast]
      exact h.symm.trans hstring
    · exact fun _ hmem => nomatch hmem
  · rw [equals_pointer fuel hreads, equals_pointer fuel (h ▸ hreads), samePointer_comm]

/-- Two bound methods are compared like their receivers, when they share the closure. -/
theorem exchanges_boundMethods {heap : Heap} {a b : Object} (fuel : Nat)
    {receiver receiver' : Value} {method method' : Addr}
    (ha : heapObject heap (.object a) = some (.boundMethod receiver method))
    (hb : heapObject heap (.object b) = some (.boundMethod receiver' method')) :
    Exchanges heap (fuel + 1) (.object a) (.object b) ↔
      (method = method' → Exchanges heap fuel receiver receiver') := by
  have hab := equals_boundMethods fuel ha hb
  have hba := equals_boundMethods fuel hb ha
  constructor
  · rintro ⟨hcasts, hexchange⟩ heq
    rw [hab.2, if_pos heq] at hcasts
    rw [hab.1, hba.1, if_pos heq, if_pos heq.symm] at hexchange
    exact ⟨fun cast hcast => hcasts cast (List.mem_cons_of_mem _ hcast), hexchange⟩
  · intro h
    refine ⟨fun cast hcast => ?_, ?_⟩
    · rw [hab.2] at hcast
      rcases List.mem_cons.mp hcast with rfl | hcast
      · exact type_of_heapObject hb
      · split at hcast
        · rename_i heq
          exact (h heq).casts cast hcast
        · cases hcast
    · rw [hab.1, hba.1]
      by_cases heq : method = method'
      · rw [if_pos heq, if_pos heq.symm]
        exact (h heq).exchange
      · rw [if_neg heq, if_neg (Ne.symm heq)]

/-- A pair that is not a pair of objects. -/
theorem exchanges_value {heap : Heap} (fuel : Nat) {a b : Value}
    (h : ∀ o o', a = .object o → b ≠ .object o') : Exchanges heap fuel a b := by
  have hcasts : equalsCasts heap fuel a b = [] := by
    rw [equalsCasts.eq_def]
    cases a <;> cases b <;> first | rfl | exact absurd rfl (h _ _ rfl)
  refine ⟨by rw [hcasts]; exact fun _ => (nomatch ·), ?_⟩
  cases a <;> cases b
  case object.object o o' => exact absurd rfl (h o o' rfl)
  case real.real x y =>
    rw [equals.eq_def, equals.eq_def heap fuel (.real y)]
    simp only [Float.abs_sub_comm]
  case boolean.boolean x y =>
    rw [equals.eq_def, equals.eq_def heap fuel (.boolean y)]
    simp only [Bool.beq_comm]
  case integer.integer x y =>
    rw [equals.eq_def, equals.eq_def heap fuel (.integer y)]
    simp only [BEq.comm]
  all_goals rw [equals.eq_def, equals.eq_def heap fuel]

theorem comparable_value {heap : Heap} (fuel : Nat) {a b : Value}
    (h : ∀ o o', a = .object o → b ≠ .object o') : Comparable heap fuel a b := by
  rw [Comparable.eq_def]
  cases a <;> cases b <;> first | trivial | exact absurd rfl (h _ _ rfl)

/-- Two objects that are not both bound methods with receivers left to compare. -/
theorem comparable_objects {heap : Heap} {fuel : Nat} {a b : Object}
    (h : a.type heap = some .boundMethod → b.type heap = some .boundMethod → fuel = 0) :
    Comparable heap fuel (.object a) (.object b) ↔ a.type heap = b.type heap ∨
      (∀ t ∈ castsOperand, a.type heap ≠ some t) ∧ ∀ t ∈ readsOperand, b.type heap ≠ some t := by
  rw [Comparable.eq_def]
  dsimp only
  split
  · rename_i ha hb
    exact absurd (h (type_of_heapObject ha) (type_of_heapObject hb)) (Nat.succ_ne_zero _)
  · exact Iff.rfl

theorem comparable_boundMethods {heap : Heap} {fuel : Nat} {a b : Object}
    {receiver receiver' : Value} {method method' : Addr}
    (ha : heapObject heap (.object a) = some (.boundMethod receiver method))
    (hb : heapObject heap (.object b) = some (.boundMethod receiver' method')) :
    Comparable heap (fuel + 1) (.object a) (.object b) ↔
      (method = method' → Comparable heap fuel receiver receiver') := by
  rw [Comparable.eq_def]
  simp only [ha, hb]

theorem exchanges_objects {heap : Heap} {fuel : Nat} {a b : Object}
    (h : a.type heap = some .boundMethod → b.type heap = some .boundMethod → fuel = 0) :
    Exchanges heap fuel (.object a) (.object b) ↔ Comparable heap fuel (.object a) (.object b) := by
  rw [comparable_objects h]
  by_cases htype : a.type heap = b.type heap
  · exact iff_of_true (exchanges_same fuel htype fun ha => h ha (htype.symm.trans ha)) (.inl htype)
  · rw [exchanges_other fuel htype]
    exact ⟨.inr, fun hor => hor.resolve_left htype⟩

theorem exchanges_iff (heap : Heap) (fuel : Nat) (a b : Value) :
    Exchanges heap fuel a b ↔ Comparable heap fuel a b := by
  induction fuel generalizing a b with
  | zero =>
      by_cases hobjects : ∃ o o', a = .object o ∧ b = .object o'
      · obtain ⟨o, o', rfl, rfl⟩ := hobjects
        exact exchanges_objects fun _ _ => rfl
      · have h : ∀ o o', a = .object o → b ≠ .object o' :=
          fun o o' ha hb => hobjects ⟨o, o', ha, hb⟩
        exact iff_of_true (exchanges_value 0 h) (comparable_value 0 h)
  | succ fuel ih =>
      by_cases hobjects : ∃ o o', a = .object o ∧ b = .object o'
      · obtain ⟨o, o', rfl, rfl⟩ := hobjects
        by_cases hbound : o.type heap = some .boundMethod ∧ o'.type heap = some .boundMethod
        · obtain ⟨receiver, method, ho⟩ := boundMethod_of_type hbound.1
          obtain ⟨receiver', method', ho'⟩ := boundMethod_of_type hbound.2
          rw [exchanges_boundMethods fuel ho ho', comparable_boundMethods ho ho']
          exact imp_congr_right fun _ => ih receiver receiver'
        · exact exchanges_objects fun ho ho' => absurd ⟨ho, ho'⟩ hbound
      · have h : ∀ o o', a = .object o → b ≠ .object o' :=
          fun o o' ha hb => hobjects ⟨o, o', ha, hb⟩
        exact iff_of_true (exchanges_value _ h) (comparable_value _ h)

/-- Objects of different types that may be compared are not equal. -/
theorem equals_of_comparable {heap : Heap} {fuel : Nat} {a b : Value}
    (h : Comparable heap fuel a b) (htype : a.objectType heap ≠ b.objectType heap) :
    equals heap fuel a b = some false := by
  by_cases hobjects : ∃ o o', a = .object o ∧ b = .object o'
  · obtain ⟨o, o', rfl, rfl⟩ := hobjects
    change o.type heap ≠ o'.type heap at htype
    have hother := ((exchanges_other fuel htype).mp ((exchanges_iff heap fuel _ _).mpr h)).1
    rw [equals_pointer fuel fun t ht => hother t (List.mem_cons_of_mem _ ht),
      samePointer_eq_false htype]
  · rw [equals.eq_def]
    cases a <;> cases b <;> first | rfl | exact absurd rfl htype | exact absurd ⟨_, _, rfl, rfl⟩ hobjects

/-- **What may be compared.**  A string, a bound method and an upvalue cast the other operand to
their own class without a look at its type, and the last two read its members.  So a comparison
casts to the right class, tells objects of different types apart and does not depend on the order of
its operands exactly when the two have one type, or the left one is none of the three and the right
one none of the last two.  For two bound methods of one closure it is the same condition on their
receivers. -/
theorem neverConfuses_iff (heap : Heap) (fuel : Nat) (a b : Value) :
    NeverConfuses heap fuel a b ↔ Comparable heap fuel a b := by
  constructor
  · intro h
    exact (exchanges_iff heap fuel a b).mp ⟨h.casts, h.exchange⟩
  · intro h
    obtain ⟨hcasts, hexchange⟩ := (exchanges_iff heap fuel a b).mpr h
    exact ⟨hcasts, equals_of_comparable h, hexchange⟩

/-- An instance of a class with the method `method`, and the method bound to the instance. -/
def boundMethodHeap (method : ObjectFunction) : Heap :=
  [.closure method [], .class [] (.nil false) [], .instance 1 [], .boundMethod (.ofAddr 2) 0]

/-- A bound method on the left of its receiver. -/
theorem boundMethod_confused :
    ¬ ∀ (heap : Heap) (a b : Value), NeverConfuses heap heap.length a b := by
  intro h
  have hexchange := (h (boundMethodHeap ⟨0, 0, 0, [], [], [], []⟩) (.ofAddr 3) (.ofAddr 2)).exchange
  have hleft : equals (boundMethodHeap ⟨0, 0, 0, [], [], [], []⟩) 4 (.ofAddr 3) (.ofAddr 2) = none :=
    rfl
  exact nomatch hleft.symm.trans hexchange

end Value

end CppLox
