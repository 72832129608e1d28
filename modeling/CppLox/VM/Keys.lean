import CppLox.Library.Mixing
import CppLox.VM.Equality
import CppLox.VM.Run

/-!
# Virtual machine — keys

`Value::operator==` and `Value::hash_code` on the hashable values.  Reals are equal when they
differ by less than `EPSILON` but are hashed by their bits, a real that is not finite differs from
itself, and a bound method is compared with any object as if that were one too.  On sets of keys
without such pairs equality is an equivalence that the hash respects.
-/

namespace CppLox

namespace Value

/-- The kinds of values that can be keys. -/
def Hashable (heap : Heap) : Value → Prop
  | .object o => ∃ t ∈ [ObjectType.string, .function, .nativeFunction, .closure, .class, .instance,
      .boundMethod], o.type heap = some t
  | _ => True

/-- A key that is a bound method. -/
def IsBoundMethod (heap : Heap) (v : Value) : Prop := v.objectType heap = some .boundMethod

/-- The receiver of a bound method is always an `ObjectInstance *`. -/
def ReceiversAreInstances (heap : Heap) : Prop :=
  ∀ (a : Addr) receiver method, heap[a]? = some (HeapObject.boundMethod receiver method) →
    ∃ o, receiver = .object o ∧ o.type heap = some .instance

/-- `hash_pointer` depends on the pointer only. -/
def HashesPointers (P : Platform) : Prop :=
  ∀ o o', samePointer o o' = true → P.hashPointer o = P.hashPointer o'

/-- Two reals differ by less than `EPSILON`. -/
def IsClose (x y : UInt64) : Prop := Float.abs (Float.ofBits x - Float.ofBits y) < 1e-9

instance (x y : UInt64) : Decidable (IsClose x y) :=
  inferInstanceAs (Decidable (Float.abs (Float.ofBits x - Float.ofBits y) < 1e-9))

/-- Two reals have the same bits, or both are zero. -/
def SameNumber (x y : UInt64) : Prop :=
  x = y ∨ (Float.ofBits x == 0) = true ∧ (Float.ofBits y == 0) = true

/-- Equality is an equivalence on some keys, and equal keys have the same hash. -/
structure LawfulOn (P : Platform) (heap : Heap) (K : Value → Prop) : Prop where
  defined : ∀ a b, K a → K b → (equals heap heap.length a b).isSome
  refl : ∀ a, K a → equals heap heap.length a a = some true
  symm : ∀ a b, K a → K b → equals heap heap.length a b = some true →
    equals heap heap.length b a = some true
  trans : ∀ a b c, K a → K b → K c → equals heap heap.length a b = some true →
    equals heap heap.length b c = some true → equals heap heap.length a c = some true
  hash : ∀ a b, K a → K b → equals heap heap.length a b = some true →
    hashCode P heap heap.length a = hashCode P heap heap.length b

/-- Keys whose reals are finite and apart, and which are all bound methods, as far as they are
objects, if one is. -/
structure KeysApart (heap : Heap) (K : Value → Prop) : Prop where
  finite : ∀ x, K (.real x) → (Float.ofBits x).isFinite = true
  apart : ∀ x y, K (.real x) → K (.real y) → IsClose x y → SameNumber x y
  kinds : ∀ a o, K a → K (.object o) → IsBoundMethod heap a → IsBoundMethod heap (.object o)

/-! ### Hashes of numbers -/

/-- The word `hash_int` mixes before the sentinel is replaced. -/
def mix (v : UInt64) : UInt64 :=
  let z := v + 0x9e3779b97f4a7c15
  let z := (z ^^^ (z >>> 30)) * 0xbf58476d1ce4e5b9
  let z := (z ^^^ (z >>> 27)) * 0x94d049bb133111eb
  z ^^^ (z >>> 31)

theorem mix_injective {v w : UInt64} (h : mix v = mix w) : v = w := by
  have h₁ := Mixing.xor_shiftRight_injective_uint64 (by decide) h
  have h₂ := Mixing.mul_right_injective (d := 0x319642b2d24d8ec3) (by decide) h₁
  have h₃ := Mixing.xor_shiftRight_injective_uint64 (by decide) h₂
  have h₄ := Mixing.mul_right_injective (d := 0x96de1b173f119089) (by decide) h₃
  have h₅ := Mixing.xor_shiftRight_injective_uint64 (by decide) h₄
  simpa only [UInt64.add_sub_cancel] using congrArg (· - (0x9e3779b97f4a7c15 : UInt64)) h₅

theorem hashInt_eq (v : Int64) :
    hashInt v = if (mix v.toUInt64).toInt64 = -1 then -2 else (mix v.toUInt64).toInt64 := rfl

/-- The words that are mixed to `-1` and to `-2`. -/
def sentinelWord : UInt64 := 0x31628af67b2131ab

def replacedWord : UInt64 := 0x4f10d6ffa9921217

theorem eq_of_mix {v w : UInt64} {h : Int64} (hv : (mix v).toInt64 = h)
    (hw : h.toUInt64 = mix w) : v = w := by
  refine mix_injective (Eq.trans ?_ hw)
  rw [← hv, UInt64.toUInt64_toInt64]

theorem eq_sentinelWord {v : UInt64} (h : (mix v).toInt64 = -1) : v = sentinelWord :=
  eq_of_mix h (by decide)

theorem eq_replacedWord {v : UInt64} (h : (mix v).toInt64 = -2) : v = replacedWord :=
  eq_of_mix h (by decide)

/-- Two words with one hash are the same word, or the two whose hash is `-2`. -/
theorem eq_of_hashInt_eq {v w : UInt64} (h : hashInt v.toInt64 = hashInt w.toInt64) :
    v = w ∨ v = sentinelWord ∧ w = replacedWord ∨ v = replacedWord ∧ w = sentinelWord := by
  rw [hashInt_eq, hashInt_eq, UInt64.toUInt64_toInt64, UInt64.toUInt64_toInt64] at h
  split at h <;> rename_i hv <;> split at h <;> rename_i hw
  · exact .inl ((eq_sentinelWord hv).trans (eq_sentinelWord hw).symm)
  · exact .inr (.inl ⟨eq_sentinelWord hv, eq_replacedWord h.symm⟩)
  · exact .inr (.inr ⟨eq_replacedWord h, eq_sentinelWord hw⟩)
  · exact .inl (mix_injective (by simpa only [UInt64.toUInt64_toInt64] using congrArg Int64.toUInt64 h))

/-- The word whose hash is that of zero. -/
def zeroHashWord : UInt64 := 0x61c8864680b583eb

theorem eq_zeroHashWord {v : UInt64} (h : hashInt v.toInt64 = 0) : v = zeroHashWord := by
  rw [hashInt_eq, UInt64.toUInt64_toInt64] at h
  split at h
  · exact absurd h (by decide)
  · exact eq_of_mix h (by decide)

/-! ### Reals -/

theorem isClose_comm {x y : UInt64} : IsClose x y ↔ IsClose y x := by
  rw [IsClose, IsClose, Float.abs_sub_comm]

theorem isClose_self_iff {x : UInt64} : IsClose x x ↔ (Float.ofBits x).isFinite = true :=
  Float.abs_sub_self_lt_iff (by decide)

theorem SameNumber.isClose {x y : UInt64} (h : SameNumber x y)
    (hx : (Float.ofBits x).isFinite = true) : IsClose x y := by
  rcases h with rfl | ⟨hx₀, hy₀⟩
  · exact isClose_self_iff.mpr hx
  · rw [IsClose, Float.abs_sub_of_zeros hx₀ hy₀]
    decide

theorem SameNumber.trans {x y z : UInt64} (h : SameNumber x y) (h' : SameNumber y z) :
    SameNumber x z := by
  rcases h with rfl | ⟨hx, hy⟩
  · exact h'
  · rcases h' with rfl | ⟨-, hz⟩
    · exact .inr ⟨hx, hy⟩
    · exact .inr ⟨hx, hz⟩

theorem hashDouble_of_zero {x : UInt64} (h : (Float.ofBits x == 0) = true) : hashDouble x = 0 := by
  unfold hashDouble
  dsimp only
  rw [if_pos h]

theorem hashDouble_of_finite {x : UInt64} (h : ¬ (Float.ofBits x == 0) = true)
    (hfinite : (Float.ofBits x).isFinite = true) : hashDouble x = hashInt x.toInt64 := by
  obtain ⟨hnan, hinf⟩ := Binary64.not_special_of_isFinite (x := (Float.ofBits x).toModel.unpack)
    hfinite
  have hspecial : ¬ ((Float.ofBits x).isNaN || (Float.ofBits x).isInf) = true := by
    rw [show (Float.ofBits x).isNaN = false from hnan, show (Float.ofBits x).isInf = false from hinf]
    exact Bool.false_ne_true
  unfold hashDouble
  dsimp only
  rw [if_neg h, if_neg hspecial]

theorem SameNumber.hashDouble {x y : UInt64} (h : SameNumber x y) :
    Value.hashDouble x = Value.hashDouble y := by
  rcases h with rfl | ⟨hx, hy⟩
  · rfl
  · rw [hashDouble_of_zero hx, hashDouble_of_zero hy]


/-- A zero is far from the word with its hash. -/
theorem not_isClose_zeroHashWord {x : UInt64} (h : (Float.ofBits x == 0) = true) :
    ¬ IsClose x zeroHashWord := by
  rw [IsClose, Float.abs_zero_sub h]
  decide

/-- The two words whose hash is `-2` are apart. -/
theorem not_isClose_replacedWord : ¬ IsClose sentinelWord replacedWord := by
  unfold IsClose
  decide +kernel

/-- Close reals with one hash are the same number. -/
theorem sameNumber_of_isClose {x y : UInt64} (hclose : IsClose x y)
    (hx : (Float.ofBits x).isFinite = true) (hy : (Float.ofBits y).isFinite = true)
    (hhash : Value.hashDouble x = Value.hashDouble y) : SameNumber x y := by
  by_cases hx₀ : (Float.ofBits x == 0) = true
  · by_cases hy₀ : (Float.ofBits y == 0) = true
    · exact .inr ⟨hx₀, hy₀⟩
    · rw [hashDouble_of_zero hx₀, hashDouble_of_finite hy₀ hy] at hhash
      rw [eq_zeroHashWord hhash.symm] at hclose
      exact absurd hclose (not_isClose_zeroHashWord hx₀)
  · by_cases hy₀ : (Float.ofBits y == 0) = true
    · rw [hashDouble_of_finite hx₀ hx, hashDouble_of_zero hy₀] at hhash
      rw [eq_zeroHashWord hhash] at hclose
      exact absurd (isClose_comm.mp hclose) (not_isClose_zeroHashWord hy₀)
    · rw [hashDouble_of_finite hx₀ hx, hashDouble_of_finite hy₀ hy] at hhash
      rcases eq_of_hashInt_eq hhash with rfl | ⟨rfl, rfl⟩ | ⟨rfl, rfl⟩
      · exact .inl rfl
      · exact absurd hclose not_isClose_replacedWord
      · exact absurd (isClose_comm.mp hclose) not_isClose_replacedWord

/-! ### Objects -/

section

variable {heap : Heap} {o o' o'' : Object}

theorem samePointer_self (o : Object) : samePointer o o = true := by
  cases o <;> simp only [samePointer, BEq.rfl]

theorem samePointer_trans (h : samePointer o o' = true) (h' : samePointer o' o'' = true) :
    samePointer o o'' = true := by
  cases o <;> cases o' <;> simp only [samePointer, beq_iff_eq, Bool.false_eq_true] at h
  all_goals
    cases o'' <;> simp only [samePointer, beq_iff_eq, Bool.false_eq_true] at h'
    simp only [samePointer, beq_iff_eq]
    exact h.trans h'

/-- An object in the heap is the same as another one only when it has its address. -/
theorem heapObject_of_samePointer (h : samePointer o o' = true) :
    heapObject heap (.object o) = heapObject heap (.object o') := by
  cases o <;> cases o' <;> simp only [samePointer, beq_iff_eq, Bool.false_eq_true] at h
  case heap.heap a a' => rw [h]
  all_goals rfl

/-- Two objects are the same key: one pointer, or bound methods with one receiver and closure. -/
def SameObject (heap : Heap) (o o' : Object) : Prop :=
  samePointer o o' = true ∨ ∃ receiver method,
    heapObject heap (.object o) = some (.boundMethod receiver method) ∧
      heapObject heap (.object o') = some (.boundMethod receiver method)

theorem SameObject.symm (h : SameObject heap o o') : SameObject heap o' o := by
  rcases h with h | ⟨receiver, method, ho, ho'⟩
  · exact .inl ((samePointer_comm o' o).trans h)
  · exact .inr ⟨receiver, method, ho', ho⟩

theorem SameObject.trans (h : SameObject heap o o') (h' : SameObject heap o' o'') :
    SameObject heap o o'' := by
  rcases h with h | ⟨receiver, method, ho, ho'⟩
  · rcases h' with h' | ⟨receiver, method, ho', ho''⟩
    · exact .inl (samePointer_trans h h')
    · exact .inr ⟨receiver, method, (heapObject_of_samePointer h).trans ho', ho''⟩
  · rcases h' with h' | ⟨receiver', method', ho₁, ho''⟩
    · exact .inr ⟨receiver, method, ho, (heapObject_of_samePointer h').symm.trans ho'⟩
    · rw [ho'] at ho₁
      cases ho₁
      exact .inr ⟨receiver, method, ho, ho''⟩

/-- An object in the heap makes the heap non-empty. -/
theorem exists_length_of_heapObject {object : HeapObject}
    (h : heapObject heap (.object o) = some object) : ∃ n, heap.length = n + 1 := by
  cases o with
  | heap a =>
      have hlt := (List.getElem?_eq_some_iff.mp (h : heap[a]? = some object)).1
      exact ⟨heap.length - 1, by omega⟩
  | _ => cases h

/-- A receiver is one with another exactly when both are the same value. -/
theorem receiver_eq (hreceivers : ReceiversAreInstances heap) {receiver : Value} {method : Addr}
    (h : heapObject heap (.object o) = some (.boundMethod receiver method)) :
    ∃ a : Addr, receiver = .object (.heap a) ∧
      (Object.heap a).type heap = some .instance := by
  cases o with
  | heap a =>
      obtain ⟨r, rfl, htype⟩ := hreceivers a receiver method h
      cases r with
      | heap b => exact ⟨b, rfl, htype⟩
      | _ => cases htype
  | _ => cases h

/-- Objects of hashable kinds, both bound methods or neither. -/
theorem equals_objects (hreceivers : ReceiversAreInstances heap)
    (ho : Hashable heap (.object o))
    (hkinds : IsBoundMethod heap (.object o) ↔ IsBoundMethod heap (.object o')) :
    ∃ r, equals heap heap.length (.object o) (.object o') = some r ∧
      (r = true ↔ SameObject heap o o') := by
  by_cases hbound : IsBoundMethod heap (.object o)
  · obtain ⟨receiver, method, hparts⟩ := boundMethod_of_type hbound
    obtain ⟨receiver', method', hparts'⟩ := boundMethod_of_type (hkinds.mp hbound)
    obtain ⟨a, rfl, ha⟩ := receiver_eq hreceivers hparts
    obtain ⟨a', rfl, ha'⟩ := receiver_eq hreceivers hparts'
    obtain ⟨n, hn⟩ := exists_length_of_heapObject hparts
    have hpointer : equals heap n (.object (.heap a)) (.object (.heap a')) =
        some (samePointer (.heap a) (.heap a')) := equals_pointer n fun t ht heq => by
      rw [ha] at heq
      cases heq
      exact absurd ht (by decide)
    rw [hn, (equals_boundMethods n hparts hparts').1, hpointer]
    refine ⟨_, (apply_ite some _ _ _).symm, ?_⟩
    constructor
    · intro hr
      split at hr
      · rename_i hmethod
        simp only [samePointer, beq_iff_eq] at hr
        subst hmethod hr
        exact .inr ⟨_, _, hparts, hparts'⟩
      · cases hr
    · intro hsame
      have heq : HeapObject.boundMethod (.object (.heap a)) method =
          .boundMethod (.object (.heap a')) method' := by
        rcases hsame with hsame | ⟨_, _, h₁, h₂⟩
        · rw [heapObject_of_samePointer hsame, hparts'] at hparts
          exact (Option.some.inj hparts).symm
        · rw [hparts] at h₁
          rw [hparts'] at h₂
          exact (Option.some.inj h₁).trans (Option.some.inj h₂).symm
      cases heq
      rw [if_pos rfl]
      exact samePointer_self _
  · refine ⟨_, equals_pointer _ fun t ht heq => ?_, ?_⟩
    · obtain ⟨t', ht', heq'⟩ := ho
      rw [heq] at heq'
      cases heq'
      simp only [readsOperand, List.mem_cons, List.not_mem_nil, or_false] at ht
      rcases ht with rfl | rfl
      · exact hbound heq
      · exact absurd ht' (by decide)
    · refine ⟨.inl, fun hsame => hsame.resolve_right ?_⟩
      rintro ⟨receiver, method, h, -⟩
      exact hbound (type_of_heapObject h)

/-- The hash of a bound method depends on its receiver and its closure. -/
theorem hashCode_boundMethod {P : Platform} {receiver : Value} {method : Addr}
    (h : heapObject heap (.object o) = some (.boundMethod receiver method)) (fuel : Nat) :
    hashCode P heap (fuel + 1) (.object o) =
      if hashCode P heap fuel receiver = -1 then P.hashPointer (.heap method)
      else hashInt (P.hashPointer (.heap method) ^^^ hashCode P heap fuel receiver) := by
  cases o with
  | heap a =>
      rw [hashCode.eq_def]
      simp only [show heap[a]? = some (.boundMethod receiver method) from h]
  | _ => cases h

theorem hashCode_of_sameObject {P : Platform} (hP : HashesPointers P)
    (h : SameObject heap o o') :
    hashCode P heap heap.length (.object o) = hashCode P heap heap.length (.object o') := by
  rcases h with h | ⟨receiver, method, ho, ho'⟩
  · cases o <;> cases o' <;>
      first
      | (simp only [samePointer, beq_iff_eq] at h; subst h; rfl)
      | (simp only [samePointer, Bool.false_eq_true] at h)
    case function.function f f' =>
      rw [hashCode.eq_def, hashCode.eq_def P heap _ (.object (.function f'))]
      exact hP _ _ h
  · obtain ⟨n, hn⟩ := exists_length_of_heapObject ho
    rw [hn, hashCode_boundMethod ho, hashCode_boundMethod ho']

end

/-! ### Keys -/

/-- Two values are the same key. -/
def SameKey (heap : Heap) : Value → Value → Prop
  | .nil _, .nil _ => True
  | .boolean b, .boolean b' => b = b'
  | .integer i, .integer i' => i = i'
  | .real x, .real y => SameNumber x y
  | .object o, .object o' => SameObject heap o o'
  | _, _ => False

section

variable {heap : Heap} {a b c : Value}

theorem SameKey.symm (h : SameKey heap a b) : SameKey heap b a := by
  cases a <;> cases b <;> try exact h
  case boolean.boolean => exact Eq.symm h
  case integer.integer => exact Eq.symm h
  case real.real => exact h.imp Eq.symm And.symm
  case object.object => exact SameObject.symm h

theorem SameKey.trans (h : SameKey heap a b) (h' : SameKey heap b c) : SameKey heap a c := by
  cases a <;> cases b <;> first | exact (h : False).elim | skip
  all_goals cases c <;> first | exact (h' : False).elim | skip
  case nil.nil.nil => trivial
  case boolean.boolean.boolean => exact Eq.trans h h'
  case integer.integer.integer => exact Eq.trans h h'
  case real.real.real => exact SameNumber.trans h h'
  case object.object.object => exact SameObject.trans h h'

theorem SameKey.hashCode {P : Platform} (hP : HashesPointers P) (h : SameKey heap a b) :
    Value.hashCode P heap heap.length a = Value.hashCode P heap heap.length b := by
  cases a <;> cases b <;> first | exact (h : False).elim | skip
  case nil.nil => rw [Value.hashCode.eq_def, Value.hashCode.eq_def P heap _ (.nil _)]
  case boolean.boolean => rw [show _ = _ from h]
  case integer.integer => rw [show _ = _ from h]
  case real.real x y =>
    rw [Value.hashCode.eq_def, Value.hashCode.eq_def P heap _ (.real y)]
    exact SameNumber.hashDouble h
  case object.object => exact hashCode_of_sameObject hP h

/-- On keys that are apart, equality decides whether two of them are the same. -/
theorem equals_keys (hreceivers : ReceiversAreInstances heap) {K : Value → Prop}
    (hK : ∀ v, K v → Hashable heap v) (hapart : KeysApart heap K) (ha : K a) (hb : K b) :
    ∃ r, equals heap heap.length a b = some r ∧ (r = true ↔ SameKey heap a b) := by
  cases a <;> cases b
  case object.object o o' =>
    exact equals_objects hreceivers (hK _ ha)
      ⟨hapart.kinds _ _ ha hb, hapart.kinds _ _ hb ha⟩
  case real.real x y =>
    refine ⟨decide (IsClose x y), by rw [equals.eq_def]; rfl, ?_⟩
    rw [decide_eq_true_iff]
    exact ⟨hapart.apart x y ha hb, fun h => SameNumber.isClose h (hapart.finite x ha)⟩
  case boolean.boolean x y => exact ⟨x == y, by rw [equals.eq_def], beq_iff_eq⟩
  case integer.integer x y => exact ⟨x == y, by rw [equals.eq_def], beq_iff_eq⟩
  case nil.nil => exact ⟨true, by rw [equals.eq_def], iff_of_true rfl trivial⟩
  all_goals exact ⟨false, by rw [equals.eq_def], iff_of_false Bool.false_ne_true id⟩

theorem SameKey.refl (a : Value) : SameKey heap a a := by
  cases a with
  | nil b => trivial
  | boolean b => exact (rfl : b = b)
  | real x => exact (.inl rfl : SameNumber x x)
  | integer i => exact (rfl : i = i)
  | object o => exact .inl (samePointer_self o)

/-- **Which keys are lawful.**  On a set of hashable values equality is an equivalence, defined, and
agrees with the hash exactly when the reals in it are finite and any two that are close are the same
number, and no bound method is beside an object of another kind.  `operator==` calls reals equal
within `EPSILON`, while `hash_double` mixes all of their bits: the condition is what is left of the
law that a table needs of its keys. -/
theorem keys_lawful_iff {P : Platform} (hP : HashesPointers P)
    (hreceivers : ReceiversAreInstances heap) {K : Value → Prop}
    (hK : ∀ v, K v → Hashable heap v) : LawfulOn P heap K ↔ KeysApart heap K := by
  constructor
  · intro h
    have hfinite : ∀ x, K (.real x) → (Float.ofBits x).isFinite = true := by
      intro x hx
      have heq := h.refl _ hx
      rw [equals.eq_def] at heq
      exact isClose_self_iff.mp (of_decide_eq_true (Option.some.inj heq))
    refine ⟨hfinite, fun x y hx hy hclose => ?_, fun a o ha ho hbound => ?_⟩
    · have heq : equals heap heap.length (.real x) (.real y) = some true := by
        rw [equals.eq_def]
        exact congrArg some (decide_eq_true hclose)
      have hhash := h.hash _ _ hx hy heq
      rw [hashCode.eq_def, hashCode.eq_def P heap _ (.real y)] at hhash
      exact sameNumber_of_isClose hclose (hfinite x hx) (hfinite y hy) hhash
    · by_contra hother
      cases a with
      | object o' =>
          have hdefined := h.defined _ _ ha ho
          rw [(equals_boundMethod_other _ hbound hother).1] at hdefined
          cases hdefined
      | _ => cases hbound
  · intro h
    have hkeys := fun {a b : Value} (ha : K a) (hb : K b) => equals_keys hreceivers hK h ha hb
    have hiff : ∀ {a b : Value}, K a → K b →
        (equals heap heap.length a b = some true ↔ SameKey heap a b) := by
      intro a b ha hb
      obtain ⟨r, hr, hsame⟩ := hkeys ha hb
      rw [hr, Option.some.injEq]
      exact hsame
    refine ⟨fun a b ha hb => ?_, fun a ha => (hiff ha ha).mpr (SameKey.refl a),
      fun a b ha hb heq => (hiff hb ha).mpr ((hiff ha hb).mp heq).symm,
      fun a b c ha hb hc hab hbc => (hiff ha hc).mpr
        (((hiff ha hb).mp hab).trans ((hiff hb hc).mp hbc)),
      fun a b ha hb heq => ((hiff ha hb).mp heq).hashCode hP⟩
    obtain ⟨r, hr, -⟩ := hkeys ha hb
    rw [hr]
    rfl

end

open Classical in
/-- Equality of keys as being the same key. -/
@[reducible] noncomputable def sameKeys (P : Platform) (heap : Heap) : HashKey Value where
  default := .nil false
  keyEqual a b := decide (SameKey heap a b)
  hasher v := (hashCode P heap heap.length v).toUInt64.toNat

theorem sameKeys_keyEqual {P : Platform} {heap : Heap} {a b : Value} :
    (sameKeys P heap).keyEqual a b = true ↔ SameKey heap a b := by
  classical exact decide_eq_true_iff

/-- A bound method, and numbers that are apart. -/
def someKeys (v : Value) : Prop :=
  v = .ofAddr 3 ∨ v = .integer 1 ∨ v = .real (0.5 : Float).toBits ∨ v = .real (0.25 : Float).toBits

theorem keys_lawful_someKeys :
    LawfulOn barePlatform (boundMethodHeap ⟨0, 0, 0, [], [], [], []⟩) someKeys := by
  refine (keys_lawful_iff (fun _ _ _ => rfl) ?_ ?_).mpr ⟨?_, ?_, ?_⟩
  · intro a receiver method h
    match a with
    | 0 | 1 | 2 => cases h
    | 3 =>
        cases h
        exact ⟨.heap 2, rfl, rfl⟩
    | n + 4 => cases h
  · rintro v (rfl | rfl | rfl | rfl)
    · exact ⟨.boundMethod, by decide, rfl⟩
    all_goals trivial
  · rintro x (h | h | h | h)
    · cases h
    · cases h
    all_goals
      cases h
      decide
  · rintro x y (hx | hx | hx | hx) (hy | hy | hy | hy) hclose
    all_goals first | (cases hx; done) | (cases hy; done) | (cases hx; cases hy)
    · exact .inl rfl
    · exact absurd hclose (by unfold IsClose; decide)
    · exact absurd hclose (by unfold IsClose; decide)
    · exact .inl rfl
  · rintro a o - (h | h | h | h) -
    · cases h
      rfl
    all_goals cases h

/-- The reals `1e-10` and `2e-10` are equal and have different hashes. -/
theorem keys_close_reals : ¬ ∀ (P : Platform) (heap : Heap) (K : Value → Prop),
    HashesPointers P → ReceiversAreInstances heap → (∀ v, K v → Hashable heap v) →
      LawfulOn P heap K := by
  intro h
  have hlawful := h barePlatform [] (fun v => ∃ x, v = .real x) (fun _ _ _ => rfl)
    (fun _ _ _ h => nomatch h) (by rintro v ⟨x, rfl⟩; trivial)
  have hhash := hlawful.hash (.real (1e-10 : Float).toBits) (.real (2e-10 : Float).toBits)
    ⟨_, rfl⟩ ⟨_, rfl⟩ (by decide)
  exact absurd hhash (by decide)

end Value

end CppLox
