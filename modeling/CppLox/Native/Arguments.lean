import CppLox.Container.Refinement
import CppLox.Native.Registration
import CppLox.VM.Run

/-!
# Native functions — what they read

A native function gets a pointer into the evaluation stack and the number of its arguments, so it
can read slots above its last argument.  All of them return the same for all contents of those
slots, with one exception: `append` reads the value it sets in a map also where it is called with
two arguments.
-/

namespace CppLox

open Native

/-- The slots a native function is called on: the callee, its arguments and what is above them. -/
def VM.arguments (vm : VM) (argCount : Nat) (i : Nat) : Value :=
  vm.stack (vm.stackTop - argCount - 1 + i)

/-- Two machines with the same heap, globals and slots `values[0]` to `values[argCount]`. -/
structure SameArguments (argCount : Nat) (vm vm' : VM) : Prop where
  heap : vm.heap = vm'.heap
  context : vm.context = vm'.context
  values : ∀ i ≤ argCount, vm.arguments argCount i = vm'.arguments argCount i

/-- The machine calls a native function with a number of arguments. -/
def NativeFunction.Takes (f : NativeFunction) (argCount : Nat) : Prop :=
  f.arity = -1 ∧ argCount ≤ 255 ∨ f.arity = argCount

variable (P : Platform) (E : Outside)

/-- The result of a call and its effect on the heap. -/
def NativeFunction.result (f : NativeFunction) (argCount : Nat) (vm : VM) : NativeResult :=
  f.call P E vm.heap argCount (vm.arguments argCount)

/-- A call returns the same on all machines with the same arguments. -/
def DependsOnArguments (f : NativeFunction) (argCount : Nat) (vm : VM) : Prop :=
  ∀ vm', SameArguments argCount vm vm' → f.result P E argCount vm' = f.result P E argCount vm

/-- `append` with two arguments, a map and a key that can be set in it. -/
def AppendsToMap (vm : VM) : Prop :=
  ∃ a table, vm.arguments 2 1 = .ofAddr a ∧ vm.heap[a]? = some (HeapObject.map table) ∧
    (vm.arguments 2 2).hashCode P vm.heap vm.heap.length ≠ -1 ∧
    (@HashMap.subscript Value Value (Value.hashKey P vm.heap) _ table (vm.arguments 2 2)).isSome

variable {P E} {heap : Heap}

/-! ### The slots of a call -/

/-- Two sequences of slots with the same values up to an index. -/
def AgreeUpTo (n : Nat) (values values' : Nat → Value) : Prop := ∀ i ≤ n, values i = values' i

theorem integerArgument_congr {argCount i : Nat} {values values' : Nat → Value}
    (h : AgreeUpTo argCount values values') :
    integerArgument argCount i values = integerArgument argCount i values' := by
  unfold integerArgument
  split
  · rename_i hi
    rw [h i hi]
  · rfl

theorem list_congr {argCount : Nat} {values values' : Nat → Value}
    (h : AgreeUpTo argCount values values') :
    Native.list heap argCount values = Native.list heap argCount values' := by
  have hdefault : (if 2 ≤ argCount then values 2 else .nil false) =
      if 2 ≤ argCount then values' 2 else .nil false := by
    split
    · rename_i hi
      exact h 2 hi
    · rfl
  unfold Native.list
  rw [integerArgument_congr h, integerArgument_congr h, hdefault]

theorem argumentTexts_congr {argCount : Nat} {values values' : Nat → Value}
    (h : AgreeUpTo argCount values values') :
    argumentTexts P heap argCount values = argumentTexts P heap argCount values' := by
  have hlist : argumentList argCount values = argumentList argCount values' :=
    List.map_congr_left fun i hi => h (i + 1) (List.mem_range.mp hi)
  unfold argumentTexts
  rw [hlist]

theorem printWith_congr {ending : Bytes} {argCount : Nat} {values values' : Nat → Value}
    (h : AgreeUpTo argCount values values') :
    printWith P ending heap argCount values = printWith P ending heap argCount values' := by
  unfold printWith
  rw [argumentTexts_congr h]

theorem getMap_congr {argCount : Nat} {values values' : Nat → Value}
    (h : AgreeUpTo argCount values values') :
    Native.getMap P heap argCount values = Native.getMap P heap argCount values' := by
  unfold Native.getMap
  by_cases hcount : argCount = 2 ∨ argCount = 3
  · have hdefault : (if argCount = 3 then values 3 else .nil false) =
        if argCount = 3 then values' 3 else .nil false := by
      split
      · rename_i hi
        exact h 3 (Nat.le_of_eq hi.symm)
      · rfl
    rw [hdefault, h 1 (by omega), h 2 (by omega)]
  · rw [if_pos hcount, if_pos hcount]

/-- `append` reads the slot above its arguments only for a map with two arguments. -/
theorem appendMap_congr {argCount : Nat} {values values' : Nat → Value}
    (h : AgreeUpTo argCount values values') (hread : argCount ≠ 2 ∨
      ∀ a table, values 1 = .ofAddr a → heap[a]? = some (HeapObject.map table) →
        setKey P heap a table (values 2) (values 3) =
          setKey P heap a table (values 2) (values' 3)) :
    Native.appendMap P heap argCount values = Native.appendMap P heap argCount values' := by
  by_cases hcount : argCount < 2
  · unfold Native.appendMap
    rw [if_pos hcount, if_pos hcount]
  unfold Native.appendMap
  rw [if_neg hcount, if_neg hcount, ← h 1 (by omega), ← h 2 (by omega)]
  split
  · rfl
  · rename_i table a hobject hv
    rw [hv] at hobject
    rcases Nat.lt_trichotomy argCount 2 with hlt | rfl | hgt
    · exact absurd hlt hcount
    · exact (hread.resolve_left (fun hne => hne rfl)) a table hv hobject
    · rw [h 3 hgt]
  · rfl

/-- A call with other contents of the slots above its arguments. -/
theorem call_congr (f : NativeFunction) {argCount : Nat} (htakes : f.Takes argCount)
    {values values' : Nat → Value} (h : AgreeUpTo argCount values values')
    (hread : f ≠ .appendMap ∨ argCount ≠ 2 ∨
      ∀ a table, values 1 = .ofAddr a → heap[a]? = some (HeapObject.map table) →
        setKey P heap a table (values 2) (values 3) =
          setKey P heap a table (values 2) (values' 3)) :
    f.call P E heap argCount values = f.call P E heap argCount values' := by
  have hunary : f.arity = 1 → values 1 = values' 1 := by
    intro harity
    rcases htakes with ⟨hminus, -⟩ | hcount
    · rw [harity] at hminus
      cases hminus
    · exact h 1 (by omega)
  have hbinary : f.arity = 2 → values 1 = values' 1 ∧ values 2 = values' 2 := by
    intro harity
    rcases htakes with ⟨hminus, -⟩ | hcount
    · rw [harity] at hminus
      cases hminus
    · exact ⟨h 1 (by omega), h 2 (by omega)⟩
  have hternary : f.arity = 3 → values 1 = values' 1 ∧ values 2 = values' 2 ∧
      values 3 = values' 3 := by
    intro harity
    rcases htakes with ⟨hminus, -⟩ | hcount
    · rw [harity] at hminus
      cases hminus
    · exact ⟨h 1 (by omega), h 2 (by omega), h 3 (by omega)⟩
  cases f
  case println => exact printWith_congr h
  case print => exact printWith_congr h
  case list => exact list_congr h
  case getMap => exact getMap_congr h
  case appendMap => exact appendMap_congr h (hread.resolve_left fun hne => hne rfl)
  case randint | assert | hasProperty | getProperty | delProperty | deleteMap | hasMap =>
    obtain ⟨h₁, h₂⟩ := hbinary rfl
    simp only [NativeFunction.call, h₁, h₂]
  case setProperty =>
    obtain ⟨h₁, h₂, h₃⟩ := hternary rfl
    simp only [NativeFunction.call, h₁, h₂, h₃]
  case len | exit | type | hash | isHashable | sqrt | toInt | toDouble | toString | popList
      | capList | keysMap | valuesMap | clearMap =>
    have h₁ := hunary rfl
    simp only [NativeFunction.call, h₁]
  all_goals rfl

/-! ### The value that append sets -/

section

variable [HashKey Value]

theorem insertSlot_lt {m m' : HashMap Value Value} {key v : Value} {i : Nat}
    (h : m.insertSlot key v = some (i, m')) : i < m'.slots.length := by
  rw [HashMap.insertSlot] at h
  obtain ⟨m₁, -, h⟩ := Option.bind_eq_some_iff.mp h
  obtain ⟨j, hj, h⟩ := Option.bind_eq_some_iff.mp h
  have hlt := (HashMap.findSlot_eq_some hj).1
  dsimp only at h
  split at h
  all_goals
    cases h
    simpa using hlt

theorem subscript_lt {m m' : HashMap Value Value} {key : Value} {i : Nat}
    (h : m.subscript key = some (i, m')) : i < m'.slots.length := by
  rw [HashMap.subscript, HashMap.getRef] at h
  split at h
  · exact insertSlot_lt h
  · obtain ⟨j, hj, h⟩ := Option.bind_eq_some_iff.mp h
    split at h
    · exact insertSlot_lt h
    · cases h
      exact (HashMap.findSlot_eq_some hj).1

theorem writeRef_inj {m : HashMap Value Value} {i : Nat} (hi : i < m.slots.length) {v v' : Value}
    (h : m.writeRef i v = m.writeRef i v') : v = v' := by
  have hslots := congrArg (fun t : HashMap Value Value => (HashMap.slotAt t.slots i).value) h
  simpa [HashMap.writeRef, HashMap.slotAt_set_self hi] using hslots

end

/-- Maps with different values for a key are different. -/
theorem setKey_inj {a : Addr} {table : HashMap Value Value} {key v v' : Value}
    (ha : heap[a]? = some (HeapObject.map table))
    (hhash : key.hashCode P heap heap.length ≠ -1)
    (hends : (@HashMap.subscript Value Value (Value.hashKey P heap) _ table key).isSome)
    (h : setKey P heap a table key v = setKey P heap a table key v') : v = v' := by
  let _ : HashKey Value := Value.hashKey P heap
  obtain ⟨⟨i, table'⟩, hsub⟩ := Option.isSome_iff_exists.mp hends
  have hset : ∀ v, setKey P heap a table key v =
      returns (heap.set a (.map (table'.writeRef i v))) (.nil false) := by
    intro v
    unfold setKey
    rw [if_neg hhash]
    dsimp only
    rw [hsub]
  rw [hset v, hset v'] at h
  have hheaps : heap.set a (.map (table'.writeRef i v)) =
      heap.set a (.map (table'.writeRef i v')) := congrArg NativeResult.heap h
  have hlt : a < heap.length := (List.getElem?_eq_some_iff.mp ha).1
  have hobjects := congrArg (fun l : Heap => l[a]?) hheaps
  simp only [List.getElem?_set_self hlt, Option.some.injEq, HeapObject.map.injEq] at hobjects
  exact writeRef_inj (subscript_lt hsub) hobjects

/-- A key that is not set leaves the value unread. -/
theorem setKey_congr {a : Addr} {table : HashMap Value Value} {key : Value}
    (h : key.hashCode P heap heap.length ≠ -1 →
      ¬ (@HashMap.subscript Value Value (Value.hashKey P heap) _ table key).isSome) (v v' : Value) :
    setKey P heap a table key v = setKey P heap a table key v' := by
  unfold setKey
  split
  · rfl
  · rename_i hhash
    dsimp only
    rw [Option.not_isSome_iff_eq_none.mp (h hhash)]

theorem exists_ne (v : Value) : ∃ v', v' ≠ v := by
  cases v with
  | nil b => exact ⟨.boolean b, nofun⟩
  | _ => exact ⟨.nil false, nofun⟩

/-- The slot above the arguments holds another value. -/
theorem sameArguments_setSlot (vm : VM) (argCount : Nat) (v : Value) :
    SameArguments argCount vm (vm.setSlot (vm.stackTop - argCount - 1 + (argCount + 1)) v) where
  heap := rfl
  context := rfl
  values i hi := by
    change _ = if _ = _ then v else _
    rw [if_neg (by show vm.stackTop - argCount - 1 + i ≠ _; omega)]
    rfl

theorem not_dependsOnArguments_append {vm : VM} (h : AppendsToMap P vm) :
    ¬ DependsOnArguments P E .appendMap 2 vm := by
  obtain ⟨a, table, hv, ha, hhash, hends⟩ := h
  intro hdepends
  obtain ⟨v', hne⟩ := exists_ne (vm.arguments 2 3)
  have hsame := sameArguments_setSlot vm 2 v'
  have hresult := hdepends _ hsame
  have hv' := (hsame.values 1 (by decide)).symm.trans hv
  have hslot : (vm.setSlot (vm.stackTop - 2 - 1 + 3) v').arguments 2 3 = v' := if_pos rfl
  change Native.appendMap P vm.heap 2 _ = Native.appendMap P vm.heap 2 _ at hresult
  rw [appendMap_map (Nat.le_refl 2) hv ha, appendMap_map (Nat.le_refl 2) hv' ha,
    ← hsame.values 2 (Nat.le_refl 2), hslot] at hresult
  exact hne (setKey_inj ha hhash hends hresult)

/-- **Native functions depend on their arguments only**, unless it is `append` with two arguments
that sets a key in a map: it reads a third one, from the slot above the arguments, which holds
whatever was there before.  The other functions read the slots that `arg_count` covers, and the heap
(`call_congr`, one case for each function). -/
theorem native_dependsOnArguments_iff (P : Platform) (E : Outside) (f : NativeFunction)
    (argCount : Nat) (vm : VM) (htakes : f.Takes argCount) :
    DependsOnArguments P E f argCount vm ↔
      ¬ (f = .appendMap ∧ argCount = 2 ∧ AppendsToMap P vm) := by
  constructor
  · rintro hdepends ⟨rfl, rfl, happends⟩
    exact not_dependsOnArguments_append happends hdepends
  · intro hread vm' hsame
    have hunread : f ≠ .appendMap ∨ argCount ≠ 2 ∨
        ∀ a table, vm.arguments argCount 1 = .ofAddr a →
          vm.heap[a]? = some (HeapObject.map table) →
          setKey P vm.heap a table (vm.arguments argCount 2) (vm.arguments argCount 3) =
            setKey P vm.heap a table (vm.arguments argCount 2) (vm'.arguments argCount 3) := by
      by_cases hf : f = .appendMap
      · by_cases hcount : argCount = 2
        · subst hcount
          refine .inr (.inr fun a table hv ha => setKey_congr (fun hhash hends => ?_) _ _)
          exact hread ⟨hf, rfl, a, table, hv, ha, hhash, hends⟩
        · exact .inr (.inl hcount)
      · exact .inl hf
    unfold NativeFunction.result
    rw [← hsame.heap]
    exact (call_congr f htakes hsame.values hunread).symm

/-- A machine about to call `append(x, 1)`. -/
def appendingVM (x : HeapObject) : VM :=
  { VM.initial with
    stack := fun i => if i = 1 then .ofAddr 0 else if i = 2 then .integer 1 else .nil false
    stackTop := 3
    heap := [x] }

/-- `append(l, 1)` of a list depends on its two arguments only. -/
theorem native_dependsOnArguments_append :
    DependsOnArguments barePlatform bareOutside .appendMap 2 (appendingVM (.list [.nil false])) := by
  refine (native_dependsOnArguments_iff barePlatform bareOutside .appendMap 2 _
    (.inl ⟨rfl, by decide⟩)).mpr ?_
  rintro ⟨-, -, a, table, hv, ha, -⟩
  cases (show Value.ofAddr 0 = .ofAddr a from hv)
  cases ha

/-- The value that `append(m, 1)` sets is the one above its arguments. -/
theorem append_reads_above : ¬ ∀ (P : Platform) (E : Outside) (f : NativeFunction) (argCount : Nat)
    (vm : VM), f.Takes argCount → DependsOnArguments P E f argCount vm := by
  intro hall
  have happends : AppendsToMap barePlatform (appendingVM (.map HashMap.empty)) :=
    ⟨0, HashMap.empty, rfl, rfl, by decide +kernel, by decide +kernel⟩
  exact not_dependsOnArguments_append happends
    (hall barePlatform bareOutside .appendMap 2 _ (.inl ⟨rfl, by decide⟩))

end CppLox
