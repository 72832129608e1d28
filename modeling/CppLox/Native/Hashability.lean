import CppLox.Container.Room
import CppLox.Native.Registration
import CppLox.VM.MapLiterals

/-!
# Native functions — hashability

`-1` is the hash of lists and maps and of no other value.  The native functions `hash` and
`is_hashable`, and the four ways to set a key in a map (`STORE_INDEX`, `MAP`, `MAP_ADD`, `append`),
test for it on their own.  They agree on the other values; on lists and maps `is_hashable` fails
where it should return `false`.
-/

namespace CppLox

open Native HashMap

namespace Value

/-- A list or a map. -/
def IsContainer (heap : Heap) (v : Value) : Prop :=
  ∃ a, v = .ofAddr a ∧ ((∃ values, heap[a]? = some (HeapObject.list values)) ∨
    ∃ table, heap[a]? = some (HeapObject.map table))

/-! ### The sentinel -/

theorem hashPointer_ne (P : Platform) (o : Object) : P.hashPointer o ≠ -1 := by
  unfold Platform.hashPointer
  split
  · decide
  · assumption

theorem hashDouble_ne (bits : UInt64) : hashDouble bits ≠ -1 := by
  unfold hashDouble
  dsimp only
  split
  · decide
  · split
    · decide
    · exact hashInt_ne _

/-- The hash of a string has 32 bits. -/
theorem hashString_ne (s : Bytes) : (Memory.hashString s).toUInt64.toInt64 ≠ -1 :=
  (MapKey.string 0 s).hashCode_ne

/-- The hash of an object in the heap. -/
theorem hashCode_object (P : Platform) {heap : Heap} {a : Addr} {object : HeapObject}
    (ha : heap[a]? = some object) (hlist : ∀ values, object ≠ .list values)
    (hmap : ∀ table, object ≠ .map table) (fuel : Nat) :
    (Value.ofAddr a).hashCode P heap fuel ≠ -1 := by
  rw [Value.ofAddr, hashCode.eq_def]
  dsimp only
  rw [ha]
  cases object with
  | list values => exact absurd rfl (hlist values)
  | map table => exact absurd rfl (hmap table)
  | boundMethod receiver method =>
      cases fuel with
      | zero => exact hashPointer_ne P _
      | succ fuel =>
          dsimp only
          split
          · exact hashPointer_ne P _
          · exact hashInt_ne _
  | _ => exact hashPointer_ne P _

/-- `-1` is the hash of lists and maps only. -/
theorem hashCode_eq_iff (P : Platform) (heap : Heap) (fuel : Nat) (v : Value) :
    v.hashCode P heap fuel = -1 ↔ v.IsContainer heap := by
  constructor
  · intro h
    cases v with
    | nil b =>
        rw [hashCode.eq_def] at h
        exact absurd (show (0xDEADC0DE : Int64) = -1 from h) (by decide)
    | boolean b =>
        rw [hashCode.eq_def] at h
        have hbit : (if b then 1 else 0 : Int64) = -1 := h
        cases b <;> exact absurd hbit (by decide)
    | real bits =>
        rw [hashCode.eq_def] at h
        exact absurd h (hashDouble_ne bits)
    | integer i =>
        rw [hashCode.eq_def] at h
        exact absurd h (hashInt_ne i)
    | object o =>
        cases o with
        | string s =>
            rw [hashCode.eq_def] at h
            exact absurd h (hashString_ne s)
        | function f =>
            rw [hashCode.eq_def] at h
            exact absurd h (hashPointer_ne P _)
        | native i =>
            rw [hashCode.eq_def] at h
            exact absurd h (hashPointer_ne P _)
        | heap a =>
            cases ha : heap[a]? with
            | none =>
                rw [hashCode.eq_def] at h
                dsimp only at h
                rw [ha] at h
                exact absurd h (hashPointer_ne P _)
            | some object =>
                refine ⟨a, rfl, ?_⟩
                by_contra hneither
                refine hashCode_object P ha (fun values hlist => ?_) (fun table hmap => ?_) fuel h
                · exact hneither (.inl ⟨values, hlist ▸ ha⟩)
                · exact hneither (.inr ⟨table, hmap ▸ ha⟩)
  · rintro ⟨a, rfl, ⟨values, ha⟩ | ⟨table, ha⟩⟩
    · rw [Value.ofAddr, hashCode.eq_def]
      dsimp only
      rw [ha]
    · rw [Value.ofAddr, hashCode.eq_def]
      dsimp only
      rw [ha]

end Value

variable (P : Platform) (E : Outside)

/-- The table of a map in which a key is set. -/
def storedIn (heap : Heap) (table : HashMap Value Value) (key v : Value) :
    Option (HashMap Value Value) :=
  @HashMap.store Value Value _ (Value.hashKey P heap) table key v

/-- The searches for setting a key in a map end: on their way no bound method is compared with an
object of another kind. -/
def SearchesEnd (heap : Heap) (table : HashMap Value Value) (key : Value) : Prop :=
  @HashMap.SubscriptEnds Value Value (Value.hashKey P heap) _ table key

/-- `hash` and `is_hashable` succeed on a value, and it can be set as a key of a map. -/
structure AcceptedAsKey (heap : Heap) (table : HashMap Value Value) (key : Value) : Prop where
  hash : ∀ values : Nat → Value, values 1 = key → NativeFunction.hash.call P E heap 1 values =
    returns heap (.integer (key.hashCode P heap heap.length))
  isHashable : ∀ values : Nat → Value, values 1 = key →
    NativeFunction.isHashable.call P E heap 1 values = returns heap (.boolean true)
  storeIndex : ∀ (vm : VM) a v, vm.heap = heap → heap[a]? = some (HeapObject.map table) →
    vm.OnTop [v, key, .ofAddr a] → vm.stackTop ≤ P.capacity →
    ∃ table', storedIn P heap table key v = some table' ∧ VM.executeStoreIndex P vm =
      .done () ({ vm with heap := heap.set a (.map table') }.replaceTop 3 v)
  append : ∀ a (values : Nat → Value), heap[a]? = some (HeapObject.map table) →
    values 1 = .ofAddr a → values 2 = key →
    ∃ table', storedIn P heap table key (values 3) = some table' ∧
      NativeFunction.appendMap.call P E heap 3 values =
        returns (heap.set a (.map table')) (.nil false)
  map : ∀ (vm : VM) n v, vm.heap = heap → vm.OnTop [v, key] →
    ∃ table', storedIn P heap table key v = some table' ∧ VM.popEntries P (n + 1) table vm =
      VM.popEntries P n table' { vm with stackTop := vm.stackTop - 2 }
  mapAdd : ∀ (vm : VM) a v, vm.heap = heap → heap[a]? = some (HeapObject.map table) →
    vm.OnTop [v, key, .ofAddr a] →
    ∃ table', storedIn P heap table key v = some table' ∧
      VM.executeMapAdd P vm = .done () (vm.mapAdded a table')

/-- A routine ends in `RUNTIME_ERROR` and leaves the heap as it is. -/
def FailsWithHeap {α : Type} (m : VMM α) (vm : VM) : Prop :=
  ∃ message vm', m vm = .stopped (.runtimeError (some message)) vm' ∧ vm'.heap = vm.heap

/-- `hash` fails on a value, and so does every attempt to set it as a key. -/
structure RefusedAsKey (heap : Heap) (key : Value) : Prop where
  hash : ∀ values : Nat → Value, values 1 = key →
    ∃ message, NativeFunction.hash.call P E heap 1 values = reports heap message
  storeIndex : ∀ (vm : VM) a table v, vm.heap = heap → heap[a]? = some (HeapObject.map table) →
    vm.OnTop [v, key, .ofAddr a] → FailsWithHeap (VM.executeStoreIndex P) vm
  append : ∀ a table (values : Nat → Value), heap[a]? = some (HeapObject.map table) →
    values 1 = .ofAddr a → values 2 = key →
    ∃ message, NativeFunction.appendMap.call P E heap 3 values = reports heap message
  map : ∀ (vm : VM) n table v, vm.heap = heap → vm.OnTop [v, key] →
    FailsWithHeap (VM.popEntries P (n + 1) table) vm
  mapAdd : ∀ (vm : VM) a table v, vm.heap = heap → heap[a]? = some (HeapObject.map table) →
    vm.OnTop [v, key, .ofAddr a] → FailsWithHeap (VM.executeMapAdd P) vm

/-- The notions of hashability agree on a value that is used with a map. -/
structure HashabilityAgrees (heap : Heap) (table : HashMap Value Value) (v : Value) : Prop where
  sentinel : v.hashCode P heap heap.length = -1 ↔ v.IsContainer heap
  accepted : ¬ v.IsContainer heap → AcceptedAsKey P E heap table v
  refused : v.IsContainer heap → RefusedAsKey P E heap v
  isHashable : v.IsContainer heap → ∀ values : Nat → Value, values 1 = v →
    NativeFunction.isHashable.call P E heap 1 values = returns heap (.boolean false)

variable {P E} {heap : Heap} {table : HashMap Value Value} {key : Value}

/-! ### Keys that are set -/

theorem storedIn_isSome_iff {v : Value} :
    (storedIn P heap table key v).isSome ↔ SearchesEnd P heap table key := by
  unfold storedIn HashMap.store
  rw [Option.isSome_map]
  exact @subscript_isSome_iff Value Value (Value.hashKey P heap) _ table key

theorem exists_storedIn (h : SearchesEnd P heap table key) (v : Value) :
    ∃ table', storedIn P heap table key v = some table' :=
  Option.isSome_iff_exists.mp (storedIn_isSome_iff.mpr h)

theorem executeStoreIndex_map {vm : VM} {a : Addr} {table : HashMap Value Value} {v : Value}
    (ha : vm.heap[a]? = some (HeapObject.map table)) (htop : vm.OnTop [v, key, .ofAddr a]) :
    VM.executeStoreIndex P vm = VM.storeKey P a table vm := by
  unfold VM.executeStoreIndex
  rw [VMM.bind_of_done (VM.peek_apply htop (i := 2) rfl),
    VMM.bind_of_done (VM.objectOf_apply _ vm), VM.heapObject_ofAddr, ha]
  rfl

theorem storeIndex_accepts {vm : VM} {a : Addr} {table table' : HashMap Value Value} {v : Value}
    (hhash : key.hashCode P vm.heap vm.heap.length ≠ -1)
    (ha : vm.heap[a]? = some (HeapObject.map table)) (htop : vm.OnTop [v, key, .ofAddr a])
    (hcap : vm.stackTop ≤ P.capacity) (hstore : storedIn P vm.heap table key v = some table') :
    VM.executeStoreIndex P vm =
      .done () ({ vm with heap := vm.heap.set a (.map table') }.replaceTop 3 v) := by
  rw [executeStoreIndex_map ha htop]
  unfold VM.storeKey
  rw [VMM.bind_of_done (VM.peek_apply htop (i := 1) rfl),
    VMM.bind_of_done (VM.peek_apply htop (i := 0) rfl),
    VMM.bind_of_done (VM.mapSet_apply hhash hstore)]
  have htop' : ({ vm with heap := vm.heap.set a (.map table') } : VM).OnTop [v, key, .ofAddr a] :=
    ⟨htop.length, htop.slot⟩
  refine (VMM.bind_of_done (show VM.setObject a _ vm = .done () _ from rfl) _).trans ?_
  exact VM.pop_pop_pop_push P htop' hcap

theorem append_accepts {a : Addr} {table table' : HashMap Value Value} {v : Value}
    (hhash : key.hashCode P heap heap.length ≠ -1)
    (hstore : storedIn P heap table key v = some table') :
    setKey P heap a table key v = returns (heap.set a (.map table')) (.nil false) := by
  let _ : HashKey Value := Value.hashKey P heap
  obtain ⟨⟨i, table₁⟩, hsub, rfl⟩ := Option.map_eq_some_iff.mp hstore
  unfold setKey
  rw [if_neg hhash]
  dsimp only
  rw [hsub]

theorem map_accepts {vm : VM} {n : Nat} {table table' : HashMap Value Value} {v : Value}
    (hhash : key.hashCode P vm.heap vm.heap.length ≠ -1) (htop : vm.OnTop [v, key])
    (hstore : storedIn P vm.heap table key v = some table') :
    VM.popEntries P (n + 1) table vm =
      VM.popEntries P n table' { vm with stackTop := vm.stackTop - 2 } := by
  rw [VM.popEntries]
  rw [VMM.bind_of_done (VM.peek_apply htop (i := 1) rfl),
    VMM.bind_of_done (VM.peek_apply htop (i := 0) rfl),
    VMM.bind_of_done (VM.mapSet_apply hhash hstore)]
  refine (VMM.bind_of_done (VM.pop_apply htop) _).trans ?_
  exact VMM.bind_of_done (VM.pop_apply htop.tail) _

theorem acceptedAsKey_of_hash (hhash : key.hashCode P heap heap.length ≠ -1)
    (hends : SearchesEnd P heap table key) : AcceptedAsKey P E heap table key where
  hash := by
    rintro values rfl
    exact if_neg hhash
  isHashable := by
    rintro values rfl
    exact if_neg hhash
  storeIndex := by
    rintro vm a v rfl ha htop hcap
    obtain ⟨table', hstore⟩ := exists_storedIn hends v
    exact ⟨table', hstore, storeIndex_accepts hhash ha htop hcap hstore⟩
  append := by
    rintro a values ha hv rfl
    obtain ⟨table', hstore⟩ := exists_storedIn hends (values 3)
    exact ⟨table', hstore, (appendMap_map (by decide) hv ha).trans (append_accepts hhash hstore)⟩
  map := by
    rintro vm n v rfl htop
    obtain ⟨table', hstore⟩ := exists_storedIn hends v
    exact ⟨table', hstore, map_accepts hhash htop hstore⟩
  mapAdd := by
    rintro vm a v rfl ha htop
    obtain ⟨table', hstore⟩ := exists_storedIn hends v
    exact ⟨table', hstore, VM.executeMapAdd_apply htop ha hhash hstore⟩

/-- A machine about to put a key with nil in a map. -/
def settingVM (heap : Heap) (key : Value) : VM :=
  { VM.initial with
    stack := fun i => if i = 0 then key else .nil false
    stackTop := 2
    heap := heap }

/-- A key that is accepted is stored. -/
theorem AcceptedAsKey.searchesEnd (h : AcceptedAsKey P E heap table key) :
    SearchesEnd P heap table key := by
  have htop : (settingVM heap key).OnTop [.nil false, key] := by
    refine ⟨Nat.le_refl 2, fun i v hi => ?_⟩
    match i with
    | 0 | 1 =>
        cases hi
        rfl
    | i + 2 => cases hi
  obtain ⟨table', hstore, -⟩ := h.map (settingVM heap key) 0 (.nil false) rfl htop
  exact storedIn_isSome_iff.mp (Option.isSome_of_eq_some hstore)

/-! ### Keys that are refused -/

theorem mapSet_refuses {vm : VM} {table : HashMap Value Value} {v : Value}
    (hhash : key.hashCode P vm.heap vm.heap.length = -1) :
    VM.mapSet P table key v vm = .done (false, table) vm := by
  unfold VM.mapSet
  exact congrFun (if_pos hhash) vm

/-- A list or a map is refused as a key.  `STORE_INDEX` puts its text in the message. -/
theorem refusedAsKey_of_hash (hhash : key.hashCode P heap heap.length = -1)
    (hprints : key.NotCyclic heap) : RefusedAsKey P E heap key where
  hash := by
    rintro values rfl
    exact ⟨_, if_pos hhash⟩
  storeIndex := by
    rintro vm a table v rfl ha htop
    obtain ⟨text, htext⟩ :=
      Option.isSome_iff_exists.mp ((Value.isSome_toString_iff (P := P) key).mpr hprints)
    have hkey : VM.keyText P key vm = .done (VM.quoted text) vm :=
      (VMM.bind_of_done (toText_apply htext) _).trans rfl
    refine ⟨"Runtime error: Key '" ++ VM.quoted text ++
      "' is of unhashable type, and cannot be used to set map value", vm, ?_, rfl⟩
    rw [executeStoreIndex_map ha htop]
    unfold VM.storeKey
    rw [VMM.bind_of_done (VM.peek_apply htop (i := 1) rfl),
      VMM.bind_of_done (VM.peek_apply htop (i := 0) rfl),
      VMM.bind_of_done (mapSet_refuses hhash)]
    exact (VMM.bind_of_done hkey _).trans rfl
  append := by
    rintro a table values ha hv rfl
    exact ⟨_, (appendMap_map (by decide) hv ha).trans (if_pos hhash)⟩
  map := by
    rintro vm n table v rfl htop
    refine ⟨"unhashable type used as map key", vm, ?_, rfl⟩
    rw [VM.popEntries, VMM.bind_of_done (VM.peek_apply htop (i := 1) rfl),
      VMM.bind_of_done (VM.peek_apply htop (i := 0) rfl),
      VMM.bind_of_done (mapSet_refuses hhash)]
    rfl
  mapAdd := by
    rintro vm a table v rfl ha htop
    refine ⟨"unhashable type used as map key", vm, ?_, rfl⟩
    unfold VM.executeMapAdd
    rw [VMM.bind_of_done (VM.peek_apply htop (i := 2) rfl),
      VMM.bind_of_done (VM.objectOf_apply _ vm), VM.heapObject_ofAddr, ha]
    refine (VMM.bind_of_done (VM.peek_apply htop (i := 1) rfl) _).trans ?_
    refine (VMM.bind_of_done (VM.peek_apply htop (i := 0) rfl) _).trans ?_
    exact (VMM.bind_of_done (mapSet_refuses hhash) _).trans rfl

/-- `is_hashable` reports nothing and returns no value for a list or a map. -/
theorem isHashable_container (hhash : key.hashCode P heap heap.length = -1) :
    Native.isHashable P heap key = .failed heap (.runtimeError none) := if_pos hhash

/-- **When the notions of hashability agree.**  They do exactly when the value is neither a list nor a
map, and the searches for it in the map end.  The first condition is about `is_hashable`, which fails on
lists and maps where it should return `false`; the second about `Value::operator==`, which reads the
members of a bound method from whatever object it is compared with. -/
theorem hashability_agrees_iff (P : Platform) (E : Outside) (heap : Heap)
    (table : HashMap Value Value) (v : Value) :
    HashabilityAgrees P E heap table v ↔ ¬ v.IsContainer heap ∧ SearchesEnd P heap table v := by
  have hne : ¬ v.IsContainer heap → v.hashCode P heap heap.length ≠ -1 :=
    fun hnot h => hnot ((Value.hashCode_eq_iff P heap heap.length v).mp h)
  constructor
  · intro h
    have hnot : ¬ v.IsContainer heap := by
      intro hcontainer
      have hhash := (Value.hashCode_eq_iff P heap heap.length v).mpr hcontainer
      have hfalse := h.isHashable hcontainer (fun _ => v) rfl
      change Native.isHashable P heap v = _ at hfalse
      rw [isHashable_container hhash] at hfalse
      cases hfalse
    exact ⟨hnot, (h.accepted hnot).searchesEnd⟩
  · rintro ⟨hnot, hends⟩
    exact ⟨Value.hashCode_eq_iff P heap heap.length v, fun _ => acceptedAsKey_of_hash (hne hnot) hends,
      fun h => absurd h hnot, fun h => absurd h hnot⟩

/-- `is_hashable([])` fails. -/
theorem isHashable_empty_list : ¬ ∀ (P : Platform) (E : Outside) (heap : Heap)
    (table : HashMap Value Value) (v : Value), HashabilityAgrees P E heap table v := by
  intro hall
  have hfalse := (hall barePlatform bareOutside [.list []] HashMap.empty (.ofAddr 0)).isHashable
    ⟨0, rfl, .inl ⟨[], rfl⟩⟩ (fun _ => .ofAddr 0) rfl
  change Native.isHashable barePlatform [.list []] (.ofAddr 0) = _ at hfalse
  rw [isHashable_container (by decide)] at hfalse
  cases hfalse

/-! ### Maps without bound methods -/

/-- A value whose comparison with another one reads no member of that one. -/
def Value.ComparesPointers (heap : Heap) (v : Value) : Prop :=
  ∀ t ∈ Value.readsOperand, v.objectType heap ≠ some t

theorem Value.comparable_of_comparesPointers {a b : Value} (ha : a.ComparesPointers heap) :
    (Value.hashKey P heap).comparable a b = true := by
  change (Value.equals heap heap.length a b).isSome = true
  cases a with
  | object o =>
      cases b with
      | object o' => rw [Value.equals_pointer heap.length ha]; rfl
      | _ => rw [Value.equals.eq_def]; rfl
  | _ => cases b <;> rw [Value.equals.eq_def] <;> rfl

/-- In a map with room no search fails unless a bound method is a key. -/
theorem searchEnds_of_comparesPointers (hroomy : table.Roomy) (hsize : table.size ≠ 0)
    (hkeys : ∀ slot ∈ table.slots, slot.key.ComparesPointers heap) (hkey : key.ComparesPointers heap) :
    @HashMap.SearchEnds Value Value (Value.hashKey P heap) _ table.slots key :=
  let _ : HashKey Value := Value.hashKey P heap
  Roomy.searchEnds (S := Value.ComparesPointers heap) nofun
    (fun _ _ ha _ => Value.comparable_of_comparesPointers ha) hroomy hsize hkeys hkey

theorem searchesEnd_of_comparesPointers (hroomy : table.Roomy)
    (hkeys : ∀ slot ∈ table.slots, slot.key.ComparesPointers heap) (hkey : key.ComparesPointers heap) :
    SearchesEnd P heap table key :=
  let _ : HashKey Value := Value.hashKey P heap
  Roomy.subscriptEnds (S := Value.ComparesPointers heap) nofun
    (fun _ _ ha _ => Value.comparable_of_comparesPointers ha) hroomy hkeys hkey

end CppLox
