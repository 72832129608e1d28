import CppLox.Native.Result

/-!
# Native functions — lists and maps

`src/native/map.cpp`.  Four of the functions are for lists as well as for maps.  The search for a key is
undefined behaviour where it compares a bound method with an object of another kind.
-/

namespace CppLox

namespace Native

/-- The list branch of `native_delete_map`.  A negative index is not erased by
`ObjectList::erase`. -/
def deleteElement (heap : Heap) (a : Addr) (values : List Value) : Value → NativeResult
  | .integer index =>
    if index.toInt ≥ values.length then
      .failed heap
        (.runtimeError (some "error while calling delete(list,index) index out of bounds"))
    else if 0 ≤ index.toInt then
      .value (.nil false) (heap.set a (.list (values.eraseIdx index.toInt.toNat))) []
    else .value (.nil false) heap []
  | _ => .failed heap (.runtimeError (some "second argument to delete() must be an integer "))

/-- The map branch of `native_delete_map`. -/
def deleteKey (P : Platform) (heap : Heap) (a : Addr) (table : HashMap Value Value) (key : Value) :
    NativeResult :=
  let _ : HashKey Value := Value.hashKey P heap
  match table.erase key with
  | some (removed, table) => .value (.boolean removed) (heap.set a (.map table)) []
  | none => .failed heap .undefined

/-- `native_delete_map` on its two arguments. -/
def deleteMap (P : Platform) (heap : Heap) (target key : Value) : NativeResult :=
  match target.heapObject heap, target with
  | some (.list values), .object (.heap a) => deleteElement heap a values key
  | some (.map table), .object (.heap a) => deleteKey P heap a table key
  | _, _ => .failed heap (.runtimeError (some "first argument to delete() must be a list or map"))

theorem addsPlain_deleteMap (P : Platform) (heap : Heap) (target key : Value) :
    heap.AddsPlain (deleteMap P heap target key).heap := by
  unfold deleteMap
  split
  · unfold deleteElement
    split
    · split
      · exact .refl heap
      · split
        · exact .set rfl
        · exact .refl heap
    · exact .refl heap
  · unfold deleteKey
    dsimp only
    split
    · exact .set rfl
    · exact .refl heap
  · exact .refl heap

/-- The native function `delete`. -/
def delete (P : Platform) : Native where
  name := ascii ['d', 'e', 'l', 'e', 't', 'e']
  arity := 2
  function heap _ values := deleteMap P heap (values 1) (values 2)
  addsPlain heap _ values := addsPlain_deleteMap P heap (values 1) (values 2)

/-! ### append -/

/-- A key and a value that are set in a map by `append`; `false` of `ObjectMap::set` is not looked
at. -/
def setKey (P : Platform) (heap : Heap) (a : Addr) (table : HashMap Value Value) (key v : Value) :
    NativeResult :=
  if key.hashCode P heap heap.length = -1 then
    reports heap "unhashable type: lists and maps cannot be used as map keys"
  else
    let _ : HashKey Value := Value.hashKey P heap
    match table.subscript key with
    | some (i, table) => returns (heap.set a (.map (table.writeRef i v))) (.nil false)
    | none => .failed heap .undefined

/-- `native_append_map`.  The value that is set in a map is read whatever `arg_count` is. -/
def appendMap (P : Platform) (heap : Heap) (argCount : Nat) (values : Nat → Value) : NativeResult :=
  if argCount < 2 then
    reports heap "too few arguments to call append(), expected either 2 or 3 arguments"
  else
    match (values 1).heapObject heap, values 1 with
    | some (.list elements), .object (.heap a) =>
      if argCount ≠ 2 then
        reports heap ("too many arguments to call append(list), expected 2 arguments, got " ++
          toString argCount ++ " arguments")
      else returns (heap.set a (.list (elements ++ [values 2]))) (.nil false)
    | some (.map table), .object (.heap a) => setKey P heap a table (values 2) (values 3)
    | _, _ =>
      if argCount ≠ 3 then
        reports heap ("too many arguments to call append(map), expected 3 arguments, got " ++
          toString argCount ++ " arguments")
      else reports heap "first argument to append() must be a list or map"

theorem appendMap_map {P : Platform} {heap : Heap} {a : Addr} {table : HashMap Value Value} {argCount : Nat}
    {values : Nat → Value} (hcount : 2 ≤ argCount) (hv : values 1 = .ofAddr a)
    (ha : heap[a]? = some (HeapObject.map table)) :
    appendMap P heap argCount values = setKey P heap a table (values 2) (values 3) := by
  unfold appendMap
  rw [if_neg (Nat.not_lt.mpr hcount), hv]
  simp only [Value.ofAddr, Value.heapObject, ha]

/-! ### The other functions -/

/-- `native_map`. -/
def newMap (heap : Heap) : NativeResult :=
  returns (heap ++ [.map HashMap.empty]) (.ofAddr heap.length)

/-- What is done with the table of a map. -/
def withMap (heap : Heap) (message : String) (v : Value)
    (result : Addr → HashMap Value Value → NativeResult) : NativeResult :=
  match v.heapObject heap, v with
  | some (.map table), .object (.heap a) => result a table
  | _, _ => reports heap message

/-- A new list. -/
def returnsList (heap : Heap) (values : List Value) : NativeResult :=
  returns (heap ++ [.list values]) (.ofAddr heap.length)

/-- `native_keys_map`. -/
def keysMap (heap : Heap) (v : Value) : NativeResult :=
  withMap heap "argument to keys() must be a map" v fun _ table =>
    returnsList heap (table.entries.map Prod.fst)

/-- `native_values_map`. -/
def valuesMap (heap : Heap) (v : Value) : NativeResult :=
  withMap heap "argument to values() must be a map" v fun _ table =>
    returnsList heap (table.entries.map Prod.snd)

/-- `native_has_map`. -/
def hasMap (P : Platform) (heap : Heap) (v key : Value) : NativeResult :=
  withMap heap "first argument to has() must be a map" v fun _ table =>
    let _ : HashKey Value := Value.hashKey P heap
    match table.contains key with
    | some found => returns heap (.boolean found)
    | none => .failed heap .undefined

/-- `native_clear_map`. -/
def clearMap (heap : Heap) (v : Value) : NativeResult :=
  match v.heapObject heap, v with
  | some (.map _), .object (.heap a) => returns (heap.set a (.map HashMap.empty)) (.nil false)
  | some (.list _), .object (.heap a) => returns (heap.set a (.list [])) (.nil false)
  | _, _ => reports heap "argument to clear() must be a map or list"

/-- `native_get_map`. -/
def getMap (P : Platform) (heap : Heap) (argCount : Nat) (values : Nat → Value) : NativeResult :=
  let default_ := if argCount = 3 then values 3 else .nil false
  if ¬ (argCount = 2 ∨ argCount = 3) then
    reports heap ("too many arguments to call get(map, key, default), expected either 2 or " ++
      "3 arguments, got " ++ toString argCount)
  else
    withMap heap "first argument to get() must be a map" (values 1) fun _ table =>
      let _ : HashKey Value := Value.hashKey P heap
      match table.get (values 2) with
      | some found => returns heap (found.getD default_)
      | none => .failed heap .undefined

/-! ### The heap -/

theorem addsPlain_setKey (P : Platform) (heap : Heap) (a : Addr) (table : HashMap Value Value)
    (key v : Value) : heap.AddsPlain (setKey P heap a table key v).heap := by
  unfold setKey
  split
  · exact .refl heap
  · dsimp only
    split
    · exact .set rfl
    · exact .refl heap

theorem addsPlain_appendMap (P : Platform) (heap : Heap) (argCount : Nat) (values : Nat → Value) :
    heap.AddsPlain (appendMap P heap argCount values).heap := by
  unfold appendMap
  split
  · exact .refl heap
  · split
    · split
      · exact .refl heap
      · exact .set rfl
    · exact addsPlain_setKey P heap _ _ _ _
    · split
      · exact .refl heap
      · exact .refl heap

theorem addsPlain_withMap {heap : Heap} {message : String} {v : Value}
    {result : Addr → HashMap Value Value → NativeResult}
    (h : ∀ a table, heap.AddsPlain (result a table).heap) :
    heap.AddsPlain (withMap heap message v result).heap := by
  unfold withMap
  split
  · exact h _ _
  · exact .refl heap

theorem addsPlain_hasMap (P : Platform) (heap : Heap) (v key : Value) :
    heap.AddsPlain (hasMap P heap v key).heap := by
  refine addsPlain_withMap fun _ table => ?_
  dsimp only
  split <;> exact .refl heap

theorem addsPlain_clearMap (heap : Heap) (v : Value) : heap.AddsPlain (clearMap heap v).heap := by
  unfold clearMap
  split
  · exact .set rfl
  · exact .set rfl
  · exact .refl heap

theorem addsPlain_getMap (P : Platform) (heap : Heap) (argCount : Nat) (values : Nat → Value) :
    heap.AddsPlain (getMap P heap argCount values).heap := by
  unfold getMap
  dsimp only
  split
  · exact .refl heap
  · refine addsPlain_withMap fun _ table => ?_
    split <;> exact .refl heap

end Native

end CppLox
