import CppLox.Native.Registration
import CppLox.VM.RelabelledInstructions

/-!
# Native functions — the heap under other labels

The native functions commute with a relabelling of the heap and of their arguments: they do not look
into functions either.
-/

namespace CppLox

open HashMap

variable {ρ : Relabelling} {P P' : Platform}

namespace Native

variable (heap : Heap)

theorem relabel_ite {c : Prop} [Decidable c] {r s r' s' : NativeResult} (h : r' = r.relabel ρ)
    (h' : s' = s.relabel ρ) : (if c then r' else s') = (if c then r else s).relabel ρ := by
  split
  · exact h
  · exact h'

theorem relabel_withText (hP : P.Readdresses ρ P') (v : Value) {result result' : Bytes → NativeResult}
    (h : ∀ text, result' text = (result text).relabel ρ) :
    withText P' (heap.relabel ρ) (v.relabel ρ) result' = (withText P heap v result).relabel ρ := by
  unfold withText
  rw [Heap.length_relabel, Value.toString_relabel _ _ hP]
  cases v.toString P heap (heap.length + 1) with
  | none => rfl
  | some text => exact h text

/-! ### stdlib.cpp, stdio.cpp, string.cpp, test.cpp and math.cpp -/

theorem relabel_exit (v : Value) :
    exit (heap.relabel ρ) (v.relabel ρ) = (exit heap v).relabel ρ := by
  cases v <;> rfl

theorem relabel_type (v : Value) :
    type (heap.relabel ρ) (v.relabel ρ) = (type heap v).relabel ρ := by
  cases v with
  | object o => cases o with
    | heap a =>
        dsimp only [type, Value.relabel, Object.relabel]
        rw [Heap.getElem?_relabel]
        cases heap[a]? with
        | none => rfl
        | some object => cases object <;> rfl
    | _ => rfl
  | _ => rfl

theorem relabel_len (v : Value) : len (heap.relabel ρ) (v.relabel ρ) = (len heap v).relabel ρ := by
  unfold len
  rw [Value.heapObject_relabel]
  cases v.heapObject heap with
  | none => cases v with
    | object o => cases o <;> rfl
    | _ => rfl
  | some object => cases object with
    | list values =>
        dsimp only [Option.map, HeapObject.relabel]
        rw [List.length_map]
        rfl
    | map table => rfl
    | _ => cases v with
      | object o => cases o <;> rfl
      | _ => rfl

theorem relabel_hash (hP : P.Readdresses ρ P') (v : Value) :
    hash P' (heap.relabel ρ) (v.relabel ρ) = (hash P heap v).relabel ρ := by
  unfold hash
  rw [Heap.length_relabel, Value.hashCode_relabel _ _ hP]
  exact relabel_ite rfl rfl

theorem relabel_isHashable (hP : P.Readdresses ρ P') (v : Value) :
    isHashable P' (heap.relabel ρ) (v.relabel ρ) = (isHashable P heap v).relabel ρ := by
  unfold isHashable
  rw [Heap.length_relabel, Value.hashCode_relabel _ _ hP]
  exact relabel_ite rfl rfl

theorem relabel_printWith (hP : P.Readdresses ρ P') (ending : Bytes) (argCount : Nat)
    (values : Nat → Value) :
    printWith P' ending (heap.relabel ρ) argCount (fun i => (values i).relabel ρ) =
      (printWith P ending heap argCount values).relabel ρ := by
  have htexts : argumentTexts P' (heap.relabel ρ) argCount (fun i => (values i).relabel ρ) =
      argumentTexts P heap argCount values := by
    unfold argumentTexts argumentList
    rw [List.mapM_map, List.mapM_map, Heap.length_relabel]
    simp only [Function.comp_def, Value.toString_relabel _ _ hP]
  unfold printWith
  rw [htexts]
  cases argumentTexts P heap argCount values <;> rfl

theorem relabel_toString (hP : P.Readdresses ρ P') (v : Value) :
    toString P' (heap.relabel ρ) (v.relabel ρ) = (toString P heap v).relabel ρ := by
  have htext : ∀ v, withText P' (heap.relabel ρ) (v.relabel ρ)
      (fun text => returns (heap.relabel ρ) (.ofString text)) =
        (withText P heap v fun text => returns heap (.ofString text)).relabel ρ :=
    fun v => relabel_withText heap hP v fun _ => rfl
  cases v with
  | object o => cases o with
    | string s => rfl
    | function f => exact htext (.object (.function f))
    | native i => exact htext (.object (.native i))
    | heap a => exact htext (.object (.heap a))
  | nil b => exact htext (.nil b)
  | boolean b => exact htext (.boolean b)
  | real bits => exact htext (.real bits)
  | integer i => exact htext (.integer i)

theorem relabel_assert (hP : P.Readdresses ρ P') (v message : Value) :
    assert P' (heap.relabel ρ) (v.relabel ρ) (message.relabel ρ) =
      (assert P heap v message).relabel ρ := by
  unfold assert
  rw [Value.isFalsey_relabel]
  exact relabel_ite (relabel_withText heap hP message fun _ => rfl) rfl

theorem relabel_sqrt (v : Value) :
    sqrt (heap.relabel ρ) (v.relabel ρ) = (sqrt heap v).relabel ρ := by
  unfold sqrt
  rw [Value.isNumber_relabel, Value.coerceReal_relabel]
  exact relabel_ite rfl rfl

theorem relabel_toInt (parseInteger : Bytes → Option Int64) (v : Value) :
    toInt parseInteger (heap.relabel ρ) (v.relabel ρ) = (toInt parseInteger heap v).relabel ρ := by
  cases v with
  | real bits =>
      dsimp only [toInt, Value.relabel]
      cases castToInteger bits <;> rfl
  | object o => cases o with
    | string s =>
        dsimp only [toInt, Value.relabel, Object.relabel]
        cases parseInteger s <;> rfl
    | _ => rfl
  | _ => rfl

theorem relabel_toDouble (parseReal : ParseReal) (v : Value) :
    toDouble parseReal (heap.relabel ρ) (v.relabel ρ) = (toDouble parseReal heap v).relabel ρ := by
  cases v with
  | object o => cases o with
    | string s =>
        dsimp only [toDouble, Value.relabel, Object.relabel]
        cases parseReal s <;> rfl
    | _ => rfl
  | _ => rfl

theorem relabel_randint (draw : Draw) (dist : Distribution) (m n : Value) :
    (randint draw dist (heap.relabel ρ) (m.relabel ρ) (n.relabel ρ)).1 =
      (randint draw dist heap m n).1.relabel ρ := by
  cases m with
  | integer m => cases n with
    | integer n =>
        dsimp only [randint, Value.relabel]
        split <;> rfl
    | _ => rfl
  | _ => rfl

/-! ### classes.cpp -/

theorem relabel_validateArguments (methodName : String) (object name : Value)
    {result result' : Addr → Addr → StringTable → Bytes → NativeResult}
    (h : ∀ a klass fields name,
      result' a klass (StringTable.relabel ρ fields) name = (result a klass fields name).relabel ρ) :
    validateArguments (heap.relabel ρ) methodName (object.relabel ρ) (name.relabel ρ) result' =
      (validateArguments heap methodName object name result).relabel ρ := by
  unfold validateArguments
  rw [Value.heapObject_relabel]
  cases object.heapObject heap with
  | none => rfl
  | some x => cases x with
    | «instance» klass fields => cases object with
      | object o => cases o with
        | heap a => cases name with
          | object o => cases o with
            | string s => exact h a klass fields s
            | _ => rfl
          | _ => rfl
        | _ => rfl
      | _ => rfl
    | _ => rfl

theorem relabel_hasProperty (object name : Value) :
    hasProperty (heap.relabel ρ) (object.relabel ρ) (name.relabel ρ) =
      (hasProperty heap object name).relabel ρ := by
  refine relabel_validateArguments heap _ object name fun a klass fields name => ?_
  rw [StringTable.lookup_relabel, Option.isSome_map]
  rfl

theorem relabel_getProperty (hP : P.Readdresses ρ P') (object name : Value) :
    getProperty P' (heap.relabel ρ) (object.relabel ρ) (name.relabel ρ) =
      (getProperty P heap object name).relabel ρ := by
  refine relabel_validateArguments heap _ object name fun a klass fields name => ?_
  rw [StringTable.lookup_relabel]
  cases fields.lookup name with
  | none => exact relabel_withText heap hP (.ofAddr a) fun _ => rfl
  | some v => rfl

theorem relabel_setProperty (object name v : Value) :
    setProperty (heap.relabel ρ) (object.relabel ρ) (name.relabel ρ) (v.relabel ρ) =
      (setProperty heap object name v).relabel ρ := by
  refine relabel_validateArguments heap _ object name fun a klass fields name => ?_
  rw [StringTable.tableInsert_relabel]
  exact congrArg (returns · _) (Heap.set_relabel heap a (.instance klass _))

theorem relabel_delProperty (object name : Value) :
    delProperty (heap.relabel ρ) (object.relabel ρ) (name.relabel ρ) =
      (delProperty heap object name).relabel ρ := by
  refine relabel_validateArguments heap _ object name fun a klass fields name => ?_
  rw [StringTable.lookup_relabel, Option.isSome_map, StringTable.filter_relabel]
  exact congrArg (returns · _) (Heap.set_relabel heap a (.instance klass _))

/-! ### list.cpp -/

theorem relabel_integerArgument (argCount i : Nat) (values : Nat → Value) :
    integerArgument argCount i (fun i => (values i).relabel ρ) = integerArgument argCount i values := by
  unfold integerArgument
  dsimp only
  cases values i <;> rfl

theorem relabel_returnsList (values : List Value) :
    returnsList (heap.relabel ρ) (values.map (Value.relabel ρ)) =
      (returnsList heap values).relabel ρ := by
  unfold returnsList
  rw [Heap.length_relabel]
  exact congrArg (returns · _) (Heap.append_relabel heap (.list values))

theorem relabel_newList (len cap : Int64) (default_ : Value) :
    newList (heap.relabel ρ) len cap (default_.relabel ρ) =
      (newList heap len cap default_).relabel ρ := by
  have hlist := relabel_returnsList (ρ := ρ) heap (List.replicate len.toInt.toNat default_)
  rw [List.map_replicate] at hlist
  unfold newList
  exact relabel_ite rfl (relabel_ite rfl hlist)

theorem relabel_list (argCount : Nat) (values : Nat → Value) :
    list (heap.relabel ρ) argCount (fun i => (values i).relabel ρ) =
      (list heap argCount values).relabel ρ := by
  unfold list
  rw [relabel_integerArgument, relabel_integerArgument]
  cases integerArgument argCount 1 values with
  | none => rfl
  | some len => cases integerArgument argCount 3 values with
    | none => rfl
    | some cap =>
        have hdefault : (if 2 ≤ argCount then (values 2).relabel ρ else Value.nil false) =
            (if 2 ≤ argCount then values 2 else .nil false).relabel ρ := by
          split <;> rfl
        dsimp only
        rw [hdefault]
        exact relabel_newList heap len cap _

theorem relabel_popList (v : Value) :
    popList (heap.relabel ρ) (v.relabel ρ) = (popList heap v).relabel ρ := by
  unfold popList
  rw [Value.heapObject_relabel]
  cases v.heapObject heap with
  | none => rfl
  | some object => cases object with
    | list values => cases v with
      | object o => cases o with
        | heap a =>
            dsimp only [Option.map, HeapObject.relabel, Value.relabel, Object.relabel]
            rw [List.getLast?_map]
            cases values.getLast? with
            | none => rfl
            | some last =>
                have hset := Heap.set_relabel (ρ := ρ) heap a (.list values.dropLast)
                rw [HeapObject.relabel, List.map_dropLast] at hset
                exact congrArg (returns · _) hset
        | _ => rfl
      | _ => rfl
    | _ => rfl

theorem relabel_capList {capacity : Heap → Addr → Int64}
    (h : ∀ heap a, capacity (Heap.relabel ρ heap) a = capacity heap a) (v : Value) :
    capList capacity (heap.relabel ρ) (v.relabel ρ) = (capList capacity heap v).relabel ρ := by
  unfold capList
  rw [Value.heapObject_relabel]
  cases v.heapObject heap with
  | none => rfl
  | some object => cases object with
    | list values => cases v with
      | object o => cases o with
        | heap a => exact congrArg (fun n => returns (heap.relabel ρ) (.integer n)) (h heap a)
        | _ => rfl
      | _ => rfl
    | _ => rfl

/-! ### map.cpp -/

theorem relabel_withMap (message : String) (v : Value)
    {result result' : Addr → HashMap Value Value → NativeResult}
    (h : ∀ a table, result' a (HashMap.relabel ρ table) = (result a table).relabel ρ) :
    withMap (heap.relabel ρ) message (v.relabel ρ) result' =
      (withMap heap message v result).relabel ρ := by
  unfold withMap
  rw [Value.heapObject_relabel]
  cases v.heapObject heap with
  | none => rfl
  | some object => cases object with
    | map table => cases v with
      | object o => cases o with
        | heap a => exact h a table
        | _ => rfl
      | _ => rfl
    | _ => rfl

theorem relabel_newMap : newMap (heap.relabel ρ) = (newMap heap).relabel ρ := by
  unfold newMap
  rw [Heap.length_relabel]
  exact congrArg (returns · _) (Heap.append_relabel heap (.map HashMap.empty))

theorem relabel_deleteElement (a : Addr) (values : List Value) (v : Value) :
    deleteElement (heap.relabel ρ) a (values.map (Value.relabel ρ)) (v.relabel ρ) =
      (deleteElement heap a values v).relabel ρ := by
  cases v with
  | integer i =>
      have hset := Heap.set_relabel (ρ := ρ) heap a (.list (values.eraseIdx i.toInt.toNat))
      rw [HeapObject.relabel, ← List.eraseIdx_map] at hset
      dsimp only [deleteElement, Value.relabel]
      rw [List.length_map, hset]
      exact relabel_ite rfl (relabel_ite rfl rfl)
  | _ => rfl

section

variable (hP : P.Readdresses ρ P')

include hP

theorem relabel_deleteKey (a : Addr) (table : HashMap Value Value) (key : Value) :
    deleteKey P' (heap.relabel ρ) a (HashMap.relabel ρ table) (key.relabel ρ) =
      (deleteKey P heap a table key).relabel ρ := by
  unfold deleteKey
  dsimp only
  rw [erase_relabel hP]
  cases @erase _ _ (Value.hashKey P heap) _ table key with
  | none => rfl
  | some found =>
      exact congrArg (NativeResult.value (.boolean found.1) · [])
        (Heap.set_relabel heap a (.map found.2))

theorem relabel_deleteMap (target key : Value) :
    deleteMap P' (heap.relabel ρ) (target.relabel ρ) (key.relabel ρ) =
      (deleteMap P heap target key).relabel ρ := by
  unfold deleteMap
  rw [Value.heapObject_relabel]
  cases target.heapObject heap with
  | none => rfl
  | some object => cases target with
    | object o => cases o with
      | heap a => cases object with
        | list values => exact relabel_deleteElement heap a values key
        | map table => exact relabel_deleteKey heap hP a table key
        | _ => rfl
      | _ => cases object <;> rfl
    | _ => cases object <;> rfl

theorem relabel_setKey (a : Addr) (table : HashMap Value Value) (key v : Value) :
    setKey P' (heap.relabel ρ) a (HashMap.relabel ρ table) (key.relabel ρ) (v.relabel ρ) =
      (setKey P heap a table key v).relabel ρ := by
  unfold setKey
  rw [Heap.length_relabel, Value.hashCode_relabel _ _ hP]
  refine relabel_ite rfl ?_
  dsimp only
  rw [subscript_relabel hP]
  cases @subscript _ _ (Value.hashKey P heap) _ table key with
  | none => rfl
  | some found =>
      dsimp only [Option.map, Prod.map, id]
      rw [writeRef_relabel hP]
      exact congrArg (returns · _) (Heap.set_relabel heap a (.map _))

theorem relabel_appendMap (argCount : Nat) (values : Nat → Value) :
    appendMap P' (heap.relabel ρ) argCount (fun i => (values i).relabel ρ) =
      (appendMap P heap argCount values).relabel ρ := by
  unfold appendMap
  dsimp only
  refine relabel_ite rfl ?_
  rw [Value.heapObject_relabel]
  have herror : ∀ message message', (if argCount ≠ 3 then reports (heap.relabel ρ) message
      else reports (heap.relabel ρ) message') =
        (if argCount ≠ 3 then reports heap message else reports heap message').relabel ρ :=
    fun _ _ => relabel_ite rfl rfl
  cases (values 1).heapObject heap with
  | none => exact herror _ _
  | some object => cases values 1 with
    | object o => cases o with
      | heap a => cases object with
        | list elements =>
            have hset := Heap.set_relabel (ρ := ρ) heap a (.list (elements ++ [values 2]))
            rw [HeapObject.relabel, List.map_append] at hset
            exact relabel_ite rfl (congrArg (returns · _) hset)
        | map table => exact relabel_setKey heap hP a table (values 2) (values 3)
        | _ => exact herror _ _
      | _ => cases object <;> exact herror _ _
    | _ => cases object <;> exact herror _ _

theorem relabel_hasMap (v key : Value) :
    hasMap P' (heap.relabel ρ) (v.relabel ρ) (key.relabel ρ) = (hasMap P heap v key).relabel ρ := by
  refine relabel_withMap heap _ v fun a table => ?_
  dsimp only
  rw [contains_relabel hP]
  cases @contains _ _ (Value.hashKey P heap) _ table key <;> rfl

theorem relabel_getMap (argCount : Nat) (values : Nat → Value) :
    getMap P' (heap.relabel ρ) argCount (fun i => (values i).relabel ρ) =
      (getMap P heap argCount values).relabel ρ := by
  unfold getMap
  have hdefault : (if argCount = 3 then (values 3).relabel ρ else Value.nil false) =
      (if argCount = 3 then values 3 else .nil false).relabel ρ := by
    split <;> rfl
  dsimp only
  rw [hdefault]
  refine relabel_ite rfl (relabel_withMap heap _ _ fun a table => ?_)
  rw [get_relabel hP]
  cases @HashMap.get _ _ (Value.hashKey P heap) _ table (values 2) with
  | none => rfl
  | some found => cases found <;> rfl

end

theorem relabel_entries (g : Value × Value → Value)
    (hg : ∀ entry, g (Prod.map (Value.relabel ρ) (Value.relabel ρ) entry) = (g entry).relabel ρ)
    (message : String) (v : Value) :
    (withMap (heap.relabel ρ) message (v.relabel ρ) fun _ table =>
      returnsList (heap.relabel ρ) (table.entries.map g)) =
      (withMap heap message v fun _ table =>
        returnsList heap (table.entries.map g)).relabel ρ := by
  refine relabel_withMap heap message v fun a table => ?_
  rw [Value.entries_relabel, List.map_map, ← relabel_returnsList, List.map_map]
  exact congrArg (returnsList _) (List.map_congr_left fun entry _ => hg entry)

theorem relabel_clearMap (v : Value) :
    clearMap (heap.relabel ρ) (v.relabel ρ) = (clearMap heap v).relabel ρ := by
  unfold clearMap
  rw [Value.heapObject_relabel]
  cases v.heapObject heap with
  | none => rfl
  | some object => cases v with
    | object o => cases o with
      | heap a => cases object with
        | map table => exact congrArg (returns · _) (Heap.set_relabel heap a (.map HashMap.empty))
        | list values => exact congrArg (returns · _) (Heap.set_relabel heap a (.list []))
        | _ => rfl
      | _ => cases object <;> rfl
    | _ => cases object <;> rfl

end Native

namespace NativeFunction

open Native

/-- A native function commutes with a relabelling, when the capacities of vectors do not depend on
labels. -/
theorem relabels_toNative (hP : P.Readdresses ρ P') {E : Outside}
    (hE : ∀ heap a, E.capacity (Heap.relabel ρ heap) a = E.capacity heap a) (f : NativeFunction) :
    Native.Relabels ρ (f.toNative P E) (f.toNative P' E) where
  name := rfl
  arity := rfl
  function heap argCount values := by
    cases f with
    | println => exact relabel_printWith heap hP [10] argCount values
    | print => exact relabel_printWith heap hP [] argCount values
    | len => exact relabel_len heap _
    | exit => exact relabel_exit heap _
    | type => exact relabel_type heap _
    | hash => exact relabel_hash heap hP _
    | isHashable => exact relabel_isHashable heap hP _
    | sqrt => exact relabel_sqrt heap _
    | randint => exact relabel_randint heap E.draw E.distribution _ _
    | toInt => exact relabel_toInt heap E.parseInteger _
    | toDouble => exact relabel_toDouble heap E.parseReal _
    | toString => exact relabel_toString heap hP _
    | assert => exact relabel_assert heap hP _ _
    | hasProperty => exact relabel_hasProperty heap _ _
    | getProperty => exact relabel_getProperty heap hP _ _
    | setProperty => exact relabel_setProperty heap _ _ _
    | delProperty => exact relabel_delProperty heap _ _
    | list => exact relabel_list heap argCount values
    | popList => exact relabel_popList heap _
    | capList => exact relabel_capList heap hE _
    | newMap => exact relabel_newMap heap
    | appendMap => exact relabel_appendMap heap hP argCount values
    | deleteMap => exact relabel_deleteMap heap hP _ _
    | keysMap => exact relabel_entries heap Prod.fst (fun _ => rfl) _ _
    | valuesMap => exact relabel_entries heap Prod.snd (fun _ => rfl) _ _
    | hasMap => exact relabel_hasMap heap hP _ _
    | clearMap => exact relabel_clearMap heap _
    | getMap => exact relabel_getMap heap hP argCount values
    | _ => rfl

/-- The native functions that are registered commute with a relabelling. -/
theorem relabels_registered (hP : P.Readdresses ρ P') {E : Outside}
    (hE : ∀ heap a, E.capacity (Heap.relabel ρ heap) a = E.capacity heap a) :
    List.Forall₂ (Native.Relabels ρ) (registered P E) (registered P' E) := by
  unfold registered
  rw [List.forall₂_map_left_iff, List.forall₂_map_right_iff, List.forall₂_same]
  exact fun f _ => relabels_toNative hP hE f

end NativeFunction

end CppLox
