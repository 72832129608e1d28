import CppLox.Native.Result

/-!
# Native functions — properties

`src/native/classes.cpp`: the fields of an instance under names that are strings.
-/

namespace CppLox

namespace Native

/-- The instance at an address: its class and its fields, with the name of the property.
`validate_arguments` reports an error where there is none. -/
def validateArguments (heap : Heap) (methodName : String) (object name : Value)
    (result : Addr → Addr → StringTable → Bytes → NativeResult) : NativeResult :=
  match object.heapObject heap, object, name with
  | some (.instance klass fields), .object (.heap a), .object (.string name) =>
    result a klass fields name
  | some (.instance _ _), _, _ =>
    reports heap ("invalid argument type to call " ++ methodName ++
      "(object, name), property name must be a string")
  | _, _, _ =>
    reports heap ("invalid argument type to call " ++ methodName ++
      "(object, name), object must be an instance")

/-- `native_has_property`. -/
def hasProperty (heap : Heap) (object name : Value) : NativeResult :=
  validateArguments heap "has_property" object name fun _ _ fields name =>
    returns heap (.boolean (fields.lookup name).isSome)

/-- `native_get_property`. -/
def getProperty (P : Platform) (heap : Heap) (object name : Value) : NativeResult :=
  validateArguments heap "get_property" object name fun a _ fields name =>
    match fields.lookup name with
    | some v => returns heap v
    | none => withText P heap (.ofAddr a) fun text =>
      reports heap (VM.quoted text ++ " has not property '" ++ VM.quoted name ++ "'")

/-- `native_set_property`. -/
def setProperty (heap : Heap) (object name v : Value) : NativeResult :=
  validateArguments heap "set_property" object name fun a klass fields name =>
    returns (heap.set a (.instance klass (VM.tableInsert fields name v))) (.nil false)

/-- `native_del_property`. -/
def delProperty (heap : Heap) (object name : Value) : NativeResult :=
  validateArguments heap "del_property" object name fun a klass fields name =>
    returns (heap.set a (.instance klass (fields.filter fun entry => entry.1 ≠ name)))
      (.boolean (fields.lookup name).isSome)

theorem addsPlain_validateArguments {heap : Heap} {methodName : String} {object name : Value}
    {result : Addr → Addr → StringTable → Bytes → NativeResult}
    (h : ∀ a klass fields name, heap.AddsPlain (result a klass fields name).heap) :
    heap.AddsPlain (validateArguments heap methodName object name result).heap := by
  unfold validateArguments
  split
  · exact h _ _ _ _
  · exact .refl heap
  · exact .refl heap

theorem addsPlain_hasProperty (heap : Heap) (object name : Value) :
    heap.AddsPlain (hasProperty heap object name).heap :=
  addsPlain_validateArguments fun _ _ _ _ => .refl heap

theorem addsPlain_getProperty (P : Platform) (heap : Heap) (object name : Value) :
    heap.AddsPlain (getProperty P heap object name).heap := by
  refine addsPlain_validateArguments fun a klass fields name => ?_
  split
  · exact .refl heap
  · exact NativeResult.addsPlain_of_eq (heap_withText fun _ => rfl)

theorem addsPlain_setProperty (heap : Heap) (object name v : Value) :
    heap.AddsPlain (setProperty heap object name v).heap :=
  addsPlain_validateArguments fun _ _ _ _ => .set rfl

theorem addsPlain_delProperty (heap : Heap) (object name : Value) :
    heap.AddsPlain (delProperty heap object name).heap :=
  addsPlain_validateArguments fun _ _ _ _ => .set rfl

end Native

end CppLox
