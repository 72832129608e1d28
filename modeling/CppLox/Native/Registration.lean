import CppLox.Native.Classes
import CppLox.Native.List
import CppLox.Native.Map
import CppLox.Native.Math
import CppLox.Native.Stdlib

/-!
# Native functions — registration

`VM::register_native_functions` (`src/vm/register_native_functions.cpp`) with `src/native/time.cpp`
and `src/native/memory.cpp`: the native functions in the order of their registration.  What they
read besides the machine is in `Outside`.
-/

namespace CppLox

/-- The counters of `Allocator` and of its garbage collector. -/
structure Statistics where
  bytesAllocated : Int64
  bytesFreed : Int64
  netBytes : Int64
  nextGc : Int64
  objectsCreated : Int64
  objectsFreed : Int64
  liveObjects : Int64
  gcCycles : Int64

/-- What native functions read besides the machine: the clock, the next line of `std::cin`, the
generators of random numbers, the counters of the allocator, `fast_float::from_chars` and the
capacities of vectors. -/
structure Outside where
  now : UInt64
  line : Bytes
  random : UInt64
  draw : Draw
  distribution : Distribution
  statistics : Statistics
  parseInteger : Bytes → Option Int64
  parseReal : ParseReal
  capacity : Heap → Addr → Int64

/-- The native functions, in the order of their registration. -/
inductive NativeFunction where
  | clock
  | getline | println | print
  | len | exit | type | hash | isHashable
  | sqrt | rand | randint | toInt | toDouble
  | toString
  | assert
  | getBytesAllocated | getBytesFreed | getNextGc | getObjectsCreated | getObjectsFreed
  | getLiveObjects | getNetBytes | displayGcStats
  | hasProperty | getProperty | setProperty | delProperty
  | list | popList | capList
  | newMap | appendMap | deleteMap | keysMap | valuesMap | hasMap | clearMap | getMap
  deriving DecidableEq

namespace Native

/-- `native_display_gc_stats`. -/
def displayGcStats (statistics : Statistics) (heap : Heap) : NativeResult :=
  let line (label : String) (n : Int64) : Bytes :=
    ascii label.toList ++ decimalText n.toInt ++ [10]
  .value (.nil false) heap (ascii "GC Statistics:\n".toList ++
    line "  Bytes allocated: " statistics.bytesAllocated ++
    line "  Bytes freed: " statistics.bytesFreed ++
    line "  Net bytes: " statistics.netBytes ++
    line "  Next GC threshold: " statistics.nextGc ++
    line "  Objects created: " statistics.objectsCreated ++
    line "  Objects freed: " statistics.objectsFreed ++
    line "  Live objects: " statistics.liveObjects ++
    line "  Cycles: " statistics.gcCycles)

end Native

namespace NativeFunction

open Native

/-- The name a native function is registered under. -/
def name : NativeFunction → Bytes
  | clock => ascii "clock".toList
  | getline => ascii "input".toList
  | println => ascii "println".toList
  | print => ascii "print".toList
  | len => ascii "len".toList
  | exit => ascii "exit".toList
  | type => ascii "type".toList
  | hash => ascii "hash".toList
  | isHashable => ascii "is_hashable".toList
  | sqrt => ascii "sqrt".toList
  | rand => ascii "rand".toList
  | randint => ascii "randint".toList
  | toInt => ascii "to_int".toList
  | toDouble => ascii "to_double".toList
  | toString => ascii "to_string".toList
  | assert => ascii "assert".toList
  | getBytesAllocated => ascii "sys__mem_get_bytes_allocated".toList
  | getBytesFreed => ascii "sys__mem_get_bytes_freed".toList
  | getNextGc => ascii "sys__mem_get_next_gc".toList
  | getObjectsCreated => ascii "sys__mem_get_objects_created".toList
  | getObjectsFreed => ascii "sys__mem_get_objects_freed".toList
  | getLiveObjects => ascii "sys__mem_get_live_objects".toList
  | getNetBytes => ascii "sys__mem_get_net_bytes".toList
  | displayGcStats => ascii "sys__mem_display_gc_stats".toList
  | hasProperty => ascii "has_property".toList
  | getProperty => ascii "get_property".toList
  | setProperty => ascii "set_property".toList
  | delProperty => ascii "del_property".toList
  | list => ascii "list".toList
  | popList => ascii "pop".toList
  | capList => ascii "cap".toList
  | newMap => ascii "map".toList
  | appendMap => ascii "append".toList
  | deleteMap => ascii "delete".toList
  | keysMap => ascii "keys".toList
  | valuesMap => ascii "values".toList
  | hasMap => ascii "has".toList
  | clearMap => ascii "clear".toList
  | getMap => ascii "get".toList

/-- The number of arguments a native function is registered with; `-1` stands for any number. -/
def arity : NativeFunction → Int
  | println | print | list | appendMap | getMap => -1
  | len | exit | type | hash | isHashable | sqrt | toInt | toDouble | toString | popList | capList
  | keysMap | valuesMap | clearMap => 1
  | randint | assert | hasProperty | getProperty | delProperty | deleteMap | hasMap => 2
  | setProperty => 3
  | _ => 0

variable (P : Platform) (E : Outside)

/-- The call of a native function. -/
def call : NativeFunction → Heap → Nat → (Nat → Value) → NativeResult
  | clock, heap, _, _ => returns heap (.real E.now)
  | getline, heap, _, _ => Native.getline E.line heap
  | println, heap, argCount, values => Native.println P heap argCount values
  | print, heap, argCount, values => Native.print P heap argCount values
  | len, heap, _, values => Native.len heap (values 1)
  | exit, heap, _, values => Native.exit heap (values 1)
  | type, heap, _, values => Native.type heap (values 1)
  | hash, heap, _, values => Native.hash P heap (values 1)
  | isHashable, heap, _, values => Native.isHashable P heap (values 1)
  | sqrt, heap, _, values => Native.sqrt heap (values 1)
  | rand, heap, _, _ => returns heap (.real E.random)
  | randint, heap, _, values => (Native.randint E.draw E.distribution heap (values 1) (values 2)).1
  | toInt, heap, _, values => Native.toInt E.parseInteger heap (values 1)
  | toDouble, heap, _, values => Native.toDouble E.parseReal heap (values 1)
  | toString, heap, _, values => Native.toString P heap (values 1)
  | assert, heap, _, values => Native.assert P heap (values 1) (values 2)
  | getBytesAllocated, heap, _, _ => returns heap (.integer E.statistics.bytesAllocated)
  | getBytesFreed, heap, _, _ => returns heap (.integer E.statistics.bytesFreed)
  | getNextGc, heap, _, _ => returns heap (.integer E.statistics.nextGc)
  | getObjectsCreated, heap, _, _ => returns heap (.integer E.statistics.objectsCreated)
  | getObjectsFreed, heap, _, _ => returns heap (.integer E.statistics.objectsFreed)
  | getLiveObjects, heap, _, _ => returns heap (.integer E.statistics.liveObjects)
  | getNetBytes, heap, _, _ => returns heap (.integer E.statistics.netBytes)
  | displayGcStats, heap, _, _ => Native.displayGcStats E.statistics heap
  | hasProperty, heap, _, values => Native.hasProperty heap (values 1) (values 2)
  | getProperty, heap, _, values => Native.getProperty P heap (values 1) (values 2)
  | setProperty, heap, _, values => Native.setProperty heap (values 1) (values 2) (values 3)
  | delProperty, heap, _, values => Native.delProperty heap (values 1) (values 2)
  | list, heap, argCount, values => Native.list heap argCount values
  | popList, heap, _, values => Native.popList heap (values 1)
  | capList, heap, _, values => Native.capList E.capacity heap (values 1)
  | newMap, heap, _, _ => Native.newMap heap
  | appendMap, heap, argCount, values => Native.appendMap P heap argCount values
  | deleteMap, heap, _, values => Native.deleteMap P heap (values 1) (values 2)
  | keysMap, heap, _, values => Native.keysMap heap (values 1)
  | valuesMap, heap, _, values => Native.valuesMap heap (values 1)
  | hasMap, heap, _, values => Native.hasMap P heap (values 1) (values 2)
  | clearMap, heap, _, values => Native.clearMap heap (values 1)
  | getMap, heap, argCount, values => Native.getMap P heap argCount values

theorem addsPlain_call (f : NativeFunction) (heap : Heap) (argCount : Nat) (values : Nat → Value) :
    heap.AddsPlain (f.call P E heap argCount values).heap := by
  cases f
  case println => exact NativeResult.addsPlain_of_eq (heap_printWith P _ heap argCount values)
  case print => exact NativeResult.addsPlain_of_eq (heap_printWith P _ heap argCount values)
  case len => exact NativeResult.addsPlain_of_eq (heap_len heap _)
  case exit => exact NativeResult.addsPlain_of_eq (heap_exit heap _)
  case type => exact NativeResult.addsPlain_of_eq (heap_type heap _)
  case hash => exact NativeResult.addsPlain_of_eq (heap_hash P heap _)
  case isHashable => exact NativeResult.addsPlain_of_eq (heap_isHashable P heap _)
  case sqrt => exact NativeResult.addsPlain_of_eq (heap_sqrt heap _)
  case randint => exact NativeResult.addsPlain_of_eq (heap_randint _ _ heap _ _)
  case toInt => exact NativeResult.addsPlain_of_eq (heap_toInt _ heap _)
  case toDouble => exact NativeResult.addsPlain_of_eq (heap_toDouble _ heap _)
  case toString => exact NativeResult.addsPlain_of_eq (heap_toString P heap _)
  case assert => exact NativeResult.addsPlain_of_eq (heap_assert P heap _ _)
  case hasProperty => exact addsPlain_hasProperty heap _ _
  case getProperty => exact addsPlain_getProperty P heap _ _
  case setProperty => exact addsPlain_setProperty heap _ _ _
  case delProperty => exact addsPlain_delProperty heap _ _
  case list => exact addsPlain_list heap argCount values
  case popList => exact addsPlain_popList heap _
  case capList => exact NativeResult.addsPlain_of_eq (heap_capList _ heap _)
  case newMap => exact .append rfl
  case appendMap => exact addsPlain_appendMap P heap argCount values
  case deleteMap => exact addsPlain_deleteMap P heap _ _
  case keysMap => exact addsPlain_withMap fun _ _ => .append rfl
  case valuesMap => exact addsPlain_withMap fun _ _ => .append rfl
  case hasMap => exact addsPlain_hasMap P heap _ _
  case clearMap => exact addsPlain_clearMap heap _
  case getMap => exact addsPlain_getMap P heap argCount values
  all_goals exact .refl heap

/-- A native function as the machine registers it. -/
def toNative (f : NativeFunction) : Native where
  name := f.name
  arity := f.arity
  function := f.call P E
  addsPlain := f.addsPlain_call P E

/-- `VM::register_native_functions`. -/
def registered : List Native :=
  [clock, getline, println, print, len, exit, type, hash, isHashable, sqrt, rand, randint, toInt,
    toDouble, toString, assert, getBytesAllocated, getBytesFreed, getNextGc, getObjectsCreated,
    getObjectsFreed, getLiveObjects, getNetBytes, displayGcStats, hasProperty, getProperty,
    setProperty, delProperty, list, popList, capList, newMap, appendMap, deleteMap, keysMap,
    valuesMap, hasMap, clearMap, getMap].map (toNative P E)

end NativeFunction

/-- Surroundings in which everything is zero and nothing is parsed. -/
def bareOutside : Outside where
  now := 0
  line := []
  random := 0
  draw := .lower
  distribution := none
  statistics := ⟨0, 0, 0, 0, 0, 0, 0, 0⟩
  parseInteger := fun _ => none
  parseReal := fun _ => none
  capacity := fun _ _ => 0

end CppLox
