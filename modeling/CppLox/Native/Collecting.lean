import CppLox.Library.Marking
import CppLox.Native.Registration
import CppLox.VM.Printing

/-!
# Native functions — calls that collect

The allocator may collect before it creates an object (`debug_stress_gc`, or more than `next_gc` bytes
in use).  The collector takes the text of each object it marks (`Memory.GC.log`), so a native function
that allocates returns only if the texts of all values that are reachable end.
-/

namespace CppLox

open Native

/-- The values `blacken_object` marks. -/
def HeapObject.marks : HeapObject → List Value
  | .closure _ upvalues => upvalues.flatMap fun a => (a.map Value.ofAddr).toList
  | .upvalue (.closed v) => [v]
  | .upvalue (.slot _) => []
  | .class _ _ methods => methods.map Prod.snd
  | .instance klass fields => .ofAddr klass :: fields.map Prod.snd
  | .boundMethod receiver method => [receiver, .ofAddr method]
  | .list values => values
  | .map table => table.entries.map Prod.fst ++ table.entries.map Prod.snd

/-- The values that are marked after a value. -/
def Heap.marks (heap : Heap) (v : Value) : List Value := (v.heapObject heap).elim [] HeapObject.marks

/-- The collector comes to a value from the roots. -/
def Heap.Reaches (heap : Heap) (roots : List Value) (v : Value) : Prop :=
  Marking.Reachable heap.marks roots v

end CppLox
