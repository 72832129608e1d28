import CppLox.Memory.Text

/-!
# Memory — the garbage collector

`GarbageCollector` (`src/common/gc.cpp`) with the members of `Allocator` it works on.  Results are
`none` when an object is used that is not allocated, or when the fuel of a loop or of the recursion of
`to_string` is used up; the loops over the vectors and the slot arrays need no fuel.

What `log` prints when `debug_log_gc` is set is left out, but not that its arguments are evaluated:
`mark_object` and `blacken_object` return only if the text of the object does (`GC.log`).
-/

namespace CppLox.Memory

/-- The members of `Context` that hold references. -/
structure ContextRoots where
  globalNames : List (HashMap.Slot (Option Ptr) Nat)
  values : List Value

/-- The members of `VM` the collector reads: the slots below `stack_top`, the closures of the
frames, the head of the list of open upvalues, the context and the string `init`. -/
structure VMRoots where
  evalstack : List Value
  frames : List (Option Ptr)
  openUpvalues : Option Ptr
  context : ContextRoots
  constantStringInit : Option Ptr

/-- The chain of compilers from `Compiler::current` outwards: their common context and their
functions. -/
structure CompilerRoots where
  context : ContextRoots
  functions : List (Option Ptr)

/-- `sizeof` of the object classes and the options of the collector. -/
structure GCOptions where
  sizeOf : Object → Nat
  gcNextCollection : Nat
  /-- `static_cast<unsigned long>(gc_heap_grow_factor * net_bytes)`. -/
  growHeap : Nat → Nat

/-- The members of `GarbageCollector` and `Allocator`.  `marked` holds the `is_marked` members of
the objects; the last element of `grey_objects` is the first of `greyObjects`. -/
structure GC where
  heap : Heap
  marked : Ptr → Bool
  greyObjects : List Ptr
  objects : List (Option Ptr)
  internedStrings : InternTable
  tempStash : List Value
  neverDeleteObjects : List (Option Ptr)
  vm : Option VMRoots
  compiler : Option CompilerRoots
  bytesAllocated : Nat
  bytesFreed : Nat
  objectsFreed : Nat
  nextGc : Nat

namespace GC

/-! ### Marking -/

/-- The arguments of `GarbageCollector::log` in `mark_object` and `blacken_object`.  `log` is a function
that looks at `debug_log_gc` itself, so its argument `Value{object}.to_string()` is evaluated with the
option off as well; `depth` bounds the nested calls. -/
def log (depth : Nat) (gc : GC) (p : Ptr) : Option Unit :=
  if Value.hasText gc.heap depth (.object (some p)) then some () else none

/-- `GarbageCollector::mark_object`. -/
def markObject (depth : Nat) (gc : GC) : Option Ptr → Option GC
  | none => some gc
  | some p =>
    if gc.marked p then some gc
    else do
      gc.log depth p
      return { gc with
        marked := Function.update gc.marked p true
        greyObjects := p :: gc.greyObjects }

/-- `GarbageCollector::mark_value`. -/
def markValue (depth : Nat) (gc : GC) : Value → Option GC
  | .object p => gc.markObject depth p
  | _ => some gc

/-- `GarbageCollector::mark_table`. -/
def markTable (depth : Nat) (gc : GC) (slots : StringValueSlots) : Option GC :=
  slots.foldlM (fun gc slot =>
    if slot.state = .filled then do
      let gc ← gc.markObject depth slot.key
      gc.markValue depth slot.value
    else some gc) gc

/-- `GarbageCollector::mark_global_variables`. -/
def markGlobalVariables (depth : Nat) (gc : GC) (context : ContextRoots) : Option GC := do
  let gc ← context.globalNames.foldlM (fun gc slot =>
    if slot.state = .filled then gc.markObject depth slot.key else some gc) gc
  context.values.foldlM (markValue depth) gc

/-- `Compiler::mark_compiler_roots`. -/
def markCompilerRoots (depth : Nat) (gc : GC) (compiler : CompilerRoots) (isVmLive : Bool) :
    Option GC := do
  let gc ← if isVmLive then some gc else gc.markGlobalVariables depth compiler.context
  compiler.functions.foldlM (markObject depth) gc

/-- The loop of `mark_roots` over the list of open upvalues. -/
def markOpenUpvalues (depth : Nat) : Nat → GC → Option Ptr → Option GC
  | _, gc, none => some gc
  | 0, _, some _ => none
  | fuel + 1, gc, some p => do
    let gc ← gc.markObject depth (some p)
    match gc.heap p with
    | some (.upvalue next _) => markOpenUpvalues depth fuel gc next
    | _ => none

/-- The part of `mark_roots` for the chain of compilers, if there is one. -/
def markCompiler (depth : Nat) (gc : GC) : Option GC :=
  match gc.compiler with
  | none => some gc
  | some compiler => gc.markCompilerRoots depth compiler gc.vm.isSome

/-- The part of `mark_roots` for the VM, if it is live. -/
def markVM (fuel : Nat) (gc : GC) : Option GC :=
  match gc.vm with
  | none => some gc
  | some vm => do
    let gc ← vm.evalstack.foldlM (markValue fuel) gc
    let gc ← vm.frames.foldlM (markObject fuel) gc
    let gc ← markOpenUpvalues fuel fuel gc vm.openUpvalues
    let gc ← gc.markGlobalVariables fuel vm.context
    gc.markObject fuel vm.constantStringInit

/-- `GarbageCollector::mark_roots`. -/
def markRoots (fuel : Nat) (gc : GC) : Option GC := do
  let gc ← gc.tempStash.foldlM (markValue fuel) gc
  let gc ← gc.markCompiler fuel
  let gc ← gc.markVM fuel
  gc.neverDeleteObjects.foldlM (markObject fuel) gc

/-- The references `blacken_object` marks, by the kind of the object. -/
def markReferences (depth : Nat) (gc : GC) : Object → Option GC
  | .string _ | .nativeFunction => some gc
  | .upvalue _ closed => gc.markValue depth closed
  | .function name constants => do
    let gc ← gc.markObject depth name
    constants.foldlM (markValue depth) gc
  | .class_ name _ methods => do
    let gc ← gc.markObject depth name
    gc.markTable depth methods
  | .instance_ klass fields => do
    let gc ← gc.markObject depth klass
    gc.markTable depth fields
  | .boundMethod receiver method => do
    let gc ← gc.markValue depth receiver
    gc.markObject depth method
  | .closure function upvalues => do
    let gc ← gc.markObject depth function
    upvalues.foldlM (markObject depth) gc
  | .list values => values.foldlM (markValue depth) gc
  | .map slots => slots.foldlM (fun gc slot =>
      if slot.state = .filled then do
        let gc ← gc.markValue depth slot.key
        gc.markValue depth slot.value
      else some gc) gc

/-- `GarbageCollector::blacken_object`. -/
def blackenObject (depth : Nat) (gc : GC) (p : Ptr) : Option GC := do
  gc.log depth p
  let object ← gc.heap p
  gc.markReferences depth object

/-- `GarbageCollector::trace_references`. -/
def traceReferences (depth : Nat) : Nat → GC → Option GC
  | 0, gc => match gc.greyObjects with
    | [] => some gc
    | _ :: _ => none
  | fuel + 1, gc => match gc.greyObjects with
    | [] => some gc
    | last :: rest => do
      let gc ← blackenObject depth { gc with greyObjects := rest } last
      traceReferences depth fuel gc

/-! ### Removing -/

/-- The loop of `Allocator::remove_unused_strings`, with `n` slots left from `i` on: the number of
strings removed. -/
def removeUnusedStringsFrom : Nat → Nat → GC → Option (Nat × GC)
  | 0, _, gc => some (0, gc)
  | n + 1, i, gc => do
    let slot := HashMap.slotAt gc.internedStrings.slots i
    if slot.state = .filled then
      let p ← slot.value
      if gc.marked p then removeUnusedStringsFrom n (i + 1) gc
      else do
        let (_, interned) ← gc.internedStrings.erase slot.key
        let (count, gc) ← removeUnusedStringsFrom n (i + 1) { gc with internedStrings := interned }
        return (count + 1, gc)
    else removeUnusedStringsFrom n (i + 1) gc

/-- `Allocator::remove_unused_strings`. -/
def removeUnusedStrings (gc : GC) : Option (Nat × GC) :=
  removeUnusedStringsFrom gc.internedStrings.slots.length 0 gc

/-- `Allocator::free_object`. -/
def freeObject (opts : GCOptions) (gc : GC) (p : Ptr) : Option GC :=
  match gc.heap p with
  | none => none
  | some object => some { gc with
      bytesFreed := gc.bytesFreed + opts.sizeOf object
      objectsFreed := gc.objectsFreed + 1
      heap := Function.update gc.heap p none }

/-- `std::swap(objects[i], objects.back()); objects.pop_back();`. -/
def swapErase (objects : List (Option Ptr)) (i : Nat) : List (Option Ptr) :=
  (objects.set i (objects.getLastD none)).dropLast

/-- The loop of `GarbageCollector::sweep` from index `i` on. -/
def sweepFrom (opts : GCOptions) : Nat → Nat → GC → Option GC
  | 0, i, gc => if i < gc.objects.length then none else some gc
  | fuel + 1, i, gc =>
    if i < gc.objects.length then
      match gc.objects.getD i none with
      | none => sweepFrom opts fuel i { gc with objects := swapErase gc.objects i }
      | some p =>
        if gc.marked p then
          sweepFrom opts fuel (i + 1) { gc with marked := Function.update gc.marked p false }
        else do
          -- the element swapped in is visited next: `i` stays
          let gc ← freeObject opts { gc with objects := swapErase gc.objects i } p
          sweepFrom opts fuel i gc
    else some gc

/-- `GarbageCollector::sweep`.  Each iteration visits an element of the vector. -/
def sweep (opts : GCOptions) (gc : GC) : Option GC := sweepFrom opts gc.objects.length 0 gc

/-- The threshold of the next collection, set at the end of `collect_garbage`. -/
def setNextGc (opts : GCOptions) (gc : GC) : GC :=
  { gc with
    nextGc := max (opts.growHeap (gc.bytesAllocated - gc.bytesFreed)) opts.gcNextCollection }

/-- `GarbageCollector::collect_garbage`. -/
def collectGarbage (opts : GCOptions) (fuel : Nat) (gc : GC) : Option GC := do
  let gc ← gc.markRoots fuel
  let gc ← gc.traceReferences fuel fuel
  let (_, gc) ← gc.removeUnusedStrings
  let gc ← gc.sweep opts
  return gc.setNextGc opts

end GC

end CppLox.Memory
