import CppLox.Container.Insertion
import CppLox.Library.Marking
import CppLox.Memory.Collector
import CppLox.Memory.Interning
import Mathlib.Data.Finset.Dedup

/-!
# Memory — mark-sweep is exact

The collector marks by worklist: `markObject` and `blackenObject` are the operations of
`Library.Marking` at the successor function `references`, so after `trace_references` exactly the
objects reachable from the roots are marked.  `remove_unused_strings` then erases the unmarked
strings from the table, and `sweep` removes the unmarked objects from the vector.

Each object that is marked is also logged, and that takes its text.  `markLogged` is marking with this
condition; all functions below `mark_roots` and `blacken_object` are equations for it.

`collectGarbage_exact_iff` is the main result; `not_collectGarbage_selfList` is a collection that does
not end.
-/

namespace CppLox.Memory

open HashMap Relation

/-! ### References -/

/-- The object a value refers to. -/
def Value.references : Value → List Ptr
  | .object p => p.toList
  | _ => []

/-- The objects the filled slots of a table with string keys refer to. -/
def tableReferences (slots : StringValueSlots) : List Ptr :=
  slots.flatMap fun slot =>
    if slot.state = .filled then slot.key.toList ++ slot.value.references else []

/-- The edges `blacken_object` follows. -/
def Object.references : Object → List Ptr
  | .string _ | .nativeFunction => []
  | .upvalue _ closed => closed.references
  | .function name constants => name.toList ++ constants.flatMap Value.references
  | .class_ name _ methods => name.toList ++ tableReferences methods
  | .instance_ klass fields => klass.toList ++ tableReferences fields
  | .boundMethod receiver method => receiver.references ++ method.toList
  | .closure fn upvalues => fn.toList ++ upvalues.flatMap Option.toList
  | .list values => values.flatMap Value.references
  | .map slots => slots.flatMap fun slot =>
      if slot.state = .filled then slot.key.references ++ slot.value.references else []

/-- The successors of an address. -/
def Heap.references (heap : Heap) (p : Ptr) : List Ptr :=
  match heap p with
  | none => []
  | some object => object.references

/-- The list of open upvalues from `p` on is `l`. -/
inductive UpvalueChain (heap : Heap) : Option Ptr → List Ptr → Prop where
  | nil : UpvalueChain heap none []
  | cons {p : Ptr} {next : Option Ptr} {closed : Value} {l : List Ptr} :
      heap p = some (.upvalue next closed) → UpvalueChain heap next l →
      UpvalueChain heap (some p) (p :: l)

def ContextRoots.references (context : ContextRoots) : List Ptr :=
  (context.globalNames.flatMap fun slot =>
    if slot.state = .filled then slot.key.toList else []) ++
    context.values.flatMap Value.references

/-- The roots of a VM whose list of open upvalues is `openList`. -/
def VMRoots.references (vm : VMRoots) (openList : List Ptr) : List Ptr :=
  vm.evalstack.flatMap Value.references ++ vm.frames.flatMap Option.toList ++ openList ++
    vm.context.references ++ vm.constantStringInit.toList

/-- The roots of a chain of compilers. -/
def CompilerRoots.references (compiler : CompilerRoots) (isVmLive : Bool) : List Ptr :=
  (if isVmLive then [] else compiler.context.references) ++
    compiler.functions.flatMap Option.toList

namespace GC

/-- The roots in the compilers. -/
def compilerRoots (gc : GC) : List Ptr :=
  match gc.compiler with
  | none => []
  | some compiler => compiler.references gc.vm.isSome

/-- The roots in the VM. -/
def vmRoots (gc : GC) (openList : List Ptr) : List Ptr :=
  match gc.vm with
  | none => []
  | some vm => vm.references openList

/-- The roots of a collection. -/
def roots (gc : GC) (openList : List Ptr) : List Ptr :=
  gc.tempStash.flatMap Value.references ++ gc.compilerRoots ++ gc.vmRoots openList ++
    gc.neverDeleteObjects.flatMap Option.toList

/-- An object is reachable from the roots. -/
def Reachable (gc : GC) (openList : List Ptr) (p : Ptr) : Prop :=
  Marking.Reachable gc.heap.references (gc.roots openList) p

/-! ### Marking is the worklist algorithm -/

/-- The marker in the collector. -/
def marking (gc : GC) : Marking.State Ptr := ⟨gc.marked, gc.greyObjects⟩

/-- The collector with another marker. -/
def withMarking (gc : GC) (s : Marking.State Ptr) : GC :=
  { gc with marked := s.marked, greyObjects := s.grey }

@[simp] theorem marking_withMarking (gc : GC) (s : Marking.State Ptr) :
    (gc.withMarking s).marking = s := rfl

@[simp] theorem withMarking_withMarking (gc : GC) (s t : Marking.State Ptr) :
    (gc.withMarking s).withMarking t = gc.withMarking t := rfl

@[simp] theorem withMarking_marking (gc : GC) : gc.withMarking gc.marking = gc := rfl

@[simp] theorem heap_withMarking (gc : GC) (s : Marking.State Ptr) :
    (gc.withMarking s).heap = gc.heap := rfl

/-- The collector after `l` were marked. -/
def markPtrs (gc : GC) (l : List Ptr) : GC := gc.withMarking (Marking.markAll gc.marking l)

@[simp] theorem markPtrs_nil (gc : GC) : gc.markPtrs [] = gc := rfl

@[simp] theorem markPtrs_markPtrs (gc : GC) (l l' : List Ptr) :
    (gc.markPtrs l).markPtrs l' = gc.markPtrs (l ++ l') := by
  simp only [markPtrs, marking_withMarking, withMarking_withMarking, Marking.markAll_append]

@[simp] theorem heap_markPtrs (gc : GC) (l : List Ptr) : (gc.markPtrs l).heap = gc.heap := rfl

/-- The text of the object at `p`, the argument of `log`, is returned. -/
def Logs (depth : Nat) (gc : GC) (p : Ptr) : Prop :=
  Value.hasText gc.heap depth (.object (some p)) = true

instance (depth : Nat) (gc : GC) (p : Ptr) : Decidable (gc.Logs depth p) :=
  inferInstanceAs (Decidable (_ = true))

/-- The collector after `l` were marked, where each object that is marked now is logged. -/
def markLogged (depth : Nat) (gc : GC) (l : List Ptr) : Option GC :=
  if ∀ p ∈ l, gc.marked p = false → gc.Logs depth p then some (gc.markPtrs l) else none

variable {depth : Nat}

theorem log_eq (gc : GC) (p : Ptr) :
    gc.log depth p = if gc.Logs depth p then some () else none := rfl

@[simp] theorem markLogged_nil (gc : GC) : gc.markLogged depth [] = some gc := by
  simp [markLogged]

theorem markLogged_eq_some_iff {gc gc' : GC} {l : List Ptr} :
    gc.markLogged depth l = some gc' ↔
      (∀ p ∈ l, gc.marked p = false → gc.Logs depth p) ∧ gc.markPtrs l = gc' := by
  unfold markLogged
  split
  · rename_i h
    rw [Option.some.injEq]
    exact ⟨fun h' => ⟨h, h'⟩, And.right⟩
  · rename_i h
    exact ⟨nofun, fun h' => absurd h'.1 h⟩

theorem marked_markPtrs {gc : GC} {l : List Ptr} {p : Ptr} :
    (gc.markPtrs l).marked p = true ↔ gc.marked p = true ∨ p ∈ l := Marking.markAll_marked_iff

/-- Marking one list after another. -/
@[simp] theorem markLogged_bind (gc : GC) (l l' : List Ptr) :
    ((gc.markLogged depth l).bind fun gc => gc.markLogged depth l') =
      gc.markLogged depth (l ++ l') := by
  refine Option.ext fun gc' => ?_
  simp only [Option.bind_eq_some_iff, markLogged_eq_some_iff]
  constructor
  · rintro ⟨_, ⟨hl, rfl⟩, hl', rfl⟩
    refine ⟨fun p hp hm => ?_, (markPtrs_markPtrs ..).symm⟩
    by_cases hpl : p ∈ l
    · exact hl p hpl hm
    · refine hl' p ((List.mem_append.mp hp).resolve_left hpl) ?_
      by_contra hmarked
      rcases marked_markPtrs.mp (Bool.not_eq_false _ ▸ hmarked) with h | h
      · rw [hm] at h
        cases h
      · exact hpl h
  · rintro ⟨hall, rfl⟩
    refine ⟨_, ⟨fun p hp => hall p (List.mem_append_left _ hp), rfl⟩, fun p hp hm => ?_,
      markPtrs_markPtrs ..⟩
    refine hall p (List.mem_append_right _ hp) ?_
    by_contra hmarked
    rw [marked_markPtrs.mpr (.inl (Bool.not_eq_false _ ▸ hmarked))] at hm
    cases hm

theorem markObject_eq (gc : GC) (p : Option Ptr) :
    gc.markObject depth p = gc.markLogged depth p.toList := by
  cases p with
  | none => exact gc.markLogged_nil.symm
  | some p =>
      have hmark : gc.markPtrs [p] = if gc.marked p then gc else
          { gc with
            marked := Function.update gc.marked p true, greyObjects := p :: gc.greyObjects } := by
        simp only [markPtrs, Marking.markAll_cons, Marking.markAll_nil, Marking.mark, marking]
        split <;> rfl
      by_cases hm : gc.marked p = true
      · simp [markObject, markLogged, hmark, hm]
      · by_cases hlog : gc.Logs depth p
        · simp [markObject, markLogged, hmark, hm, hlog, log_eq]
        · simp [markObject, markLogged, hm, hlog, log_eq]

theorem markValue_eq (gc : GC) (v : Value) :
    gc.markValue depth v = gc.markLogged depth v.references := by
  cases v with
  | object p => exact gc.markObject_eq p
  | _ => exact gc.markLogged_nil.symm

/-- A loop that marks what each element refers to. -/
theorem foldlM_eq_markLogged {α : Type} {f : GC → α → Option GC} {g : α → List Ptr}
    (hf : ∀ gc a, f gc a = gc.markLogged depth (g a)) (l : List α) (gc : GC) :
    l.foldlM f gc = gc.markLogged depth (l.flatMap g) := by
  induction l generalizing gc with
  | nil => exact gc.markLogged_nil.symm
  | cons a l ih =>
      rw [List.foldlM_cons, hf, List.flatMap_cons, ← markLogged_bind]
      exact congrArg (Option.bind _) (funext ih)

theorem foldlM_markValue (l : List Value) (gc : GC) :
    l.foldlM (markValue depth) gc = gc.markLogged depth (l.flatMap Value.references) :=
  foldlM_eq_markLogged markValue_eq l gc

theorem foldlM_markObject (l : List (Option Ptr)) (gc : GC) :
    l.foldlM (markObject depth) gc = gc.markLogged depth (l.flatMap Option.toList) :=
  foldlM_eq_markLogged markObject_eq l gc

theorem markTable_eq (gc : GC) (slots : StringValueSlots) :
    gc.markTable depth slots = gc.markLogged depth (tableReferences slots) := by
  refine foldlM_eq_markLogged (fun gc slot => ?_) slots gc
  split
  · simp only [markObject_eq, markValue_eq, Option.bind_eq_bind, markLogged_bind]
  · exact gc.markLogged_nil.symm

theorem markGlobalVariables_eq (gc : GC) (context : ContextRoots) :
    gc.markGlobalVariables depth context = gc.markLogged depth context.references := by
  have hnames := foldlM_eq_markLogged
    (f := fun gc (slot : Slot (Option Ptr) Nat) =>
      if slot.state = .filled then gc.markObject depth slot.key else some gc)
    (g := fun slot => if slot.state = .filled then slot.key.toList else [])
    (fun gc slot => by
      split
      · exact gc.markObject_eq slot.key
      · exact gc.markLogged_nil.symm) context.globalNames gc
  simp only [markGlobalVariables, hnames, foldlM_markValue, Option.bind_eq_bind, markLogged_bind,
    ContextRoots.references]

theorem markCompilerRoots_eq (gc : GC) (compiler : CompilerRoots) (isVmLive : Bool) :
    gc.markCompilerRoots depth compiler isVmLive =
      gc.markLogged depth (compiler.references isVmLive) := by
  cases isVmLive with
  | true => exact foldlM_markObject _ _
  | false =>
      simp only [markCompilerRoots, Bool.false_eq_true, if_false, markGlobalVariables_eq,
        foldlM_markObject, Option.bind_eq_bind, markLogged_bind, CompilerRoots.references]

/-- What comes after objects were marked marks `l'`, whatever the marks are. -/
theorem bind_eq_markLogged {gc : GC} {f : GC → Option GC} {l : List Ptr} (l' : List Ptr)
    (hf : ∀ s, f (gc.withMarking s) = (gc.withMarking s).markLogged depth l') :
    (gc.markLogged depth l).bind f = gc.markLogged depth (l ++ l') := by
  rw [← markLogged_bind]
  refine Option.bind_congr fun gc' hgc' => ?_
  obtain ⟨-, rfl⟩ := markLogged_eq_some_iff.mp hgc'
  exact hf _

theorem markOpenUpvalues_eq {heap : Heap} {p : Option Ptr} {l : List Ptr}
    (h : UpvalueChain heap p l) : ∀ (fuel : Nat) (gc : GC), gc.heap = heap → l.length ≤ fuel →
      markOpenUpvalues depth fuel gc p = gc.markLogged depth l := by
  induction h with
  | nil =>
      intro fuel gc _ _
      rw [markLogged_nil]
      cases fuel <;> rfl
  | @cons p next closed l hp _ ih =>
      intro fuel gc hheap hfuel
      obtain ⟨fuel, rfl⟩ : ∃ n, fuel = n + 1 := ⟨fuel - 1, by simp at hfuel; omega⟩
      rw [markOpenUpvalues, markObject_eq]
      refine bind_eq_markLogged l fun s => ?_
      rw [heap_withMarking, hheap, hp]
      exact ih fuel _ hheap (by simpa using hfuel)

theorem markCompiler_eq (gc : GC) :
    gc.markCompiler depth = gc.markLogged depth gc.compilerRoots := by
  unfold markCompiler compilerRoots
  cases gc.compiler with
  | none => exact gc.markLogged_nil.symm
  | some compiler => exact gc.markCompilerRoots_eq compiler _

theorem markVM_eq (gc : GC) {openList : List Ptr} {fuel : Nat}
    (hchain : ∀ vm, gc.vm = some vm → UpvalueChain gc.heap vm.openUpvalues openList)
    (hfuel : openList.length ≤ fuel) :
    gc.markVM fuel = gc.markLogged fuel (gc.vmRoots openList) := by
  unfold markVM vmRoots
  cases hvm : gc.vm with
  | none => exact gc.markLogged_nil.symm
  | some vm =>
      simp only [foldlM_markValue, foldlM_markObject, markGlobalVariables_eq, markObject_eq,
        Option.bind_eq_bind, VMRoots.references]
      simp only [← Option.bind_assoc, markLogged_bind]
      rw [bind_eq_markLogged openList fun s =>
        markOpenUpvalues_eq (hchain vm hvm) fuel (gc.withMarking s) rfl hfuel]
      simp only [markLogged_bind, List.append_assoc]

/-- `mark_roots` marks the roots. -/
theorem markRoots_eq {gc : GC} {openList : List Ptr} {fuel : Nat}
    (hchain : ∀ vm, gc.vm = some vm → UpvalueChain gc.heap vm.openUpvalues openList)
    (hfuel : openList.length ≤ fuel) :
    gc.markRoots fuel = gc.markLogged fuel (gc.roots openList) := by
  simp only [markRoots, foldlM_markValue, foldlM_markObject, markCompiler_eq,
    Option.bind_eq_bind, ← Option.bind_assoc]
  rw [bind_eq_markLogged gc.compilerRoots fun s => rfl,
    bind_eq_markLogged (gc.vmRoots openList) fun s =>
      (gc.withMarking s).markVM_eq hchain hfuel,
    bind_eq_markLogged (gc.neverDeleteObjects.flatMap Option.toList) fun s => rfl]
  rfl

/-- `blacken_object` marks the references of an object. -/
theorem markReferences_eq (gc : GC) (object : Object) :
    gc.markReferences depth object = gc.markLogged depth object.references := by
  cases object with
  | string data => exact gc.markLogged_nil.symm
  | nativeFunction => exact gc.markLogged_nil.symm
  | upvalue next closed => exact gc.markValue_eq closed
  | function name constants =>
      simp only [markReferences, markObject_eq, foldlM_markValue, Option.bind_eq_bind,
        markLogged_bind, Object.references]
  | class_ name initMethod methods =>
      simp only [markReferences, markObject_eq, markTable_eq, Option.bind_eq_bind,
        markLogged_bind, Object.references]
  | instance_ klass fields =>
      simp only [markReferences, markObject_eq, markTable_eq, Option.bind_eq_bind,
        markLogged_bind, Object.references]
  | boundMethod receiver method =>
      simp only [markReferences, markObject_eq, markValue_eq, Option.bind_eq_bind,
        markLogged_bind, Object.references]
  | closure function upvalues =>
      simp only [markReferences, markObject_eq, foldlM_markObject, Option.bind_eq_bind,
        markLogged_bind, Object.references]
  | list values => exact foldlM_markValue values gc
  | map slots =>
      refine foldlM_eq_markLogged (fun gc slot => ?_) slots gc
      split
      · simp only [markValue_eq, Option.bind_eq_bind, markLogged_bind]
      · exact gc.markLogged_nil.symm

/-- No object of the heap refers to one that is not allocated. -/
def Closed (heap : Heap) : Prop :=
  ∀ p object, heap p = some object → ∀ q ∈ object.references, (heap q).isSome

theorem Logs.exists_object {gc : GC} {p : Ptr} (h : gc.Logs depth p) :
    ∃ object, gc.heap p = some object := by
  obtain ⟨object, hobject, -⟩ := Value.readable_of_hasText h
  exact ⟨object, hobject⟩

/-- `blacken_object` logs an object and marks its references. -/
theorem blackenObject_eq {gc : GC} {p : Ptr} (hlogs : gc.Logs depth p) :
    gc.blackenObject depth p = gc.markLogged depth (gc.heap.references p) := by
  obtain ⟨object, hobject⟩ := hlogs.exists_object
  rw [blackenObject, log_eq, if_pos hlogs, Heap.references, hobject]
  exact gc.markReferences_eq object

theorem logs_of_blackenObject {gc gc' : GC} {p : Ptr} (h : gc.blackenObject depth p = some gc') :
    gc.Logs depth p := by
  by_contra hlogs
  rw [blackenObject, log_eq, if_neg hlogs] at h
  cases h

/-- `trace_references` is the loop of the worklist algorithm when every object it comes to can be
logged. -/
theorem traceReferences_eq {R : Ptr → Prop} (fuel : Nat) : ∀ gc : GC,
    (∀ p, R p → gc.Logs depth p) → (∀ p, R p → ∀ q ∈ gc.heap.references p, R q) →
    (∀ p ∈ gc.greyObjects, R p) →
      gc.traceReferences depth fuel =
        (Marking.trace gc.heap.references fuel gc.marking).map gc.withMarking := by
  induction fuel with
  | zero =>
      intro gc _ _ _
      unfold traceReferences Marking.trace
      rw [show gc.marking.grey = gc.greyObjects from rfl]
      cases hg : gc.greyObjects with
      | nil => exact congrArg some gc.withMarking_marking.symm
      | cons last rest => rfl
  | succ fuel ih =>
      intro gc hlogs hR hgrey
      unfold traceReferences Marking.trace
      rw [show gc.marking.grey = gc.greyObjects from rfl]
      cases hg : gc.greyObjects with
      | nil => exact congrArg some gc.withMarking_marking.symm
      | cons last rest =>
          have hlast : R last := hgrey last (hg ▸ List.mem_cons_self)
          let gc₁ := gc.withMarking ⟨gc.marked, rest⟩
          have hlogged : gc₁.Logs depth last := hlogs last hlast
          have hblack : gc₁.blackenObject depth last =
              some (gc₁.markPtrs (gc.heap.references last)) :=
            (blackenObject_eq hlogged).trans (markLogged_eq_some_iff.mpr
              ⟨fun q hq _ => hlogs q (hR last hlast q hq), rfl⟩)
          show (gc₁.blackenObject depth last).bind _ = _
          rw [hblack]
          refine (ih (gc₁.markPtrs (gc.heap.references last)) hlogs hR fun p hp => ?_).trans rfl
          rcases Marking.mem_markAll_grey.mp hp with hp | hp
          · exact hgrey p (hg ▸ List.mem_cons_of_mem _ hp)
          · exact hR last hlast p hp.1

/-- A run of `trace_references` that ends is one of the worklist algorithm, and it logged every object
that it marked. -/
theorem traceReferences_eq_some {fuel : Nat} {gc gc' : GC}
    (h : gc.traceReferences depth fuel = some gc') :
    ∃ s, Marking.trace gc.heap.references fuel gc.marking = some s ∧ gc' = gc.withMarking s ∧
      ∀ p, s.marked p = true → gc.marked p = true ∨ gc.Logs depth p := by
  induction fuel generalizing gc with
  | zero =>
      unfold traceReferences at h
      unfold Marking.trace
      rw [show gc.marking.grey = gc.greyObjects from rfl]
      cases hg : gc.greyObjects with
      | nil =>
          rw [hg] at h
          obtain rfl := Option.some.inj h
          exact ⟨_, rfl, gc.withMarking_marking.symm, fun p hp => .inl hp⟩
      | cons last rest =>
          rw [hg] at h
          cases h
  | succ fuel ih =>
      unfold traceReferences at h
      unfold Marking.trace
      rw [show gc.marking.grey = gc.greyObjects from rfl]
      cases hg : gc.greyObjects with
      | nil =>
          rw [hg] at h
          obtain rfl := Option.some.inj h
          exact ⟨_, rfl, gc.withMarking_marking.symm, fun p hp => .inl hp⟩
      | cons last rest =>
          rw [hg] at h
          obtain ⟨gc₁, hblack, htrace⟩ := Option.bind_eq_some_iff.mp h
          rw [blackenObject_eq (logs_of_blackenObject hblack)] at hblack
          obtain ⟨hlogged, rfl⟩ := markLogged_eq_some_iff.mp hblack
          obtain ⟨s, hs, hgc', hmarked⟩ := ih htrace
          refine ⟨s, hs, hgc', fun p hp => ?_⟩
          rcases hmarked p hp with hm | hlogs
          · by_cases hbefore : gc.marked p = true
            · exact .inl hbefore
            · have hp' := (marked_markPtrs.mp hm).resolve_left hbefore
              exact .inr (hlogged p hp' (by simpa using hbefore))
          · exact .inr hlogs

/-! ### The table of interned strings -/

/-- The slot holds a string that is not marked. -/
def dropped (marked : Ptr → Bool) (slot : Slot InternedString (Option Ptr)) : Bool :=
  slot.state = .filled && match slot.value with
    | none => false
    | some p => !marked p

/-- The loop of `remove_unused_strings` makes tombstones of the slots from `i` on whose strings
are not marked. -/
theorem removeUnusedStringsFrom_spec (n : Nat) : ∀ (i : Nat) (gc : GC),
    WellFormed gc.internedStrings →
    (∀ j, FilledAt gc.internedStrings.slots j →
      (slotAt gc.internedStrings.slots j).value.isSome) →
    ∃ count table, removeUnusedStringsFrom n i gc =
        some (count, { gc with internedStrings := table }) ∧
      WellFormed table ∧
      ∀ j, slotAt table.slots j =
        if i ≤ j ∧ j < i + n ∧ dropped gc.marked (slotAt gc.internedStrings.slots j) then
          ⟨default, default, .tombstone⟩
        else slotAt gc.internedStrings.slots j := by
  induction n with
  | zero =>
      intro i gc hwf _
      refine ⟨0, gc.internedStrings, rfl, hwf, fun j => ?_⟩
      rw [if_neg (by omega)]
  | succ n ih =>
      intro i gc hwf hval
      rw [removeUnusedStringsFrom]
      dsimp only
      by_cases hf : FilledAt gc.internedStrings.slots i
      · obtain ⟨p, hp⟩ := Option.isSome_iff_exists.mp (hval i hf)
        rw [if_pos hf.state, hp]
        simp only [Option.bind_eq_bind, Option.bind_some]
        by_cases hm : gc.marked p = true
        · rw [if_pos hm]
          obtain ⟨count, table, hrun, hwf', hslots⟩ := ih (i + 1) gc hwf hval
          refine ⟨count, table, hrun, hwf', fun j => ?_⟩
          rw [hslots]
          by_cases hji : j = i
          · subst hji
            rw [if_neg (by omega), if_neg]
            simp [dropped, hp, hm]
          · have : i + 1 ≤ j ∧ j < i + 1 + n ↔ i ≤ j ∧ j < i + (n + 1) := by omega
            simp only [← and_assoc, this]
        · rw [if_neg hm]
          obtain ⟨herase, hwfe⟩ := hwf.erase hf (LawfulHashKey.refl _)
          rw [herase]
          simp only [Option.bind_some]
          -- erasing through the key of slot `i` finds slot `i` itself and no other
          have hother : ∀ j, j ≠ i → slotAt (gc.internedStrings.slots.set i
              ⟨default, default, .tombstone⟩) j = slotAt gc.internedStrings.slots j :=
            fun j hj => slotAt_set_of_ne (Ne.symm hj) _
          have hself := slotAt_set_self hf.lt_length
            (⟨default, default, .tombstone⟩ : Slot InternedString (Option Ptr))
          obtain ⟨count, table, hrun, hwf', hslots⟩ := ih (i + 1)
            { gc with internedStrings := ⟨gc.internedStrings.size - 1,
                gc.internedStrings.tombstones + 1,
                gc.internedStrings.slots.set i ⟨default, default, .tombstone⟩⟩ } hwfe
            (by
              intro j hj
              by_cases hji : j = i
              · subst hji
                rw [FilledAt, hself] at hj
                cases hj
              · rw [FilledAt, hother j hji] at hj
                rw [hother j hji]
                exact hval j hj)
          refine ⟨count + 1, table, ?_, hwf', fun j => ?_⟩
          · rw [hrun]
            rfl
          · rw [hslots]
            dsimp only
            by_cases hji : j = i
            · subst hji
              rw [if_neg (by omega), hself, if_pos]
              refine ⟨Nat.le_refl _, by omega, ?_⟩
              simp [dropped, hp, hm, hf.state]
            · have : i + 1 ≤ j ∧ j < i + 1 + n ↔ i ≤ j ∧ j < i + (n + 1) := by omega
              rw [hother j hji]
              simp only [← and_assoc, this]
      · rw [if_neg (show (slotAt gc.internedStrings.slots i).state ≠ .filled from hf)]
        obtain ⟨count, table, hrun, hwf', hslots⟩ := ih (i + 1) gc hwf hval
        refine ⟨count, table, hrun, hwf', fun j => ?_⟩
        rw [hslots]
        by_cases hji : j = i
        · subst hji
          rw [if_neg (by omega), if_neg]
          simp [dropped, show (slotAt gc.internedStrings.slots j).state ≠ .filled from hf]
        · have : i + 1 ≤ j ∧ j < i + 1 + n ↔ i ≤ j ∧ j < i + (n + 1) := by omega
          simp only [← and_assoc, this]

/-- After `remove_unused_strings` the table maps the strings it held that are marked. -/
theorem removeUnusedStrings_spec (gc : GC) (hwf : WellFormed gc.internedStrings)
    (hval : ∀ j, FilledAt gc.internedStrings.slots j →
      (slotAt gc.internedStrings.slots j).value.isSome) :
    ∃ count table, gc.removeUnusedStrings = some (count, { gc with internedStrings := table }) ∧
      WellFormed table ∧
      (∀ j, FilledAt table.slots j →
        slotAt table.slots j = slotAt gc.internedStrings.slots j) ∧
      ∀ key, IsReal key → ∀ p, table.get key = some (some (some p)) ↔
        gc.internedStrings.get key = some (some (some p)) ∧ gc.marked p = true := by
  obtain ⟨count, table, hrun, hwf', hslots⟩ :=
    removeUnusedStringsFrom_spec gc.internedStrings.slots.length 0 gc hwf hval
  have hsame : ∀ j, FilledAt table.slots j → slotAt table.slots j =
      slotAt gc.internedStrings.slots j := by
    intro j hf
    rw [FilledAt, hslots j] at hf
    rw [hslots j]
    split
    · rename_i hd
      rw [if_pos hd] at hf
      cases hf
    · rfl
  refine ⟨count, table, hrun, hwf', hsame, fun key hreal p => ?_⟩
  rw [hwf'.get_eq_some_iff hreal, hwf.get_eq_some_iff hreal]
  have hkeep : ∀ j, FilledAt gc.internedStrings.slots j →
      (slotAt gc.internedStrings.slots j).value = some p →
      (FilledAt table.slots j ↔ gc.marked p = true) := by
    intro j hf hv
    have hlt := hf.lt_length
    rw [FilledAt, hslots j]
    cases hm : gc.marked p with
    | true => simp [dropped, hv, hm, hf.state]
    | false => simp [dropped, hv, hm, hlt, hf.state]
  refine ⟨?_, ?_⟩
  · rintro ⟨j, hf, heq, hv⟩
    have hj := hsame j hf
    have hf' : FilledAt gc.internedStrings.slots j := by
      rw [FilledAt, ← hj]
      exact hf
    rw [hj] at heq hv
    exact ⟨⟨j, hf', heq, hv⟩, (hkeep j hf' hv).mp hf⟩
  · rintro ⟨⟨j, hf, heq, hv⟩, hm⟩
    have hf' := (hkeep j hf hv).mpr hm
    refine ⟨j, hf', ?_⟩
    rw [hsame j hf']
    exact ⟨heq, hv⟩

/-! ### Sweeping -/

/-- The element of the vector is a marked object. -/
def kept (marked : Ptr → Bool) : Option Ptr → Bool
  | none => false
  | some p => marked p

/-- The element of the vector is an object that is not marked. -/
def freed (marked : Ptr → Bool) : Option Ptr → Bool
  | none => false
  | some p => !marked p

/-- Erasing by swapping keeps the elements before and permutes those after. -/
theorem swapErase_append (pre : List (Option Ptr)) (x : Option Ptr) (post : List (Option Ptr)) :
    ∃ post', swapErase (pre ++ x :: post) pre.length = pre ++ post' ∧ post'.Perm post := by
  rcases List.eq_nil_or_concat post with rfl | ⟨l, y, rfl⟩
  · refine ⟨[], ?_, .refl _⟩
    simp [swapErase]
  · refine ⟨y :: l, ?_, ?_⟩
    · have hset : (pre ++ x :: l.concat y).set pre.length y = pre ++ y :: (l ++ [y]) := by
        simp
      have hlast : (pre ++ x :: l.concat y).getLastD none = y := by
        rw [show pre ++ x :: l.concat y = (pre ++ x :: l) ++ [y] by simp, List.getLastD_concat]
      rw [swapErase, hlast, hset]
      rw [show pre ++ y :: (l ++ [y]) = (pre ++ y :: l) ++ [y] by simp, List.dropLast_concat]
    · rw [List.concat_eq_append]
      exact (List.perm_append_singleton y l).symm

/-- What `sweep` does to the elements `post` of the vector that it has not visited. -/
structure Swept (gc gc' : GC) (pre post : List (Option Ptr)) : Prop where
  objects : ∃ post', gc'.objects = pre ++ post' ∧ post'.Perm (post.filter (kept gc.marked))
  heap : ∀ p, gc'.heap p = if some p ∈ post ∧ gc.marked p = false then none else gc.heap p
  marked : ∀ p, gc'.marked p = if some p ∈ post then false else gc.marked p
  objectsFreed : gc'.objectsFreed = gc.objectsFreed + post.countP (freed gc.marked)
  internedStrings : gc'.internedStrings = gc.internedStrings
  greyObjects : gc'.greyObjects = gc.greyObjects

theorem Swept.done {gc : GC} {pre : List (Option Ptr)} (h : gc.objects = pre ++ []) :
    Swept gc gc pre [] :=
  ⟨⟨[], h, .refl _⟩, by simp, by simp, by simp, rfl, rfl⟩

section Step

variable {gc gc' : GC} {pre post post' : List (Option Ptr)} {p : Ptr}

/-- A null element is removed. -/
theorem Swept.null {objects : List (Option Ptr)} (hperm : post'.Perm post)
    (h : Swept { gc with objects := objects } gc' pre post') : Swept gc gc' pre (none :: post) := by
  refine ⟨?_, fun p => ?_, fun p => ?_, ?_, h.internedStrings, h.greyObjects⟩
  · obtain ⟨r, hr, hrp⟩ := h.objects
    exact ⟨r, hr, hrp.trans (by simpa [kept] using hperm.filter _)⟩
  · rw [h.heap p]
    simp [hperm.mem_iff]
  · rw [h.marked p]
    simp [hperm.mem_iff]
  · rw [h.objectsFreed, hperm.countP_eq]
    simp [freed]

/-- A marked object stays and is unmarked. -/
theorem Swept.keep (hm : gc.marked p = true) (hp : some p ∉ post)
    (h : Swept { gc with marked := Function.update gc.marked p false } gc' (pre ++ [some p]) post) :
    Swept gc gc' pre (some p :: post) := by
  have hsame : ∀ q, some q ∈ post → Function.update gc.marked p false q = gc.marked q :=
    fun q hq => Function.update_of_ne (fun e : q = p => hp (e ▸ hq)) _ _
  have hcongr : ∀ y ∈ post, kept (Function.update gc.marked p false) y = kept gc.marked y ∧
      freed (Function.update gc.marked p false) y = freed gc.marked y := by
    intro y hy
    cases y with
    | none => exact ⟨rfl, rfl⟩
    | some q => simp [kept, freed, hsame q hy]
  refine ⟨?_, fun q => ?_, fun q => ?_, ?_, h.internedStrings, h.greyObjects⟩
  · obtain ⟨r, hr, hrp⟩ := h.objects
    refine ⟨some p :: r, by rw [hr]; simp, ?_⟩
    rw [List.filter_cons_of_pos (by simpa [kept] using hm)]
    rw [List.filter_congr fun y hy => (hcongr y hy).1] at hrp
    exact hrp.cons _
  · rw [h.heap q]
    by_cases hq : some q ∈ post
    · simp [hq, hsame q hq]
    · by_cases hqp : q = p
      · simp [hqp, hm, hp]
      · simp [hq, hqp]
  · rw [h.marked q]
    by_cases hq : some q ∈ post
    · simp [hq]
    · by_cases hqp : q = p
      · simp [hqp]
      · simp [hq, hqp]
  · rw [h.objectsFreed, List.countP_cons_of_neg (by simp [freed, hm])]
    rw [List.countP_congr fun y hy => by rw [(hcongr y hy).2]]

/-- An object that is not marked is freed. -/
theorem Swept.free {objects : List (Option Ptr)} {bytesFreed : Nat} (hperm : post'.Perm post)
    (hm : gc.marked p = false)
    (h : Swept { gc with
        objects := objects
        bytesFreed := bytesFreed
        objectsFreed := gc.objectsFreed + 1
        heap := Function.update gc.heap p none } gc' pre post') :
    Swept gc gc' pre (some p :: post) := by
  refine ⟨?_, fun q => ?_, fun q => ?_, ?_, h.internedStrings, h.greyObjects⟩
  · obtain ⟨r, hr, hrp⟩ := h.objects
    refine ⟨r, hr, hrp.trans ?_⟩
    rw [List.filter_cons_of_neg (by simp [kept, hm])]
    exact hperm.filter _
  · rw [h.heap q]
    by_cases hqp : q = p
    · simp [hqp, hm]
    · simp [hperm.mem_iff, hqp]
  · rw [h.marked q]
    by_cases hqp : q = p
    · simp [hqp, hm]
    · simp [hperm.mem_iff, hqp]
  · rw [h.objectsFreed, hperm.countP_eq, List.countP_cons_of_pos (by simp [freed, hm])]
    dsimp only
    omega

end Step

/-- The loop of `sweep` visits every element of the vector: one that is swapped into the place of
a removed element is visited next. -/
theorem sweepFrom_spec (opts : GCOptions) (fuel : Nat) :
    ∀ (pre post : List (Option Ptr)) (gc : GC), gc.objects = pre ++ post → post.length ≤ fuel →
      (post.filterMap id).Nodup → (∀ p, some p ∈ post → (gc.heap p).isSome) →
      ∃ gc', sweepFrom opts fuel pre.length gc = some gc' ∧ Swept gc gc' pre post := by
  induction fuel with
  | zero =>
      intro pre post gc hobjects hfuel _ _
      have hnil : post = [] := List.eq_nil_of_length_eq_zero (by omega)
      subst hnil
      refine ⟨gc, ?_, .done hobjects⟩
      rw [sweepFrom, if_neg (by rw [hobjects]; simp)]
  | succ fuel ih =>
      intro pre post gc hobjects hfuel hnd hheap
      cases post with
      | nil =>
          refine ⟨gc, ?_, .done hobjects⟩
          rw [sweepFrom, if_neg (by rw [hobjects]; simp)]
      | cons x post =>
          have hlt : pre.length < gc.objects.length := by rw [hobjects]; simp
          have hget : gc.objects.getD pre.length none = x := by rw [hobjects]; simp
          obtain ⟨post', hswap, hperm⟩ := swapErase_append pre x post
          rw [← hobjects] at hswap
          have hfuel' : post'.length ≤ fuel := by
            rw [hperm.length_eq]
            simpa using hfuel
          rw [sweepFrom, if_pos hlt, hget]
          cases x with
          -- a null pointer is dropped, and the last object of the vector takes its place
          | none =>
              obtain ⟨gc', hrun, hs⟩ := ih pre post'
                { gc with objects := swapErase gc.objects pre.length } hswap hfuel'
                (by rw [(hperm.filterMap id).nodup_iff]; simpa using hnd)
                (fun p hp => hheap p (List.mem_cons_of_mem _ (hperm.mem_iff.mp hp)))
              exact ⟨gc', hrun, .null hperm hs⟩
          | some p =>
              simp only [List.filterMap_cons, id_eq, List.nodup_cons] at hnd
              have hpnot : some p ∉ post := fun hp =>
                hnd.1 (List.mem_filterMap.mpr ⟨some p, hp, rfl⟩)
              dsimp only
              by_cases hm : gc.marked p = true
              -- a marked object stays, so the sweep goes one on
              · rw [if_pos hm]
                obtain ⟨gc', hrun, hs⟩ := ih (pre ++ [some p]) post
                  { gc with marked := Function.update gc.marked p false }
                  (by rw [hobjects]; simp) (by simpa using hfuel) hnd.2
                  (fun q hq => hheap q (List.mem_cons_of_mem _ hq))
                rw [List.length_append, List.length_singleton] at hrun
                exact ⟨gc', hrun, .keep hm hpnot hs⟩
              -- a freed object makes room for the last one, so the sweep stays where it is
              · rw [if_neg hm]
                obtain ⟨object, hobject⟩ := Option.isSome_iff_exists.mp
                  (hheap p List.mem_cons_self)
                obtain ⟨gc', hrun, hs⟩ := ih pre post'
                  { gc with
                    objects := swapErase gc.objects pre.length
                    bytesFreed := gc.bytesFreed + opts.sizeOf object
                    objectsFreed := gc.objectsFreed + 1
                    heap := Function.update gc.heap p none } hswap hfuel'
                  (by rw [(hperm.filterMap id).nodup_iff]; exact hnd.2)
                  (fun q hq => by
                    have hq' := hperm.mem_iff.mp hq
                    have hqp : q ≠ p := fun e => hpnot (e ▸ hq')
                    show (Function.update gc.heap p none q).isSome = true
                    rw [Function.update_of_ne hqp]
                    exact hheap q (List.mem_cons_of_mem _ hq'))
                refine ⟨gc', ?_, .free hperm (by simpa using hm) hs⟩
                rw [freeObject, hobject]
                exact hrun

/-! ### A collection -/

/-- What a collection starts from: nothing is marked or grey, the vector lists each allocated
object once, no reference dangles, the list of open upvalues is `openList`, and the table of
interned strings holds allocated strings under their keys. -/
structure Valid (gc : GC) (openList : List Ptr) : Prop where
  unmarked : ∀ p, gc.marked p = false
  noGrey : gc.greyObjects = []
  allocated : ∀ p, (gc.heap p).isSome ↔ some p ∈ gc.objects
  nodup : (gc.objects.filterMap id).Nodup
  closed : Closed gc.heap
  roots : ∀ p ∈ gc.roots openList, (gc.heap p).isSome
  chain : ∀ vm, gc.vm = some vm → UpvalueChain gc.heap vm.openUpvalues openList
  table : WellFormed gc.internedStrings
  strings : ∀ i, FilledAt gc.internedStrings.slots i → ∃ p data,
    (slotAt gc.internedStrings.slots i).value = some p ∧ gc.heap p = some (.string data) ∧
    (slotAt gc.internedStrings.slots i).key = internKey data

/-- What a collection comes to. -/
structure Collected (gc gc' : GC) (openList : List Ptr) : Prop where
  objects : ∀ p, some p ∈ gc'.objects ↔ gc.Reachable openList p
  nodup : gc'.objects.Nodup
  noNull : none ∉ gc'.objects
  survivors : ∀ p, gc.Reachable openList p → gc'.heap p = gc.heap p
  garbage : ∀ p, ¬ gc.Reachable openList p → gc'.heap p = none
  unmarked : ∀ p, gc'.marked p = false
  noGrey : gc'.greyObjects = []
  table : WellFormed gc'.internedStrings
  strings : ∀ data p, gc'.internedStrings.get (internKey data) = some (some (some p)) ↔
    gc.internedStrings.get (internKey data) = some (some (some p)) ∧ gc.Reachable openList p
  objectsFreed : gc'.objectsFreed =
    gc.objectsFreed + ((gc.objects.filterMap id).length - gc'.objects.length)

/-- Every reachable object is allocated. -/
theorem Valid.isSome_of_reachable {gc : GC} {openList : List Ptr} (h : Valid gc openList)
    {p : Ptr} (hp : gc.Reachable openList p) : (gc.heap p).isSome := by
  induction hp with
  | root hp => exact h.roots _ hp
  | @step a b _ hb ih =>
      obtain ⟨object, hobject⟩ := Option.isSome_iff_exists.mp ih
      rw [Heap.references, hobject] at hb
      exact h.closed a object hobject b hb

/-- Marking ends with the reachable objects marked, when each of them can be logged. -/
theorem Valid.mark {gc : GC} {openList : List Ptr} (h : Valid gc openList) {fuel : Nat}
    (hopen : openList.length ≤ fuel) (hobjects : gc.objects.length ≤ fuel)
    (hlogs : ∀ p, gc.Reachable openList p → gc.Logs fuel p) :
    ∃ s : Marking.State Ptr, (gc.markRoots fuel >>= traceReferences fuel fuel) =
        some (gc.withMarking s) ∧ s.grey = [] ∧
      ∀ p, s.marked p = true ↔ gc.Reachable openList p := by
  let D : Finset Ptr := (gc.objects.filterMap id).toFinset
  have hD : ∀ p, p ∈ D ↔ (gc.heap p).isSome := by
    intro p
    simp [D, h.allocated p]
  have hcard : D.card ≤ fuel := by
    have h₁ : D.card ≤ _ := List.toFinset_card_le (gc.objects.filterMap id)
    have h₂ := List.length_filterMap_le id gc.objects
    omega
  have hroots : gc.markRoots fuel = some (gc.markPtrs (gc.roots openList)) :=
    (markRoots_eq h.chain hopen).trans
      (markLogged_eq_some_iff.mpr ⟨fun p hp _ => hlogs p (.root hp), rfl⟩)
  have hinit : Marking.Marks gc.heap.references (gc.roots openList)
      (gc.markPtrs (gc.roots openList)).marking := Marking.marks_init h.unmarked h.noGrey
  have hgrey : ∀ p ∈ (gc.markPtrs (gc.roots openList)).greyObjects, gc.Reachable openList p :=
    fun p hp => hinit.sound p (hinit.grey_marked p hp)
  have hwork : Marking.work D (gc.markPtrs (gc.roots openList)).marking ≤ fuel := by
    have : Marking.work D (gc.markPtrs (gc.roots openList)).marking = D.card := by
      rw [show (gc.markPtrs (gc.roots openList)).marking =
          Marking.markAll gc.marking (gc.roots openList) from rfl,
        Marking.work_markAll _ fun p hp => (hD p).mpr (h.roots p hp)]
      simp [Marking.work, marking, h.unmarked, h.noGrey]
    omega
  obtain ⟨s, hs⟩ := Marking.trace_isSome gc.heap.references D
    (fun p hp q hq => by
      obtain ⟨object, hobject⟩ := Option.isSome_iff_exists.mp ((hD p).mp hp)
      rw [Heap.references, hobject] at hq
      exact (hD q).mpr (h.closed p object hobject q hq))
    fuel _ (fun p hp => (hD p).mpr (h.isSome_of_reachable (hgrey p hp))) hwork
  obtain ⟨hmarks, hempty⟩ := hinit.trace hs
  refine ⟨s, ?_, hempty, fun p => hmarks.marked_iff hempty⟩
  have htrace := traceReferences_eq fuel (gc.markPtrs (gc.roots openList)) hlogs
    (fun p hp q hq => hp.step hq) hgrey
  rw [hroots]
  exact htrace.trans (congrArg (Option.map _) hs)

/-- Marking that ends logged every reachable object. -/
theorem Valid.logs_of_mark {gc gc' : GC} {openList : List Ptr} (h : Valid gc openList)
    {fuel : Nat} (hopen : openList.length ≤ fuel)
    (hrun : (gc.markRoots fuel >>= traceReferences fuel fuel) = some gc') {p : Ptr}
    (hp : gc.Reachable openList p) : gc.Logs fuel p := by
  obtain ⟨gc₁, hroots, htrace⟩ := Option.bind_eq_some_iff.mp hrun
  rw [markRoots_eq h.chain hopen] at hroots
  obtain ⟨hlogged, rfl⟩ := markLogged_eq_some_iff.mp hroots
  obtain ⟨s, hs, -, hmarked⟩ := traceReferences_eq_some htrace
  have hinit : Marking.Marks gc.heap.references (gc.roots openList)
      (gc.markPtrs (gc.roots openList)).marking := Marking.marks_init h.unmarked h.noGrey
  obtain ⟨hmarks, hempty⟩ := hinit.trace hs
  rcases hmarked p ((hmarks.marked_iff hempty).mpr hp) with hm | hlogs
  · have hroot := (marked_markPtrs.mp hm).resolve_left (by simp [h.unmarked p])
    exact hlogged p hroot (h.unmarked p)
  · exact hlogs

theorem collectGarbage_eq (opts : GCOptions) (fuel : Nat) (gc : GC) :
    gc.collectGarbage opts fuel = (gc.markRoots fuel >>= traceReferences fuel fuel) >>= fun gc =>
      gc.removeUnusedStrings >>= fun r => (r.2.sweep opts).map (setNextGc opts) := by
  unfold collectGarbage
  cases gc.markRoots fuel with
  | none => rfl
  | some gc₁ =>
      show (traceReferences fuel fuel gc₁ >>= _) = (traceReferences fuel fuel gc₁ >>= _)
      congr
      funext gc₂
      congr
      funext r
      obtain ⟨count, gc₃⟩ := r
      show (sweep opts gc₃ >>= _) = _
      cases sweep opts gc₃ <;> rfl

theorem filter_kept (marked : Ptr → Bool) (l : List (Option Ptr)) :
    l.filter (kept marked) = ((l.filterMap id).filter marked).map some := by
  induction l with
  | nil => rfl
  | cons x l ih =>
      cases x with
      | none => simpa [kept] using ih
      | some p =>
          by_cases hp : marked p = true
          · simp [kept, hp, ih]
          · simp [kept, hp, ih]

theorem countP_freed (marked : Ptr → Bool) (l : List (Option Ptr)) :
    l.countP (freed marked) = (l.filterMap id).countP fun p => !marked p := by
  induction l with
  | nil => rfl
  | cons x l ih =>
      cases x with
      | none => simpa [freed] using ih
      | some p => simp [freed, List.countP_cons, ih]

/-- A collection is exact when every reachable object can be logged. -/
theorem Valid.collected {gc : GC} {openList : List Ptr} (h : Valid gc openList) (opts : GCOptions)
    {fuel : Nat} (hopen : openList.length ≤ fuel) (hobjects : gc.objects.length ≤ fuel)
    (hlogs : ∀ p, gc.Reachable openList p → gc.Logs fuel p) :
    ∃ gc', gc.collectGarbage opts fuel = some gc' ∧ Collected gc gc' openList := by
  obtain ⟨s, hmark, hgrey, hreach⟩ := h.mark hopen hobjects hlogs
  obtain ⟨count, table, hremove, hwf, -, hstrings⟩ := removeUnusedStrings_spec
    (gc.withMarking s) h.table (fun j hj => by
      obtain ⟨p, data, hp, -⟩ := h.strings j hj
      rw [show (gc.withMarking s).internedStrings = gc.internedStrings from rfl, hp]
      rfl)
  obtain ⟨gc', hsweep, hswept⟩ := sweepFrom_spec opts gc.objects.length [] gc.objects
    { gc.withMarking s with internedStrings := table } rfl (Nat.le_refl _) h.nodup
    (fun p hp => (h.allocated p).mpr hp)
  obtain ⟨post, hobjects, hperm⟩ := hswept.objects
  rw [List.nil_append] at hobjects
  -- the vector keeps the marked objects, in another order
  have hperm' : gc'.objects.Perm (((gc.objects.filterMap id).filter s.marked).map some) := by
    rw [hobjects, ← filter_kept]
    exact hperm
  -- the marked objects are those that the roots reach
  have hmem : ∀ p, some p ∈ gc'.objects ↔ gc.Reachable openList p := by
    intro p
    rw [hperm'.mem_iff, ← hreach p]
    simp only [List.mem_map, List.mem_filter, Option.some.injEq, exists_eq_right,
      List.mem_filterMap, id_eq]
    refine ⟨And.right, fun hp => ⟨?_, hp⟩⟩
    exact (h.allocated p).mp (h.isSome_of_reachable ((hreach p).mp hp))
  refine ⟨gc'.setNextGc opts, ?_, hmem, ?_, ?_, fun p hp => ?_, fun p hp => ?_, fun p => ?_, ?_,
    ?_, ?_, ?_⟩
  · rw [collectGarbage_eq, hmark]
    show (removeUnusedStrings (gc.withMarking s) >>= _) = _
    rw [hremove]
    exact congrArg (Option.map (setNextGc opts)) hsweep
  · show gc'.objects.Nodup
    rw [hperm'.nodup_iff]
    exact (h.nodup.filter _).map (Option.some_injective _)
  · show none ∉ gc'.objects
    rw [hperm'.mem_iff]
    simp
  · refine (hswept.heap p).trans (if_neg ?_)
    rintro ⟨-, hf⟩
    rw [show (GC.marked _) p = s.marked p from rfl, (hreach p).mpr hp] at hf
    cases hf
  · refine (hswept.heap p).trans ?_
    have hm : s.marked p = false := by
      by_contra hf
      exact hp ((hreach p).mp (by simpa using hf))
    by_cases hin : some p ∈ gc.objects
    · exact if_pos ⟨hin, hm⟩
    · have hnone : gc.heap p = none := by
        by_contra hsome
        exact hin ((h.allocated p).mp (Option.isSome_iff_ne_none.mpr hsome))
      rw [if_neg fun h' => hin h'.1]
      exact hnone
  · refine (hswept.marked p).trans ?_
    split
    · rfl
    · rename_i hin
      by_contra hf
      rw [Bool.not_eq_false] at hf
      exact hin ((h.allocated p).mp (h.isSome_of_reachable ((hreach p).mp hf)))
  · exact hswept.greyObjects.trans hgrey
  · show WellFormed gc'.internedStrings
    rw [hswept.internedStrings]
    exact hwf
  · intro data p
    show gc'.internedStrings.get _ = _ ↔ _
    rw [hswept.internedStrings, ← hreach p]
    exact hstrings (internKey data) (isReal_internKey data) p
  · refine hswept.objectsFreed.trans ?_
    show gc.objectsFreed + _ = gc.objectsFreed + _
    rw [countP_freed, show (gc'.setNextGc opts).objects = gc'.objects from rfl,
      hperm'.length_eq, List.length_map, ← List.countP_eq_length_filter,
      List.length_eq_countP_add_countP s.marked]
    simp only [Bool.not_eq_true, Bool.decide_eq_false, Nat.add_sub_cancel_left]
    rfl

/-! ### When a collection ends -/

/-- An object refers to what it contains. -/
theorem mem_references_of_contains {heap : Heap} {p q : Ptr} (h : heap.Contains p q) :
    q ∈ heap.references p := by
  obtain ⟨object, hobject, hq⟩ := h
  rw [Heap.references, hobject]
  cases object with
  | boundMethod receiver method =>
      obtain rfl := List.mem_singleton.mp hq
      simp [Object.references, Value.references]
  | list values =>
      exact List.mem_flatMap.mpr ⟨_, hq, by simp [Value.references]⟩
  | map slots =>
      obtain ⟨slot, hslot, hq⟩ := List.mem_flatMap.mp hq
      refine List.mem_flatMap.mpr ⟨slot, hslot, ?_⟩
      split at hq
      · rename_i hfilled
        have hobject : q ∈ Value.references (.object (some q)) := List.mem_singleton_self q
        rw [if_pos hfilled]
        rcases List.mem_cons.mp hq with hq | hq
        · exact List.mem_append_left _ (hq ▸ hobject)
        · exact List.mem_append_right _ (List.mem_singleton.mp hq ▸ hobject)
      · cases hq
  | _ => cases hq

theorem Reachable.contains {gc : GC} {openList : List Ptr} {p q : Ptr}
    (hp : gc.Reachable openList p) (hq : ReflTransGen gc.heap.Contains p q) :
    gc.Reachable openList q := by
  induction hq with
  | refl => exact hp
  | tail _ hq ih => exact .step ih (mem_references_of_contains hq)

/-- What the collector needs of the reachable objects: the names in their texts can be read, and no
list, map or bound method contains itself. -/
def Printable (gc : GC) (openList : List Ptr) : Prop :=
  ∀ p, gc.Reachable openList p →
    gc.heap.Readable p ∧ ¬ TransGen gc.heap.Contains p p

/-- The objects are logged at every depth above their number, or at none. -/
theorem Valid.logs_iff {gc : GC} {openList : List Ptr} (h : Valid gc openList) {depth : Nat}
    (hdepth : gc.objects.length < depth) :
    (∀ p, gc.Reachable openList p → gc.Logs depth p) ↔ gc.Printable openList := by
  have hs : ∀ p q, gc.heap.Contains p q → p ∈ (gc.objects.filterMap id).toFinset := by
    rintro p q ⟨object, hobject, -⟩
    have := (h.allocated p).mp (by rw [hobject]; rfl)
    simpa using this
  have hcard : (gc.objects.filterMap id).toFinset.card < depth :=
    (List.toFinset_card_le _).trans_lt ((List.length_filterMap_le _ _).trans_lt hdepth)
  constructor
  · intro hlogs p hp
    obtain ⟨hread, hacyclic⟩ := (Value.hasText_iff hs hcard).mp (hlogs p hp)
    exact ⟨hread p .refl, hacyclic p .refl⟩
  · intro hprint p hp
    exact (Value.hasText_iff hs hcard).mpr
      ⟨fun q hq => (hprint q (hp.contains hq)).1, fun q hq => (hprint q (hp.contains hq)).2⟩

/-- **Mark-sweep is exact, where it ends.**  A collection takes the text of each object it marks, so it
ends exactly when no reachable list, map or bound method contains itself and the names in the texts can
be read.  Then, whatever other cycles there are, the vector lists, each once, the objects reachable from
the roots along the edges `blacken_object` follows; they are unchanged and unmarked; the table of
interned strings maps the strings it held that survived; and `objects_freed` grew by the number of
objects removed.

The two halves meet at the marks: a run that ends has marked what the worklist algorithm marks
(`traceReferences_eq_some`), which are the reachable objects, and has logged each of them. -/
theorem collectGarbage_exact_iff (opts : GCOptions) (gc : GC) (openList : List Ptr)
    (h : Valid gc openList) :
    (∃ bound, ∀ fuel ≥ bound, ∃ gc', gc.collectGarbage opts fuel = some gc' ∧
      Collected gc gc' openList) ↔ gc.Printable openList := by
  constructor
  · rintro ⟨bound, hrun⟩
    let fuel := bound + openList.length + gc.objects.length + 1
    obtain ⟨gc', hgc', -⟩ := hrun fuel (by omega)
    rw [collectGarbage_eq] at hgc'
    obtain ⟨gc₁, hmark, -⟩ := Option.bind_eq_some_iff.mp hgc'
    exact (h.logs_iff (show gc.objects.length < fuel by omega)).mp fun p hp =>
      h.logs_of_mark (by omega) hmark hp
  · intro hprint
    refine ⟨openList.length + gc.objects.length + 1, fun fuel hfuel => ?_⟩
    exact h.collected opts (by omega) (by omega) ((h.logs_iff (by omega)).mpr hprint)

/-! ### A heap with a cycle -/

/-- The table with the strings `a` at 4 and `f` at 5. -/
def cycleTable : InternTable :=
  ((HashMap.empty.insert (internKey [97]) (some 4)).bind fun r =>
    r.2.insert (internKey [102]) (some 5)).elim HashMap.empty Prod.snd

theorem wellFormed_cycleTable : WellFormed cycleTable := by
  obtain ⟨_, table, hinsert, hwf, -⟩ :=
    wellFormed_empty.insert (isReal_internKey [97]) (some (4 : Ptr))
  obtain ⟨_, table', hinsert', hwf', -⟩ := hwf.insert (isReal_internKey [102]) (some (5 : Ptr))
  rw [cycleTable, hinsert, Option.bind_some, hinsert']
  exact hwf'

theorem slotAt_cycleTable : ∀ i < cycleTable.slots.length,
    (slotAt cycleTable.slots i).state = .filled →
      ((slotAt cycleTable.slots i).key = internKey [97] ∧
        (slotAt cycleTable.slots i).value = some 4) ∨
      ((slotAt cycleTable.slots i).key = internKey [102] ∧
        (slotAt cycleTable.slots i).value = some 5) := by
  decide +kernel

attribute [irreducible] cycleTable

/-- A closure that captured itself, its function and upvalue, a closure nothing refers to, an interned
string nothing refers to, and the name of the function. -/
def cycleHeap : Heap
  | 0 => some (.closure (some 1) [some 2])
  | 1 => some (.function (some 5) [.integer 7])
  | 2 => some (.upvalue none (.object (some 0)))
  | 3 => some (.closure (some 1) [some 2])
  | 4 => some (.string [97])
  | 5 => some (.string [102])
  | _ => none

/-- The collector of a VM whose stack holds the closure of `cycleHeap`. -/
def cycleGC : GC where
  heap := cycleHeap
  marked _ := false
  greyObjects := []
  objects := [some 0, some 1, some 2, some 3, some 4, some 5]
  internedStrings := cycleTable
  tempStash := []
  neverDeleteObjects := []
  vm := some ⟨[.object (some 0)], [some 0], none, ⟨[], []⟩, none⟩
  compiler := none
  bytesAllocated := 240
  bytesFreed := 0
  objectsFreed := 0
  nextGc := 100

theorem valid_cycleGC : Valid cycleGC [] where
  unmarked _ := rfl
  noGrey := rfl
  allocated p := by
    match p with
    | 0 | 1 | 2 | 3 | 4 | 5 => decide
    | p + 6 => simp [cycleGC, cycleHeap]
  nodup := by decide
  closed p object h q hq := by
    match p with
    | 0 | 1 | 2 | 3 | 4 | 5 =>
        cases h
        revert q
        decide
    | p + 6 => cases h
  roots := by decide
  chain vm h := by
    cases h
    exact .nil
  table := wellFormed_cycleTable
  strings i hi := by
    rw [show cycleGC.internedStrings = cycleTable from rfl] at hi ⊢
    rcases slotAt_cycleTable i hi.lt_length hi with ⟨hkey, hvalue⟩ | ⟨hkey, hvalue⟩
    · exact ⟨4, [97], hvalue, rfl, hkey⟩
    · exact ⟨5, [102], hvalue, rfl, hkey⟩

/-- The closure that captured itself contains nothing: only lists, maps and bound methods do. -/
theorem collectGarbage_exact_iff_cycle :
    (∃ bound, ∀ fuel ≥ bound, ∃ gc',
      cycleGC.collectGarbage ⟨fun _ => 40, 100, fun n => 2 * n⟩ fuel = some gc' ∧
        Collected cycleGC gc' []) ∧ cycleGC.Printable [] := by
  have hprint : cycleGC.Printable [] := by
    intro p hp
    have hsome := valid_cycleGC.isSome_of_reachable hp
    refine ⟨?_, fun hself => ?_⟩
    · match p with
      | 0 | 1 | 2 | 3 | 4 | 5 => exact ⟨_, rfl, by decide, by decide⟩
      | p + 6 => cases hsome
    · obtain ⟨q, ⟨object, hobject, hq⟩, -⟩ := TransGen.head'_iff.mp hself
      match p with
      | 0 | 1 | 2 | 3 | 4 | 5 =>
          cases hobject
          cases hq
      | p + 6 => cases hobject
  exact ⟨(collectGarbage_exact_iff _ cycleGC [] valid_cycleGC).mpr hprint, hprint⟩

/-- A list that was assigned to its own element, on the stack. -/
def selfListGC : GC :=
  { cycleGC with
    heap := fun p => if p = 0 then some (.list [.object (some 0)]) else none
    objects := [some 0]
    internedStrings := HashMap.empty
    vm := some ⟨[.object (some 0)], [], none, ⟨[], []⟩, none⟩ }

theorem valid_selfListGC : Valid selfListGC [] where
  unmarked _ := rfl
  noGrey := rfl
  allocated p := by by_cases hp : p = 0 <;> simp [selfListGC, hp]
  nodup := by decide
  closed p object h q hq := by
    by_cases hp : p = 0
    · obtain rfl : Object.list [.object (some 0)] = object := by simpa [selfListGC, hp] using h
      obtain rfl : q = 0 := by simpa [Object.references, Value.references] using hq
      rfl
    · simp [selfListGC, hp] at h
  roots := by decide
  chain vm h := by
    cases h
    exact .nil
  table := wellFormed_empty
  strings i hi := by cases hi

/-- No collection of a list that contains itself ends. -/
theorem not_collectGarbage_selfList : Valid selfListGC [] ∧
    ∀ opts fuel, selfListGC.collectGarbage opts fuel = none := by
  refine ⟨valid_selfListGC, fun opts fuel => ?_⟩
  by_contra hrun
  obtain ⟨gc', hgc'⟩ := Option.ne_none_iff_exists'.mp hrun
  rw [collectGarbage_eq] at hgc'
  obtain ⟨gc₁, hmark, -⟩ := Option.bind_eq_some_iff.mp hgc'
  have hlogs : selfListGC.Logs fuel 0 :=
    valid_selfListGC.logs_of_mark (Nat.zero_le _) hmark (.root (by decide))
  have hself : selfListGC.heap.Contains 0 0 := ⟨_, rfl, List.mem_singleton_self _⟩
  exact (Value.within_of_hasText hlogs).acyclic 0 .refl (.single hself)

end GC

end CppLox.Memory
