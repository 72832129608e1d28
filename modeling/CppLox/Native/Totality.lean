import CppLox.Container.Room
import CppLox.Native.Arguments
import CppLox.Native.Collecting
import CppLox.Native.Hashability

/-!
# Native functions — how they fail

A native function is to return a value, or `false` after `report_error`.  `Misbehaves` lists the
calls that do not: an exception, a failure that is not reported, a text that does not end, a search
that misreads a key and a conversion that is not defined.  A call that allocates may also start a
collection that does not end (`Native.Collecting`).
-/

namespace CppLox

open Native HashMap

/-- The search for a key in a map has no end: it comes to a bound method that it compares with an object
of another kind, or the table has no slot to end at. -/
def SearchFails (P : Platform) (heap : Heap) (v key : Value) : Prop :=
  ∃ a table, v = .ofAddr a ∧ heap[a]? = some (HeapObject.map table) ∧ table.size ≠ 0 ∧
    ¬ @HashMap.SearchEnds Value Value (Value.hashKey P heap) _ table.slots key

/-- The same for a key that may be inserted. -/
def SettingFails (P : Platform) (heap : Heap) (v key : Value) : Prop :=
  ∃ a table, v = .ofAddr a ∧ heap[a]? = some (HeapObject.map table) ∧ ¬ key.IsContainer heap ∧
    ¬ SearchesEnd P heap table key

variable {P : Platform} {E : Outside} {heap : Heap}

/-! ### Texts -/

/-- In maps with room whose keys, with the one that is looked for, are no bound methods, every search
ends. -/
theorem not_searchFails {v key : Value} (hkey : key.ComparesPointers heap)
    (h : ∀ (a : Addr) table, heap[a]? = some (HeapObject.map table) →
      table.Roomy ∧ ∀ slot ∈ table.slots, slot.key.ComparesPointers heap) :
    ¬ SearchFails P heap v key ∧ ¬ SettingFails P heap v key := by
  constructor
  · rintro ⟨a, table, -, ha, hsize, hfails⟩
    obtain ⟨hroomy, hkeys⟩ := h a table ha
    exact hfails (searchEnds_of_comparesPointers hroomy hsize hkeys hkey)
  · rintro ⟨a, table, -, ha, -, hfails⟩
    obtain ⟨hroomy, hkeys⟩ := h a table ha
    exact hfails (searchesEnd_of_comparesPointers hroomy hkeys hkey)

end CppLox
