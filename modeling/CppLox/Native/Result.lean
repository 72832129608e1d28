import CppLox.VM.Preserves

/-!
# Native functions — results

How a native function of `src/native` returns: with a value and `true`, or with `false` after
`report_error`.  Most of them leave the heap alone.
-/

namespace CppLox

namespace Native

/-- A value with `true`. -/
def returns (heap : Heap) (v : Value) : NativeResult := .value v heap []

/-- `report_error`, and a value with `false`. -/
def reports (heap : Heap) (message : String) : NativeResult :=
  .failed heap (.runtimeError (some message))

/-- What is done with the text of a value, if `Value::to_string` ends. -/
def withText (P : Platform) (heap : Heap) (v : Value) (result : Bytes → NativeResult) :
    NativeResult :=
  match v.toString P heap (heap.length + 1) with
  | some text => result text
  | none => .failed heap .diverges

@[simp] theorem heap_returns (heap : Heap) (v : Value) : (returns heap v).heap = heap := rfl

@[simp] theorem heap_reports (heap : Heap) (message : String) :
    (reports heap message).heap = heap := rfl

theorem toText_apply {P : Platform} {v : Value} {text : Bytes} {vm : VM}
    (h : v.toString P vm.heap (vm.heap.length + 1) = some text) :
    VM.toText P v vm = .done text vm := by
  change (match v.toString P vm.heap (vm.heap.length + 1) with
    | some text => pure text
    | none => VMM.stop .diverges : VMM Bytes) vm = _
  rw [h]
  rfl

theorem withText_eq {P : Platform} {heap : Heap} {v : Value} {text : Bytes}
    {result : Bytes → NativeResult} (h : v.toString P heap (heap.length + 1) = some text) :
    withText P heap v result = result text := by
  unfold withText
  rw [h]

theorem heap_withText {P : Platform} {heap : Heap} {v : Value} {result : Bytes → NativeResult}
    (h : ∀ text, (result text).heap = heap) : (withText P heap v result).heap = heap := by
  unfold withText
  split
  · exact h _
  · rfl

end Native

/-- A native function that leaves the heap alone. -/
theorem NativeResult.addsPlain_of_eq {heap : Heap} {r : NativeResult} (h : r.heap = heap) :
    heap.AddsPlain r.heap := by
  rw [h]
  exact .refl heap

end CppLox
