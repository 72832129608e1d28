import CppLox.Compiler.Token
import CppLox.Library.Descent
import CppLox.VM.State

/-!
# Virtual machine — printing

`Value::to_string` (`src/common/value.cpp`).  It calls itself on the elements of a list, on the keys
and the values of a map and on the receiver of a bound method.
-/

namespace CppLox

open HashMap Relation

/-- The decimal digits of a number. -/
def decimalText (n : Int) : Bytes := ascii (toString n).toList

/-- A pointer in the format `{:p}`. -/
def pointerText (address : Int64) : Bytes :=
  ascii ['0', 'x'] ++ ascii (Nat.toDigits 16 address.toUInt64.toNat)

/-- A function or a closure with a name; the script has none. -/
def functionText (name : Bytes) : Bytes :=
  if name = [] then ascii ['<', 's', 'c', 'r', 'i', 'p', 't', '>']
  else ascii ['<', 'f', 'u', 'n', 'c', 't', 'i', 'o', 'n', ' '] ++ name ++ ascii ['>']

/-- The name of the class at an address. -/
def Heap.className (heap : Heap) (klass : Addr) : Bytes :=
  match heap[klass]? with
  | some (.class name _ _) => name
  | _ => []

/-- The texts of the elements of a list or a map, one after the other. -/
def commaSeparated (texts : List Bytes) : Bytes := List.intercalate (ascii [',', ' ']) texts

/-- The filled slots of a table: its keys with their values. -/
def HashMap.entries (table : HashMap Value Value) : List (Value × Value) :=
  (table.slots.filter fun slot => slot.state = .filled).map fun slot => (slot.key, slot.value)

namespace Value

/-- `Value::to_string`, through at most `fuel` lists, maps and bound methods. -/
protected def toString (P : Platform) (heap : Heap) : Nat → Value → Option Bytes
  | _, .nil _ => some (ascii ['n', 'i', 'l'])
  | _, .boolean b => some (ascii (if b then ['t', 'r', 'u', 'e'] else ['f', 'a', 'l', 's', 'e']))
  | _, .real bits => some (P.formatReal bits)
  | _, .integer i => some (decimalText i.toInt)
  | _, .object (.string s) => some s
  | _, .object (.function f) => some (functionText f.name)
  | _, .object (.native _) => some (ascii
      ['<', 'n', 'a', 't', 'i', 'v', 'e', ' ', 'f', 'u', 'n', 'c', 't', 'i', 'o', 'n', '>'])
  | fuel, .object (.heap a) =>
    match heap[a]?, fuel with
    | some (.closure function _), _ => some (functionText function.name)
    | some (.upvalue _), _ => some (ascii ['<', 'u', 'p', 'v', 'a', 'l', 'u', 'e', '>'])
    | some (.class name _ _), _ =>
      some (ascii ['<', 'c', 'l', 'a', 's', 's', ' '] ++ name ++ ascii ['>'])
    | some (.instance klass _), _ =>
      some (ascii ['<', 'i', 'n', 's', 't', 'a', 'n', 'c', 'e', ' ', 'o', 'f', ' '] ++
        heap.className klass ++ ascii [' ', 'a', 't', ' '] ++
        pointerText (P.address (.heap a)) ++ ascii ['>'])
    | some (.boundMethod receiver _), fuel + 1 =>
      (Value.toString P heap fuel receiver).map fun text =>
        ascii ['<', 'b', 'o', 'u', 'n', 'd', ' ', 'm', 'e', 't', 'h', 'o', 'd', ' ', 'o', 'f', ' '] ++
          text ++ ascii ['>']
    | some (.list values), fuel + 1 =>
      (values.mapM (Value.toString P heap fuel)).map fun texts =>
        ascii ['['] ++ commaSeparated texts ++ ascii [']']
    | some (.map table), fuel + 1 =>
      (table.entries.mapM fun entry : Value × Value => do
        let key ← Value.toString P heap fuel entry.1
        let value ← Value.toString P heap fuel entry.2
        return key ++ ascii [':', ' '] ++ value).map fun texts =>
          ascii ['\x7b'] ++ commaSeparated texts ++ ascii ['\x7d']
    -- an address without an object
    | none, _ => some []
    | _, 0 => none

/-- `Value::to_string` ends. -/
def Prints (P : Platform) (heap : Heap) (v : Value) : Prop :=
  ∃ fuel, (v.toString P heap fuel).isSome

/-- The values `to_string` is called on for the object at an address. -/
def partsOf (heap : Heap) (a : Addr) : List Value :=
  match heap[a]? with
  | some (.boundMethod receiver _) => [receiver]
  | some (.list values) => values
  | some (.map table) => table.entries.flatMap fun entry => [entry.1, entry.2]
  | _ => []

/-- The object at `a` contains the one at `b`. -/
def Contains (heap : Heap) (a b : Addr) : Prop := Value.ofAddr b ∈ partsOf heap a

/-- No list, map or bound method in a value contains itself. -/
def NotCyclic (heap : Heap) (v : Value) : Prop :=
  ∀ a, v = .ofAddr a → Descent.Acyclic (Contains heap) a

/-! ### Termination -/

theorem isSome_mapM_iff {α β : Type} {f : α → Option β} {l : List α} :
    (l.mapM f).isSome ↔ ∀ x ∈ l, (f x).isSome := by
  induction l with
  | nil => simp
  | cons x l ih =>
      rw [List.mapM_cons, List.forall_mem_cons, ← ih]
      cases f x with
      | none => simp
      | some y => cases List.mapM f l <;> simp

variable {P : Platform} {heap : Heap}

theorem isSome_toString_of_ne {v : Value} (h : ∀ a, v ≠ .ofAddr a) (fuel : Nat) :
    (v.toString P heap fuel).isSome := by
  cases v with
  | object o =>
      cases o with
      | heap a => exact absurd rfl (h a)
      | _ =>
          rw [Value.toString.eq_def]
          rfl
  | _ =>
      rw [Value.toString.eq_def]
      rfl

/-- The text of an object is made of the texts of its parts. -/
theorem isSome_toString_succ_iff (fuel : Nat) (a : Addr) :
    ((Value.ofAddr a).toString P heap (fuel + 1)).isSome ↔
      ∀ v ∈ partsOf heap a, (v.toString P heap fuel).isSome := by
  rw [Value.toString.eq_def, partsOf, Value.ofAddr]
  dsimp only
  cases heap[a]? with
  | none => simp
  | some object =>
      cases object with
      | boundMethod receiver method => simp
      | list values =>
          rw [Option.isSome_map]
          exact isSome_mapM_iff
      | map table =>
          rw [Option.isSome_map, isSome_mapM_iff, List.forall_mem_flatMap]
          refine forall₂_congr fun entry _ => ?_
          simp only [List.mem_cons, List.not_mem_nil, or_false, forall_eq_or_imp, forall_eq]
          cases Value.toString P heap fuel entry.1 with
          | none => simp
          | some key => cases Value.toString P heap fuel entry.2 <;> simp
      | _ => simp

theorem partsOf_eq_nil (a : Addr) (h : ((Value.ofAddr a).toString P heap 0).isSome) :
    partsOf heap a = [] := by
  rw [Value.toString.eq_def, Value.ofAddr] at h
  rw [partsOf]
  dsimp only at h
  cases hobject : heap[a]? with
  | none => rfl
  | some object =>
      rw [hobject] at h
      cases object with
      | boundMethod receiver method => cases h
      | list values => cases h
      | map table => cases h
      | _ => rfl

theorem within_of_isSome {fuel : Nat} {a : Addr}
    (h : ((Value.ofAddr a).toString P heap fuel).isSome) :
    Descent.Within (Contains heap) fuel a := by
  induction fuel generalizing a with
  | zero =>
      intro b hb
      rw [Contains, partsOf_eq_nil a h] at hb
      cases hb
  | succ fuel ih =>
      intro b hb
      exact ih ((isSome_toString_succ_iff fuel a).mp h _ hb)

theorem isSome_of_within {n : Nat} {a : Addr} (h : Descent.Within (Contains heap) n a) :
    ((Value.ofAddr a).toString P heap (n + 1)).isSome := by
  induction n generalizing a with
  | zero =>
      refine (isSome_toString_succ_iff 0 a).mpr fun v hv => ?_
      refine isSome_toString_of_ne (fun b hb => ?_) 0
      exact h b (show Value.ofAddr b ∈ partsOf heap a from hb ▸ hv)
  | succ n ih =>
      refine (isSome_toString_succ_iff (n + 1) a).mpr fun v hv => ?_
      by_cases hne : ∀ b, v ≠ .ofAddr b
      · exact isSome_toString_of_ne hne _
      · push Not at hne
        obtain ⟨b, rfl⟩ := hne
        exact ih (h b hv)

/-- Only objects in the heap contain others. -/
theorem mem_range_of_contains {a b : Addr} (h : Contains heap a b) :
    a ∈ Finset.range heap.length := by
  rw [Finset.mem_range]
  by_contra hge
  rw [Contains, partsOf, List.getElem?_eq_none (Nat.le_of_not_lt hge)] at h
  cases h

/-- `Value::to_string` comes to its end, and through no more objects than there are, exactly when
no object in the value contains itself. -/
theorem isSome_toString_iff (v : Value) :
    (v.toString P heap (heap.length + 1)).isSome ↔ NotCyclic heap v := by
  by_cases hne : ∀ a, v ≠ .ofAddr a
  · exact iff_of_true (isSome_toString_of_ne hne _) fun a ha => absurd ha (hne a)
  · push Not at hne
    obtain ⟨a, rfl⟩ := hne
    have hcard := Descent.within_card_iff (r := Contains heap) (a := a)
      (s := Finset.range heap.length) fun _ _ => mem_range_of_contains
    rw [Finset.card_range] at hcard
    constructor
    · rintro h b ⟨⟩
      exact (within_of_isSome h).acyclic
    · exact fun h => isSome_of_within (hcard.mpr (h a rfl))

theorem prints_iff (v : Value) : Prints P heap v ↔ NotCyclic heap v := by
  constructor
  · rintro ⟨fuel, h⟩ a rfl
    exact (within_of_isSome h).acyclic
  · exact fun h => ⟨heap.length + 1, (isSome_toString_iff v).mpr h⟩

end Value

end CppLox
