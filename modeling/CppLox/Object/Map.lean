import CppLox.Container.Refinement
import CppLox.Memory.Heap

/-!
# Objects — maps

`ObjectMap` (`include/map.hpp`) over the keys that are not compared by the address of a mutable
object: nil, booleans, integers and strings.  The default key of the table is nil, so a deleted
slot in front of the slot of nil hides it from every search (`get_nil_hidden`).  Where that does
not happen the map is a finite map (`ObjectMap.map_run_refines`).
-/

namespace CppLox

/-- A key of a map: a `Value` of one of the kinds nil, boolean, integer and string.  A string is
its address with the bytes at that address. -/
inductive MapKey where
  | nil
  | boolean (b : Bool)
  | integer (i : Int64)
  | string (addr : Addr) (data : Bytes)
  deriving Repr, DecidableEq

/-- `hash_int`. -/
def hashInt (v : Int64) : Int64 :=
  let z := v.toUInt64 + 0x9e3779b97f4a7c15
  let z := (z ^^^ (z >>> 30)) * 0xbf58476d1ce4e5b9
  let z := (z ^^^ (z >>> 27)) * 0x94d049bb133111eb
  let h := (z ^^^ (z >>> 31)).toInt64
  if h = -1 then -2 else h

/-- The sentinel is no hash. -/
theorem hashInt_ne (v : Int64) : hashInt v ≠ -1 := by
  unfold hashInt
  dsimp only
  split
  · decide
  · assumption

namespace MapKey

/-- `Value::hash_code`. -/
def hashCode : MapKey → Int64
  | nil => 0xDEADC0DE
  | boolean b => if b then 1 else 0
  | integer i => hashInt i
  | string _ data => (Memory.hashString data).toUInt64.toInt64

/-- `ValueValueTableHasher` and `Value::operator==`; `Value{}` is nil. -/
instance : HashKey MapKey where
  default := nil
  keyEqual a b := decide (a = b)
  hasher a := a.hashCode.toUInt64.toNat

instance : LawfulHashKey MapKey where
  refl a := decide_eq_true rfl
  symm h := decide_eq_true (of_decide_eq_true h).symm
  trans h h' := decide_eq_true ((of_decide_eq_true h).trans (of_decide_eq_true h'))
  hash h := by rw [of_decide_eq_true h]

/-- Every key is hashable. -/
theorem hashCode_ne (key : MapKey) : key.hashCode ≠ -1 := by
  cases key with
  | nil => decide
  | boolean b => cases b <;> decide
  | integer i => exact hashInt_ne i
  | string _ data =>
      intro h
      have := congrArg (fun x : Int64 => x.toUInt64.toNat) h
      simp only [hashCode, UInt64.toUInt64_toInt64, UInt32.toNat_toUInt64] at this
      have hlt := (Memory.hashString data).toNat_lt
      have hmax : (-1 : Int64).toUInt64.toNat = 18446744073709551615 := by decide
      omega

end MapKey

/-- The data members of `ObjectMap`. -/
structure ObjectMap (V : Type) where
  table : HashMap MapKey V

namespace ObjectMap

open HashMap

variable {V : Type} [Inhabited V]

/-- A newly constructed map. -/
def empty : ObjectMap V := ⟨HashMap.empty⟩

omit [Inhabited V] in
def size (m : ObjectMap V) : Nat := m.table.size

def get (m : ObjectMap V) (key : MapKey) : Option (Option V) := m.table.get key

/-- `ObjectMap::set`: whether the key is hashable. -/
def set (m : ObjectMap V) (key : MapKey) (value : V) : Option (Bool × ObjectMap V) :=
  if key.hashCode = -1 then some (false, m)
  else (m.table.subscript key).map fun (i, table) => (true, ⟨table.writeRef i value⟩)

def has (m : ObjectMap V) (key : MapKey) : Option Bool := m.table.contains key

def remove (m : ObjectMap V) (key : MapKey) : Option (Bool × ObjectMap V) :=
  (m.table.erase key).map fun (removed, table) => (removed, ⟨table⟩)

def clear (m : ObjectMap V) : ObjectMap V := ⟨m.table.clear⟩

omit [Inhabited V] in
def keys (m : ObjectMap V) : List MapKey :=
  (m.table.slots.filter fun slot => slot.state = .filled).map Slot.key

omit [Inhabited V] in
def values (m : ObjectMap V) : List V :=
  (m.table.slots.filter fun slot => slot.state = .filled).map Slot.value

/-! ### Runs -/

/-- The operations that look up or change a map. -/
inductive Operation (V : Type) where
  | set (key : MapKey) (value : V)
  | get (key : MapKey)
  | has (key : MapKey)
  | remove (key : MapKey)
  | clear

/-- An operation on a map. -/
def step (m : ObjectMap V) : Operation V → Option (Reply V × ObjectMap V)
  | .set key value => (m.set key value).map fun (b, m) => (.bool b, m)
  | .get key => (m.get key).map fun value => (.optional value, m)
  | .has key => (m.has key).map fun b => (.bool b, m)
  | .remove key => (m.remove key).map fun (b, m) => (.bool b, m)
  | .clear => some (.void, m.clear)

/-- Operations one after the other: what they return, and the map. -/
def run (m : ObjectMap V) : List (Operation V) → Option (List (Reply V) × ObjectMap V)
  | [] => some ([], m)
  | op :: ops => do
    let (reply, m) ← m.step op
    let (replies, m) ← m.run ops
    return (reply :: replies, m)

/-- A finite map from keys to values. -/
abbrev Spec (V : Type) : Type := Finmap fun _ : MapKey => V

omit [Inhabited V] in
/-- An operation on a finite map. -/
def Spec.step (f : Spec V) : Operation V → Reply V × Spec V
  | .set key value => (.bool true, f.insert key value)
  | .get key => (.optional (f.lookup key), f)
  | .has key => (.bool (decide (key ∈ f)), f)
  | .remove key => (.bool (decide (key ∈ f)), f.erase key)
  | .clear => (.void, ∅)

omit [Inhabited V] in
/-- Operations on a finite map one after the other. -/
def Spec.run (f : Spec V) : List (Operation V) → List (Reply V) × Spec V
  | [] => ([], f)
  | op :: ops =>
    let (reply, f) := Spec.step f op
    let (replies, f) := Spec.run f ops
    (reply :: replies, f)

/-! ### Where nil is not hidden -/

/-- A deleted slot hides nil: nil is there, and on the way to its slot there is a slot that is not
filled. -/
def HidesNil (m : ObjectMap V) : Prop :=
  ∃ i, FilledAt m.table.slots i ∧ (slotAt m.table.slots i).key = .nil ∧
    ∀ d < m.table.slots.length, (hasher MapKey.nil + d) % m.table.slots.length = i →
      ∃ e < d, ¬ FilledAt m.table.slots ((hasher MapKey.nil + e) % m.table.slots.length)

/-- The operation does not look for a nil that is hidden; `set` first rehashes a table that is
full, and then nothing is hidden. -/
def Operation.Undisturbed (m : ObjectMap V) : Operation V → Prop
  | .set key _ => key = .nil → HidesNil m → WillGrow m.table
  | .get key | .has key | .remove key => key = .nil → ¬ HidesNil m
  | .clear => True

/-- No operation of a run looks for a nil that is hidden. -/
def UndisturbedAlong : ObjectMap V → List (Operation V) → Prop
  | _, [] => True
  | m, op :: ops => op.Undisturbed m ∧
      ∀ reply m', m.step op = some (reply, m') → UndisturbedAlong m' ops

theorem sees_of_not_hidesNil {m : ObjectMap V} {key : MapKey}
    (h : key = .nil → ¬ HidesNil m) : Sees m.table.slots key := by
  by_cases hkey : key = .nil
  · subst hkey
    refine .inr fun i hi heq => ?_
    by_contra hno
    refine h rfl ⟨i, hi, of_decide_eq_true heq, fun d hd hdi => ?_⟩
    by_contra hall
    push Not at hall
    exact hno ⟨d, hd, hdi, hall⟩
  · exact .inl (decide_eq_false fun h => hkey h.symm)

/-- The map holds what the finite map holds. -/
structure Agrees (m : ObjectMap V) (f : Spec V) : Prop where
  size : m.size = f.keys.card
  nodup : m.keys.Nodup
  mem_keys : ∀ key, key ∈ m.keys ↔ key ∈ f
  length : m.values.length = m.keys.length
  values : ∀ (i : Nat) (key : MapKey), m.keys[i]? = some key → m.values[i]? = f.lookup key

/-- The finite map over keys for one over classes of equal keys. -/
def SameMap (g : FiniteMap MapKey V) (f : Spec V) : Prop :=
  ∀ key, g.lookup (keyClass key) = f.lookup key

namespace SameMap

omit [Inhabited V]

variable {g : FiniteMap MapKey V} {f : Spec V}

theorem mem_iff (h : SameMap g f) (key : MapKey) : keyClass key ∈ g ↔ key ∈ f := by
  rw [Finmap.mem_iff, Finmap.mem_iff, h key]

theorem insert (h : SameMap g f) (key : MapKey) (value : V) :
    SameMap (g.insert (keyClass key) value) (f.insert key value) := by
  intro k
  by_cases hk : k = key
  · rw [hk, Finmap.lookup_insert, Finmap.lookup_insert]
  · have hc : keyClass k ≠ keyClass key := fun hc => hk (of_decide_eq_true (keyClass_eq_iff.mp hc))
    rw [Finmap.lookup_insert_of_ne _ hc, Finmap.lookup_insert_of_ne _ hk, h k]

theorem erase (h : SameMap g f) (key : MapKey) :
    SameMap (g.erase (keyClass key)) (f.erase key) := by
  intro k
  by_cases hk : k = key
  · rw [hk, Finmap.lookup_erase, Finmap.lookup_erase]
  · have hc : keyClass k ≠ keyClass key := fun hc => hk (of_decide_eq_true (keyClass_eq_iff.mp hc))
    rw [Finmap.lookup_erase_ne hc, Finmap.lookup_erase_ne hk, h k]

end SameMap

/-- The table of the map refines the finite map. -/
def Represents (m : ObjectMap V) (f : Spec V) : Prop :=
  ∃ g : FiniteMap MapKey V, Refines m.table g ∧ SameMap g f

namespace Represents

variable {m : ObjectMap V} {f : Spec V}

theorem empty : Represents (ObjectMap.empty : ObjectMap V) ∅ :=
  ⟨∅, Refines.empty, fun _ => rfl⟩

theorem step (h : Represents m f) (op : Operation V) (hop : op.Undisturbed m) :
    ∃ m', m.step op = some ((Spec.step f op).1, m') ∧ Represents m' (Spec.step f op).2 := by
  obtain ⟨g, href, hsame⟩ := h
  cases op with
  | set key value =>
      have hsees : Sees m.table.slots key ∨ WillGrow m.table := by
        by_cases hgrow : WillGrow m.table
        · exact .inr hgrow
        · exact .inl (sees_of_not_hidesNil fun hk hh => hgrow (hop hk hh))
      obtain ⟨i, table, hrun, href'⟩ := href.store hsees value
      refine ⟨⟨table.writeRef i value⟩, ?_, _, href', hsame.insert key value⟩
      rw [ObjectMap.step, ObjectMap.set, if_neg key.hashCode_ne, hrun]
      rfl
  | get key =>
      refine ⟨m, ?_, g, href, hsame⟩
      rw [ObjectMap.step, ObjectMap.get, href.get (sees_of_not_hidesNil hop), hsame key]
      rfl
  | has key =>
      refine ⟨m, ?_, g, href, hsame⟩
      rw [ObjectMap.step, ObjectMap.has, href.contains (sees_of_not_hidesNil hop),
        decide_eq_decide.mpr (hsame.mem_iff key)]
      rfl
  | remove key =>
      obtain ⟨table, hrun, href'⟩ := href.erase (sees_of_not_hidesNil hop)
      refine ⟨⟨table⟩, ?_, _, href', hsame.erase key⟩
      rw [ObjectMap.step, ObjectMap.remove, hrun, decide_eq_decide.mpr (hsame.mem_iff key)]
      rfl
  | clear => exact ⟨_, rfl, empty⟩

theorem run (h : Represents m f) (ops : List (Operation V)) (hops : UndisturbedAlong m ops) :
    ∃ m', m.run ops = some ((Spec.run f ops).1, m') ∧ Represents m' (Spec.run f ops).2 := by
  induction ops generalizing m f with
  | nil => exact ⟨m, rfl, h⟩
  | cons op ops ih =>
      obtain ⟨m₁, hstep, h₁⟩ := h.step op hops.1
      obtain ⟨m', hrun, h'⟩ := ih h₁ (hops.2 _ _ hstep)
      exact ⟨m', by rw [ObjectMap.run, hstep]; simp [hrun, Spec.run], h'⟩

omit [Inhabited V] in
/-- The keys of the map, as classes, are the keys in its slots. -/
theorem keys_map (m : ObjectMap V) : m.keys.map keyClass =
    (m.table.slots.filter fun s => s.state = .filled).map fun s => keyClass s.key := by
  rw [ObjectMap.keys, List.map_map]
  rfl

theorem mem_keys (h : Represents m f) (key : MapKey) : key ∈ m.keys ↔ key ∈ f := by
  obtain ⟨g, href, hsame⟩ := h
  rw [← hsame.mem_iff key, ← Finmap.mem_keys, ← href.keys_eq.2, List.mem_toFinset, ← keys_map,
    List.mem_map]
  refine ⟨fun hk => ⟨key, hk, rfl⟩, ?_⟩
  rintro ⟨k, hk, hc⟩
  rwa [← of_decide_eq_true (keyClass_eq_iff.mp hc)]

theorem agrees (h : Represents m f) : Agrees m f := by
  have hmem := h.mem_keys
  obtain ⟨g, href, hsame⟩ := h
  have hnodup : m.keys.Nodup := by
    have := href.keys_eq.1
    rw [← keys_map] at this
    exact List.Nodup.of_map _ this
  refine ⟨?_, hnodup, hmem, by simp [ObjectMap.keys, ObjectMap.values], fun i key hi => ?_⟩
  · have hkeys : m.keys.toFinset = f.keys := by
      ext key
      rw [List.mem_toFinset, Finmap.mem_keys, hmem key]
    rw [← hkeys, List.toFinset_card_of_nodup hnodup]
    simp [ObjectMap.size, ObjectMap.keys, href.stored.size_eq, count,
      List.countP_eq_length_filter]
  · rw [ObjectMap.keys, List.getElem?_map, Option.map_eq_some_iff] at hi
    obtain ⟨slot, hslot, rfl⟩ := hi
    obtain ⟨hin, hstate⟩ := List.mem_filter.mp (List.mem_of_getElem? hslot)
    rw [ObjectMap.values, List.getElem?_map, hslot, ← hsame]
    exact ((href.maps _ _).mp (maps_iff_mem.mpr
      ⟨slot, hin, by simpa using hstate, LawfulHashKey.refl _, rfl⟩)).symm

end Represents

/-- **A map without a hidden nil is a finite map.**  A run that never looks for the key nil while a
deleted slot hides it returns what a finite map returns, and ends with its contents.  Nil is the key
of every slot without an entry, so a search for it stops at the first of them, short of the entry
behind.  The condition is on the table before each operation: no other key is concerned, and a `set`
that rehashes the table is not. -/
theorem map_run_refines (ops : List (Operation V)) (h : UndisturbedAlong (ObjectMap.empty) ops) :
    ∃ m, (ObjectMap.empty : ObjectMap V).run ops = some ((Spec.run ∅ ops).1, m) ∧
      Agrees m (Spec.run ∅ ops).2 := by
  obtain ⟨m, hrun, hrep⟩ := Represents.empty.run ops h
  exact ⟨m, hrun, hrep.agrees⟩

/-- Nil and a key with the same home index, which is removed again. -/
theorem map_run_refines_nil :
    ∃ m, (ObjectMap.empty : ObjectMap Nat).run
        [.set .nil 2, .set (.integer 109) 1, .remove (.integer 109), .has (.boolean true)] =
        some ((Spec.run ∅ [.set .nil 2, .set (.integer 109) 1, .remove (.integer 109),
          .has (.boolean true)]).1, m) ∧
      Agrees m (Spec.run ∅ [.set .nil 2, .set (.integer 109) 1, .remove (.integer 109),
          .has (.boolean true)]).2 :=
  map_run_refines _ ⟨fun _ _ => Nat.lt_of_sub_eq_succ rfl, fun _ _ _ => ⟨nofun, fun _ _ _ => ⟨nofun,
    fun _ _ _ => ⟨nofun, fun _ _ _ => trivial⟩⟩⟩⟩

/-- The key 109 has the home index of nil.  Nil is stored behind it, and is not found after the key
is removed. -/
theorem get_nil_hidden : ¬ ∀ ops : List (Operation Nat), ∃ m,
    (ObjectMap.empty : ObjectMap Nat).run ops = some ((Spec.run ∅ ops).1, m) ∧
      Agrees m (Spec.run ∅ ops).2 := by
  intro h
  obtain ⟨m, hrun, -⟩ :=
    h [.set (.integer 109) 1, .set .nil 2, .remove (.integer 109), .get .nil]
  have hcode : ((ObjectMap.empty : ObjectMap Nat).run
      [.set (.integer 109) 1, .set .nil 2, .remove (.integer 109), .get .nil]).map Prod.fst =
      some [.bool true, .bool true, .bool true, .optional none] := by decide +kernel
  rw [hrun] at hcode
  have hspec : (Spec.run (∅ : Spec Nat)
      [.set (.integer 109) 1, .set .nil 2, .remove (.integer 109), .get .nil]).1 =
      [.bool true, .bool true, .bool true, .optional (some 2)] := by decide +kernel
  rw [Option.map_some, hspec] at hcode
  exact absurd hcode (by decide)

end ObjectMap

end CppLox
