import CppLox.Container.Insertion
import Mathlib.Data.Finmap

/-!
# Containers — the table as a finite map

The operations of `HashMap` refine those of a finite map from classes of equal keys to values
(`Finmap`).  `Refines m f` is the relation: the table satisfies its invariant and maps what `f`
maps.  One operation preserves it and returns what the finite map returns, provided a search for
its key sees the slot that holds it (`Refines.step`); a run of operations does (`Refines.run`).
-/

namespace CppLox.HashMap

variable {K V : Type} [HashKey K] [Inhabited V] {slots : List (Slot K V)} {key : K}

/-! ### The slot that is found -/

/-- The loop returns a slot, and a filled one only if its key is equal. -/
theorem probe_eq_some (fuel : Nat) : ∀ (index : Nat) (tombstone : Option Nat) {j : Nat},
    index < slots.length → (∀ t, tombstone = some t → t < slots.length ∧ ¬ FilledAt slots t) →
    probe slots key fuel index tombstone = some j →
    j < slots.length ∧ (FilledAt slots j → keyEqual (slotAt slots j).key key = true) := by
  induction fuel with
  | zero =>
      intro index tombstone j _ _ h
      cases h
  | succ fuel ih =>
      intro index tombstone j hindex htomb h
      rw [probe_succ] at h
      split at h
      · cases h
      split at h
      · rename_i hk
        cases h
        exact ⟨hindex, fun _ => hk⟩
      · split at h
        · rename_i hempty
          cases h
          cases tombstone with
          | none =>
              refine ⟨hindex, fun hf => ?_⟩
              rw [Option.getD_none, FilledAt, hempty] at hf
              cases hf
          | some t => exact ⟨(htomb t rfl).1, fun hf => absurd hf (htomb t rfl).2⟩
        · refine ih _ _ (Nat.mod_lt _ (by omega)) (fun t ht => ?_) h
          split at ht
          · rename_i hstate
            cases ht
            refine ⟨hindex, ?_⟩
            rw [FilledAt, hstate]
            intro hf
            cases hf
          · exact htomb t ht

theorem findSlot_eq_some {j : Nat} (h : findSlot slots key = some j) :
    j < slots.length ∧ (FilledAt slots j → keyEqual (slotAt slots j).key key = true) := by
  have hn : 0 < slots.length := by
    by_contra hz
    rw [findSlot, Nat.eq_zero_of_not_pos hz] at h
    cases h
  exact probe_eq_some slots.length _ none (Nat.mod_lt _ hn) (fun t ht => by cases ht) h

/-- The loop ends when there is an empty slot and all keys can be compared. -/
theorem probe_isSome (hcomp : ∀ a b : K, comparable a b = true) (d : Nat) : ∀ (h fuel : Nat) (tombstone : Option Nat), d < fuel →
    (slotAt slots ((h + d) % slots.length)).state = .empty →
    (probe slots key fuel (h % slots.length) tombstone).isSome := by
  induction d with
  | zero =>
      intro h fuel tombstone hfuel hempty
      obtain ⟨fuel, rfl⟩ : ∃ m, fuel = m + 1 := ⟨fuel - 1, by omega⟩
      rw [Nat.add_zero] at hempty
      rw [probe_succ, if_neg (by simp [hcomp])]
      split
      · rfl
      · rfl
  | succ d ih =>
      intro h fuel tombstone hfuel hempty
      obtain ⟨fuel, rfl⟩ : ∃ m, fuel = m + 1 := ⟨fuel - 1, by omega⟩
      rw [probe_succ, if_neg (by simp [hcomp])]
      split
      · rfl
      · split
        · rfl
        · rw [mod_succ_mod]
          exact ih (h + 1) fuel _ (by omega) (by rwa [show h + 1 + d = h + (d + 1) by omega])

variable [LawfulHashKey K]

theorem Stored.findSlot_isSome_of_ne_nil {m : HashMap K V} (h : Stored m) (hne : m.slots ≠ [])
    (key : K) : (findSlot m.slots key).isSome := by
  obtain ⟨i, hi, hempty⟩ := h.exists_empty (List.length_pos_iff.mpr hne)
  obtain ⟨d, hd, hdi⟩ := exists_probe (hasher key) hi
  exact probe_isSome LawfulHashKey.comparable d _ _ none hd (by rw [hdi, hempty])

theorem Stored.findSlot_isSome {m : HashMap K V} (h : Stored m) (hpos : 0 < m.size) (key : K) :
    ∃ j, findSlot m.slots key = some j := by
  refine Option.isSome_iff_exists.mp (h.findSlot_isSome_of_ne_nil (fun hnil => ?_) key)
  have := h.size_eq
  rw [hnil] at this
  exact absurd this (Nat.ne_of_gt hpos)


/-- `insert_slot` does what `insert` does and returns the slot of the key. -/
theorem insertSlot_of_insert {m m' : HashMap K V} {value : V} {new : Bool}
    (h : m.insert key value = some (new, m')) :
    ∃ j, m.insertSlot key value = some (j, m') ∧ FilledAt m'.slots j ∧
      keyEqual (slotAt m'.slots j).key key = true ∧ (slotAt m'.slots j).value = value := by
  rw [HashMap.insert] at h
  rw [insertSlot]
  cases hg : m.grow with
  | none =>
      rw [hg] at h
      cases h
  | some m₁ =>
      rw [hg] at h
      simp only [Option.bind_eq_bind, Option.bind_some] at h ⊢
      cases hf : findSlot m₁.slots key with
      | none =>
          rw [hf] at h
          cases h
      | some j =>
          rw [hf] at h
          obtain ⟨hj, hkey⟩ := findSlot_eq_some hf
          simp only [Option.bind_some] at h ⊢
          cases hstate : (slotAt m₁.slots j).state with
          | empty | tombstone =>
              rw [hstate] at h
              cases h
              refine ⟨j, rfl, ?_⟩
              dsimp only [FilledAt]
              rw [slotAt_set_self hj]
              exact ⟨rfl, LawfulHashKey.refl key, rfl⟩
          | filled =>
              rw [hstate] at h
              cases h
              refine ⟨j, rfl, ?_⟩
              dsimp only [FilledAt]
              rw [slotAt_set_self hj]
              exact ⟨rfl, hkey hstate, rfl⟩

/-! ### The finite map -/

/-- Keys up to `KeyEqual`. -/
def keySetoid (K : Type) [HashKey K] [LawfulHashKey K] : Setoid K where
  r a b := keyEqual a b = true
  iseqv := ⟨LawfulHashKey.refl, LawfulHashKey.symm, LawfulHashKey.trans⟩

/-- A class of equal keys. -/
def KeyClass (K : Type) [HashKey K] [LawfulHashKey K] : Type := Quotient (keySetoid K)

/-- The class of a key. -/
def keyClass (key : K) : KeyClass K := Quotient.mk (keySetoid K) key

theorem keyClass_eq_iff {a b : K} : keyClass a = keyClass b ↔ keyEqual a b = true :=
  ⟨fun h => Quotient.exact h, fun h => Quotient.sound h⟩

instance : DecidableEq (KeyClass K) := fun a b =>
  Quotient.recOnSubsingleton₂ a b fun _ _ => decidable_of_iff _ keyClass_eq_iff.symm

/-- A finite map from keys to values. -/
abbrev FiniteMap (K V : Type) [HashKey K] [LawfulHashKey K] : Type :=
  Finmap fun _ : KeyClass K => V

/-- The operations of the table; `store` is `table[key] = value`. -/
inductive Operation (K V : Type) where
  | insert (key : K) (value : V)
  | get (key : K)
  | getRef (key : K)
  | subscript (key : K)
  | store (key : K) (value : V)
  | contains (key : K)
  | erase (key : K)
  | size
  | clear

/-- The key of an operation. -/
def Operation.key? : Operation K V → Option K
  | .insert key _ | .get key | .getRef key | .subscript key | .store key _ | .contains key
  | .erase key => some key
  | .size | .clear => none

/-- What an operation returns; a reference is the value it refers to. -/
inductive Reply (V : Type) where
  | bool (b : Bool)
  | optional (value : Option V)
  | reference (value : V)
  | size (n : Nat)
  | void
  deriving DecidableEq

omit [LawfulHashKey K] in
/-- A search for the key of the operation sees the slot that holds it; a write may also follow a
`grow`, which leaves no deleted slots. -/
def Operation.Seen (m : HashMap K V) : Operation K V → Prop
  | .insert key _ | .store key _ => Sees m.slots key ∨ WillGrow m
  | .get key | .getRef key | .subscript key | .contains key | .erase key => Sees m.slots key
  | .size | .clear => True

omit [LawfulHashKey K] in
theorem Operation.seen_of_isReal {op : Operation K V} (h : ∀ k ∈ op.key?, IsReal k)
    (m : HashMap K V) : op.Seen m := by
  cases op with
  | insert key _ | store key _ => exact .inl (.inl (h key rfl))
  | get key | getRef key | subscript key | contains key | erase key => exact .inl (h key rfl)
  | size | clear => trivial

omit [LawfulHashKey K] in
/-- An operation on a table. -/
def step (m : HashMap K V) : Operation K V → Option (Reply V × HashMap K V)
  | .insert key value => (m.insert key value).map fun (new, m) => (.bool new, m)
  | .get key => (m.get key).map fun value => (.optional value, m)
  | .getRef key => (m.getRef key).map fun (i, m) => (.reference (slotAt m.slots i).value, m)
  | .subscript key => (m.subscript key).map fun (i, m) => (.reference (slotAt m.slots i).value, m)
  | .store key value => (m.subscript key).map fun (i, m) => (.void, m.writeRef i value)
  | .contains key => (m.contains key).map fun b => (.bool b, m)
  | .erase key => (m.erase key).map fun (erased, m) => (.bool erased, m)
  | .size => some (.size m.size, m)
  | .clear => some (.void, m.clear)

/-- Operations one after the other: what they return, and the table. -/
def run (m : HashMap K V) : List (Operation K V) → Option (List (Reply V) × HashMap K V)
  | [] => some ([], m)
  | op :: ops => do
    let (reply, m) ← m.step op
    let (replies, m) ← m.run ops
    return (reply :: replies, m)

/-- The value of a key, which is inserted if it is not there. -/
def FiniteMap.reference (f : FiniteMap K V) (key : K) : Reply V × FiniteMap K V :=
  match f.lookup (keyClass key) with
  | some value => (.reference value, f)
  | none => (.reference default, f.insert (keyClass key) default)

/-- An operation on a finite map. -/
def FiniteMap.step (f : FiniteMap K V) : Operation K V → Reply V × FiniteMap K V
  | .insert key value => (.bool (decide (keyClass key ∉ f)), f.insert (keyClass key) value)
  | .get key => (.optional (f.lookup (keyClass key)), f)
  | .getRef key => FiniteMap.reference f key
  | .subscript key => FiniteMap.reference f key
  | .store key value => (.void, f.insert (keyClass key) value)
  | .contains key => (.bool (decide (keyClass key ∈ f)), f)
  | .erase key => (.bool (decide (keyClass key ∈ f)), f.erase (keyClass key))
  | .size => (.size f.keys.card, f)
  | .clear => (.void, ∅)

/-- Operations on a finite map one after the other. -/
def FiniteMap.run (f : FiniteMap K V) : List (Operation K V) → List (Reply V) × FiniteMap K V
  | [] => ([], f)
  | op :: ops =>
    let (reply, f) := FiniteMap.step f op
    let (replies, f) := FiniteMap.run f ops
    (reply :: replies, f)

/-! ### The refinement -/

/-- The table maps what the finite map maps. -/
structure Refines (m : HashMap K V) (f : FiniteMap K V) : Prop where
  stored : Stored m
  maps : ∀ k v, Maps m.slots k v ↔ f.lookup (keyClass k) = some v

namespace Refines

variable {m : HashMap K V} {f : FiniteMap K V}

theorem empty : Refines (HashMap.empty : HashMap K V) ∅ := by
  refine ⟨wellFormed_empty.stored, fun k v => ?_⟩
  rw [Finmap.lookup_empty]
  constructor
  · rintro ⟨i, hi, -⟩
    cases hi
  · intro h
    cases h

theorem absent_iff (h : Refines m f) (key : K) : Absent m.slots key ↔ keyClass key ∉ f := by
  rw [Finmap.mem_iff, not_exists]
  refine ⟨fun ha v hv => ?_, fun hn i hi => ?_⟩
  · obtain ⟨i, hi, heq, -⟩ := (h.maps key v).mpr hv
    rw [ha i hi] at heq
    cases heq
  · by_contra hk
    exact hn _ ((h.maps key _).mp ⟨i, hi, by simpa using hk, rfl⟩)

/-- The slot of a key that is there. -/
theorem slot_of_lookup (h : Refines m f) {value : V} (hv : f.lookup (keyClass key) = some value) :
    ∃ i, FilledAt m.slots i ∧ keyEqual (slotAt m.slots i).key key = true ∧
      (slotAt m.slots i).value = value := (h.maps key value).mpr hv

theorem slot_of_mem (h : Refines m f) (hmem : keyClass key ∈ f) :
    ∃ i, FilledAt m.slots i ∧ keyEqual (slotAt m.slots i).key key = true := by
  obtain ⟨v, hv⟩ := Finmap.mem_iff.mp hmem
  obtain ⟨i, hi, heq, -⟩ := h.slot_of_lookup hv
  exact ⟨i, hi, heq⟩

/-- The classes of the keys in the filled slots are the keys of the map, each once. -/
theorem keys_eq (h : Refines m f) :
    ((m.slots.filter fun s => s.state = .filled).map fun s => keyClass s.key).Nodup ∧
      ((m.slots.filter fun s => s.state = .filled).map fun s => keyClass s.key).toFinset =
        f.keys := by
  refine ⟨?_, ?_⟩
  · rw [List.nodup_iff_pairwise_ne, List.pairwise_map]
    refine h.stored.placed.pairwise.imp fun {a b} hab heq => ?_
    rw [keyClass_eq_iff.mp heq] at hab
    cases hab
  · ext c
    rw [List.mem_toFinset, Finmap.mem_keys, Finmap.mem_iff, List.mem_map]
    constructor
    · rintro ⟨s, hs, rfl⟩
      obtain ⟨hmem, hstate⟩ := List.mem_filter.mp hs
      exact ⟨s.value, (h.maps _ _).mp (maps_iff_mem.mpr
        ⟨s, hmem, by simpa using hstate, LawfulHashKey.refl _, rfl⟩)⟩
    · rintro ⟨v, hv⟩
      induction c using Quotient.inductionOn with
      | h k =>
          obtain ⟨s, hmem, hstate, heq, -⟩ := maps_iff_mem.mp ((h.maps k v).mpr hv)
          exact ⟨s, List.mem_filter.mpr ⟨hmem, by simpa using hstate⟩, keyClass_eq_iff.mpr heq⟩

/-- `size()` is the number of keys. -/
theorem size_eq (h : Refines m f) : m.size = f.keys.card := by
  obtain ⟨hnodup, hkeys⟩ := h.keys_eq
  rw [← hkeys, List.toFinset_card_of_nodup hnodup, List.length_map, h.stored.size_eq, count,
    List.countP_eq_length_filter]

omit [Inhabited V] in
/-- What is mapped after a key is mapped to a value. -/
theorem lookup_insert_iff (f : FiniteMap K V) (key : K) (value : V) (k : K) (v : V) :
    (f.insert (keyClass key) value).lookup (keyClass k) = some v ↔
      if keyEqual key k then v = value else f.lookup (keyClass k) = some v := by
  by_cases hk : keyEqual key k = true
  · rw [if_pos hk, keyClass_eq_iff.mpr hk, Finmap.lookup_insert]
    exact ⟨fun h => (Option.some.inj h).symm, fun h => congrArg some h.symm⟩
  · rw [if_neg hk, Finmap.lookup_insert_of_ne]
    exact fun h => hk (keyClass_eq_iff.mp h.symm)

theorem insert (h : Refines m f) (hsees : Sees m.slots key ∨ WillGrow m) (value : V) :
    ∃ m', m.insert key value = some (decide (keyClass key ∉ f), m') ∧
      Refines m' (f.insert (keyClass key) value) := by
  obtain ⟨new, m', hrun, hstored, hnew, hmaps⟩ := h.stored.insert hsees value
  refine ⟨m', ?_, hstored, fun k v => ?_⟩
  · rw [h.absent_iff] at hnew
    have : new = decide (keyClass key ∉ f) := by rw [Bool.eq_iff_iff, hnew, decide_eq_true_iff]
    rw [hrun, this]
  · rw [hmaps, lookup_insert_iff]
    split
    · rfl
    · exact h.maps k v

/-- A key that is not there is looked for in a slot that is not filled. -/
theorem findSlot_of_notMem (h : Refines m f) (hpos : m.size ≠ 0) (hmem : keyClass key ∉ f) :
    ∃ j, findSlot m.slots key = some j ∧ (slotAt m.slots j).state ≠ .filled :=
  h.stored.findSlot_free (Nat.pos_of_ne_zero hpos) ((h.absent_iff key).mpr hmem)

theorem get (h : Refines m f) (hsees : Sees m.slots key) :
    m.get key = some (f.lookup (keyClass key)) := by
  cases hv : f.lookup (keyClass key) with
  | some v => exact (h.stored.get_eq_some_iff hsees).mpr (h.slot_of_lookup hv)
  | none =>
      rw [HashMap.get]
      split
      · rfl
      · rename_i hpos
        obtain ⟨j, hj, hnf⟩ := h.findSlot_of_notMem hpos (Finmap.lookup_eq_none.mp hv)
        simp [hj, hnf]

theorem contains (h : Refines m f) (hsees : Sees m.slots key) :
    m.contains key = some (decide (keyClass key ∈ f)) := by
  rw [HashMap.contains]
  by_cases hmem : keyClass key ∈ f
  · obtain ⟨i, hi, heq⟩ := h.slot_of_mem hmem
    rw [if_neg (Nat.ne_of_gt (h.stored.size_pos hi)),
      findSlot_of_filled h.stored.placed hsees hi heq]
    simp [hi.state, hmem]
  · split
    · simp [hmem]
    · rename_i hpos
      obtain ⟨j, hj, hnf⟩ := h.findSlot_of_notMem hpos hmem
      simp [hj, hnf, hmem]

theorem erase (h : Refines m f) (hsees : Sees m.slots key) :
    ∃ m', m.erase key = some (decide (keyClass key ∈ f), m') ∧
      Refines m' (f.erase (keyClass key)) := by
  by_cases hmem : keyClass key ∈ f
  · obtain ⟨i, hi, heq⟩ := h.slot_of_mem hmem
    obtain ⟨hrun, hstored⟩ := h.stored.erase hsees hi heq
    refine ⟨_, by rw [hrun, decide_eq_true hmem], hstored, fun k v => ?_⟩
    by_cases hk : keyEqual key k = true
    · rw [← keyClass_eq_iff.mpr hk, Finmap.lookup_erase]
      refine ⟨?_, nofun⟩
      rintro ⟨j, hj, hjk, -⟩
      -- only the erased slot held an equal key
      by_cases hji : j = i
      · rw [hji, FilledAt, slotAt_set_self hi.lt_length] at hj
        cases hj
      · rw [FilledAt, slotAt_set_of_ne (Ne.symm hji)] at hj
        rw [slotAt_set_of_ne (Ne.symm hji)] at hjk
        exact absurd (h.stored.placed.distinct j i hj hi (LawfulHashKey.trans hjk
          (LawfulHashKey.symm (LawfulHashKey.trans heq hk)))) hji
    · rw [Finmap.lookup_erase_ne fun hc => hk (keyClass_eq_iff.mp hc.symm), ← h.maps]
      constructor
      · rintro ⟨j, hj, hjk, hv⟩
        have hji : j ≠ i := by
          rintro rfl
          rw [FilledAt, slotAt_set_self hi.lt_length] at hj
          cases hj
        dsimp only at hj hjk hv
        rw [FilledAt, slotAt_set_of_ne (Ne.symm hji)] at hj
        rw [slotAt_set_of_ne (Ne.symm hji)] at hjk hv
        exact ⟨j, hj, hjk, hv⟩
      · rintro ⟨j, hj, hjk, hv⟩
        have hji : i ≠ j := by
          rintro rfl
          exact hk (LawfulHashKey.trans (LawfulHashKey.symm heq) hjk)
        refine ⟨j, ?_⟩
        dsimp only [FilledAt]
        rw [slotAt_set_of_ne hji]
        exact ⟨hj, hjk, hv⟩
  · have hsame : f.erase (keyClass key) = f := by
      refine Finmap.ext_lookup fun c => ?_
      by_cases hc : c = keyClass key
      · rw [hc, Finmap.lookup_erase, Finmap.lookup_eq_none.mpr hmem]
      · exact Finmap.lookup_erase_ne hc
    refine ⟨m, ?_, by rw [hsame]; exact h⟩
    rw [HashMap.erase]
    split
    · simp [hmem]
    · rename_i hpos
      obtain ⟨j, hj, hnf⟩ := h.findSlot_of_notMem hpos hmem
      simp [hj, hnf, hmem]

/-- A reference to the value of a key refers to its slot. -/
theorem getRef (h : Refines m f) (hsees : Sees m.slots key) :
    ∃ i m', m.getRef key = some (i, m') ∧ Refines m' (FiniteMap.reference f key).2 ∧
      FilledAt m'.slots i ∧ keyEqual (slotAt m'.slots i).key key = true ∧
      Reply.reference (slotAt m'.slots i).value = (FiniteMap.reference f key).1 := by
  rw [FiniteMap.reference]
  cases hv : f.lookup (keyClass key) with
  | some v =>
      obtain ⟨i, hi, heq, rfl⟩ := h.slot_of_lookup hv
      refine ⟨i, m, ?_, h, hi, heq, rfl⟩
      rw [HashMap.getRef, if_neg (Nat.ne_of_gt (h.stored.size_pos hi)),
        findSlot_of_filled h.stored.placed hsees hi heq]
      simp [hi.state]
  | none =>
      obtain ⟨m', hrun, href⟩ := h.insert (.inl hsees) default
      obtain ⟨i, hslot, hi, heq, hval⟩ := insertSlot_of_insert hrun
      refine ⟨i, m', ?_, href, hi, heq, by rw [hval]⟩
      rw [HashMap.getRef]
      split
      · exact hslot
      · rename_i hpos
        obtain ⟨j, hj, hnf⟩ := h.findSlot_of_notMem hpos (Finmap.lookup_eq_none.mp hv)
        rw [hj]
        simp [hnf, hslot]

/-- A write through the reference maps the key to the value. -/
theorem writeRef (h : Refines m f) {i : Nat} (hi : FilledAt m.slots i)
    (heq : keyEqual (slotAt m.slots i).key key = true) (value : V) :
    Refines (m.writeRef i value) (f.insert (keyClass key) value) := by
  have hslot : ({ slotAt m.slots i with value := value } : Slot K V) =
      ⟨(slotAt m.slots i).key, value, .filled⟩ := by
    rw [← hi.state]
  have hcount : ∀ state, count state (m.slots.set i ⟨(slotAt m.slots i).key, value, .filled⟩) =
      count state m.slots := by
    intro state
    have := count_set hi.lt_length state (⟨(slotAt m.slots i).key, value, .filled⟩ : Slot K V)
    rw [hi.state] at this
    exact Nat.add_right_cancel this
  refine ⟨⟨?_, ?_, ?_, ?_, ?_⟩, fun k v => ?_⟩ <;> simp only [HashMap.writeRef, hslot]
  · exact h.stored.placed.setValue hi value
  · rw [hcount]
    exact h.stored.size_eq
  · rw [hcount]
    exact h.stored.tombstones_eq
  · rw [List.length_set]
    exact h.stored.capacity.imp (fun h => by rw [h]; rfl) id
  · rw [List.length_set]
    exact h.stored.load
  · rw [maps_setValue_iff h.stored.placed hi heq, lookup_insert_iff]
    split
    · rfl
    · exact h.maps k v

/-- `table[key] = value`. -/
theorem store (h : Refines m f) (hsees : Sees m.slots key ∨ WillGrow m) (value : V) :
    ∃ i m', m.subscript key = some (i, m') ∧
      Refines (m'.writeRef i value) (f.insert (keyClass key) value) := by
  -- the reference, whose value is overwritten
  obtain ⟨i, m', hrun, g, href, hi, heq, hsame⟩ : ∃ i m', m.subscript key = some (i, m') ∧
      ∃ g, Refines m' g ∧ FilledAt m'.slots i ∧ keyEqual (slotAt m'.slots i).key key = true ∧
        g.insert (keyClass key) value = f.insert (keyClass key) value := by
    rcases hsees with hsees | hgrow
    · obtain ⟨i, m', hrun, href, hi, heq, -⟩ := h.getRef hsees
      refine ⟨i, m', hrun, _, href, hi, heq, ?_⟩
      rw [FiniteMap.reference]
      cases f.lookup (keyClass key) with
      | some v => rfl
      | none => exact Finmap.insert_insert _
    · obtain ⟨m', hrun, href⟩ := h.insert (.inr hgrow) default
      obtain ⟨i, hslot, hi, heq, -⟩ := insertSlot_of_insert hrun
      rw [HashMap.subscript, HashMap.getRef]
      split
      · exact ⟨i, m', hslot, _, href, hi, heq, Finmap.insert_insert _⟩
      · rename_i hpos
        obtain ⟨j, hj⟩ := h.stored.findSlot_isSome (Nat.pos_of_ne_zero hpos) key
        rw [hj]
        by_cases hf : FilledAt m.slots j
        · exact ⟨j, m, by simp [hf.state], f, h, hf, (findSlot_eq_some hj).2 hf, rfl⟩
        · refine ⟨i, m', ?_, _, href, hi, heq, Finmap.insert_insert _⟩
          simp [show (slotAt m.slots j).state ≠ .filled from hf, hslot]
  exact ⟨i, m', hrun, hsame ▸ href.writeRef hi heq value⟩

/-- One operation. -/
theorem step (h : Refines m f) (op : Operation K V) (hsees : op.Seen m) :
    ∃ m', m.step op = some ((FiniteMap.step f op).1, m') ∧ Refines m' (FiniteMap.step f op).2 := by
  cases op with
  | insert key value =>
      obtain ⟨m', hrun, href⟩ := h.insert hsees value
      exact ⟨m', by rw [HashMap.step, hrun]; rfl, href⟩
  | get key => exact ⟨m, by rw [HashMap.step, h.get hsees]; rfl, h⟩
  | getRef key =>
      obtain ⟨i, m', hrun, href, -, -, hval⟩ := h.getRef hsees
      exact ⟨m', by rw [HashMap.step, hrun]; exact congrArg (fun r => some (r, m')) hval, href⟩
  | subscript key =>
      obtain ⟨i, m', hrun, href, -, -, hval⟩ := h.getRef hsees
      exact ⟨m', by
        rw [HashMap.step, HashMap.subscript, hrun]
        exact congrArg (fun r => some (r, m')) hval, href⟩
  | store key value =>
      obtain ⟨i, m', hrun, href⟩ := h.store hsees value
      exact ⟨_, by rw [HashMap.step, hrun]; rfl, href⟩
  | contains key => exact ⟨m, by rw [HashMap.step, h.contains hsees]; rfl, h⟩
  | erase key =>
      obtain ⟨m', hrun, href⟩ := h.erase hsees
      exact ⟨m', by rw [HashMap.step, hrun]; rfl, href⟩
  | size => exact ⟨m, by rw [HashMap.step, h.size_eq]; rfl, h⟩
  | clear => exact ⟨_, rfl, Refines.empty⟩

end Refines

/-- The condition of `Operation.Seen` holds along a run. -/
def SeenAlong : HashMap K V → List (Operation K V) → Prop
  | _, [] => True
  | m, op :: ops => op.Seen m ∧ ∀ reply m', m.step op = some (reply, m') → SeenAlong m' ops

/-- A run of operations. -/
theorem Refines.run {m : HashMap K V} {f : FiniteMap K V} (h : Refines m f)
    (ops : List (Operation K V)) (hsees : SeenAlong m ops) :
    ∃ m', m.run ops = some ((FiniteMap.run f ops).1, m') ∧ Refines m' (FiniteMap.run f ops).2 := by
  induction ops generalizing m f with
  | nil => exact ⟨m, rfl, h⟩
  | cons op ops ih =>
      obtain ⟨m₁, hstep, h₁⟩ := h.step op hsees.1
      obtain ⟨m', hrun, h'⟩ := ih h₁ (hsees.2 _ _ hstep)
      exact ⟨m', by rw [HashMap.run, hstep]; simp [hrun, FiniteMap.run], h'⟩

omit [LawfulHashKey K] in
theorem seenAlong_of_isReal {ops : List (Operation K V)}
    (hreal : ∀ op ∈ ops, ∀ k ∈ op.key?, IsReal k) (m : HashMap K V) : SeenAlong m ops := by
  induction ops generalizing m with
  | nil => trivial
  | cons op ops ih =>
      exact ⟨Operation.seen_of_isReal (hreal op List.mem_cons_self) m,
        fun _ m' _ => ih (fun op' h => hreal op' (List.mem_cons_of_mem _ h)) m'⟩

/-! ### The table without the default key -/

/-- What holds of the slots and the counters after every operation. -/
structure Invariant (m : HashMap K V) : Prop where
  distinct : ∀ i j, FilledAt m.slots i → FilledAt m.slots j →
    keyEqual (slotAt m.slots i).key (slotAt m.slots j).key = true → i = j
  reach : ∀ i, FilledAt m.slots i → ∃ d < m.slots.length,
    (hasher (slotAt m.slots i).key + d) % m.slots.length = i ∧
    ∀ e < d, (slotAt m.slots ((hasher (slotAt m.slots i).key + e) % m.slots.length)).state ≠ .empty
  used : m.size + m.tombstones = m.slots.countP fun slot => slot.state ≠ .empty
  load : m.size + m.tombstones ≤ loadBound m.slots.length
  found : ∀ key, m.slots ≠ [] → (findSlot m.slots key).isSome

theorem Stored.invariant {m : HashMap K V} (h : Stored m) : Invariant m where
  distinct := h.placed.distinct
  reach := h.placed.reach
  used := by
    have hsum := count_add_count_add_count m.slots
    have hsplit := List.length_eq_countP_add_countP
      (fun slot : Slot K V => decide (slot.state = .empty)) (l := m.slots)
    have hs := h.size_eq
    have ht := h.tombstones_eq
    simp only [decide_eq_true_eq] at hsplit
    unfold count at hsum hs ht
    simp only [ne_eq]
    omega
  load := h.load
  found key hne := h.findSlot_isSome_of_ne_nil hne key

/-- **The hash map is a finite map.**  Every run of operations from an empty table, on keys
different from the default key, returns what a finite map returns, and ends with as many entries as
it.  The default key is excluded because a slot without an entry holds it, and `find_slot` compares
the key of a slot before it looks at its state.

The table keeps its invariant along the run: no probe runs out of slots, since the load bound leaves
a slot that is neither filled nor a tombstone, and every entry is on the probe path of its key, over
tombstones and after each growth. -/
theorem run_refines (ops : List (Operation K V))
    (hreal : ∀ op ∈ ops, ∀ k ∈ op.key?, IsReal k) :
    ∃ m, (HashMap.empty : HashMap K V).run ops = some ((FiniteMap.run ∅ ops).1, m) ∧
      m.size = (FiniteMap.run ∅ ops).2.keys.card ∧ Invariant m := by
  obtain ⟨m, hrun, href⟩ := Refines.empty.run ops (seenAlong_of_isReal hreal _)
  exact ⟨m, hrun, href.size_eq, href.stored.invariant⟩

/-- The keys of `Compiler::constant_numbers`: `std::hash` of an integer is the integer. -/
instance : HashKey Int64 where
  default := 0
  keyEqual a b := a == b
  hasher a := a.toUInt64.toNat

instance : LawfulHashKey Int64 where
  refl a := beq_self_eq_true a
  symm {a b} h := by
    have hab : a = b := beq_iff_eq.mp h
    rw [hab]
    exact beq_self_eq_true b
  trans {a b c} h h' := by
    have hab : a = b := beq_iff_eq.mp h
    rwa [hab]
  hash {a b} h := by
    have hab : a = b := beq_iff_eq.mp h
    rw [hab]

/-- Two keys with one home index, and a deletion between their insertions and lookups. -/
def collisionOps : List (Operation Int64 Nat) :=
  [.insert 2 10, .insert 130 20, .erase 2, .get 130, .insert 130 30, .store 2 5, .getRef 2, .size]

theorem run_refines_collision :
    ∃ m, (HashMap.empty : HashMap Int64 Nat).run collisionOps =
        some ((FiniteMap.run ∅ collisionOps).1, m) ∧
      m.size = (FiniteMap.run ∅ collisionOps).2.keys.card ∧ Invariant m :=
  run_refines collisionOps (by
    intro op hop k hk
    simp only [collisionOps, List.mem_cons, List.not_mem_nil, or_false] at hop
    rcases hop with rfl | rfl | rfl | rfl | rfl | rfl | rfl | rfl <;> cases hk <;> unfold IsReal <;>
      decide)

end CppLox.HashMap
