import CppLox.Container.HashMap

/-!
# Containers — keys under other names

A hash table looks at its keys through `KeyEqual` and `Hash` only.  When keys get other names that
these two do not tell apart from the old ones, and values get other names too, every operation finds
the slots it would have found.
-/

namespace CppLox

namespace HashMap

section

variable {K K' : Type} [HashKey K] [HashKey K']

/-- Other names of keys. -/
structure RenamesKeys (r : K → K') : Prop where
  default : r default = default
  keyEqual : ∀ a b, keyEqual (r a) (r b) = keyEqual a b
  comparable : ∀ a b, comparable (r a) (r b) = comparable a b
  hasher : ∀ a, hasher (r a) = hasher a

end

variable {K K' V V' : Type}

/-- A slot under other names. -/
def Slot.rename (r : K → K') (s : V → V') (slot : Slot K V) : Slot K' V' :=
  ⟨r slot.key, s slot.value, slot.state⟩

/-- A table under other names. -/
def rename (r : K → K') (s : V → V') (m : HashMap K V) : HashMap K' V' :=
  ⟨m.size, m.tombstones, m.slots.map (Slot.rename r s)⟩

variable {r : K → K'} {s : V → V'} {m : HashMap K V} {slots : List (Slot K V)}

@[simp] theorem size_rename : (m.rename r s).size = m.size := rfl

@[simp] theorem tombstones_rename : (m.rename r s).tombstones = m.tombstones := rfl

@[simp] theorem slots_rename : (m.rename r s).slots = m.slots.map (Slot.rename r s) := rfl

@[simp] theorem Slot.state_rename {slot : Slot K V} : (slot.rename r s).state = slot.state := rfl

@[simp] theorem rename_empty : (HashMap.empty : HashMap K V).rename r s = HashMap.empty := rfl

/-- What is written to a slot. -/
theorem rename_setSlot (i size tombstones : Nat) (slot : Slot K V) :
    (⟨size, tombstones, (slots.map (Slot.rename r s)).set i (slot.rename r s)⟩ : HashMap K' V') =
      rename r s ⟨size, tombstones, slots.set i slot⟩ := by
  rw [rename, List.map_set]

variable [HashKey K] [HashKey K'] [Inhabited V] [Inhabited V']

theorem Slot.rename_default (hr : RenamesKeys r) (hs : s default = default) :
    (default : Slot K V).rename r s = default := by
  change (⟨r default, s default, State.empty⟩ : Slot K' V') = ⟨default, default, .empty⟩
  rw [hr.default, hs]

theorem slotAt_rename (hr : RenamesKeys r) (hs : s default = default) (i : Nat) :
    slotAt (slots.map (Slot.rename r s)) i = (slotAt slots i).rename r s := by
  rw [slotAt, slotAt, List.getD_eq_getElem?_getD, List.getD_eq_getElem?_getD, List.getElem?_map]
  cases slots[i]? with
  | none => exact (Slot.rename_default hr hs).symm
  | some slot => rfl

theorem probe_rename (hr : RenamesKeys r) (hs : s default = default) (key : K) (fuel index : Nat)
    (tombstone : Option Nat) :
    probe (slots.map (Slot.rename r s)) (r key) fuel index tombstone =
      probe slots key fuel index tombstone := by
  induction fuel generalizing index tombstone with
  | zero => rfl
  | succ fuel ih =>
      rw [probe, probe]
      simp only [slotAt_rename hr hs, Slot.state_rename, List.length_map, ih]
      rw [show (Slot.rename r s (slotAt slots index)).key = r (slotAt slots index).key from rfl,
        hr.keyEqual, hr.comparable]

@[simp] theorem findSlot_rename (hr : RenamesKeys r) (hs : s default = default) (key : K) :
    findSlot (slots.map (Slot.rename r s)) (r key) = findSlot slots key := by
  rw [findSlot, findSlot, probe_rename hr hs, List.length_map, hr.hasher]

theorem rehash_rename (hr : RenamesKeys r) (hs : s default = default)
    (newSlots slots : List (Slot K V)) :
    rehash (newSlots.map (Slot.rename r s)) (slots.map (Slot.rename r s)) =
      (rehash newSlots slots).map (List.map (Slot.rename r s)) := by
  induction slots generalizing newSlots with
  | nil => rfl
  | cons slot slots ih =>
      rw [List.map_cons, rehash, rehash, Slot.state_rename]
      split
      · rw [show (slot.rename r s).key = r slot.key from rfl, findSlot_rename hr hs]
        cases findSlot newSlots slot.key with
        | none => rfl
        | some destination =>
            change rehash _ _ = Option.map _ (rehash _ _)
            rw [← List.map_set, ih]
      · exact ih newSlots

theorem grow_rename (hr : RenamesKeys r) (hs : s default = default) :
    (m.rename r s).grow = m.grow.map (rename r s) := by
  rw [grow, grow]
  simp only [size_rename, tombstones_rename, slots_rename, List.length_map]
  split
  · rw [← Slot.rename_default hr hs, ← List.map_replicate, rehash_rename hr hs]
    cases rehash (List.replicate (max (2 * m.slots.length) minTableSize) default) m.slots <;> rfl
  · rfl

theorem insertSlot_rename (hr : RenamesKeys r) (hs : s default = default) (key : K) (value : V) :
    (m.rename r s).insertSlot (r key) (s value) =
      (m.insertSlot key value).map (Prod.map id (rename r s)) := by
  rw [insertSlot, insertSlot, grow_rename hr hs]
  cases m.grow with
  | none => rfl
  | some m =>
      change (findSlot (m.slots.map (Slot.rename r s)) (r key)).bind _ =
        Option.map _ ((findSlot m.slots key).bind _)
      rw [findSlot_rename hr hs]
      cases findSlot m.slots key with
      | none => rfl
      | some index =>
          rw [Option.bind_some, Option.bind_some]
          simp only [slots_rename, slotAt_rename hr hs, Slot.state_rename]
          cases (slotAt m.slots index).state with
          | empty =>
              exact congrArg (fun table => some (index, table))
                (rename_setSlot index _ _ ⟨key, value, .filled⟩)
          | tombstone =>
              exact congrArg (fun table => some (index, table))
                (rename_setSlot index _ _ ⟨key, value, .filled⟩)
          | filled =>
              exact congrArg (fun table => some (index, table))
                (rename_setSlot index _ _ ⟨(slotAt m.slots index).key, value, .filled⟩)

theorem subscript_rename (hr : RenamesKeys r) (hs : s default = default) (key : K) :
    (m.rename r s).subscript (r key) = (m.subscript key).map (Prod.map id (rename r s)) := by
  have hinsert : (m.rename r s).insertSlot (r key) default =
      (m.insertSlot key default).map (Prod.map id (rename r s)) := by
    rw [← hs]
    exact insertSlot_rename hr hs key default
  rw [subscript, subscript, getRef, getRef, size_rename, slots_rename, findSlot_rename hr hs, hinsert]
  split
  · rfl
  · cases findSlot m.slots key with
    | none => rfl
    | some index =>
        simp only [slotAt_rename hr hs, Slot.state_rename]
        change (if _ then _ else _) = Option.map _ (if _ then _ else _)
        split <;> rfl

theorem writeRef_rename (hr : RenamesKeys r) (hs : s default = default) (i : Nat) (value : V) :
    (m.rename r s).writeRef i (s value) = (m.writeRef i value).rename r s := by
  rw [writeRef, writeRef, slots_rename, slotAt_rename hr hs]
  exact rename_setSlot i _ _ { slotAt m.slots i with value := value }

theorem get_rename (hr : RenamesKeys r) (hs : s default = default) (key : K) :
    (m.rename r s).get (r key) = (m.get key).map (Option.map s) := by
  rw [get, get, size_rename, slots_rename, findSlot_rename hr hs]
  split
  · rfl
  · cases findSlot m.slots key with
    | none => rfl
    | some index =>
        simp only [slotAt_rename hr hs, Slot.state_rename]
        change some (if _ then _ else _) = some (Option.map s (if _ then _ else _))
        split <;> rfl

theorem contains_rename (hr : RenamesKeys r) (hs : s default = default) (key : K) :
    (m.rename r s).contains (r key) = m.contains key := by
  rw [contains, contains, size_rename, slots_rename, findSlot_rename hr hs]
  split
  · rfl
  · cases findSlot m.slots key with
    | none => rfl
    | some index =>
        simp only [slotAt_rename hr hs, Slot.state_rename]

theorem erase_rename (hr : RenamesKeys r) (hs : s default = default) (key : K) :
    (m.rename r s).erase (r key) = (m.erase key).map (Prod.map id (rename r s)) := by
  rw [erase, erase, size_rename, slots_rename, findSlot_rename hr hs]
  split
  · rfl
  · cases findSlot m.slots key with
    | none => rfl
    | some index =>
        simp only [slotAt_rename hr hs, Slot.state_rename, Option.bind_eq_bind, Option.bind_some]
        split
        · rfl
        · have hslot : (⟨default, default, .tombstone⟩ : Slot K' V') =
              Slot.rename r s ⟨default, default, .tombstone⟩ := by
            rw [Slot.rename, hr.default, hs]
          rw [hslot]
          exact congrArg (fun table => some (true, table)) (rename_setSlot index _ _ _)

end HashMap

end CppLox
