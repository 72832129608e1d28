import CppLox.Container.Agreement
import CppLox.Container.Searches

/-!
# Containers — room

A table whose counters are at least the numbers of filled and of deleted slots always has an empty
slot, so that a search in it ends if the keys it meets can be compared: `Roomy`.  This needs no law
of the equality or the hash of keys.  Every operation that comes to an end keeps it, whatever keys
it has compared (`Roomy.step`), so the tables that are built by operations have room.

Where only some keys can be compared with one another, a table of such keys is as good
(`Roomy.subscriptEnds`, `Roomy.searchEnds`): the agreement with the table that compares everything
carries the results over.
-/

namespace CppLox

namespace HashMap

variable {K V : Type} [HashKey K] [Inhabited V] {slots : List (Slot K V)} {m m' : HashMap K V}
  {key : K} {value : V} {i : Nat}

/-- The counters bound the slots that are not empty, and the load bounds the counters. -/
structure Roomy (m : HashMap K V) : Prop where
  filled : count .filled m.slots ≤ m.size
  deleted : count .tombstone m.slots ≤ m.tombstones
  capacity : m.slots = [] ∨ minTableSize ≤ m.slots.length
  load : m.size + m.tombstones ≤ loadBound m.slots.length

/-- A table that a key can be inserted in without growing. -/
structure Spare (m : HashMap K V) : Prop extends Roomy m where
  spare : m.size + 1 + m.tombstones ≤ loadBound m.slots.length

omit [HashKey K] [Inhabited V] in
/-- A table that is not empty has slots. -/
theorem Roomy.length_pos (h : Roomy m) (hsize : m.size ≠ 0) : 0 < m.slots.length := by
  by_contra hz
  have hload := h.load
  rw [Nat.eq_zero_of_not_pos hz, show loadBound 0 = 0 from rfl] at hload
  omega

/-- The new capacity takes one more key. -/
theorem loadBound_newCapacity {n : Nat} (h : n = 0 ∨ minTableSize ≤ n) :
    loadBound n + 1 ≤ loadBound (max (2 * n) minTableSize) := by
  rcases h with rfl | hn
  · exact (by decide : loadBound 0 + 1 ≤ loadBound 128)
  · have hmax : max (2 * n) minTableSize = 2 * n := by omega
    have hone : loadBound 128 ≤ loadBound n := loadBound_mono hn
    have hpos : 1 ≤ loadBound 128 := by decide
    have hdouble := loadBound_double n
    rw [hmax]
    omega

/-! ### Operations keep room -/

/-- The new slots of a growth that came to its end. -/
theorem rehash_counts (rest : List (Slot K V)) : ∀ slots result : List (Slot K V),
    count .tombstone slots = 0 → rehash slots rest = some result →
    result.length = slots.length ∧ count .tombstone result = 0 ∧
      count .filled result ≤ count .filled slots + count .filled rest := by
  induction rest with
  | nil =>
      intro slots result ht hrun
      obtain rfl := Option.some.inj hrun
      exact ⟨rfl, ht, Nat.le_add_right _ _⟩
  | cons slot rest ih =>
      intro slots result ht hrun
      unfold rehash at hrun
      by_cases hfilled : slot.state = .filled
      · have hcons : count .filled (slot :: rest) = count .filled rest + 1 := by
          simp [count, hfilled]
        rw [if_pos hfilled] at hrun
        obtain ⟨j, hj, hrun⟩ := Option.bind_eq_some_iff.mp hrun
        have hlt := (findSlot_eq_some hj).1
        have hcf := count_set hlt .filled slot
        have hct := count_set hlt .tombstone slot
        rw [if_pos hfilled] at hcf
        rw [hfilled, if_neg (by decide : State.filled ≠ .tombstone)] at hct
        obtain ⟨hlength, ht', hcount⟩ := ih (slots.set j slot) result (by omega) hrun
        exact ⟨hlength.trans List.length_set, ht', by omega⟩
      · have hcons : count .filled (slot :: rest) = count .filled rest := by
          simp [count, hfilled]
        rw [if_neg hfilled] at hrun
        rw [hcons]
        exact ih slots result ht hrun

/-- After `grow` a key can be inserted without growing. -/
theorem Roomy.grow (h : Roomy m) (hrun : m.grow = some m') : Spare m' := by
  unfold HashMap.grow at hrun
  split at hrun
  · obtain ⟨slots, hslots, hrun⟩ := Option.bind_eq_some_iff.mp hrun
    obtain rfl := Option.some.inj hrun
    have hnew := loadBound_newCapacity (h.capacity.imp (congrArg List.length) id)
    have hfilled := h.filled
    have hload := h.load
    have hcf := count_replicate (K := K) (V := V) (max (2 * m.slots.length) minTableSize) .filled
    have hct := count_replicate (K := K) (V := V) (max (2 * m.slots.length) minTableSize)
      .tombstone
    rw [if_neg (by nofun)] at hcf hct
    obtain ⟨hlength, ht, hcount⟩ := rehash_counts m.slots _ slots hct hslots
    rw [List.length_replicate] at hlength
    rw [hcf, Nat.zero_add] at hcount
    refine ⟨⟨Nat.le_trans hcount hfilled, Nat.le_of_eq ht, .inr ?_, ?_⟩, ?_⟩
    · rw [hlength]
      exact Nat.le_max_right _ _
    · show m.size + 0 ≤ loadBound slots.length
      rw [hlength]
      omega
    · show m.size + 1 + 0 ≤ loadBound slots.length
      rw [hlength]
      omega
  · obtain rfl := Option.some.inj hrun
    exact ⟨h, by omega⟩

omit [HashKey K] [Inhabited V] in
theorem Spare.length_pos (h : Spare m) : 0 < m.slots.length := by
  by_contra hz
  have hspare := h.spare
  rw [Nat.eq_zero_of_not_pos hz, show loadBound 0 = 0 from rfl] at hspare
  omega

theorem Spare.fill (h : Spare m) (hi : i < m.slots.length) (hstate : (slotAt m.slots i).state = .empty)
    (key : K) (value : V) :
    Roomy { m with slots := m.slots.set i ⟨key, value, .filled⟩, size := m.size + 1 } := by
  have hcf := count_set hi .filled ⟨key, value, .filled⟩
  have hct := count_set hi .tombstone ⟨key, value, .filled⟩
  rw [hstate] at hcf hct
  simp only [reduceCtorEq, if_false, if_true, Nat.add_zero] at hcf hct
  have hfilled := h.filled
  have hspare := h.spare
  refine ⟨by dsimp only; omega, by rw [hct]; exact h.deleted, ?_, by simp only [List.length_set]; omega⟩
  rcases h.capacity with hnil | hcap
  · exact absurd h.length_pos (by rw [hnil]; nofun)
  · exact .inr (by rwa [List.length_set])

theorem Spare.reuse (h : Spare m) (hi : i < m.slots.length)
    (hstate : (slotAt m.slots i).state = .tombstone) (key : K) (value : V) :
    Roomy (⟨m.size + 1, m.tombstones - 1, m.slots.set i ⟨key, value, .filled⟩⟩ : HashMap K V) := by
  have hcf := count_set hi .filled ⟨key, value, .filled⟩
  have hct := count_set hi .tombstone ⟨key, value, .filled⟩
  rw [hstate] at hcf hct
  simp only [reduceCtorEq, if_false, if_true, Nat.add_zero] at hcf hct
  have hfilled := h.filled
  have hdeleted := h.deleted
  have hspare := h.spare
  refine ⟨by dsimp only; omega, by dsimp only; omega, ?_, by simp only [List.length_set]; omega⟩
  rcases h.capacity with hnil | hcap
  · exact absurd h.length_pos (by rw [hnil]; nofun)
  · exact .inr (by rwa [List.length_set])

/-- A write to a slot that keeps its state. -/
theorem Roomy.setValue (h : Roomy m) (slot : Slot K V) (hstate : slot.state = (slotAt m.slots i).state) :
    Roomy { m with slots := m.slots.set i slot } := by
  by_cases hi : i < m.slots.length
  · have hcf := count_set hi .filled slot
    have hct := count_set hi .tombstone slot
    rw [hstate] at hcf hct
    refine ⟨?_, ?_, ?_, by simpa only [List.length_set] using h.load⟩
    · rw [Nat.add_right_cancel hcf]
      exact h.filled
    · rw [Nat.add_right_cancel hct]
      exact h.deleted
    · refine h.capacity.imp (fun hnil => ?_) (fun hcap => by rwa [List.length_set])
      rw [hnil] at hi
      cases hi
  · rwa [List.set_eq_of_length_le (Nat.le_of_not_lt hi)]

theorem Roomy.writeRef (h : Roomy m) (i : Nat) (value : V) : Roomy (m.writeRef i value) :=
  h.setValue _ rfl

theorem Roomy.insertSlot (h : Roomy m) (hrun : m.insertSlot key value = some (i, m')) : Roomy m' := by
  unfold HashMap.insertSlot at hrun
  obtain ⟨m₁, hgrow, hrun⟩ := Option.bind_eq_some_iff.mp hrun
  obtain ⟨j, hj, hrun⟩ := Option.bind_eq_some_iff.mp hrun
  have hspare := h.grow hgrow
  have hlt := (findSlot_eq_some hj).1
  dsimp only at hrun
  split at hrun
  · rename_i hstate
    cases hrun
    exact hspare.fill hlt hstate key value
  · rename_i hstate
    cases hrun
    exact hspare.reuse hlt hstate key value
  · cases hrun
    exact hspare.toRoomy.setValue _ rfl

/-- `insert` leaves the table that `insert_slot` leaves. -/
theorem exists_insertSlot {new : Bool} (hrun : m.insert key value = some (new, m')) :
    ∃ j, m.insertSlot key value = some (j, m') := by
  unfold HashMap.insert at hrun
  obtain ⟨m₁, hgrow, hrun⟩ := Option.bind_eq_some_iff.mp hrun
  obtain ⟨j, hj, hrun⟩ := Option.bind_eq_some_iff.mp hrun
  refine ⟨j, ?_⟩
  unfold HashMap.insertSlot
  rw [hgrow]
  simp only [Option.bind_eq_bind, Option.bind_some, hj]
  dsimp only at hrun
  split at hrun <;> cases hrun <;> rfl

theorem Roomy.insert {new : Bool} (h : Roomy m) (hrun : m.insert key value = some (new, m')) :
    Roomy m' := by
  obtain ⟨j, hslot⟩ := exists_insertSlot hrun
  exact h.insertSlot hslot

theorem Roomy.getRef (h : Roomy m) (hrun : m.getRef key = some (i, m')) : Roomy m' := by
  unfold HashMap.getRef at hrun
  split at hrun
  · exact h.insertSlot hrun
  · obtain ⟨j, -, hrun⟩ := Option.bind_eq_some_iff.mp hrun
    split at hrun
    · exact h.insertSlot hrun
    · cases hrun
      exact h

theorem Roomy.erase {erased : Bool} (h : Roomy m) (hrun : m.erase key = some (erased, m')) :
    Roomy m' := by
  unfold HashMap.erase at hrun
  split at hrun
  · cases hrun
    exact h
  · obtain ⟨j, hj, hrun⟩ := Option.bind_eq_some_iff.mp hrun
    have hlt := (findSlot_eq_some hj).1
    split at hrun
    · cases hrun
      exact h
    · rename_i hstate
      rw [not_not] at hstate
      cases hrun
      have hcf := count_set hlt .filled (⟨default, default, .tombstone⟩ : Slot K V)
      have hct := count_set hlt .tombstone (⟨default, default, .tombstone⟩ : Slot K V)
      rw [hstate] at hcf hct
      simp only [reduceCtorEq, if_false, if_true, Nat.add_zero] at hcf hct
      have hfilled := h.filled
      have hdeleted := h.deleted
      have hload := h.load
      refine ⟨by dsimp only; omega, by dsimp only; omega, ?_, by simp only [List.length_set]; omega⟩
      refine h.capacity.imp (fun hnil => ?_) (fun hcap => by rwa [List.length_set])
      rw [hnil] at hlt
      cases hlt

omit [HashKey K] [Inhabited V] in
theorem roomy_empty : Roomy (HashMap.empty : HashMap K V) :=
  ⟨Nat.le_refl 0, Nat.le_refl 0, .inl rfl, Nat.zero_le _⟩

/-- One operation, under any equality and hash of keys. -/
theorem Roomy.step (h : Roomy m) {op : Operation K V} {reply : Reply V}
    (hrun : m.step op = some (reply, m')) : Roomy m' := by
  cases op with
  | insert key value =>
      obtain ⟨⟨new, m₁⟩, hinsert, heq⟩ := Option.map_eq_some_iff.mp hrun
      cases heq
      exact h.insert hinsert
  | getRef key | subscript key =>
      obtain ⟨⟨i, m₁⟩, href, heq⟩ := Option.map_eq_some_iff.mp hrun
      cases heq
      exact h.getRef href
  | store key value =>
      obtain ⟨⟨i, m₁⟩, href, heq⟩ := Option.map_eq_some_iff.mp hrun
      cases heq
      exact (Roomy.getRef h href).writeRef i value
  | erase key =>
      obtain ⟨⟨erased, m₁⟩, herase, heq⟩ := Option.map_eq_some_iff.mp hrun
      cases heq
      exact h.erase herase
  | get key | contains key =>
      obtain ⟨r, -, heq⟩ := Option.map_eq_some_iff.mp hrun
      cases heq
      exact h
  | size =>
      cases hrun
      exact h
  | clear =>
      cases hrun
      exact roomy_empty

/-- **The tables that operations build have room**, whether or not their keys obey any law. -/
theorem roomy_of_run (ops : List (Operation K V)) {replies : List (Reply V)}
    (hrun : (HashMap.empty : HashMap K V).run ops = some (replies, m)) : Roomy m := by
  suffices hroomy : ∀ m₀ : HashMap K V, Roomy m₀ → ∀ replies, m₀.run ops = some (replies, m) →
      Roomy m from hroomy _ roomy_empty replies hrun
  clear hrun
  induction ops with
  | nil =>
      intro m₀ h replies hrun
      cases hrun
      exact h
  | cons op ops ih =>
      intro m₀ h replies hrun
      obtain ⟨⟨reply, m₁⟩, hstep, hrun⟩ := Option.bind_eq_some_iff.mp hrun
      obtain ⟨⟨rest, m₂⟩, hrun, heq⟩ := Option.bind_eq_some_iff.mp hrun
      cases heq
      exact ih m₁ (h.step hstep) rest hrun

/-! ### Searches end where there is room -/

section Searches

variable (hcomp : ∀ a b : K, comparable a b = true)

include hcomp

theorem findSlot_isSome_of_count
    (h : count .filled slots + count .tombstone slots < slots.length) (key : K) :
    (findSlot slots key).isSome := by
  obtain ⟨i, hi, hempty⟩ := exists_empty_of_count h
  obtain ⟨d, hd, hdi⟩ := exists_probe (hasher key) hi
  exact probe_isSome hcomp d _ _ none hd (by rw [hdi, hempty])

theorem Roomy.findSlot_isSome (h : Roomy m) (hpos : 0 < m.slots.length) (key : K) :
    (findSlot m.slots key).isSome := by
  have hfilled := h.filled
  have hdeleted := h.deleted
  have hload := h.load
  have hlt := loadBound_lt hpos
  exact findSlot_isSome_of_count hcomp (by omega) key

/-- `rehash` ends when the new slots hold the old ones and one more is empty. -/
theorem rehash_isSome (rest : List (Slot K V)) : ∀ slots : List (Slot K V),
    count .tombstone slots = 0 → count .filled slots + count .filled rest < slots.length →
    (rehash slots rest).isSome := by
  induction rest with
  | nil => exact fun _ _ _ => rfl
  | cons slot rest ih =>
      intro slots ht hroom
      unfold rehash
      by_cases hfilled : slot.state = .filled
      · have hcons : count .filled (slot :: rest) = count .filled rest + 1 := by
          simp [count, hfilled]
        obtain ⟨j, hj⟩ := Option.isSome_iff_exists.mp
          (@findSlot_isSome_of_count K V _ _ slots hcomp (by omega) slot.key)
        have hlt := (findSlot_eq_some hj).1
        have hcf := count_set hlt .filled slot
        have hct := count_set hlt .tombstone slot
        rw [if_pos hfilled] at hcf
        rw [hfilled, if_neg (by decide : State.filled ≠ .tombstone)] at hct
        rw [if_pos hfilled, hj]
        exact ih (slots.set j slot) (by omega) (by rw [List.length_set]; omega)
      · have hcons : count .filled (slot :: rest) = count .filled rest := by
          simp [count, hfilled]
        rw [if_neg hfilled]
        exact ih slots ht (by omega)

theorem Roomy.grow_isSome (h : Roomy m) : m.grow.isSome := by
  unfold HashMap.grow
  split
  · have hcapacity : 0 < max (2 * m.slots.length) minTableSize :=
      Nat.lt_of_lt_of_le (by decide) (Nat.le_max_right _ minTableSize)
    have hlt := loadBound_lt hcapacity
    have hnew := loadBound_newCapacity (h.capacity.imp (congrArg List.length) id)
    have hfilled := h.filled
    have hload := h.load
    have hcf := count_replicate (K := K) (V := V) (max (2 * m.slots.length) minTableSize) .filled
    have hct := count_replicate (K := K) (V := V) (max (2 * m.slots.length) minTableSize)
      .tombstone
    rw [if_neg (by nofun)] at hcf hct
    obtain ⟨slots, hslots⟩ := Option.isSome_iff_exists.mp (rehash_isSome hcomp m.slots
      (List.replicate (max (2 * m.slots.length) minTableSize) default) hct
      (by rw [List.length_replicate, hcf]; omega))
    dsimp only
    rw [hslots]
    rfl
  · rfl

theorem Roomy.insertSlot_isSome (h : Roomy m) (key : K) (value : V) :
    (m.insertSlot key value).isSome := by
  obtain ⟨m₁, hgrow⟩ := Option.isSome_iff_exists.mp (h.grow_isSome hcomp)
  have hspare := h.grow hgrow
  obtain ⟨j, hj⟩ := Option.isSome_iff_exists.mp (hspare.findSlot_isSome hcomp hspare.length_pos key)
  unfold HashMap.insertSlot
  rw [hgrow]
  simp only [Option.bind_eq_bind, Option.bind_some, hj]
  split <;> rfl

theorem Roomy.subscript_isSome (h : Roomy m) (key : K) : (m.subscript key).isSome := by
  unfold HashMap.subscript HashMap.getRef
  split
  · exact h.insertSlot_isSome hcomp key default
  · rename_i hsize
    obtain ⟨j, hj⟩ := Option.isSome_iff_exists.mp (h.findSlot_isSome hcomp (h.length_pos hsize) key)
    simp only [Option.bind_eq_bind, hj, Option.bind_some]
    split
    · exact h.insertSlot_isSome hcomp key default
    · rfl

end Searches

/-! ### Keys that can be compared -/

/-- The same equality and hash, with every comparison defined. -/
@[reducible] def total (I : HashKey K) : HashKey K := { I with comparable := fun _ _ => true }

variable {S : K → Prop} (hdefault : S default) (hS : ∀ a b, S a → S b → comparable a b = true)

include hdefault hS

theorem agreeOn_total : HashKey.AgreeOn (inferInstanceAs (HashKey K)) (total inferInstance) S :=
  ⟨rfl, hdefault, fun _ _ _ _ => rfl, fun a b ha hb => hS a b ha hb, fun _ _ => rfl⟩

/-- A search in a table of keys that can be compared. -/
theorem Roomy.searchEnds (h : Roomy m) (hsize : m.size ≠ 0) (hkeys : KeysIn S m.slots) (hkey : S key) :
    SearchEnds m.slots key := by
  have hagree := agreeOn_total hdefault hS
  rw [← findSlot_isSome_iff, findSlot_agree hagree hkeys hkey]
  exact @Roomy.findSlot_isSome K V (total inferInstance) _ m (fun _ _ => rfl) h
    (h.length_pos hsize) key

/-- A key is set in a table of keys that can be compared with it and with one another. -/
theorem Roomy.subscriptEnds (h : Roomy m) (hkeys : KeysIn S m.slots) (hkey : S key) :
    SubscriptEnds m key := by
  have hagree := agreeOn_total hdefault hS
  have hends := @Roomy.subscript_isSome K V (total inferInstance) _ m (fun _ _ => rfl) h key
  have heq := (getRef_agree hagree hkeys hkey).1
  rw [← subscript_isSome_iff]
  exact (congrArg Option.isSome heq).trans hends

end HashMap

end CppLox
