import CppLox.Container.HashMap
import Mathlib.Data.Nat.ModEq
import Mathlib.Data.Nat.Find

/-!
# Containers — probing

The invariant of a slot vector (`Placed`): slots that are not filled hold the default key, the
keys of filled slots are distinct, and every filled slot is reached from the home index of its key
without crossing an empty slot.  `Probing` adds that no filled slot holds the default key.

Under the invariant `find_slot` returns the slot of a key that is there and that a search sees
(`findSlot_of_filled`), and for a key that is not there, a free slot the probe sequence of the key
comes to (`findSlot_of_absent`).  Filling that slot and erasing a filled one keep the invariant.
-/

namespace CppLox

namespace HashMap

variable {K V : Type} [HashKey K] [Inhabited V] {slots : List (Slot K V)} {key : K}

/-- The slot at an index is filled. -/
def FilledAt (slots : List (Slot K V)) (i : Nat) : Prop := (slotAt slots i).state = .filled

/-- A key that is not equal to the default key. -/
def IsReal (key : K) : Prop := keyEqual (default : K) key = false

/-- The invariant of a slot vector, for any keys. -/
structure Placed (slots : List (Slot K V)) : Prop where
  unfilled : ∀ i, ¬ FilledAt slots i → (slotAt slots i).key = default
  distinct : ∀ i j, FilledAt slots i → FilledAt slots j →
    keyEqual (slotAt slots i).key (slotAt slots j).key = true → i = j
  reach : ∀ i, FilledAt slots i → ∃ d < slots.length,
    (hasher (slotAt slots i).key + d) % slots.length = i ∧
    ∀ e < d, (slotAt slots ((hasher (slotAt slots i).key + e) % slots.length)).state ≠ .empty

/-- The invariant of a slot vector without the default key. -/
structure Probing (slots : List (Slot K V)) : Prop extends Placed slots where
  real : ∀ i, FilledAt slots i → IsReal (slotAt slots i).key

/-- A search for the key comes to the slot that holds it.  The keys of slots that are not filled
are equal to the default key, so a search for that key stops at them. -/
def Sees (slots : List (Slot K V)) (key : K) : Prop :=
  IsReal key ∨ ∀ i, FilledAt slots i → keyEqual (slotAt slots i).key key = true →
    ∃ d < slots.length, (hasher key + d) % slots.length = i ∧
      ∀ e < d, FilledAt slots ((hasher key + e) % slots.length)

theorem slotAt_of_length_le {i : Nat} (h : slots.length ≤ i) : slotAt slots i = default := by
  simp [slotAt, List.getD_eq_getElem?_getD, List.getElem?_eq_none h]

theorem FilledAt.state {i : Nat} (h : FilledAt slots i) : (slotAt slots i).state = .filled := h

theorem FilledAt.lt_length {i : Nat} (h : FilledAt slots i) : i < slots.length := by
  by_contra hge
  rw [FilledAt, slotAt_of_length_le (Nat.le_of_not_lt hge)] at h
  cases h

theorem slotAt_set_self {i : Nat} (h : i < slots.length) (slot : Slot K V) :
    slotAt (slots.set i slot) i = slot := by
  simp [slotAt, List.getD_eq_getElem?_getD, h]

theorem slotAt_set_of_ne {i j : Nat} (h : i ≠ j) (slot : Slot K V) :
    slotAt (slots.set i slot) j = slotAt slots j := by
  simp [slotAt, List.getD_eq_getElem?_getD, List.getElem?_set_ne h]

/-! ### The probe loop -/

theorem probe_succ (fuel index : Nat) (tombstone : Option Nat) :
    probe slots key (fuel + 1) index tombstone =
      if !comparable (slotAt slots index).key key then none
      else if keyEqual (slotAt slots index).key key then some index
      else if (slotAt slots index).state = .empty then some (tombstone.getD index)
      else probe slots key fuel ((index + 1) % slots.length)
        (if (slotAt slots index).state = .tombstone then some index else tombstone) := rfl

/-- One iteration where all keys can be compared. -/
theorem probe_succ_of_lawful [LawfulHashKey K] (fuel index : Nat) (tombstone : Option Nat) :
    probe slots key (fuel + 1) index tombstone =
      if keyEqual (slotAt slots index).key key then some index
      else if (slotAt slots index).state = .empty then some (tombstone.getD index)
      else probe slots key fuel ((index + 1) % slots.length)
        (if (slotAt slots index).state = .tombstone then some index else tombstone) := by
  rw [probe_succ, if_neg (by simp [LawfulHashKey.comparable])]

theorem mod_succ_mod (h n : Nat) : (h % n + 1) % n = (h + 1) % n := by
  rw [Nat.mod_add_mod]

/-- The loop returns the first slot with an equal key. -/
theorem probe_of_found [LawfulHashKey K] (d : Nat) : ∀ (h fuel : Nat) (tombstone : Option Nat), d < fuel →
    (∀ e < d, (slotAt slots ((h + e) % slots.length)).state ≠ .empty ∧
      keyEqual (slotAt slots ((h + e) % slots.length)).key key = false) →
    keyEqual (slotAt slots ((h + d) % slots.length)).key key = true →
    probe slots key fuel (h % slots.length) tombstone = some ((h + d) % slots.length) := by
  induction d with
  | zero =>
      intro h fuel tombstone hfuel _ heq
      obtain ⟨fuel, rfl⟩ : ∃ m, fuel = m + 1 := ⟨fuel - 1, by omega⟩
      rw [Nat.add_zero] at heq ⊢
      exact (probe_succ_of_lawful fuel (h % slots.length) tombstone).trans (if_pos heq)
  | succ d ih =>
      intro h fuel tombstone hfuel hbefore heq
      obtain ⟨fuel, rfl⟩ : ∃ m, fuel = m + 1 := ⟨fuel - 1, by omega⟩
      obtain ⟨hne, hk⟩ := hbefore 0 (by omega)
      rw [Nat.add_zero] at hne hk
      have hshift : ∀ e, h + 1 + e = h + (e + 1) := fun e => by omega
      rw [probe_succ_of_lawful, if_neg (by simp [hk]), if_neg hne, mod_succ_mod, ← hshift d]
      refine ih (h + 1) fuel _ (by omega) ?_ (by rwa [hshift d])
      intro e he
      rw [hshift e]
      exact hbefore (e + 1) (by omega)

/-- The loop that comes to an empty slot before an equal key returns a slot it has passed that
is not filled. -/
theorem probe_of_empty [LawfulHashKey K] (d : Nat) : ∀ (h fuel : Nat) (tombstone : Option Nat), d < fuel →
    (∀ e ≤ d, keyEqual (slotAt slots ((h + e) % slots.length)).key key = false) →
    (∀ e < d, (slotAt slots ((h + e) % slots.length)).state ≠ .empty) →
    (slotAt slots ((h + d) % slots.length)).state = .empty →
    ∃ j, probe slots key fuel (h % slots.length) tombstone = some j ∧
      (tombstone = some j ∨
        ∃ e ≤ d, j = (h + e) % slots.length ∧ ¬ FilledAt slots j) := by
  induction d with
  | zero =>
      intro h fuel tombstone hfuel hne _ hempty
      obtain ⟨fuel, rfl⟩ : ∃ m, fuel = m + 1 := ⟨fuel - 1, by omega⟩
      have hk := hne 0 (Nat.le_refl 0)
      rw [Nat.add_zero] at hk hempty
      have hprobe : probe slots key (fuel + 1) (h % slots.length) tombstone =
          some (tombstone.getD (h % slots.length)) := by
        rw [probe_succ_of_lawful, if_neg (by simp [hk]), if_pos hempty]
      refine ⟨_, hprobe, ?_⟩
      cases tombstone with
      | none =>
          refine .inr ⟨0, Nat.le_refl 0, rfl, ?_⟩
          rw [FilledAt, Option.getD_none, hempty]
          nofun
      | some t => exact .inl rfl
  | succ d ih =>
      intro h fuel tombstone hfuel hne hbefore hempty
      obtain ⟨fuel, rfl⟩ : ∃ m, fuel = m + 1 := ⟨fuel - 1, by omega⟩
      have hk := hne 0 (by omega)
      have hstate := hbefore 0 (by omega)
      rw [Nat.add_zero] at hk hstate
      have hshift : ∀ e, h + 1 + e = h + (e + 1) := fun e => by omega
      have hprobe : probe slots key (fuel + 1) (h % slots.length) tombstone =
          probe slots key fuel ((h + 1) % slots.length)
            (if (slotAt slots (h % slots.length)).state = .tombstone
              then some (h % slots.length) else tombstone) := by
        rw [probe_succ_of_lawful, if_neg (by simp [hk]), if_neg hstate, mod_succ_mod]
      obtain ⟨j, hj, hor⟩ := ih (h + 1) fuel
        (if (slotAt slots (h % slots.length)).state = .tombstone
          then some (h % slots.length) else tombstone) (by omega)
        (fun e he => by rw [hshift e]; exact hne (e + 1) (by omega))
        (fun e he => by rw [hshift e]; exact hbefore (e + 1) (by omega))
        (by rw [hshift d]; exact hempty)
      refine ⟨j, hprobe.trans hj, ?_⟩
      rcases hor with ht | ⟨e, he, rfl, hnf⟩
      · split at ht
        · rename_i htomb
          cases ht
          refine .inr ⟨0, by omega, rfl, ?_⟩
          rw [FilledAt, htomb]
          nofun
        · exact .inl ht
      · exact .inr ⟨e + 1, by omega, by rw [hshift e], hnf⟩

/-! ### Finding a slot -/

/-- A key that is there is found, if no slot that is not filled stops the search. -/
theorem findSlot_of_path [LawfulHashKey K] (hp : Placed slots) {i d : Nat}
    (hi : FilledAt slots i) (heq : keyEqual (slotAt slots i).key key = true)
    (hd : d < slots.length) (hdi : (hasher key + d) % slots.length = i)
    (hpath : ∀ e < d, (slotAt slots ((hasher key + e) % slots.length)).state ≠ .empty)
    (hstop : ∀ e < d, ¬ FilledAt slots ((hasher key + e) % slots.length) →
      keyEqual (slotAt slots ((hasher key + e) % slots.length)).key key = false) :
    findSlot slots key = some i := by
  -- only the slot itself has an equal key, and it is not met before
  have hfirst : ∀ e < d, (hasher key + e) % slots.length ≠ i := by
    intro e he hei
    have h₁ : hasher key + e ≡ hasher key + d [MOD slots.length] := by
      rw [Nat.ModEq, hei, hdi]
    have h₂ := Nat.ModEq.add_left_cancel' _ h₁
    rw [Nat.ModEq, Nat.mod_eq_of_lt (by omega), Nat.mod_eq_of_lt hd] at h₂
    omega
  rw [findSlot, ← hdi]
  refine probe_of_found d _ _ none hd (fun e he => ⟨hpath e he, ?_⟩) (by rw [hdi]; exact heq)
  by_cases hf : FilledAt slots ((hasher key + e) % slots.length)
  · by_contra hk
    rw [Bool.not_eq_false] at hk
    exact hfirst e he (hp.distinct _ _ hf hi (LawfulHashKey.trans hk (LawfulHashKey.symm heq)))
  · exact hstop e he hf

/-- A key that is there is found. -/
theorem findSlot_of_filled [LawfulHashKey K] (hp : Placed slots) (hsees : Sees slots key) {i : Nat}
    (hi : FilledAt slots i) (heq : keyEqual (slotAt slots i).key key = true) :
    findSlot slots key = some i := by
  rcases hsees with hreal | hfilled
  · obtain ⟨d, hd, hdi, hpath⟩ := hp.reach i hi
    rw [LawfulHashKey.hash heq] at hdi hpath
    refine findSlot_of_path hp hi heq hd hdi hpath fun e _ hf => ?_
    rw [hp.unfilled _ hf]
    exact hreal
  · obtain ⟨d, hd, hdi, hpath⟩ := hfilled i hi heq
    refine findSlot_of_path hp hi heq hd hdi (fun e he => ?_) fun e he hf => absurd (hpath e he) hf
    rw [(hpath e he).state]
    nofun

/-- Every index is on every probe sequence. -/
theorem exists_probe (h : Nat) {n i : Nat} (hi : i < n) : ∃ d < n, (h + d) % n = i := by
  have hlt := Nat.mod_lt h (Nat.zero_lt_of_lt hi)
  refine ⟨(i + n - h % n) % n, Nat.mod_lt _ (Nat.zero_lt_of_lt hi), ?_⟩
  rw [Nat.add_mod_mod, ← Nat.mod_add_mod, show h % n + (i + n - h % n) = i + n by omega,
    Nat.add_mod_right, Nat.mod_eq_of_lt hi]

/-- For a key that is not there, a free slot on its probe sequence is found. -/
theorem findSlot_of_absent [LawfulHashKey K] (hp : Placed slots)
    (habsent : ∀ i, FilledAt slots i → keyEqual (slotAt slots i).key key = false)
    (hempty : ∃ i < slots.length, (slotAt slots i).state = .empty) :
    ∃ j, findSlot slots key = some j ∧ j < slots.length ∧ ¬ FilledAt slots j ∧
      ∃ d < slots.length, (hasher key + d) % slots.length = j ∧
        ∀ e < d, (slotAt slots ((hasher key + e) % slots.length)).state ≠ .empty := by
  classical
  obtain ⟨i, hi, hie⟩ := hempty
  have hn : 0 < slots.length := by omega
  obtain ⟨d₀, hd₀, hdi⟩ := exists_probe (hasher key) hi
  by_cases hreal : IsReal key
  · have hne : ∀ j, keyEqual (slotAt slots j).key key = false := by
      intro j
      by_cases hf : FilledAt slots j
      · exact habsent j hf
      · rw [hp.unfilled j hf]
        exact hreal
    -- the first empty slot of the probe sequence
    have hex : ∃ d, d < slots.length ∧
        (slotAt slots ((hasher key + d) % slots.length)).state = .empty :=
      ⟨d₀, hd₀, by rw [hdi, hie]⟩
    let d := Nat.find hex
    obtain ⟨hd, hde⟩ := Nat.find_spec hex
    have hmin : ∀ e < d, (slotAt slots ((hasher key + e) % slots.length)).state ≠ .empty :=
      fun e he hee => Nat.find_min hex he ⟨by omega, hee⟩
    obtain ⟨j, hj, hor⟩ := probe_of_empty d (hasher key) slots.length none hd
      (fun e _ => hne _) hmin hde
    rcases hor with h | ⟨e, he, hje, hnf⟩
    · cases h
    · refine ⟨j, hj, ?_, hnf, e, by omega, hje.symm, fun e' he' => hmin e' (by omega)⟩
      rw [hje]
      exact Nat.mod_lt _ hn
  · -- the default key: the first slot of the probe sequence that is not filled
    have hex : ∃ d, d < slots.length ∧ ¬ FilledAt slots ((hasher key + d) % slots.length) := by
      refine ⟨d₀, hd₀, ?_⟩
      rw [hdi, FilledAt, hie]
      nofun
    let d := Nat.find hex
    obtain ⟨hd, hdf⟩ := Nat.find_spec hex
    have hmin : ∀ e < d, FilledAt slots ((hasher key + e) % slots.length) := by
      intro e he
      by_contra hf
      exact Nat.find_min hex he ⟨by omega, hf⟩
    have hpath : ∀ e < d, (slotAt slots ((hasher key + e) % slots.length)).state ≠ .empty := by
      intro e he
      rw [(hmin e he).state]
      nofun
    refine ⟨_, probe_of_found d (hasher key) slots.length none hd
      (fun e he => ⟨hpath e he, habsent _ (hmin e he)⟩) ?_, Nat.mod_lt _ hn, hdf, d, hd, rfl, hpath⟩
    rw [hp.unfilled _ hdf]
    simpa [IsReal] using hreal

/-! ### Filling and erasing -/

/-- Erasing a filled slot. -/
theorem Placed.erase (hp : Placed slots) {i : Nat} (hi : FilledAt slots i) :
    Placed (slots.set i ⟨default, default, .tombstone⟩) := by
  have hlt := hi.lt_length
  have hself := slotAt_set_self hlt (⟨default, default, .tombstone⟩ : Slot K V)
  have hother : ∀ j, j ≠ i → slotAt (slots.set i ⟨default, default, .tombstone⟩) j =
      slotAt slots j := fun j hj => slotAt_set_of_ne (Ne.symm hj) _
  have hfilled : ∀ j, FilledAt (slots.set i ⟨default, default, .tombstone⟩) j →
      j ≠ i ∧ FilledAt slots j := by
    intro j hj
    by_cases hji : j = i
    · rw [FilledAt, hji, hself] at hj
      cases hj
    · rw [FilledAt, hother j hji] at hj
      exact ⟨hji, hj⟩
  refine ⟨fun j hj => ?_, fun j k hj hk => ?_, fun j hj => ?_⟩
  · by_cases hji : j = i
    · rw [hji, hself]
    · rw [FilledAt, hother j hji] at hj
      rw [hother j hji]
      exact hp.unfilled j hj
  · obtain ⟨hji, hfj⟩ := hfilled j hj
    obtain ⟨hki, hfk⟩ := hfilled k hk
    rw [hother j hji, hother k hki]
    exact hp.distinct j k hfj hfk
  · obtain ⟨hji, hf⟩ := hfilled j hj
    rw [hother j hji, List.length_set]
    obtain ⟨d, hd, hdj, hpath⟩ := hp.reach j hf
    refine ⟨d, hd, hdj, fun e he => ?_⟩
    by_cases hei : (hasher (slotAt slots j).key + e) % slots.length = i
    · rw [hei, hself]
      nofun
    · rw [hother _ hei]
      exact hpath e he

/-- The number of slots in a state. -/
def count (state : State) (slots : List (Slot K V)) : Nat :=
  slots.countP fun slot => slot.state = state

theorem count_set {i : Nat} (hi : i < slots.length) (state : State) (slot : Slot K V) :
    count state (slots.set i slot) + (if (slotAt slots i).state = state then 1 else 0) =
      count state slots + if slot.state = state then 1 else 0 := by
  induction slots generalizing i with
  | nil => simp at hi
  | cons s slots ih =>
      cases i with
      | zero =>
          rw [show slotAt (s :: slots) 0 = s from rfl]
          simp only [List.set_cons_zero, count, List.countP_cons, decide_eq_true_eq]
          omega
      | succ i =>
          have := ih (i := i) (by simpa using hi)
          rw [show slotAt (s :: slots) (i + 1) = slotAt slots i from rfl]
          simp only [List.set_cons_succ, count, List.countP_cons, decide_eq_true_eq] at this ⊢
          omega

theorem count_pos {i : Nat} (hi : i < slots.length) :
    0 < count (slotAt slots i).state slots := by
  rw [count, List.countP_pos_iff]
  refine ⟨slots.get ⟨i, hi⟩, List.getElem_mem hi, ?_⟩
  simp [slotAt, List.getD_eq_getElem?_getD, hi]

/-- The invariant of a table, for any keys. -/
structure Stored (m : HashMap K V) : Prop where
  placed : Placed m.slots
  size_eq : m.size = count .filled m.slots
  tombstones_eq : m.tombstones = count .tombstone m.slots
  capacity : m.slots = [] ∨ ∃ k, m.slots.length = 128 * 2 ^ k
  load : m.size + m.tombstones ≤ loadBound m.slots.length

/-- The invariant of a table without the default key. -/
structure WellFormed (m : HashMap K V) : Prop where
  probing : Probing m.slots
  size_eq : m.size = count .filled m.slots
  tombstones_eq : m.tombstones = count .tombstone m.slots
  capacity : m.slots = [] ∨ ∃ k, m.slots.length = 128 * 2 ^ k
  load : m.size + m.tombstones ≤ loadBound m.slots.length

theorem WellFormed.stored {m : HashMap K V} (h : WellFormed m) : Stored m :=
  ⟨h.probing.toPlaced, h.size_eq, h.tombstones_eq, h.capacity, h.load⟩

theorem Stored.wellFormed {m : HashMap K V} (h : Stored m)
    (hreal : ∀ i, FilledAt m.slots i → IsReal (slotAt m.slots i).key) : WellFormed m :=
  ⟨⟨h.placed, hreal⟩, h.size_eq, h.tombstones_eq, h.capacity, h.load⟩

theorem loadBound_lt {n : Nat} (h : 0 < n) : loadBound n < n := by
  rw [loadBound, Nat.div_lt_iff_lt_mul (by decide)]
  exact Nat.mul_lt_mul_of_pos_left (by decide) h

omit [HashKey K] [Inhabited V] in
theorem count_add_count_add_count (slots : List (Slot K V)) :
    count .filled slots + count .tombstone slots + count .empty slots = slots.length := by
  induction slots with
  | nil => rfl
  | cons s slots ih =>
      simp only [count, List.countP_cons, List.length_cons, decide_eq_true_eq] at ih ⊢
      cases s.state <;> simp <;> omega

/-- A table with slots has an empty one. -/
theorem Stored.exists_empty {m : HashMap K V} (h : Stored m) (hn : 0 < m.slots.length) :
    ∃ i < m.slots.length, (slotAt m.slots i).state = .empty := by
  have hsum := count_add_count_add_count m.slots
  have hload := h.load
  have hlt := loadBound_lt hn
  rw [h.size_eq, h.tombstones_eq] at hload
  have hpos : 0 < count .empty m.slots := by omega
  rw [count, List.countP_pos_iff] at hpos
  obtain ⟨slot, hmem, hstate⟩ := hpos
  obtain ⟨i, hi, hslot⟩ := List.getElem_of_mem hmem
  refine ⟨i, hi, ?_⟩
  simpa [slotAt, List.getD_eq_getElem?_getD, hi, hslot] using hstate

/-- A table with a filled slot is not empty. -/
theorem Stored.size_pos {m : HashMap K V} (h : Stored m) {i : Nat} (hi : FilledAt m.slots i) :
    0 < m.size := by
  rw [h.size_eq]
  have := count_pos hi.lt_length
  rwa [hi.state] at this

/-- A key that is not there is looked for in a slot that is not filled. -/
theorem Stored.findSlot_free [LawfulHashKey K] {m : HashMap K V} (h : Stored m) (hpos : 0 < m.size)
    (habsent : ∀ i, FilledAt m.slots i → keyEqual (slotAt m.slots i).key key = false) :
    ∃ j, findSlot m.slots key = some j ∧ ¬ FilledAt m.slots j := by
  have hn : 0 < m.slots.length := by
    by_contra hz
    have hnil : m.slots = [] := List.eq_nil_of_length_eq_zero (by omega)
    have := h.size_eq
    rw [hnil] at this
    exact absurd this (Nat.ne_of_gt hpos)
  obtain ⟨j, hj, -, hnf, -⟩ := findSlot_of_absent h.placed habsent (h.exists_empty hn)
  exact ⟨j, hj, hnf⟩

variable [LawfulHashKey K]

/-- Erasing a key that is there. -/
theorem Stored.erase {m : HashMap K V} (h : Stored m) (hsees : Sees m.slots key) {i : Nat}
    (hi : FilledAt m.slots i) (heq : keyEqual (slotAt m.slots i).key key = true) :
    m.erase key = some (true, ⟨m.size - 1, m.tombstones + 1,
        m.slots.set i ⟨default, default, .tombstone⟩⟩) ∧
      Stored ⟨m.size - 1, m.tombstones + 1,
        m.slots.set i ⟨default, default, .tombstone⟩⟩ := by
  have hlt := hi.lt_length
  have hpos := h.size_pos hi
  refine ⟨?_, ?_⟩
  · rw [HashMap.erase, if_neg (by omega), findSlot_of_filled h.placed hsees hi heq]
    simp [hi.state]
  · have hf := count_set hlt .filled (⟨default, default, .tombstone⟩ : Slot K V)
    have ht := count_set hlt .tombstone (⟨default, default, .tombstone⟩ : Slot K V)
    rw [hi.state] at hf ht
    simp only [reduceCtorEq, if_true, if_false] at hf ht
    refine ⟨h.placed.erase hi, ?_, ?_, ?_, ?_⟩
    · have := h.size_eq
      dsimp only
      omega
    · have := h.tombstones_eq
      dsimp only
      omega
    · rcases h.capacity with hnil | ⟨k, hk⟩
      · rw [hnil] at hlt
        cases hlt
      · exact .inr ⟨k, by rw [List.length_set, hk]⟩
    · have := h.load
      simp only [List.length_set]
      omega

/-- Erasing a key that is there from a table without the default key. -/
theorem WellFormed.erase {m : HashMap K V} (h : WellFormed m) {i : Nat}
    (hi : FilledAt m.slots i) (heq : keyEqual (slotAt m.slots i).key key = true) :
    m.erase key = some (true, ⟨m.size - 1, m.tombstones + 1,
        m.slots.set i ⟨default, default, .tombstone⟩⟩) ∧
      WellFormed ⟨m.size - 1, m.tombstones + 1,
        m.slots.set i ⟨default, default, .tombstone⟩⟩ := by
  have hreal : IsReal key := by
    by_contra hdef
    rw [IsReal, Bool.not_eq_false] at hdef
    have := LawfulHashKey.trans hdef (LawfulHashKey.symm heq)
    rw [h.probing.real i hi] at this
    cases this
  obtain ⟨hrun, hstored⟩ := h.stored.erase (.inl hreal) hi heq
  refine ⟨hrun, hstored.wellFormed fun j hj => ?_⟩
  have hji : j ≠ i := by
    rintro rfl
    rw [FilledAt, slotAt_set_self hi.lt_length] at hj
    cases hj
  dsimp only at hj ⊢
  rw [FilledAt, slotAt_set_of_ne (Ne.symm hji)] at hj
  rw [slotAt_set_of_ne (Ne.symm hji)]
  exact h.probing.real j hj

/-- A lookup returns the value of the filled slot with an equal key. -/
theorem Stored.get_eq_some_iff {m : HashMap K V} (h : Stored m) (hsees : Sees m.slots key)
    {value : V} : m.get key = some (some value) ↔
      ∃ i, FilledAt m.slots i ∧ keyEqual (slotAt m.slots i).key key = true ∧
        (slotAt m.slots i).value = value := by
  refine ⟨fun hget => ?_, ?_⟩
  · rw [HashMap.get] at hget
    split at hget
    · cases hget
    · rename_i hsize
      by_cases hthere : ∃ i, FilledAt m.slots i ∧ keyEqual (slotAt m.slots i).key key = true
      · obtain ⟨i, hi, heq⟩ := hthere
        refine ⟨i, hi, heq, ?_⟩
        rw [findSlot_of_filled h.placed hsees hi heq] at hget
        simpa [hi.state] using hget
      · -- the slot found for a key that is not there is not filled
        exfalso
        have habsent : ∀ i, FilledAt m.slots i → keyEqual (slotAt m.slots i).key key = false := by
          intro i hi
          by_contra hk
          exact hthere ⟨i, hi, by simpa using hk⟩
        obtain ⟨j, hj, hnf⟩ := h.findSlot_free (Nat.pos_of_ne_zero hsize) habsent
        rw [hj] at hget
        simp [show (slotAt m.slots j).state ≠ .filled from hnf] at hget
  · rintro ⟨i, hi, heq, rfl⟩
    have hpos := h.size_pos hi
    rw [HashMap.get, if_neg (by omega), findSlot_of_filled h.placed hsees hi heq]
    simp [hi.state]

/-- A lookup in a table without the default key. -/
theorem WellFormed.get_eq_some_iff {m : HashMap K V} (h : WellFormed m) (hreal : IsReal key)
    {value : V} : m.get key = some (some value) ↔
      ∃ i, FilledAt m.slots i ∧ keyEqual (slotAt m.slots i).key key = true ∧
        (slotAt m.slots i).value = value :=
  h.stored.get_eq_some_iff (.inl hreal)

end HashMap

end CppLox
