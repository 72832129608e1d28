import CppLox.Container.Probing

/-!
# Containers — inserting and growing

Filling a free slot of a key's probe sequence keeps the invariant of the slot vector, so
`rehash`, `grow` and `insert` keep that of the table.  `Maps slots key value` says that a filled
slot holds `value` under a key equal to `key`; `grow` does not change what a table maps, and
`insert` changes it at the key.
-/

namespace CppLox.HashMap

variable {K V : Type} [HashKey K] [Inhabited V] {slots : List (Slot K V)} {key : K}

/-- A filled slot holds `value` under a key equal to `key`. -/
def Maps (slots : List (Slot K V)) (key : K) (value : V) : Prop :=
  ∃ i, FilledAt slots i ∧ keyEqual (slotAt slots i).key key = true ∧
    (slotAt slots i).value = value

/-- No filled slot holds a key equal to `key`. -/
def Absent (slots : List (Slot K V)) (key : K) : Prop :=
  ∀ i, FilledAt slots i → keyEqual (slotAt slots i).key key = false

/-! ### Filling a slot -/

theorem filledAt_set_iff {i j : Nat} (hi : i < slots.length) {slot : Slot K V}
    (hs : slot.state = .filled) :
    FilledAt (slots.set i slot) j ↔ j = i ∨ FilledAt slots j := by
  by_cases hji : j = i
  · subst hji
    simp [FilledAt, slotAt_set_self hi, hs]
  · simp [FilledAt, slotAt_set_of_ne (Ne.symm hji), hji]

/-- Filling a free slot on the probe sequence of a new key. -/
theorem Placed.fill [LawfulHashKey K] (hp : Placed slots) {j d : Nat} (hj : j < slots.length)
    (habsent : Absent slots key)
    (hd : d < slots.length) (hdj : (hasher key + d) % slots.length = j)
    (hpath : ∀ e < d, (slotAt slots ((hasher key + e) % slots.length)).state ≠ .empty)
    (value : V) : Placed (slots.set j ⟨key, value, .filled⟩) := by
  have hself := slotAt_set_self hj (⟨key, value, .filled⟩ : Slot K V)
  have hother : ∀ i, i ≠ j → slotAt (slots.set j ⟨key, value, .filled⟩) i = slotAt slots i :=
    fun i hi => slotAt_set_of_ne (Ne.symm hi) _
  have hfilled : ∀ i, FilledAt (slots.set j ⟨key, value, .filled⟩) i → i ≠ j →
      FilledAt slots i := fun i hi hij => ((filledAt_set_iff hj rfl).mp hi).resolve_left hij
  -- no slot that was not empty becomes empty
  have hnonempty : ∀ i, (slotAt slots i).state ≠ .empty →
      (slotAt (slots.set j ⟨key, value, .filled⟩) i).state ≠ .empty := by
    intro i hi
    by_cases hij : i = j
    · rw [hij, hself]
      nofun
    · rwa [hother i hij]
  refine ⟨fun i hi => ?_, fun i k hi hk heq => ?_, fun i hi => ?_⟩
  · rw [filledAt_set_iff hj rfl, not_or] at hi
    rw [hother i hi.1]
    exact hp.unfilled i hi.2
  · by_cases hij : i = j
    · by_cases hkj : k = j
      · rw [hij, hkj]
      · rw [hij, hself, hother k hkj] at heq
        have := habsent k (hfilled k hk hkj)
        rw [LawfulHashKey.symm heq] at this
        cases this
    · by_cases hkj : k = j
      · rw [hkj, hself, hother i hij] at heq
        have := habsent i (hfilled i hi hij)
        rw [heq] at this
        cases this
      · rw [hother i hij, hother k hkj] at heq
        exact hp.distinct i k (hfilled i hi hij) (hfilled k hk hkj) heq
  · rw [List.length_set]
    by_cases hij : i = j
    · rw [hij, hself]
      exact ⟨d, hd, hdj, fun e he => hnonempty _ (hpath e he)⟩
    · rw [hother i hij]
      obtain ⟨d', hd', hdi, hpath'⟩ := hp.reach i (hfilled i hi hij)
      exact ⟨d', hd', hdi, fun e he => hnonempty _ (hpath' e he)⟩

/-- Replacing the value of a filled slot. -/
theorem Placed.setValue (hp : Placed slots) {j : Nat} (hj : FilledAt slots j) (value : V) :
    Placed (slots.set j ⟨(slotAt slots j).key, value, .filled⟩) := by
  have hlt := hj.lt_length
  have hkey : ∀ i, (slotAt (slots.set j ⟨(slotAt slots j).key, value, .filled⟩) i).key =
      (slotAt slots i).key := by
    intro i
    by_cases hij : i = j
    · rw [hij, slotAt_set_self hlt]
    · rw [slotAt_set_of_ne (Ne.symm hij)]
  have hstate : ∀ i, (slotAt (slots.set j ⟨(slotAt slots j).key, value, .filled⟩) i).state =
      (slotAt slots i).state := by
    intro i
    by_cases hij : i = j
    · rw [hij, slotAt_set_self hlt, hj.state]
    · rw [slotAt_set_of_ne (Ne.symm hij)]
  refine ⟨fun i hi => ?_, fun i k hi hk heq => ?_, fun i hi => ?_⟩
  · rw [FilledAt, hstate] at hi
    rw [hkey]
    exact hp.unfilled i hi
  · rw [FilledAt, hstate] at hi hk
    rw [hkey, hkey] at heq
    exact hp.distinct i k hi hk heq
  · rw [FilledAt, hstate] at hi
    simp only [List.length_set, hkey, hstate]
    exact hp.reach i hi

theorem maps_fill_iff {j : Nat} (hj : j < slots.length) (hfree : ¬ FilledAt slots j)
    (key : K) (value : V) (k : K) (v : V) :
    Maps (slots.set j ⟨key, value, .filled⟩) k v ↔
      (keyEqual key k = true ∧ value = v) ∨ Maps slots k v := by
  constructor
  · rintro ⟨i, hi, heq, hv⟩
    by_cases hij : i = j
    · rw [hij, slotAt_set_self hj] at heq hv
      exact .inl ⟨heq, hv⟩
    · have hi' := ((filledAt_set_iff hj rfl).mp hi).resolve_left hij
      rw [slotAt_set_of_ne (Ne.symm hij)] at heq hv
      exact .inr ⟨i, hi', heq, hv⟩
  · rintro (⟨heq, hv⟩ | ⟨i, hi, heq, hv⟩)
    · refine ⟨j, (filledAt_set_iff hj rfl).mpr (.inl rfl), ?_⟩
      rw [slotAt_set_self hj]
      exact ⟨heq, hv⟩
    · have hij : i ≠ j := fun e => hfree (e ▸ hi)
      refine ⟨i, (filledAt_set_iff hj rfl).mpr (.inr hi), ?_⟩
      rw [slotAt_set_of_ne (Ne.symm hij)]
      exact ⟨heq, hv⟩

theorem maps_setValue_iff [LawfulHashKey K] (hp : Placed slots) {i : Nat}
    (hi : FilledAt slots i) (heq : keyEqual (slotAt slots i).key key = true) (value : V) (k : K)
    (v : V) : Maps (slots.set i ⟨(slotAt slots i).key, value, .filled⟩) k v ↔
      if keyEqual key k then v = value else Maps slots k v := by
  have hlt := hi.lt_length
  have hslot := slotAt_set_self hlt (⟨(slotAt slots i).key, value, .filled⟩ : Slot K V)
  constructor
  · rintro ⟨j, hj, hjk, hv⟩
    by_cases hji : j = i
    · rw [hji, hslot] at hjk hv
      rw [if_pos (LawfulHashKey.trans (LawfulHashKey.symm heq) hjk)]
      exact hv.symm
    · have hj' := ((filledAt_set_iff hlt rfl).mp hj).resolve_left hji
      rw [slotAt_set_of_ne (Ne.symm hji)] at hjk hv
      rw [if_neg]
      · exact ⟨j, hj', hjk, hv⟩
      · intro hk
        have := hp.distinct i j hi hj'
          (LawfulHashKey.trans (LawfulHashKey.trans heq hk) (LawfulHashKey.symm hjk))
        exact hji this.symm
  · intro hm
    by_cases hk : keyEqual key k = true
    · rw [if_pos hk] at hm
      refine ⟨i, (filledAt_set_iff hlt rfl).mpr (.inl rfl), ?_⟩
      rw [hslot]
      exact ⟨LawfulHashKey.trans heq hk, hm.symm⟩
    · rw [if_neg hk] at hm
      obtain ⟨j, hj, hjk, hv⟩ := hm
      have hji : j ≠ i := by
        rintro rfl
        exact hk (LawfulHashKey.trans (LawfulHashKey.symm heq) hjk)
      refine ⟨j, (filledAt_set_iff hlt rfl).mpr (.inr hj), ?_⟩
      rw [slotAt_set_of_ne (Ne.symm hji)]
      exact ⟨hjk, hv⟩

/-! ### Growing -/

theorem slotAt_replicate (n i : Nat) :
    slotAt (List.replicate n (default : Slot K V)) i = default := by
  rw [slotAt, List.getD_eq_getElem?_getD, List.getElem?_replicate]
  split <;> rfl

theorem not_filledAt_replicate (n i : Nat) :
    ¬ FilledAt (List.replicate n (default : Slot K V)) i := by
  rw [FilledAt, slotAt_replicate]
  intro h
  cases h

theorem placed_replicate (n : Nat) : Placed (List.replicate n (default : Slot K V)) :=
  ⟨fun i _ => by rw [slotAt_replicate]; rfl,
    fun i _ h => absurd h (not_filledAt_replicate n i),
    fun i h => absurd h (not_filledAt_replicate n i)⟩

theorem count_replicate (n : Nat) (state : State) :
    count state (List.replicate n (default : Slot K V)) = if state = .empty then n else 0 := by
  rw [count, List.countP_replicate]
  have hd : (default : Slot K V).state = .empty := rfl
  rw [hd]
  cases state <;> rfl

/-- A slot vector with fewer filled slots than slots and no tombstone has an empty slot. -/
theorem exists_empty_of_count (h : count .filled slots + count .tombstone slots < slots.length) :
    ∃ i < slots.length, (slotAt slots i).state = .empty := by
  have hsum := count_add_count_add_count slots
  have hpos : 0 < count .empty slots := by omega
  rw [count, List.countP_pos_iff] at hpos
  obtain ⟨slot, hmem, hstate⟩ := hpos
  obtain ⟨i, hi, hslot⟩ := List.getElem_of_mem hmem
  refine ⟨i, hi, ?_⟩
  simpa [slotAt, List.getD_eq_getElem?_getD, hi, hslot] using hstate

/-- `rehash` moves the filled slots of `rest` to `slots`. -/
theorem rehash_spec [LawfulHashKey K] (rest : List (Slot K V)) : ∀ slots : List (Slot K V),
    Placed slots → count .tombstone slots = 0 →
    count .filled slots + count .filled rest < slots.length →
    (∀ s ∈ rest, s.state = .filled → Absent slots s.key) →
    (rest.filter fun s => s.state = .filled).Pairwise (fun a b => keyEqual a.key b.key = false) →
    ∃ slots', rehash slots rest = some slots' ∧ Placed slots' ∧
      slots'.length = slots.length ∧ count .tombstone slots' = 0 ∧
      count .filled slots' = count .filled slots + count .filled rest ∧
      ∀ k v, Maps slots' k v ↔ Maps slots k v ∨
        ∃ s ∈ rest, s.state = .filled ∧ keyEqual s.key k = true ∧ s.value = v := by
  induction rest with
  | nil =>
      intro slots hp ht _ _ _
      exact ⟨slots, rfl, hp, rfl, ht, rfl, by simp⟩
  | cons s rest ih =>
      intro slots hp ht hcount hnew hpair
      rw [rehash]
      by_cases hs : s.state = .filled
      · have habsent := hnew s List.mem_cons_self hs
        have hrest : count .filled (s :: rest) = count .filled rest + 1 := by
          simp [count, hs]
        obtain ⟨j, hfind, hj, hfree, d, hd, hdj, hpath⟩ := findSlot_of_absent hp habsent
          (exists_empty_of_count (by omega))
        have hslot : s = ⟨s.key, s.value, .filled⟩ := by
          rw [← hs]
        have hp' := hp.fill hj habsent hd hdj hpath s.value
        rw [← hslot] at hp'
        -- the new table has no deleted slots, so the free slot that is found is empty
        have hstate : (slotAt slots j).state = .empty := by
          have hnt : (slotAt slots j).state ≠ .tombstone := by
            intro h
            have := count_pos hj
            rw [h, ht] at this
            omega
          cases h : (slotAt slots j).state with
          | filled => exact absurd h hfree
          | empty => rfl
          | tombstone => exact absurd h hnt
        have hcf := count_set hj .filled s
        have hct := count_set hj .tombstone s
        rw [hstate, hs] at hcf hct
        simp only [reduceCtorEq, if_true, if_false, Nat.add_zero] at hcf hct
        rw [List.filter_cons_of_pos (by simpa using hs), List.pairwise_cons] at hpair
        obtain ⟨slots', hrun, hp'', hlen, ht', hcount', hmaps⟩ := ih (slots.set j s) hp'
          (by omega) (by rw [List.length_set]; omega)
          (by
            -- a key still to come differs from the one just stored, by `hpair`
            intro t ht hts i hi
            have ha := hnew t (List.mem_cons_of_mem _ ht) hts
            by_cases hij : i = j
            · rw [hij, slotAt_set_self hj]
              exact hpair.1 t (List.mem_filter.mpr ⟨ht, by simpa using hts⟩)
            · rw [slotAt_set_of_ne (Ne.symm hij)]
              exact ha i (((filledAt_set_iff hj hs).mp hi).resolve_left hij))
          hpair.2
        refine ⟨slots', ?_, hp'', by rw [hlen, List.length_set], ht', by omega, fun k v => ?_⟩
        · rw [if_pos hs, hfind]
          exact hrun
        · have hfill := maps_fill_iff hj hfree s.key s.value k v
          rw [← hslot] at hfill
          rw [hmaps, hfill]
          constructor
          · rintro ((⟨heq, hv⟩ | h) | ⟨t, ht, h⟩)
            · exact .inr ⟨s, List.mem_cons_self, hs, heq, hv⟩
            · exact .inl h
            · exact .inr ⟨t, List.mem_cons_of_mem _ ht, h⟩
          · rintro (h | ⟨t, ht, hts, heq, hv⟩)
            · exact .inl (.inr h)
            · rcases List.mem_cons.mp ht with rfl | ht
              · exact .inl (.inl ⟨heq, hv⟩)
              · exact .inr ⟨t, ht, hts, heq, hv⟩
      · have hrest : count .filled (s :: rest) = count .filled rest := by
          simp [count, hs]
        rw [List.filter_cons_of_neg (by simpa using hs)] at hpair
        obtain ⟨slots', hrun, hp', hlen, ht', hcount', hmaps⟩ := ih slots hp ht (by omega)
          (fun t ht => hnew t (List.mem_cons_of_mem _ ht)) hpair
        refine ⟨slots', by rw [if_neg hs]; exact hrun, hp', hlen, ht', by omega, fun k v => ?_⟩
        rw [hmaps]
        refine or_congr Iff.rfl ⟨?_, ?_⟩
        · rintro ⟨t, ht, h⟩
          exact ⟨t, List.mem_cons_of_mem _ ht, h⟩
        · rintro ⟨t, ht, hts, h⟩
          rcases List.mem_cons.mp ht with rfl | ht
          · exact absurd hts hs
          · exact ⟨t, ht, hts, h⟩

theorem maps_iff_mem {k : K} {v : V} :
    Maps slots k v ↔ ∃ s ∈ slots, s.state = .filled ∧ keyEqual s.key k = true ∧ s.value = v := by
  constructor
  · rintro ⟨i, hi, h⟩
    have hlt := hi.lt_length
    have hslot : slotAt slots i = slots.get ⟨i, hlt⟩ := by
      simp [slotAt, List.getD_eq_getElem?_getD, hlt]
    exact ⟨slotAt slots i, hslot ▸ List.get_mem slots ⟨i, hlt⟩, hi, h⟩
  · rintro ⟨s, hs, hstate, h⟩
    obtain ⟨i, hi, rfl⟩ := List.getElem_of_mem hs
    have hslot : slotAt slots i = slots[i] := by simp [slotAt, List.getD_eq_getElem?_getD, hi]
    exact ⟨i, by rw [FilledAt, hslot]; exact hstate, by rw [hslot]; exact h⟩

/-- The keys of the filled slots, in order, are pairwise different. -/
theorem Placed.pairwise (hp : Placed slots) :
    (slots.filter fun s => s.state = .filled).Pairwise
      fun a b => keyEqual a.key b.key = false := by
  rw [List.pairwise_filter, List.pairwise_iff_getElem]
  intro i j hi hj hij hfi hfj
  have hslot : ∀ k (hk : k < slots.length), slotAt slots k = slots[k] := fun k hk => by
    simp [slotAt, List.getD_eq_getElem?_getD, hk]
  by_contra hk
  rw [Bool.not_eq_false] at hk
  have := hp.distinct i j (by rw [FilledAt, hslot i hi]; simpa using hfi)
    (by rw [FilledAt, hslot j hj]; simpa using hfj) (by rw [hslot i hi, hslot j hj]; exact hk)
  omega

theorem loadBound_mono {a b : Nat} (h : a ≤ b) : loadBound a ≤ loadBound b :=
  Nat.div_le_div_right (Nat.mul_le_mul_right _ h)

theorem loadBound_double (n : Nat) : 2 * loadBound n ≤ loadBound (2 * n) := by
  rw [loadBound, loadBound, Nat.mul_assoc]
  exact Nat.mul_div_le_mul_div_assoc _ _ _

variable [LawfulHashKey K]

/-- `grow` replaces the slots. -/
def WillGrow (m : HashMap K V) : Prop := m.size + 1 + m.tombstones > loadBound m.slots.length

/-- `grow` makes room for one more key and does not change what the table maps. -/
theorem Stored.grow {m : HashMap K V} (h : Stored m) :
    ∃ m', m.grow = some m' ∧ Stored m' ∧
      m'.size + 1 + m'.tombstones ≤ loadBound m'.slots.length ∧
      (¬ WillGrow m ∧ m' = m ∨ count .tombstone m'.slots = 0) ∧
      ∀ k v, Maps m'.slots k v ↔ Maps m.slots k v := by
  rw [HashMap.grow]
  by_cases hfull : m.size + 1 + m.tombstones > loadBound m.slots.length
  · rw [if_pos hfull]
    have hload := h.load
    obtain ⟨hcap, hroom⟩ : (∃ k, max (2 * m.slots.length) minTableSize = 128 * 2 ^ k) ∧
        loadBound m.slots.length + 1 ≤ loadBound (max (2 * m.slots.length) minTableSize) := by
      rcases h.capacity with hnil | ⟨k, hk⟩
      · rw [hnil]
        exact ⟨⟨0, rfl⟩, (by decide : loadBound 0 + 1 ≤ loadBound 128)⟩
      · have hpos : 1 ≤ 2 ^ k := Nat.one_le_two_pow
        have hmax : max (2 * m.slots.length) minTableSize = 2 * m.slots.length := by
          rw [minTableSize]
          omega
        rw [hmax]
        refine ⟨⟨k + 1, by rw [hk, pow_succ]; omega⟩, ?_⟩
        have hone : 1 ≤ loadBound m.slots.length := by
          have : loadBound 128 ≤ loadBound m.slots.length := loadBound_mono (by omega)
          exact Nat.le_trans (by decide) this
        have := loadBound_double m.slots.length
        omega
    have hcapacity : 0 < max (2 * m.slots.length) minTableSize := by
      rw [minTableSize]
      omega
    have hlt := loadBound_lt hcapacity
    have hcf := count_replicate (K := K) (V := V) (max (2 * m.slots.length) minTableSize) .filled
    have hct := count_replicate (K := K) (V := V) (max (2 * m.slots.length) minTableSize)
      .tombstone
    rw [if_neg (by nofun)] at hcf hct
    have hsize := h.size_eq
    obtain ⟨slots', hrun, hp, hlen, ht, hcount, hmaps⟩ := rehash_spec m.slots
      (List.replicate (max (2 * m.slots.length) minTableSize) default) (placed_replicate _) hct
      (by rw [List.length_replicate, hcf]; omega)
      (fun s _ _ j hj => absurd hj (not_filledAt_replicate _ j))
      h.placed.pairwise
    rw [List.length_replicate] at hlen
    refine ⟨⟨m.size, 0, slots'⟩, by dsimp only; rw [hrun]; rfl, ⟨hp, ?_, ht.symm, .inr ?_, ?_⟩, ?_,
      .inr ht, ?_⟩
    · dsimp only
      omega
    · rw [hlen]
      exact hcap
    · dsimp only
      rw [hlen]
      omega
    · dsimp only
      rw [hlen]
      omega
    · intro k v
      refine (hmaps k v).trans ⟨?_, fun hm => .inr (maps_iff_mem.mp hm)⟩
      rintro (⟨i, hi, -⟩ | hmem)
      · exact absurd hi (not_filledAt_replicate _ i)
      · exact maps_iff_mem.mpr hmem
  · rw [if_neg hfull]
    exact ⟨m, rfl, h, by omega, .inl ⟨hfull, rfl⟩, fun _ _ => Iff.rfl⟩

/-- Without deleted slots nothing stops a search. -/
theorem Stored.sees_of_count {m : HashMap K V} (h : Stored m)
    (ht : count .tombstone m.slots = 0) (key : K) : Sees m.slots key := by
  refine .inr fun i hi heq => ?_
  obtain ⟨d, hd, hdi, hpath⟩ := h.placed.reach i hi
  rw [LawfulHashKey.hash heq] at hdi hpath
  refine ⟨d, hd, hdi, fun e he => ?_⟩
  have hlt : (hasher key + e) % m.slots.length < m.slots.length := Nat.mod_lt _ (by omega)
  cases hstate : (slotAt m.slots ((hasher key + e) % m.slots.length)).state with
  | filled => exact hstate
  | empty => exact absurd hstate (hpath e he)
  | tombstone =>
      have := count_pos hlt
      rw [hstate, ht] at this
      exact absurd this (Nat.lt_irrefl 0)

omit [LawfulHashKey K] in
theorem absent_iff_forall_not_maps : Absent slots key ↔ ∀ v, ¬ Maps slots key v := by
  refine ⟨fun ha v ⟨i, hi, heq, _⟩ => ?_, fun hm i hi => ?_⟩
  · rw [ha i hi] at heq
    cases heq
  · by_contra hk
    exact hm _ ⟨i, hi, by simpa using hk, rfl⟩

theorem Maps.congr {k k' : K} {v : V} (h : Maps slots k v) (hk : keyEqual k k' = true) :
    Maps slots k' v := by
  obtain ⟨i, hi, heq, hv⟩ := h
  exact ⟨i, hi, LawfulHashKey.trans heq hk, hv⟩

/-- Filling a free slot with a new key maps it and changes no other key. -/
theorem maps_fill_of_absent {j : Nat} (hj : j < slots.length) (hfree : ¬ FilledAt slots j)
    (habsent : Absent slots key) (value : V) (k : K) (v : V) :
    Maps (slots.set j ⟨key, value, .filled⟩) k v ↔
      if keyEqual key k then v = value else Maps slots k v := by
  rw [maps_fill_iff hj hfree]
  by_cases hk : keyEqual key k = true
  · rw [if_pos hk]
    refine ⟨?_, fun hv => .inl ⟨hk, hv.symm⟩⟩
    rintro (⟨-, hv⟩ | hm)
    · exact hv.symm
    · exact absurd (hm.congr (LawfulHashKey.symm hk)) (absent_iff_forall_not_maps.mp habsent v)
  · rw [if_neg hk]
    exact ⟨fun h' => h'.resolve_left fun h'' => hk h''.1, .inr⟩

/-- A table with room for a new key, whose slot is filled; `tombstones` is what is left of the
deleted slots. -/
theorem Stored.fill {m : HashMap K V} (h : Stored m) {j d tombstones : Nat}
    (hroom : m.size + 1 + m.tombstones ≤ loadBound m.slots.length) (hj : j < m.slots.length)
    (hfree : ¬ FilledAt m.slots j) (habsent : Absent m.slots key) (hd : d < m.slots.length)
    (hdj : (hasher key + d) % m.slots.length = j)
    (hpath : ∀ e < d, (slotAt m.slots ((hasher key + e) % m.slots.length)).state ≠ .empty)
    (ht : tombstones + (if (slotAt m.slots j).state = .tombstone then 1 else 0) = m.tombstones)
    (value : V) : Stored ⟨m.size + 1, tombstones, m.slots.set j ⟨key, value, .filled⟩⟩ := by
  have hcf := count_set hj .filled (⟨key, value, .filled⟩ : Slot K V)
  have hct := count_set hj .tombstone (⟨key, value, .filled⟩ : Slot K V)
  have hsize := h.size_eq
  have htomb := h.tombstones_eq
  rw [if_neg (show (slotAt m.slots j).state ≠ .filled from hfree)] at hcf
  simp only [reduceCtorEq, if_true, if_false, Nat.add_zero] at hcf hct
  refine ⟨h.placed.fill hj habsent hd hdj hpath value, ?_, ?_, ?_, ?_⟩
  · dsimp only
    omega
  · dsimp only
    omega
  · dsimp only
    rw [List.length_set]
    exact h.capacity.imp (fun h => by rw [h]; rfl) id
  · dsimp only
    rw [List.length_set]
    omega

omit [LawfulHashKey K] in
/-- A table with another value in a filled slot. -/
theorem Stored.setValue {m : HashMap K V} (h : Stored m) {i : Nat} (hi : FilledAt m.slots i)
    (value : V) :
    Stored { m with slots := m.slots.set i ⟨(slotAt m.slots i).key, value, .filled⟩ } := by
  have hcount : ∀ state, count state (m.slots.set i ⟨(slotAt m.slots i).key, value, .filled⟩) =
      count state m.slots := by
    intro state
    have := count_set hi.lt_length state (⟨(slotAt m.slots i).key, value, .filled⟩ : Slot K V)
    rw [hi.state] at this
    exact Nat.add_right_cancel this
  refine ⟨h.placed.setValue hi value, ?_, ?_, ?_, ?_⟩
  · dsimp only
    rw [hcount]
    exact h.size_eq
  · dsimp only
    rw [hcount]
    exact h.tombstones_eq
  · dsimp only
    rw [List.length_set]
    exact h.capacity.imp (fun h => by rw [h]; rfl) id
  · dsimp only
    rw [List.length_set]
    exact h.load

/-- `insert` maps the key to the value and leaves the other keys as they were; it returns whether
the key is new. -/
theorem Stored.insert {m : HashMap K V} (h : Stored m) (hsees : Sees m.slots key ∨ WillGrow m)
    (value : V) :
    ∃ new m', m.insert key value = some (new, m') ∧ Stored m' ∧
      (new = true ↔ Absent m.slots key) ∧
      ∀ k v, Maps m'.slots k v ↔ if keyEqual key k then v = value else Maps m.slots k v := by
  obtain ⟨m₁, hgrow, hwf, hroom, hsame, hmaps⟩ := h.grow
  have hsees₁ : Sees m₁.slots key := by
    rcases hsame with ⟨hfit, rfl⟩ | ht
    · exact hsees.resolve_right hfit
    · exact hwf.sees_of_count ht key
  have hn : 0 < m₁.slots.length := by
    by_contra hz
    have : m₁.slots.length = 0 := by omega
    rw [this, show loadBound 0 = 0 from rfl] at hroom
    omega
  have habsent_iff : Absent m.slots key ↔ Absent m₁.slots key := by
    rw [absent_iff_forall_not_maps, absent_iff_forall_not_maps]
    exact forall_congr' fun v => not_congr (hmaps key v).symm
  rw [HashMap.insert, hgrow]
  simp only [Option.bind_eq_bind, Option.bind_some]
  by_cases habsent : Absent m₁.slots key
  · obtain ⟨j, hfind, hj, hfree, d, hd, hdj, hpath⟩ :=
      findSlot_of_absent hwf.placed habsent (hwf.exists_empty hn)
    have hcontent : ∀ k v, Maps (m₁.slots.set j ⟨key, value, .filled⟩) k v ↔
        if keyEqual key k then v = value else Maps m.slots k v := by
      intro k v
      rw [maps_fill_of_absent hj hfree habsent, hmaps]
    rw [hfind]
    simp only [Option.bind_some]
    cases hstate : (slotAt m₁.slots j).state with
    | filled => exact absurd hstate hfree
    | empty =>
        exact ⟨true, _, rfl, hwf.fill hroom hj hfree habsent hd hdj hpath (by simp [hstate]) value,
          by simp [habsent_iff, habsent], hcontent⟩
    | tombstone =>
        -- the slot is one of those that are counted
        have hpos := count_pos hj
        rw [hstate, ← hwf.tombstones_eq] at hpos
        exact ⟨true, _, rfl, hwf.fill hroom hj hfree habsent hd hdj hpath
          (by rw [if_pos hstate]; omega) value, by simp [habsent_iff, habsent], hcontent⟩
  · have hpresent := habsent
    simp only [Absent, not_forall, Bool.not_eq_false] at hpresent
    obtain ⟨i, hi, heq⟩ := hpresent
    rw [findSlot_of_filled hwf.placed hsees₁ hi heq]
    simp only [Option.bind_some, hi.state]
    refine ⟨false, _, rfl, hwf.setValue hi value, ?_, fun k v => ?_⟩
    · rw [habsent_iff]
      exact iff_of_false Bool.false_ne_true habsent
    · rw [maps_setValue_iff hwf.placed hi heq, hmaps]

/-- A table without the default key, by what it maps. -/
theorem Stored.wellFormed_iff {m : HashMap K V} (h : Stored m) :
    WellFormed m ↔ ∀ k v, Maps m.slots k v → IsReal k := by
  have hcongr : ∀ {a b : K}, keyEqual a b = true → IsReal a → IsReal b := by
    intro a b hab ha
    by_contra hb
    rw [IsReal, Bool.not_eq_false] at hb
    rw [IsReal, LawfulHashKey.trans hb (LawfulHashKey.symm hab)] at ha
    cases ha
  refine ⟨fun hwf k v => ?_, fun hreal => h.wellFormed fun i hi => ?_⟩
  · rintro ⟨i, hi, heq, -⟩
    exact hcongr heq (hwf.probing.real i hi)
  · exact hreal _ _ ⟨i, hi, LawfulHashKey.refl _, rfl⟩

/-- Inserting a key that is not the default key. -/
theorem WellFormed.insert {m : HashMap K V} (h : WellFormed m) (hreal : IsReal key) (value : V) :
    ∃ new m', m.insert key value = some (new, m') ∧ WellFormed m' ∧
      (new = true ↔ Absent m.slots key) ∧
      ∀ k v, Maps m'.slots k v ↔ if keyEqual key k then v = value else Maps m.slots k v := by
  obtain ⟨new, m', hrun, hstored, hnew, hmaps⟩ := h.stored.insert (.inl (.inl hreal)) value
  refine ⟨new, m', hrun, hstored.wellFormed_iff.mpr fun k v hm => ?_, hnew, hmaps⟩
  rw [hmaps] at hm
  split at hm
  · rename_i hk
    by_contra hk'
    rw [IsReal, Bool.not_eq_false] at hk'
    rw [IsReal, LawfulHashKey.trans hk' (LawfulHashKey.symm hk)] at hreal
    cases hreal
  · exact h.stored.wellFormed_iff.mp h k v hm

omit [LawfulHashKey K] in
theorem wellFormed_empty : WellFormed (HashMap.empty : HashMap K V) :=
  ⟨⟨⟨fun _ _ => rfl, fun _ _ h => (nomatch h), fun _ h => (nomatch h)⟩, fun _ h => (nomatch h)⟩,
    rfl, rfl, .inl rfl, (by decide : 0 + 0 ≤ loadBound 0)⟩

end CppLox.HashMap
