import CppLox.Container.Refinement

/-!
# Containers — tables under two equalities

Two equalities and hashes of keys that agree on some keys.  A table whose keys are among them does
the same under both.
-/

namespace CppLox

/-- Two equalities and hashes agree on some keys, among them the default key. -/
structure HashKey.AgreeOn {K : Type} (I J : HashKey K) (S : K → Prop) : Prop where
  default : I.default = J.default
  mem : S I.default
  keyEqual : ∀ a b, S a → S b → I.keyEqual a b = J.keyEqual a b
  comparable : ∀ a b, S a → S b → I.comparable a b = J.comparable a b
  hasher : ∀ a, S a → I.hasher a = J.hasher a

namespace HashMap

variable {K V : Type} [Inhabited V] {I J : HashKey K} {S : K → Prop} {slots : List (Slot K V)} {key : K}

/-- The keys of some slots are in `S`. -/
def KeysIn (S : K → Prop) (slots : List (Slot K V)) : Prop := ∀ slot ∈ slots, S slot.key

omit [Inhabited V] in
theorem KeysIn.set (h : KeysIn S slots) {slot : Slot K V} (hslot : S slot.key) (i : Nat) :
    KeysIn S (slots.set i slot) := by
  intro s hs
  rcases List.mem_or_eq_of_mem_set hs with hs | rfl
  · exact h s hs
  · exact hslot

section

variable (hIJ : HashKey.AgreeOn I J S)

include hIJ

theorem slotAt_agree (slots : List (Slot K V)) (i : Nat) :
    @slotAt K V I _ slots i = @slotAt K V J _ slots i := by
  unfold slotAt
  refine congrArg (slots.getD i) ?_
  change (⟨I.default, default, .empty⟩ : Slot K V) = ⟨J.default, default, .empty⟩
  rw [hIJ.default]

theorem KeysIn.slotAt (h : KeysIn S slots) (i : Nat) : S (@HashMap.slotAt K V I _ slots i).key := by
  unfold HashMap.slotAt
  rw [List.getD_eq_getElem?_getD]
  cases hi : slots[i]? with
  | none => exact hIJ.mem
  | some slot => exact h slot (List.mem_of_getElem? hi)

theorem probe_agree (h : KeysIn S slots) (hkey : S key) (fuel : Nat) :
    ∀ (index : Nat) (tombstone : Option Nat),
      @probe K V I _ slots key fuel index tombstone = @probe K V J _ slots key fuel index tombstone := by
  induction fuel with
  | zero => exact fun _ _ => rfl
  | succ fuel ih =>
      intro index tombstone
      have hequal := hIJ.keyEqual _ key (h.slotAt hIJ index) hkey
      have hcomparable := hIJ.comparable _ key (h.slotAt hIJ index) hkey
      rw [@probe_succ K V I, @probe_succ K V J, hequal, hcomparable, slotAt_agree hIJ, ih]

theorem findSlot_agree (h : KeysIn S slots) (hkey : S key) :
    @findSlot K V I _ slots key = @findSlot K V J _ slots key := by
  unfold findSlot
  rw [hIJ.hasher key hkey, probe_agree hIJ h hkey]

theorem rehash_agree {newSlots : List (Slot K V)} (h : KeysIn S slots) (hnew : KeysIn S newSlots) :
    @rehash K V I _ newSlots slots = @rehash K V J _ newSlots slots ∧
      ∀ result, @rehash K V J _ newSlots slots = some result → KeysIn S result := by
  induction slots generalizing newSlots with
  | nil =>
      refine ⟨rfl, fun result hresult => ?_⟩
      cases hresult
      exact hnew
  | cons slot slots ih =>
      have hslot : S slot.key := h slot List.mem_cons_self
      have hrest : KeysIn S slots := fun s hs => h s (List.mem_cons_of_mem _ hs)
      unfold rehash
      by_cases hfilled : slot.state = .filled
      · rw [if_pos hfilled, if_pos hfilled, findSlot_agree hIJ hnew hslot]
        cases @findSlot K V J _ newSlots slot.key with
        | none =>
            refine ⟨rfl, fun result hresult => ?_⟩
            cases hresult
        | some destination => exact ih hrest (hnew.set hslot destination)
      · rw [if_neg hfilled, if_neg hfilled]
        exact ih hrest hnew

theorem grow_agree {m : HashMap K V} (h : KeysIn S m.slots) :
    @grow K V I _ m = @grow K V J _ m ∧
      ∀ m', @grow K V J _ m = some m' → KeysIn S m'.slots := by
  have hdefault : (@default (Slot K V) (@instInhabitedSlot K V I _)) =
      @default (Slot K V) (@instInhabitedSlot K V J _) := by
    change (⟨I.default, default, .empty⟩ : Slot K V) = ⟨J.default, default, .empty⟩
    rw [hIJ.default]
  have hnew : ∀ n, KeysIn S (List.replicate n (@default (Slot K V) (@instInhabitedSlot K V J _))) := by
    intro n slot hslot
    rw [List.eq_of_mem_replicate hslot, ← hdefault]
    exact hIJ.mem
  unfold grow
  split
  · obtain ⟨heq, hkeys⟩ := rehash_agree hIJ h (hnew (max (2 * m.slots.length) minTableSize))
    dsimp only
    rw [hdefault, heq]
    refine ⟨rfl, fun m' hm' => ?_⟩
    obtain ⟨slots, hslots, hm'⟩ := Option.bind_eq_some_iff.mp hm'
    cases hm'
    exact hkeys slots hslots
  · refine ⟨rfl, fun m' hm' => ?_⟩
    cases hm'
    exact h

theorem insertSlot_agree {m : HashMap K V} (h : KeysIn S m.slots) (hkey : S key) (value : V) :
    @insertSlot K V I _ m key value = @insertSlot K V J _ m key value ∧
      ∀ i m', @insertSlot K V J _ m key value = some (i, m') → KeysIn S m'.slots := by
  obtain ⟨hgrow, hgrown⟩ := grow_agree hIJ h
  unfold insertSlot
  rw [hgrow]
  cases hm₁ : @grow K V J _ m with
  | none => exact ⟨rfl, nofun⟩
  | some m₁ =>
      have h₁ := hgrown m₁ hm₁
      simp only [Option.bind_eq_bind, Option.bind_some]
      rw [findSlot_agree hIJ h₁ hkey]
      cases @findSlot K V J _ m₁.slots key with
      | none => exact ⟨rfl, nofun⟩
      | some j =>
          have hslot := h₁.slotAt hIJ j
          simp only [Option.bind_some]
          rw [slotAt_agree hIJ] at hslot ⊢
          refine ⟨rfl, fun i m' hm' => ?_⟩
          split at hm' <;> cases hm'
          · exact h₁.set hkey j
          · exact h₁.set hkey j
          · exact h₁.set (show S (Slot.mk _ value _).key from hslot) j

theorem getRef_agree {m : HashMap K V} (h : KeysIn S m.slots) (hkey : S key) :
    @getRef K V I _ m key = @getRef K V J _ m key ∧
      ∀ i m', @getRef K V J _ m key = some (i, m') → KeysIn S m'.slots := by
  obtain ⟨hinsert, hinserted⟩ := insertSlot_agree hIJ h hkey default
  unfold getRef
  rw [hinsert, findSlot_agree hIJ h hkey]
  split
  · exact ⟨rfl, hinserted⟩
  · cases @findSlot K V J _ m.slots key with
    | none => exact ⟨rfl, nofun⟩
    | some j =>
        simp only [Option.bind_eq_bind, Option.bind_some]
        rw [slotAt_agree hIJ]
        refine ⟨rfl, fun i m' hm' => ?_⟩
        split at hm'
        · exact hinserted i m' hm'
        · cases hm'
          exact h

end

/-- `table[key] = value`. -/
def store [HashKey K] (m : HashMap K V) (key : K) (value : V) : Option (HashMap K V) :=
  (m.subscript key).map fun r => r.2.writeRef r.1 value

theorem store_agree (hIJ : HashKey.AgreeOn I J S) {m : HashMap K V} (h : KeysIn S m.slots)
    (hkey : S key) (value : V) :
    @store K V _ I m key value = @store K V _ J m key value ∧
      ∀ m', @store K V _ J m key value = some m' → KeysIn S m'.slots := by
  obtain ⟨href, hkeys⟩ := getRef_agree hIJ h hkey
  unfold store subscript
  rw [href]
  cases hr : @getRef K V J _ m key with
  | none => exact ⟨rfl, nofun⟩
  | some r =>
      obtain ⟨i, m₁⟩ := r
      have h₁ := hkeys i m₁ hr
      have hslot := h₁.slotAt hIJ i
      simp only [Option.map_some, writeRef]
      rw [slotAt_agree hIJ] at hslot ⊢
      refine ⟨rfl, fun m' hm' => ?_⟩
      cases hm'
      exact h₁.set (show S (Slot.mk _ value _).key from hslot) i

/-- The pairs are stored one after the other. -/
def storeAll [HashKey K] (m : HashMap K V) : List (K × V) → Option (HashMap K V)
  | [] => some m
  | (key, value) :: pairs => do
    let m ← m.store key value
    m.storeAll pairs

theorem storeAll_agree (hIJ : HashKey.AgreeOn I J S) {m : HashMap K V} (h : KeysIn S m.slots)
    {pairs : List (K × V)} (hpairs : ∀ pair ∈ pairs, S pair.1) :
    @storeAll K V _ I m pairs = @storeAll K V _ J m pairs ∧
      ∀ m', @storeAll K V _ J m pairs = some m' → KeysIn S m'.slots := by
  induction pairs generalizing m with
  | nil =>
      refine ⟨rfl, fun m' hm' => ?_⟩
      cases hm'
      exact h
  | cons pair pairs ih =>
      obtain ⟨key, value⟩ := pair
      obtain ⟨hstore, hkeys⟩ := store_agree hIJ h (hpairs _ List.mem_cons_self) value
      unfold storeAll
      rw [hstore]
      cases hm₁ : @store K V _ J m key value with
      | none =>
          simp only [Option.bind_eq_bind, Option.bind_none]
          exact ⟨trivial, nofun⟩
      | some m₁ =>
          simp only [Option.bind_eq_bind, Option.bind_some]
          exact ih (hkeys m₁ hm₁) fun pair hpair => hpairs pair (List.mem_cons_of_mem _ hpair)

/-! ### Tables that are only written to -/

variable [HashKey K]

/-- No slot is deleted. -/
def Undeleted (slots : List (Slot K V)) : Prop := ∀ slot ∈ slots, slot.state ≠ .tombstone

namespace Undeleted

omit [Inhabited V] [HashKey K] in
theorem set (h : Undeleted slots) {slot : Slot K V} (hslot : slot.state ≠ .tombstone) (i : Nat) :
    Undeleted (slots.set i slot) := by
  intro s hs
  rcases List.mem_or_eq_of_mem_set hs with hs | rfl
  · exact h s hs
  · exact hslot

theorem slotAt (h : Undeleted slots) (i : Nat) : (slotAt slots i).state ≠ .tombstone := by
  unfold HashMap.slotAt
  rw [List.getD_eq_getElem?_getD]
  cases hi : slots[i]? with
  | none => nofun
  | some slot => exact h slot (List.mem_of_getElem? hi)

omit [Inhabited V] [HashKey K] in
theorem count_eq (h : Undeleted slots) : count .tombstone slots = 0 := by
  rw [count, List.countP_eq_zero]
  intro slot hslot
  simpa using h slot hslot

theorem rehash {newSlots result : List (Slot K V)} (h : Undeleted newSlots)
    (hrun : rehash newSlots slots = some result) : Undeleted result := by
  induction slots generalizing newSlots with
  | nil =>
      cases hrun
      exact h
  | cons slot slots ih =>
      unfold HashMap.rehash at hrun
      split at hrun
      · rename_i hfilled
        obtain ⟨destination, -, hrun⟩ := Option.bind_eq_some_iff.mp hrun
        exact ih (h.set (by rw [hfilled]; decide) destination) hrun
      · exact ih h hrun

theorem grow {m m' : HashMap K V} (h : Undeleted m.slots) (hrun : m.grow = some m') :
    Undeleted m'.slots := by
  unfold HashMap.grow at hrun
  split at hrun
  · obtain ⟨slots, hslots, hrun⟩ := Option.bind_eq_some_iff.mp hrun
    cases hrun
    refine rehash (fun slot hslot => ?_) hslots
    rw [List.eq_of_mem_replicate hslot]
    nofun
  · cases hrun
    exact h

theorem insertSlot {m m' : HashMap K V} {value : V} {i : Nat} (h : Undeleted m.slots)
    (hrun : m.insertSlot key value = some (i, m')) : Undeleted m'.slots := by
  unfold HashMap.insertSlot at hrun
  obtain ⟨m₁, hgrow, hrun⟩ := Option.bind_eq_some_iff.mp hrun
  obtain ⟨j, -, hrun⟩ := Option.bind_eq_some_iff.mp hrun
  have h₁ := h.grow hgrow
  dsimp only at hrun
  split at hrun <;> cases hrun
  · exact h₁.set (show (Slot.mk key value .filled).state ≠ .tombstone from nofun) _
  · exact h₁.set (show (Slot.mk key value .filled).state ≠ .tombstone from nofun) _
  · exact h₁.set (show (Slot.mk _ value _).state ≠ .tombstone from h₁.slotAt i) i

theorem store {m m' : HashMap K V} {value : V} (h : Undeleted m.slots)
    (hrun : m.store key value = some m') : Undeleted m'.slots := by
  obtain ⟨⟨i, m₁⟩, href, rfl⟩ := Option.map_eq_some_iff.mp hrun
  have h₁ : Undeleted m₁.slots := by
    unfold subscript getRef at href
    split at href
    · exact h.insertSlot href
    · obtain ⟨j, -, href⟩ := Option.bind_eq_some_iff.mp href
      split at href
      · exact h.insertSlot href
      · cases href
        exact h
  exact h₁.set (show (Slot.mk _ value _).state ≠ .tombstone from h₁.slotAt i) i

end Undeleted

variable [LawfulHashKey K]

/-- A sequence of assignments on a finite map. -/
def FiniteMap.assignAll (f : FiniteMap K V) (pairs : List (K × V)) : FiniteMap K V :=
  pairs.foldl (fun f pair => f.insert (keyClass pair.1) pair.2) f

/-- A table without deleted slots that is assigned to holds what the finite map holds. -/
theorem Refines.storeAll {m : HashMap K V} {f : FiniteMap K V} (h : Refines m f)
    (hundeleted : Undeleted m.slots) (pairs : List (K × V)) :
    ∃ m', m.storeAll pairs = some m' ∧ Refines m' (f.assignAll pairs) ∧ Undeleted m'.slots := by
  induction pairs generalizing m f with
  | nil => exact ⟨m, rfl, h, hundeleted⟩
  | cons pair pairs ih =>
      obtain ⟨key, value⟩ := pair
      obtain ⟨i, m₁, hrun, href⟩ :=
        h.store (.inl (h.stored.sees_of_count hundeleted.count_eq key)) value
      have hstore : m.store key value = some (m₁.writeRef i value) := by
        unfold HashMap.store
        rw [hrun]
        rfl
      obtain ⟨m', hrest, href', hundeleted'⟩ := ih href (hundeleted.store hstore)
      refine ⟨m', ?_, href', hundeleted'⟩
      unfold HashMap.storeAll
      rw [hstore]
      exact hrest

omit [Inhabited V] in
/-- A finite map after assignments has the value that was assigned to a key last. -/
theorem FiniteMap.lookup_assignAll (f : FiniteMap K V) (pairs : List (K × V)) (key : K) :
    (f.assignAll pairs).lookup (keyClass key) =
      ((pairs.reverse.find? fun pair => keyEqual pair.1 key).map Prod.snd).or
        (f.lookup (keyClass key)) := by
  induction pairs generalizing f with
  | nil => rfl
  | cons pair pairs ih =>
      obtain ⟨k, v⟩ := pair
      refine (ih (f.insert (keyClass k) v)).trans ?_
      rw [List.reverse_cons, List.find?_append]
      cases hfind : pairs.reverse.find? fun pair => keyEqual pair.1 key with
      | some pair => rfl
      | none =>
          by_cases hk : keyEqual k key = true
          · rw [keyClass_eq_iff.mpr hk, Finmap.lookup_insert]
            simp [hk]
          · rw [Finmap.lookup_insert_of_ne _ fun heq => hk (keyClass_eq_iff.mp heq.symm)]
            simp [hk]

end HashMap

end CppLox
