import CppLox.Container.Refinement

/-!
# Containers — searches that end

When `find_slot` returns, and the operations that search: the search comes to an equal key or to an
empty slot, and every comparison on the way is defined.  The conditions are on the slots as they are
before the operation; the operation returns exactly then (`findSlot_isSome_iff`,
`subscript_isSome_iff`).
-/

namespace CppLox

namespace HashMap

variable {K V : Type} [HashKey K] [Inhabited V] {slots newSlots : List (Slot K V)} {m : HashMap K V}
  {key : K}

/-- The loop of `find_slot` goes past a slot. -/
def Passes (slots : List (Slot K V)) (key : K) (i : Nat) : Prop :=
  keyEqual (slotAt slots i).key key = false ∧ (slotAt slots i).state ≠ .empty

/-- The search for a key comes to an equal key or to an empty slot, and every comparison on the way is
defined. -/
def SearchEnds (slots : List (Slot K V)) (key : K) : Prop :=
  ∃ d < slots.length,
    (∀ e ≤ d, comparable (slotAt slots ((hasher key + e) % slots.length)).key key = true) ∧
    (∀ e < d, Passes slots key ((hasher key + e) % slots.length)) ∧
    ¬ Passes slots key ((hasher key + d) % slots.length)

/-- The searches of `grow` for the keys it moves end. -/
def MoveEnds (newSlots : List (Slot K V)) : List (Slot K V) → Prop
  | [] => True
  | slot :: slots =>
    if slot.state = .filled then
      SearchEnds newSlots slot.key ∧
        ∀ i, findSlot newSlots slot.key = some i → MoveEnds (newSlots.set i slot) slots
    else MoveEnds newSlots slots

/-- `grow` returns. -/
def GrowEnds (m : HashMap K V) : Prop :=
  WillGrow m → MoveEnds (List.replicate (max (2 * m.slots.length) minTableSize) default) m.slots

/-- The searches of `insert_slot` end, in the table as it is and in the one that has grown. -/
def InsertEnds (m : HashMap K V) (key : K) : Prop :=
  GrowEnds m ∧ ∀ m', m.grow = some m' → SearchEnds m'.slots key

/-- The searches of `operator[]` end: for a key that is not there it inserts one. -/
def SubscriptEnds (m : HashMap K V) (key : K) : Prop :=
  if m.size = 0 then InsertEnds m key
  else SearchEnds m.slots key ∧
    ∀ i, findSlot m.slots key = some i → ¬ FilledAt m.slots i → InsertEnds m key

theorem probe_isSome_iff (fuel : Nat) : ∀ (h : Nat) (tombstone : Option Nat),
    (probe slots key fuel (h % slots.length) tombstone).isSome ↔ ∃ d < fuel,
      (∀ e ≤ d, comparable (slotAt slots ((h + e) % slots.length)).key key = true) ∧
      (∀ e < d, Passes slots key ((h + e) % slots.length)) ∧
      ¬ Passes slots key ((h + d) % slots.length) := by
  induction fuel with
  | zero =>
      intro h tombstone
      refine iff_of_false nofun ?_
      rintro ⟨d, hd, -⟩
      cases hd
  | succ fuel ih =>
      intro h tombstone
      rw [probe_succ]
      by_cases hcomp : comparable (slotAt slots (h % slots.length)).key key = true
      · rw [if_neg (by simp [hcomp])]
        by_cases hpass : Passes slots key (h % slots.length)
        · -- the search goes on from the next slot
          have hshift : ∀ e, h + 1 + e = h + (e + 1) := fun e => by omega
          rw [if_neg (by simp [hpass.1]), if_neg hpass.2, mod_succ_mod, ih (h + 1)]
          constructor
          · rintro ⟨d, hd, hdefined, hbefore, hstop⟩
            refine ⟨d + 1, by omega, fun e he => ?_, fun e he => ?_, by rwa [← hshift d]⟩
            · cases e with
              | zero => exact hcomp
              | succ e => exact hshift e ▸ hdefined e (by omega)
            · cases e with
              | zero => exact hpass
              | succ e => exact hshift e ▸ hbefore e (by omega)
          · rintro ⟨d, hd, hdefined, hbefore, hstop⟩
            cases d with
            | zero => exact absurd hpass hstop
            | succ d =>
                refine ⟨d, by omega, fun e he => ?_, fun e he => ?_, by rwa [hshift d]⟩
                · exact (hshift e).symm ▸ hdefined (e + 1) (by omega)
                · exact (hshift e).symm ▸ hbefore (e + 1) (by omega)
        · have hstop : ∃ d < fuel + 1,
              (∀ e ≤ d, comparable (slotAt slots ((h + e) % slots.length)).key key = true) ∧
              (∀ e < d, Passes slots key ((h + e) % slots.length)) ∧
              ¬ Passes slots key ((h + d) % slots.length) := by
            refine ⟨0, Nat.zero_lt_succ _, fun e he => ?_, nofun, hpass⟩
            rw [Nat.le_zero.mp he]
            exact hcomp
          refine iff_of_true ?_ hstop
          split
          · rfl
          · rename_i hne
            by_cases hempty : (slotAt slots (h % slots.length)).state = .empty
            · rw [if_pos hempty]
              rfl
            · exact absurd ⟨by simpa using hne, hempty⟩ hpass
      · rw [if_pos (by simp [hcomp])]
        refine iff_of_false nofun ?_
        rintro ⟨d, -, hdefined, -⟩
        exact hcomp (hdefined 0 (Nat.zero_le d))

theorem findSlot_isSome_iff : (findSlot slots key).isSome ↔ SearchEnds slots key :=
  probe_isSome_iff slots.length (hasher key) none

theorem rehash_isSome_iff : (rehash newSlots slots).isSome ↔ MoveEnds newSlots slots := by
  induction slots generalizing newSlots with
  | nil => exact iff_of_true rfl trivial
  | cons slot slots ih =>
      unfold rehash MoveEnds
      by_cases hfilled : slot.state = .filled
      · rw [if_pos hfilled, if_pos hfilled, ← findSlot_isSome_iff]
        cases hfind : findSlot newSlots slot.key with
        | none => simp
        | some i => simpa using @ih (newSlots.set i slot)
      · rw [if_neg hfilled, if_neg hfilled]
        exact ih

theorem grow_isSome_iff : m.grow.isSome ↔ GrowEnds m := by
  unfold grow GrowEnds WillGrow
  by_cases hgrow : m.size + 1 + m.tombstones > loadBound m.slots.length
  · rw [if_pos hgrow, ← rehash_isSome_iff]
    dsimp only
    cases rehash (List.replicate (max (2 * m.slots.length) minTableSize) default) m.slots with
    | none => exact iff_of_false nofun fun h => absurd (h hgrow) nofun
    | some slots => exact iff_of_true rfl fun _ => rfl
  · rw [if_neg hgrow]
    exact iff_of_true rfl fun h => absurd h hgrow

theorem insertSlot_isSome_iff {value : V} : (m.insertSlot key value).isSome ↔ InsertEnds m key := by
  unfold insertSlot InsertEnds
  rw [← grow_isSome_iff]
  cases m.grow with
  | none => exact iff_of_false nofun fun h => nomatch h.1
  | some m' =>
      have hsearch : (∀ m'', some m' = some m'' → SearchEnds m''.slots key) ↔
          SearchEnds m'.slots key := by simp
      rw [hsearch, ← findSlot_isSome_iff]
      simp only [Option.bind_eq_bind, Option.bind_some, Option.isSome_some, true_and]
      cases findSlot m'.slots key with
      | none => exact iff_of_false nofun nofun
      | some i =>
          refine iff_of_true ?_ rfl
          simp only [Option.bind_some]
          split <;> rfl

/-- `operator[]` returns exactly when its searches end. -/
theorem subscript_isSome_iff : (m.subscript key).isSome ↔ SubscriptEnds m key := by
  unfold subscript getRef SubscriptEnds
  split
  · exact insertSlot_isSome_iff
  · rw [← findSlot_isSome_iff]
    cases findSlot m.slots key with
    | none => exact iff_of_false nofun fun h => nomatch h.1
    | some i =>
        simp only [Option.bind_eq_bind, Option.bind_some]
        split
        · rename_i hfree
          refine insertSlot_isSome_iff.trans ⟨fun h => ⟨rfl, fun _ _ _ => h⟩, fun h => ?_⟩
          exact h.2 i rfl hfree
        · rename_i hfilled
          refine iff_of_true rfl ⟨rfl, ?_⟩
          rintro _ ⟨⟩ hfree
          exact absurd hfree hfilled

end HashMap

end CppLox
