import CppLox.VM.OpenUpvalues

/-!
# Virtual machine — the list of open upvalues

`VM::capture_upvalue` and `VM::close_upvalues` in any order, with writes to the stack between them.
The list stays strictly decreasing in the slots its upvalues point to, so that the search of
`capture_upvalue` finds the upvalue of a slot, and `close_upvalues` can stop at the first upvalue
below its limit.
-/

namespace CppLox

open VMM

namespace VM

variable (P : Platform)

/-- An operation on the open upvalues, or a write to a slot of the stack. -/
inductive UpvalueOp where
  | capture (slot : Fin P.capacity)
  | close (limit : Nat)
  | write (slot : Fin P.capacity) (v : Value)

variable {P}

/-- An operation of the machine. -/
def UpvalueOp.run : UpvalueOp P → VMM Unit
  | .capture slot => do
    let _ ← captureUpvalue slot
  | .close limit => closeUpvalues P limit
  | .write slot v => writeSlot P slot v

/-- Operations one after the other. -/
def runUpvalueOps : List (UpvalueOp P) → VMM Unit
  | [] => pure ()
  | op :: ops => do
    op.run
    runUpvalueOps ops

/-- The upvalue at an address points to a slot. -/
def PointsTo (heap : Heap) (a : Addr) (n : Nat) : Prop :=
  heap[a]? = some (HeapObject.upvalue (.slot n))

/-- Upvalues that point to slots of the stack, the highest first. -/
structure Descending (P : Platform) (heap : Heap) (l : List Addr) (slots : List Nat) : Prop where
  points : List.Forall₂ (PointsTo heap) l slots
  pairwise : slots.Pairwise (· > ·)
  bounded : ∀ n ∈ slots, n < P.capacity

theorem PointsTo.unique {heap : Heap} {a : Addr} {n m : Nat} (h : PointsTo heap a n)
    (h' : PointsTo heap a m) : n = m := by
  have heq := h.symm.trans h'
  cases heq
  rfl

theorem PointsTo.lt {heap : Heap} {a : Addr} {n : Nat} (h : PointsTo heap a n) : a < heap.length :=
  (List.getElem?_eq_some_iff.mp h).1

theorem locationAt_of_pointsTo {vm : VM} {a : Addr} {n : Nat} (h : PointsTo vm.heap a n) :
    locationAt a vm = .done (.slot n) vm := by
  rw [locationAt_apply, show vm.heap[a]? = _ from h]

namespace Descending

variable {heap heap' : Heap} {l : List Addr} {slots : List Nat} {a : Addr} {n : Nat}

theorem nil (heap : Heap) : Descending P heap [] [] := ⟨.nil, .nil, nofun⟩

theorem head (h : Descending P heap (a :: l) (n :: slots)) : PointsTo heap a n :=
  (List.forall₂_cons.mp h.points).1

theorem tail (h : Descending P heap (a :: l) (n :: slots)) : Descending P heap l slots :=
  ⟨(List.forall₂_cons.mp h.points).2, (List.pairwise_cons.mp h.pairwise).2,
    fun m hm => h.bounded m (List.mem_cons_of_mem _ hm)⟩

theorem cons (h : Descending P heap l slots) (ha : PointsTo heap a n) (hn : n < P.capacity)
    (hlt : ∀ m ∈ slots, m < n) : Descending P heap (a :: l) (n :: slots) :=
  ⟨.cons ha h.points, List.pairwise_cons.mpr ⟨hlt, h.pairwise⟩, fun m hm => by
    rcases List.mem_cons.mp hm with rfl | hm
    · exact hn
    · exact h.bounded m hm⟩

/-- The slots below the first one. -/
theorem lt_of_mem (h : Descending P heap (a :: l) (n :: slots)) {m : Nat} (hm : m ∈ slots) : m < n :=
  (List.pairwise_cons.mp h.pairwise).1 m hm

/-- An address of the list points to one of the slots. -/
theorem pointsTo_of_mem (h : Descending P heap l slots) (ha : a ∈ l) :
    ∃ m ∈ slots, PointsTo heap a m := by
  obtain ⟨i, hi, rfl⟩ := List.mem_iff_getElem.mp ha
  have hlen := h.points.length_eq
  exact ⟨slots[i], List.getElem_mem (hlen ▸ hi), List.Forall₂.get h.points hi (hlen ▸ hi)⟩

/-- A slot of the list is pointed to. -/
theorem exists_of_mem (h : Descending P heap l slots) (hn : n ∈ slots) :
    ∃ a ∈ l, PointsTo heap a n := by
  obtain ⟨i, hi, rfl⟩ := List.mem_iff_getElem.mp hn
  have hlen := h.points.length_eq
  exact ⟨l[i], List.getElem_mem (hlen ▸ hi), List.Forall₂.get h.points (hlen ▸ hi) hi⟩

/-- The first address is not among the others. -/
theorem not_mem (h : Descending P heap (a :: l) (n :: slots)) : a ∉ l := by
  intro ha
  obtain ⟨m, hm, hpoints⟩ := h.tail.pointsTo_of_mem ha
  exact Nat.lt_irrefl n (h.head.unique hpoints ▸ h.lt_of_mem hm)

/-- A heap that has the upvalues of the list as they were. -/
theorem congr (h : Descending P heap l slots) (hsame : ∀ a ∈ l, heap'[a]? = heap[a]?) :
    Descending P heap' l slots := by
  refine ⟨?_, h.pairwise, h.bounded⟩
  have hpoints := h.points
  clear h
  induction hpoints with
  | nil => exact .nil
  | cons ha _ ih =>
      exact .cons ((hsame _ List.mem_cons_self).trans ha)
        (ih fun b hb => hsame b (List.mem_cons_of_mem _ hb))

end Descending

/-- One upvalue for each slot. -/
theorem Descending.injective {heap : Heap} {l : List Addr} {slots : List Nat} {a b : Addr} {n : Nat}
    (h : Descending P heap l slots) (ha : a ∈ l) (hb : b ∈ l) (hpa : PointsTo heap a n)
    (hpb : PointsTo heap b n) : a = b := by
  induction l generalizing slots with
  | nil => cases ha
  | cons c l ih =>
      cases slots with
      | nil => cases h.points
      | cons m slots =>
          have hne : ∀ d ∈ l, PointsTo heap d n → n ≠ m := fun d hd hpd heq => by
            obtain ⟨k, hk, hpk⟩ := h.tail.pointsTo_of_mem hd
            have hlt := h.lt_of_mem hk
            rw [hpk.unique hpd, heq] at hlt
            exact Nat.lt_irrefl m hlt
          rcases List.mem_cons.mp ha with rfl | ha'
          · rcases List.mem_cons.mp hb with rfl | hb'
            · rfl
            · exact absurd (hpa.unique h.head) (hne b hb' hpb)
          · rcases List.mem_cons.mp hb with rfl | hb'
            · exact absurd (hpb.unique h.head) (hne a ha' hpa)
            · exact ih h.tail ha' hb'

/-! ### Capturing -/

/-- The machine with a new upvalue for a slot in its list. -/
def captured (vm : VM) (slot : Nat) (openUpvalues : List Addr) : VM :=
  { vm with heap := vm.heap ++ [.upvalue (.slot slot)], openUpvalues }

/-- The search for a slot: it finds the upvalue that points to it, or it inserts a new one between
the upvalues of the slots above and those of the slots below. -/
inductive Finds (vm : VM) (slot : Nat) (l : List Addr) : Outcome (Addr × List Addr) → Prop where
  | found {a : Addr} (hmem : a ∈ l) (ha : PointsTo vm.heap a slot) : Finds vm slot l (.done (a, l) vm)
  | inserted {above below : List Addr} (hl : l = above ++ below)
      (habove : ∀ a ∈ above, ∀ n, PointsTo vm.heap a n → slot < n)
      (hbelow : ∀ a ∈ below, ∀ n, PointsTo vm.heap a n → n < slot) :
      Finds vm slot l (.done (vm.heap.length, above ++ vm.heap.length :: below)
        { vm with heap := vm.heap ++ [.upvalue (.slot slot)] })

theorem captureFrom_finds {vm : VM} {l : List Addr} {slots : List Nat}
    (h : Descending P vm.heap l slots) (slot : Nat) : Finds vm slot l (captureFrom slot l vm) := by
  induction l generalizing slots with
  | nil => exact @Finds.inserted vm slot [] [] [] rfl nofun nofun
  | cons a l ih =>
      cases slots with
      | nil => cases h.points
      | cons n slots =>
          unfold captureFrom
          rw [VMM.bind_of_done (locationAt_of_pointsTo h.head)]
          dsimp only
          by_cases hlt : slot < n
          · rw [if_pos hlt]
            have hfinds := ih h.tail
            generalize captureFrom slot l = search at hfinds
            cases hrun : search vm with
            | stopped i vm' =>
                rw [hrun] at hfinds
                cases hfinds
            | done r vm' =>
                rw [hrun] at hfinds
                rw [VMM.bind_of_done hrun]
                cases hfinds with
                | found hmem ha => exact .found (List.mem_cons_of_mem _ hmem) ha
                | @inserted above below hl habove hbelow =>
                    refine @Finds.inserted _ _ _ (a :: above) below (congrArg (a :: ·) hl) ?_ hbelow
                    intro b hb m hm
                    rcases List.mem_cons.mp hb with rfl | hb
                    · exact hm.unique h.head ▸ hlt
                    · exact habove b hb m hm
          · rw [if_neg hlt]
            by_cases heq : n = slot
            · rw [if_pos heq]
              exact .found List.mem_cons_self (heq ▸ h.head)
            · rw [if_neg heq]
              refine @Finds.inserted _ _ _ [] (a :: l) rfl nofun ?_
              intro b hb m hm
              obtain ⟨k, hk, hpk⟩ := h.pointsTo_of_mem hb
              rw [hm.unique hpk]
              rcases List.mem_cons.mp hk with rfl | hk
              · omega
              · have hmn := h.lt_of_mem hk
                omega

/-- A new upvalue between those of the slots above its own and those of the slots below. -/
theorem Descending.insert {heap : Heap} {above below : List Addr} {slots : List Nat} {slot : Nat}
    (h : Descending P heap (above ++ below) slots) (hslot : slot < P.capacity)
    (habove : ∀ a ∈ above, ∀ n, PointsTo heap a n → slot < n)
    (hbelow : ∀ a ∈ below, ∀ n, PointsTo heap a n → n < slot) :
    ∃ slots', Descending P (heap ++ [.upvalue (.slot slot)]) (above ++ heap.length :: below) slots' ∧
      ∀ m ∈ slots', m ∈ slots ∨ m = slot := by
  have hnew : PointsTo (heap ++ [.upvalue (.slot slot)]) heap.length slot := by
    unfold PointsTo
    rw [List.getElem?_append_right (Nat.le_refl _), Nat.sub_self]
    rfl
  have hold : ∀ {l : List Addr} {slots : List Nat}, Descending P heap l slots →
      Descending P (heap ++ [.upvalue (.slot slot)]) l slots := fun hl =>
    hl.congr fun a ha => by
      obtain ⟨m, -, hm⟩ := hl.pointsTo_of_mem ha
      exact List.getElem?_append_left hm.lt
  induction above generalizing slots with
  | nil =>
      refine ⟨slot :: slots, (hold h).cons hnew hslot ?_, fun m hm => ?_⟩
      · intro m hm
        obtain ⟨a, ha, hpoints⟩ := h.exists_of_mem hm
        exact hbelow a ha m hpoints
      · rcases List.mem_cons.mp hm with rfl | hm
        · exact .inr rfl
        · exact .inl hm
  | cons a above ih =>
      cases slots with
      | nil => cases h.points
      | cons n slots =>
          have hlt : slot < n := habove a List.mem_cons_self n h.head
          obtain ⟨slots', hdesc, hmem⟩ :=
            ih h.tail fun b hb => habove b (List.mem_cons_of_mem _ hb)
          refine ⟨n :: slots', hdesc.cons (hold h).head (h.bounded n List.mem_cons_self) ?_, ?_⟩
          · intro m hm
            rcases hmem m hm with hm | rfl
            · exact h.lt_of_mem hm
            · exact hlt
          · intro m hm
            rcases List.mem_cons.mp hm with rfl | hm
            · exact .inl List.mem_cons_self
            · exact (hmem m hm).imp (List.mem_cons_of_mem _) id

/-- `capture_upvalue` gives the upvalue that is open for a slot, and otherwise inserts one new
upvalue in the list and leaves the others. -/
structure CapturesExactly (vm : VM) (slot : Nat) : Prop where
  existing : ∀ a ∈ vm.openUpvalues, PointsTo vm.heap a slot → captureUpvalue slot vm = .done a vm
  inserted : (∀ a ∈ vm.openUpvalues, ¬ PointsTo vm.heap a slot) → ∃ above below,
    vm.openUpvalues = above ++ below ∧ captureUpvalue slot vm =
      .done vm.heap.length (vm.captured slot (above ++ vm.heap.length :: below))

theorem captureUpvalue_of_done {vm : VM} {slot : Nat} {a : Addr} {l : List Addr} {heap : Heap}
    (h : captureFrom slot vm.openUpvalues vm = .done (a, l) { vm with heap }) :
    captureUpvalue slot vm = .done a { vm with heap, openUpvalues := l } := by
  unfold captureUpvalue
  exact (VMM.bind_of_done h _).trans rfl

theorem capturesExactly {vm : VM} {slots : List Nat}
    (h : Descending P vm.heap vm.openUpvalues slots) (slot : Nat) : CapturesExactly vm slot := by
  have hfinds := captureFrom_finds h slot
  generalize hrun : captureFrom slot vm.openUpvalues vm = search at hfinds
  cases hfinds with
  | @found a hmem ha =>
      refine ⟨fun b hb hpoints => ?_, fun hnone => absurd ha (hnone a hmem)⟩
      rw [h.injective hb hmem hpoints ha]
      exact captureUpvalue_of_done hrun
  | @inserted above below hl habove hbelow =>
      refine ⟨fun b hb hpoints => ?_, fun _ => ⟨above, below, hl, captureUpvalue_of_done hrun⟩⟩
      rw [hl] at hb
      rcases List.mem_append.mp hb with hb | hb
      · exact absurd (habove b hb slot hpoints) (Nat.lt_irrefl slot)
      · exact absurd (hbelow b hb slot hpoints) (Nat.lt_irrefl slot)

/-! ### Closing -/

/-- What closing the upvalues from a limit on does to a list and to the heap. -/
structure Closes (vm : VM) (limit : Nat) (l l' : List Addr) (heap' : Heap) : Prop where
  remaining : ∀ a, a ∈ l' ↔ a ∈ l ∧ ∃ n < limit, PointsTo vm.heap a n
  closed : ∀ a ∈ l, ∀ n, limit ≤ n → PointsTo vm.heap a n →
    heap'[a]? = some (.upvalue (.closed (vm.stack n)))
  untouched : ∀ b, (b ∈ l → ∃ n < limit, PointsTo vm.heap b n) → heap'[b]? = vm.heap[b]?

/-- Nothing is closed in a list whose first upvalue is below the limit. -/
theorem closes_of_lt {vm : VM} {limit n : Nat} {a : Addr} {l : List Addr} {slots : List Nat}
    (h : Descending P vm.heap (a :: l) (n :: slots)) (hlt : n < limit) :
    Closes vm limit (a :: l) (a :: l) vm.heap := by
  have hbelow : ∀ b ∈ a :: l, ∃ m < limit, PointsTo vm.heap b m := by
    intro b hb
    obtain ⟨m, hm, hpoints⟩ := h.pointsTo_of_mem hb
    refine ⟨m, ?_, hpoints⟩
    rcases List.mem_cons.mp hm with rfl | hm
    · exact hlt
    · exact Nat.lt_trans (h.lt_of_mem hm) hlt
  refine ⟨fun b => ⟨fun hb => ⟨hb, hbelow b hb⟩, And.left⟩, fun b hb m hle hm => ?_, fun _ _ => rfl⟩
  obtain ⟨k, hk, hpoints⟩ := hbelow b hb
  rw [hm.unique hpoints] at hle
  exact absurd hk (Nat.not_lt.mpr hle)

/-- The first upvalue is closed, and then those behind it. -/
theorem Closes.cons {vm : VM} {limit n : Nat} {a : Addr} {l l' : List Addr} {slots : List Nat}
    {heap' : Heap} (hdesc : Descending P vm.heap (a :: l) (n :: slots)) (hle : limit ≤ n)
    (h : Closes { vm with heap := vm.heap.set a (.upvalue (.closed (vm.stack n))) } limit l l' heap') :
    Closes vm limit (a :: l) l' heap' := by
  have hother : ∀ b, b ≠ a → (vm.heap.set a (.upvalue (.closed (vm.stack n))))[b]? = vm.heap[b]? :=
    fun b hb => List.getElem?_set_ne hb.symm
  have hmem : ∀ b ∈ l, b ≠ a := fun b hb heq => hdesc.not_mem (heq ▸ hb)
  have hpoints : ∀ b ∈ l, ∀ m,
      PointsTo (vm.heap.set a (.upvalue (.closed (vm.stack n)))) b m ↔ PointsTo vm.heap b m :=
    fun b hb m => by rw [PointsTo, PointsTo, hother b (hmem b hb)]
  have habove : ∀ m, PointsTo vm.heap a m → ¬ m < limit := fun m hm =>
    hm.unique hdesc.head ▸ Nat.not_lt.mpr hle
  constructor
  · intro b
    rw [h.remaining b, List.mem_cons]
    constructor
    · rintro ⟨hb, m, hm, hbm⟩
      exact ⟨.inr hb, m, hm, (hpoints b hb m).mp hbm⟩
    · rintro ⟨rfl | hb, m, hm, hbm⟩
      · exact absurd hm (habove m hbm)
      · exact ⟨hb, m, hm, (hpoints b hb m).mpr hbm⟩
  · intro b hb m hm hbm
    rcases List.mem_cons.mp hb with rfl | hb
    · rw [h.untouched b fun hbl => absurd rfl (hmem b hbl), hbm.unique hdesc.head]
      exact List.getElem?_set_self hdesc.head.lt
    · exact h.closed b hb m hm ((hpoints b hb m).mpr hbm)
  · intro b hb
    have hne : b ≠ a := by
      rintro rfl
      obtain ⟨m, hm, hbm⟩ := hb List.mem_cons_self
      exact habove m hbm hm
    refine (h.untouched b fun hbl => ?_).trans (hother b hne)
    obtain ⟨m, hm, hbm⟩ := hb (List.mem_cons_of_mem _ hbl)
    exact ⟨m, hm, (hpoints b hbl m).mpr hbm⟩

theorem closeUpvaluesFrom_closes {vm : VM} {l : List Addr} {slots : List Nat}
    (h : Descending P vm.heap l slots) (limit : Nat) :
    ∃ l' heap' slots', closeUpvaluesFrom P limit l vm =
        .done () { vm with heap := heap', openUpvalues := l' } ∧
      Closes vm limit l l' heap' ∧ Descending P heap' l' slots' := by
  induction l generalizing vm slots with
  | nil =>
      refine ⟨[], vm.heap, [], rfl, ⟨fun a => ?_, nofun, fun _ _ => rfl⟩, .nil _⟩
      exact ⟨nofun, fun ha => nomatch ha.1⟩
  | cons a l ih =>
      cases slots with
      | nil => cases h.points
      | cons n slots =>
          unfold closeUpvaluesFrom
          rw [VMM.bind_of_done (locationAt_of_pointsTo h.head)]
          dsimp only
          by_cases hle : limit ≤ n
          · rw [if_pos hle]
            have hread : readSlot P n vm = .done (vm.stack n) vm := by
              rw [readSlot_apply, if_pos (h.bounded n List.mem_cons_self)]
            have htail : Descending P (vm.heap.set a (.upvalue (.closed (vm.stack n)))) l slots :=
              h.tail.congr fun b hb => List.getElem?_set_ne fun heq : a = b =>
                h.not_mem (heq ▸ hb)
            obtain ⟨l', heap', slots', hrun, hcloses, hdesc⟩ :=
              @ih { vm with heap := vm.heap.set a (.upvalue (.closed (vm.stack n))) } _ htail
            refine ⟨l', heap', slots', ?_, hcloses.cons h hle, hdesc⟩
            rw [VMM.bind_of_done hread]
            exact hrun
          · rw [if_neg hle]
            exact ⟨a :: l, vm.heap, n :: slots, rfl, closes_of_lt h (Nat.not_le.mp hle), h⟩

/-! ### Runs -/

/-- The list of a machine is strictly decreasing. -/
def ListDescends (P : Platform) (vm : VM) : Prop :=
  ∃ slots, Descending P vm.heap vm.openUpvalues slots

/-- An object that is no upvalue of the list. -/
def Unlisted (vm : VM) (b : Addr) : Prop := b < vm.heap.length ∧ b ∉ vm.openUpvalues

/-- What an operation does: the list stays strictly decreasing, and the objects that are not in the
list stay as they are. -/
structure KeepsList (P : Platform) (vm vm' : VM) : Prop where
  descends : ListDescends P vm'
  unlisted : ∀ b, Unlisted vm b → Unlisted vm' b ∧ vm'.heap[b]? = vm.heap[b]?

theorem Descending.capture {vm : VM} {slots : List Nat}
    (h : Descending P vm.heap vm.openUpvalues slots) (slot : Fin P.capacity) :
    ∃ a vm', captureUpvalue slot vm = .done a vm' ∧ KeepsList P vm vm' := by
  have hfinds := captureFrom_finds h slot
  generalize hrun : captureFrom slot vm.openUpvalues vm = search at hfinds
  cases hfinds with
  | @found a _ _ =>
      exact ⟨a, vm, captureUpvalue_of_done hrun, ⟨slots, h⟩, fun b hb => ⟨hb, rfl⟩⟩
  | @inserted above below hl habove hbelow =>
      rw [hl] at h
      obtain ⟨slots', hdesc, -⟩ := h.insert slot.isLt habove hbelow
      refine ⟨_, _, captureUpvalue_of_done hrun, ⟨slots', hdesc⟩, fun b hb => ⟨⟨?_, ?_⟩, ?_⟩⟩
      · exact Nat.lt_of_lt_of_le hb.1 (List.length_append ▸ Nat.le_add_right _ _)
      · intro hmem
        rcases List.mem_append.mp hmem with hmem | hmem
        · exact hb.2 (hl ▸ List.mem_append_left _ hmem)
        · rcases List.mem_cons.mp hmem with heq | hmem
          · exact absurd heq (Nat.ne_of_lt hb.1)
          · exact hb.2 (hl ▸ List.mem_append_right _ hmem)
      · exact List.getElem?_append_left hb.1

theorem Descending.close {vm : VM} {slots : List Nat}
    (h : Descending P vm.heap vm.openUpvalues slots) (limit : Nat) :
    ∃ vm', closeUpvalues P limit vm = .done () vm' ∧ vm'.stack = vm.stack ∧
      Closes vm limit vm.openUpvalues vm'.openUpvalues vm'.heap ∧ KeepsList P vm vm' := by
  obtain ⟨l', heap', slots', hrun, hcloses, hdesc⟩ := closeUpvaluesFrom_closes h limit
  refine ⟨_, hrun, rfl, hcloses, ⟨slots', hdesc⟩, fun b hb => ?_⟩
  have hsame : heap'[b]? = vm.heap[b]? := hcloses.untouched b fun hmem => absurd hmem hb.2
  refine ⟨⟨?_, fun hmem => hb.2 ((hcloses.remaining b).mp hmem).1⟩, hsame⟩
  rw [List.getElem?_eq_getElem hb.1] at hsame
  exact (List.getElem?_eq_some_iff.mp hsame).1

/-- One operation. -/
theorem ListDescends.run {vm : VM} (h : ListDescends P vm) (op : UpvalueOp P) :
    ∃ vm', op.run vm = .done () vm' ∧ KeepsList P vm vm' := by
  obtain ⟨slots, h⟩ := h
  cases op with
  | capture slot =>
      obtain ⟨a, vm', hrun, hkeeps⟩ := h.capture slot
      exact ⟨vm', (VMM.bind_of_done hrun _).trans rfl, hkeeps⟩
  | close limit =>
      obtain ⟨vm', hrun, -, -, hkeeps⟩ := h.close limit
      exact ⟨vm', hrun, hkeeps⟩
  | write slot v =>
      refine ⟨vm.setSlot slot v, ?_, ⟨slots, h⟩, fun b hb => ⟨hb, rfl⟩⟩
      exact congrFun (if_pos slot.isLt) vm

theorem KeepsList.trans {vm vm₁ vm₂ : VM} (h : KeepsList P vm vm₁) (h' : KeepsList P vm₁ vm₂) :
    KeepsList P vm vm₂ :=
  ⟨h'.descends, fun b hb =>
    ⟨(h'.unlisted b (h.unlisted b hb).1).1,
      (h'.unlisted b (h.unlisted b hb).1).2.trans (h.unlisted b hb).2⟩⟩

/-- Operations one after the other. -/
theorem ListDescends.runAll {vm : VM} (h : ListDescends P vm) (ops : List (UpvalueOp P)) :
    ∃ vm', runUpvalueOps ops vm = .done () vm' ∧ KeepsList P vm vm' := by
  induction ops generalizing vm with
  | nil => exact ⟨vm, rfl, h, fun b hb => ⟨hb, rfl⟩⟩
  | cons op ops ih =>
      obtain ⟨vm₁, hrun, hkeeps⟩ := h.run op
      obtain ⟨vm', hrest, hkeeps'⟩ := ih hkeeps.descends
      exact ⟨vm', (VMM.bind_of_done hrun _).trans hrest, hkeeps.trans hkeeps'⟩

/-- `close_upvalues` removes the upvalues from a limit on, and each of them has the value of its
slot from then on, whatever is captured, closed and written later. -/
structure ClosesExactly (P : Platform) (vm : VM) (limit : Nat) (vm' : VM) : Prop where
  run : closeUpvalues P limit vm = .done () vm'
  stack : vm'.stack = vm.stack
  remaining : ∀ a, a ∈ vm'.openUpvalues ↔ a ∈ vm.openUpvalues ∧ ∃ n < limit, PointsTo vm.heap a n
  untouched : ∀ b, (b ∈ vm.openUpvalues → ∃ n < limit, PointsTo vm.heap b n) →
    vm'.heap[b]? = vm.heap[b]?
  closed : ∀ a ∈ vm.openUpvalues, ∀ n, limit ≤ n → PointsTo vm.heap a n →
    ∀ (later : List (UpvalueOp P)) vm'', runUpvalueOps later vm' = .done () vm'' →
      vm''.heap[a]? = some (.upvalue (.closed (vm.stack n)))

theorem ListDescends.closesExactly {vm : VM} (h : ListDescends P vm) (limit : Nat) :
    ∃ vm', ClosesExactly P vm limit vm' := by
  obtain ⟨slots, h⟩ := h
  obtain ⟨vm', hrun, hstack, hcloses, hkeeps⟩ := h.close limit
  refine ⟨vm', hrun, hstack, hcloses.remaining, hcloses.untouched, ?_⟩
  intro a ha n hle hpoints later vm'' hlater
  have hclosed := hcloses.closed a ha n hle hpoints
  have hunlisted : Unlisted vm' a := by
    refine ⟨(List.getElem?_eq_some_iff.mp hclosed).1, fun hmem => ?_⟩
    obtain ⟨-, m, hm, hpoints'⟩ := (hcloses.remaining a).mp hmem
    rw [hpoints'.unique hpoints] at hm
    exact absurd hm (Nat.not_lt.mpr hle)
  obtain ⟨vm₂, hrun₂, hkeeps₂⟩ := hkeeps.descends.runAll later
  rw [hrun₂] at hlater
  cases hlater
  exact (hkeeps₂.unlisted a hunlisted).2.trans hclosed

/-- **The list of open upvalues is exact.**  After any captures, closings and writes from an empty
list, the list is strictly decreasing, a capture finds the upvalue of its slot or inserts one, and a
closing closes exactly the upvalues from its limit on.  Two closures share a variable because a
capture finds the upvalue that is there, and keep it after its slot is gone because a closing leaves
out none. -/
theorem openUpvalues_exact (P : Platform) (vm₀ : VM) (h : vm₀.openUpvalues = [])
    (ops : List (UpvalueOp P)) :
    ∃ vm, runUpvalueOps ops vm₀ = .done () vm ∧ ListDescends P vm ∧
      (∀ slot : Fin P.capacity, CapturesExactly vm slot) ∧
      ∀ limit, ∃ vm', ClosesExactly P vm limit vm' := by
  have hstart : ListDescends P vm₀ := by
    refine ⟨[], ?_⟩
    rw [h]
    exact .nil _
  obtain ⟨vm, hrun, hkeeps⟩ := hstart.runAll ops
  obtain ⟨slots, hdesc⟩ := hkeeps.descends
  exact ⟨vm, hrun, hkeeps.descends, fun slot => capturesExactly hdesc slot,
    fun limit => hkeeps.descends.closesExactly limit⟩

/-- Two slots are captured, the lower one first, and the upper one is closed. -/
theorem openUpvalues_exact_two :
    ∃ vm, @runUpvalueOps barePlatform [.capture ⟨3, by decide⟩, .write ⟨7, by decide⟩ (.integer 1),
        .capture ⟨7, by decide⟩, .close 5] .initial = .done () vm ∧ ListDescends barePlatform vm ∧
      (∀ slot : Fin barePlatform.capacity, CapturesExactly vm slot) ∧
      ∀ limit, ∃ vm', ClosesExactly barePlatform vm limit vm' :=
  openUpvalues_exact barePlatform .initial rfl _

end VM

end CppLox
