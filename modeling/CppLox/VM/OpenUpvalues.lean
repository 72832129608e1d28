import CppLox.VM.Operands
import CppLox.VM.Run
import CppLox.VM.Silent

/-!
# Virtual machine — open upvalues

Every upvalue that points to the stack is in the list `open_upvalues`; the innermost frame that is
left at the end of a script is the one that was pushed first, and its slots start at the base of the
stack, so that its return closes the whole list.  The instructions on open upvalues report no
errors, and the others leave the list alone.
-/

namespace CppLox

open VMM

set_option synthInstance.maxSize 10000

namespace VM

variable (P : Platform)

/-! ### The bottom frame -/

/-- The frame that was pushed first is still there, with its slots. -/
def SameBottom (vm vm' : VM) : Prop :=
  vm.frames ≠ [] → vm'.frames ≠ [] ∧
    vm'.frames.getLast?.map CallFrame.slots = vm.frames.getLast?.map CallFrame.slots

instance : Undisturbed SameBottom where
  refl _ h := ⟨h, rfl⟩
  trans h h' hne := by
    obtain ⟨hne₂, heq⟩ := h hne
    obtain ⟨hne₃, heq'⟩ := h' hne₂
    exact ⟨hne₃, heq'.trans heq⟩
  stack _ _ _ h := ⟨h, rfl⟩
  ip vm frame frames ip heq _ := by
    refine ⟨List.cons_ne_nil _ _, ?_⟩
    rw [heq]
    cases frames <;> simp
  call vm frame h := by
    refine ⟨List.cons_ne_nil _ _, ?_⟩
    obtain ⟨f, fs, heq⟩ := List.exists_cons_of_ne_nil h
    simp [heq]
  heap _ _ _ h := ⟨h, rfl⟩
  output _ _ h := ⟨h, rfl⟩

instance : IndifferentGlobals SameBottom where
  global _ _ _ _ h := ⟨h, rfl⟩

instance : IndifferentMethods SameBottom where
  methods _ _ _ _ _ h := ⟨h, rfl⟩

instance : IndifferentClosures SameBottom where
  closures _ _ _ h := ⟨h, rfl⟩

/-- The list of open upvalues is left alone. -/
def SameOpen (vm vm' : VM) : Prop := vm'.openUpvalues = vm.openUpvalues

instance : Undisturbed SameOpen where
  refl _ := rfl
  trans h h' := Eq.trans h' h
  stack _ _ _ := rfl
  ip _ _ _ _ _ := rfl
  call _ _ := rfl
  heap _ _ _ := rfl
  output _ _ := rfl

instance : IndifferentGlobals SameOpen where
  global _ _ _ _ := rfl

instance : IndifferentMethods SameOpen where
  methods _ _ _ _ _ := rfl

instance : IndifferentClosures SameOpen where
  closures _ _ _ := rfl

instance : IndifferentUpvalues SameBottom :=
  indifferentUpvalues_of (fun _ _ h => ⟨h, rfl⟩) fun _ _ h => ⟨h, rfl⟩

instance : Untouched SameBottom where

theorem locationAt_apply (a : Addr) (vm : VM) : locationAt a vm =
    match vm.heap[a]? with
    | some (.upvalue location) => .done location vm
    | _ => .stopped .undefined vm := by
  have h := objectAt_apply a vm
  unfold locationAt
  cases ha : vm.heap[a]? with
  | none =>
      rw [ha] at h
      rw [VMM.bind_of_stopped h]
  | some object =>
      rw [ha] at h
      rw [VMM.bind_of_done h]
      cases object <;> rfl

theorem locationAt_cases (a : Addr) (vm : VM) :
    (∃ location, vm.heap[a]? = some (.upvalue location) ∧ locationAt a vm = .done location vm) ∨
      locationAt a vm = .stopped .undefined vm := by
  rw [locationAt_apply]
  split
  · rename_i location heq
    exact .inl ⟨location, heq, rfl⟩
  · exact .inr rfl

theorem readSlot_apply (i : Nat) (vm : VM) : readSlot P i vm =
    if i < P.capacity then .done (vm.stack i) vm else .stopped .undefined vm := by
  change (if i < P.capacity then pure (vm.stack i) else undefinedBehaviour : VMM Value) vm = _
  split <;> rfl

/-! ### Every open upvalue is in the list -/

/-- The upvalues of a heap that point to the stack are in a list. -/
def Listed (heap : Heap) (l : List Addr) : Prop :=
  ∀ (a : Addr) (n : Nat), heap[a]? = some (HeapObject.upvalue (.slot n)) → a ∈ l

/-- The upvalues that point to the stack are in `open_upvalues`. -/
def OpenListed (vm : VM) : Prop := Listed vm.heap vm.openUpvalues

/-- What one upvalue that is closed leaves of the list. -/
theorem Listed.close {heap : Heap} {a : Addr} {rest : List Addr} {location : Location} {v : Value}
    (h : Listed heap (a :: rest)) (ha : heap[a]? = some (.upvalue location)) :
    Listed (heap.set a (.upvalue (.closed v))) rest := by
  intro b n hb
  have hlt : a < heap.length := (List.getElem?_eq_some_iff.mp ha).1
  by_cases hab : a = b
  · subst hab
    rw [List.getElem?_set_self hlt] at hb
    cases hb
  · rw [List.getElem?_set_ne hab] at hb
    exact (List.mem_cons.mp (h b n hb)).resolve_left (Ne.symm hab)

theorem Listed.append {heap : Heap} {l l' : List Addr} {n : Nat} (h : Listed heap l)
    (hsub : ∀ a ∈ l, a ∈ l') (hnew : heap.length ∈ l') :
    Listed (heap ++ [.upvalue (.slot n)]) l' := by
  intro b m hb
  rcases Nat.lt_trichotomy b heap.length with hlt | rfl | hgt
  · rw [List.getElem?_append_left hlt] at hb
    exact hsub b (h b m hb)
  · exact hnew
  · rw [List.getElem?_eq_none (by rw [List.length_append, List.length_singleton]; omega)] at hb
    cases hb

/-- The loop that closes upvalues, on what is left of the list. -/
theorem closeUpvaluesFrom_listed {lastValue : Nat} {l : List Addr} {vm : VM}
    (h : Listed vm.heap l) (hsub : ∀ a ∈ l, a ∈ vm.openUpvalues) :
    OpenListed (closeUpvaluesFrom P lastValue l vm).vm := by
  induction l generalizing vm with
  | nil => exact h
  | cons a rest ih =>
      have hlisted : OpenListed vm := fun b n hb => hsub b (h b n hb)
      unfold closeUpvaluesFrom
      rcases locationAt_cases a vm with ⟨location, ha, hrun⟩ | hrun
      · rw [VMM.bind_of_done hrun]
        cases location with
        | closed v => exact hlisted
        | slot n =>
            dsimp only
            split
            · by_cases hn : n < P.capacity
              · rw [VMM.bind_of_done (show readSlot P n vm = .done (vm.stack n) vm by
                  rw [readSlot_apply, if_pos hn])]
                exact ih (h.close ha) fun b hb => hsub b (List.mem_cons_of_mem _ hb)
              · rw [VMM.bind_of_stopped (show readSlot P n vm = .stopped .undefined vm by
                  rw [readSlot_apply, if_neg hn])]
                exact hlisted
            · exact h
      · rw [VMM.bind_of_stopped hrun]
        exact hlisted

/-- What the loop that looks for an upvalue ends with: a new upvalue is in the list it returns. -/
theorem captureFrom_cases (slot : Nat) (l : List Addr) (vm : VM) :
    (∃ i, captureFrom slot l vm = .stopped i vm) ∨
      ∃ a l' heap, captureFrom slot l vm = .done (a, l') { vm with heap } ∧
        ∀ k, Listed vm.heap (k ++ l) → Listed heap (k ++ l') := by
  have hnew : ∀ k l : List Addr, Listed vm.heap (k ++ l) →
      Listed (vm.heap ++ [.upvalue (.slot slot)]) (k ++ vm.heap.length :: l) := by
    intro k l hk
    refine hk.append (fun a ha => ?_) (List.mem_append_right _ (List.mem_cons_self ..))
    rcases List.mem_append.mp ha with ha | ha
    · exact List.mem_append_left _ ha
    · exact List.mem_append_right _ (List.mem_cons_of_mem _ ha)
  induction l with
  | nil => exact .inr ⟨_, _, _, rfl, fun k => hnew k []⟩
  | cons current rest ih =>
      unfold captureFrom
      rcases locationAt_cases current vm with ⟨location, -, hrun⟩ | hrun
      · rw [VMM.bind_of_done hrun]
        cases location with
        | closed v => exact .inl ⟨_, rfl⟩
        | slot n =>
            dsimp only
            split
            · rcases ih with ⟨i, hrest⟩ | ⟨a, l', heap, hrest, hlisted⟩
              · rw [VMM.bind_of_stopped hrest]
                exact .inl ⟨i, rfl⟩
              · rw [VMM.bind_of_done hrest]
                refine .inr ⟨a, current :: l', heap, rfl, fun k hk => ?_⟩
                rw [List.append_cons] at hk ⊢
                exact hlisted _ hk
            · split
              · exact .inr ⟨current, current :: rest, vm.heap, rfl, fun k hk => hk⟩
              · exact .inr ⟨_, _, _, rfl, fun k => hnew k _⟩
      · rw [VMM.bind_of_stopped hrun]
        exact .inl ⟨_, rfl⟩

/-- No upvalue that points to the stack is lost from the list. -/
def KeepsListed (vm vm' : VM) : Prop := OpenListed vm → OpenListed vm'

instance : Undisturbed KeepsListed where
  refl _ h := h
  trans h h' hlisted := h' (h hlisted)
  stack _ _ _ h := h
  ip _ _ _ _ _ h := h
  call _ _ h := h
  heap _ _ hplain h a n ha := h a n (hplain.opensNone a n ha)
  output _ _ h := h

instance : IndifferentGlobals KeepsListed where
  global _ _ _ _ h := h

instance : IndifferentMethods KeepsListed where
  methods vm b name initMethod methods h a n ha := by
    refine h a n ?_
    by_cases hab : b = a
    · subst hab
      by_cases hlt : b < vm.heap.length
      · change (vm.heap.set b (.class name initMethod methods))[b]? = _ at ha
        rw [List.getElem?_set_self hlt] at ha
        cases ha
      · change (vm.heap.set b (.class name initMethod methods))[b]? = _ at ha
        rwa [List.set_eq_of_length_le (Nat.le_of_not_lt hlt)] at ha
    · change (vm.heap.set b (.class name initMethod methods))[a]? = _ at ha
      rwa [List.getElem?_set_ne hab] at ha

instance : IndifferentClosures KeepsListed where
  closures _ _ hadds h a n ha := h a n (hadds a _ ha rfl)

instance : UndisturbedUpvalues KeepsListed where
  capture slot := by
    refine ⟨fun vm h => ?_⟩
    unfold captureUpvalue
    change OpenListed ((captureFrom slot vm.openUpvalues >>= _) vm).vm
    rcases captureFrom_cases slot vm.openUpvalues vm with
      ⟨i, hrun⟩ | ⟨a, l', heap, hrun, hlisted⟩
    · rw [VMM.bind_of_stopped hrun]
      exact h
    · rw [VMM.bind_of_done hrun]
      exact hlisted [] h
  close P lastValue := by
    refine ⟨fun vm h => ?_⟩
    exact closeUpvaluesFrom_listed P h fun _ ha => ha

instance : Untouched KeepsListed where

instance : IndifferentReturns KeepsListed where
  pop _ h := h

/-! ### The last return -/

theorem closeUpvaluesFrom_zero {l : List Addr} {vm vm' : VM}
    (h : closeUpvaluesFrom P 0 l vm = .done () vm') : vm'.openUpvalues = [] := by
  induction l generalizing vm with
  | nil =>
      cases h
      rfl
  | cons a rest ih =>
      unfold closeUpvaluesFrom at h
      obtain ⟨location, vm₁, h₁, h⟩ := VMM.bind_done.mp h
      cases location with
      | closed v => cases h
      | slot n =>
          obtain ⟨v, vm₂, h₂, h⟩ := VMM.bind_done.mp (show (readSlot P n >>= _) vm₁ = _ from h)
          obtain ⟨_, vm₃, h₃, h⟩ := VMM.bind_done.mp h
          exact ih h

/-- The frame of the script has its slots at the base of the stack. -/
def BottomAtBase (vm : VM) : Prop := vm.frames.getLast?.map CallFrame.slots = some 0

theorem BottomAtBase.of_same {vm vm' : VM} (h : BottomAtBase vm) (hs : SameBottom vm vm') :
    BottomAtBase vm' := by
  refine (hs ?_).2.trans h
  rintro hnil
  rw [BottomAtBase, hnil] at h
  cases h

/-- Closing changes the heap and the list. -/
theorem closeUpvaluesFrom_vm (lastValue : Nat) (l : List Addr) (vm : VM) :
    ∃ heap openUpvalues, (closeUpvaluesFrom P lastValue l vm).vm = { vm with heap, openUpvalues } := by
  induction l generalizing vm with
  | nil => exact ⟨_, _, rfl⟩
  | cons a rest ih =>
      unfold closeUpvaluesFrom
      rcases locationAt_cases a vm with ⟨location, -, hrun⟩ | hrun
      · rw [VMM.bind_of_done hrun]
        cases location with
        | closed v => exact ⟨_, _, rfl⟩
        | slot n =>
            dsimp only
            split
            · by_cases hn : n < P.capacity
              · rw [VMM.bind_of_done (show readSlot P n vm = .done (vm.stack n) vm by
                  rw [readSlot_apply, if_pos hn])]
                exact ih { vm with heap := vm.heap.set a (.upvalue (.closed (vm.stack n))) }
              · rw [VMM.bind_of_stopped (show readSlot P n vm = .stopped .undefined vm by
                  rw [readSlot_apply, if_neg hn])]
                exact ⟨_, _, rfl⟩
            · exact ⟨_, _, rfl⟩
      · rw [VMM.bind_of_stopped hrun]
        exact ⟨_, _, rfl⟩

/-- A return: the script ends with no open upvalue, or goes on with the frame below. -/
theorem executeReturn_done {vm vm' : VM} {ended : Bool} (hbottom : BottomAtBase vm)
    (h : executeReturn P vm = .done ended vm') :
    (ended = true → vm'.openUpvalues = []) ∧ (ended = false → BottomAtBase vm') := by
  obtain ⟨result, vm₁, hpop, h⟩ := VMM.bind_done.mp h
  obtain ⟨-, -, rfl⟩ := pop_done hpop
  obtain ⟨frame, _, hframe, h⟩ := VMM.bind_done.mp h
  obtain ⟨rfl, frames, hframes⟩ := currentFrame_done hframe
  obtain ⟨_, vm₂, hclose, h⟩ := VMM.bind_done.mp h
  have hclose' : closeUpvaluesFrom P frame.slots vm.openUpvalues
      { vm with stackTop := vm.stackTop - 1 } = .done () vm₂ := hclose
  have hframes₂ : vm₂.frames = frame :: frames := by
    obtain ⟨heap, openUpvalues, hvm⟩ := closeUpvaluesFrom_vm P frame.slots vm.openUpvalues
      { vm with stackTop := vm.stackTop - 1 }
    rw [hclose'] at hvm
    rw [show vm₂ = _ from hvm]
    exact hframes
  have hvm : (vm.frames : List CallFrame) = frame :: frames := hframes
  obtain ⟨_, vm₃, hmod, h⟩ := VMM.bind_done.mp h
  cases hmod
  change (if vm₂.frames.tail.isEmpty then _ else _ : VMM Bool) _ = _ at h
  rw [hframes₂, List.tail_cons] at h
  split at h
  · rename_i hempty
    have hnil := List.isEmpty_iff.mp hempty
    obtain ⟨_, vm₄, hpop, h⟩ := VMM.bind_done.mp h
    obtain ⟨-, -, rfl⟩ := pop_done hpop
    cases h
    have hslots : frame.slots = 0 := by
      rw [BottomAtBase, hvm, hnil] at hbottom
      exact Option.some.inj hbottom
    rw [hslots] at hclose'
    have hopen := closeUpvaluesFrom_zero P hclose'
    exact ⟨fun _ => hopen, nofun⟩
  · rename_i hempty
    have hne : frames ≠ [] := fun hnil => hempty (List.isEmpty_iff.mpr hnil)
    obtain ⟨_, vm₄, hmod, h⟩ := VMM.bind_done.mp h
    cases hmod
    obtain ⟨_, vm₅, hpush, h⟩ := VMM.bind_done.mp h
    have hframes₅ : vm₅.frames = frames := by
      rw [push_done P hpush]
      exact (congrArg List.tail hframes₂ : _)
    cases h
    refine ⟨nofun, fun _ => ?_⟩
    obtain ⟨f, fs, rfl⟩ := List.exists_cons_of_ne_nil hne
    rw [BottomAtBase, hvm, List.getLast?_cons_cons] at hbottom
    rw [BottomAtBase, hframes₅]
    exact hbottom

/-! ### Steps -/

/-- An instruction after which the script goes on. -/
theorem Step.bottomAtBase {vm vm' : VM} (h : Step P vm vm') (hbottom : BottomAtBase vm) :
    BottomAtBase vm' := by
  obtain ⟨i, vm₁, -, ho⟩ | ⟨b, vm₁, hread, hrest⟩ := step_cases P h
  · cases ho
  have hbottom₁ := hbottom.of_same ((inferInstance : Preserves SameBottom readByte).done hread)
  obtain ⟨-, ho⟩ | ⟨-, hreturn⟩ | ⟨op, -, -, ⟨vm₂, hrun, ho⟩ | ⟨i, vm₂, -, ho⟩⟩ := hrest
  · cases ho
  · exact (executeReturn_done P hbottom₁ hreturn).2 rfl
  · cases ho
    exact hbottom₁.of_same ((inferInstance : Preserves SameBottom (execute P op)).done hrun)
  · cases ho

theorem Steps.bottomAtBase {vm vm' : VM} (h : Steps P vm vm') (hbottom : BottomAtBase vm) :
    BottomAtBase vm' := by
  induction h with
  | refl => exact hbottom
  | tail _ hstep ih => exact Step.bottomAtBase P hstep ih

/-- At the end of the script no upvalue is open. -/
theorem openUpvalues_of_ended {vm vm' : VM} (h : step P vm = .done true vm')
    (hbottom : BottomAtBase vm) : vm'.openUpvalues = [] := by
  obtain ⟨i, vm₁, -, ho⟩ | ⟨b, vm₁, hread, hrest⟩ := step_cases P h
  · cases ho
  have hbottom₁ := hbottom.of_same ((inferInstance : Preserves SameBottom readByte).done hread)
  obtain ⟨-, ho⟩ | ⟨-, hreturn⟩ | ⟨op, -, -, ⟨vm₂, -, ho⟩ | ⟨i, vm₂, -, ho⟩⟩ := hrest
  · cases ho
  · exact (executeReturn_done P hbottom₁ hreturn).1 rfl
  · cases ho
  · cases ho

/-- An instruction that reports an error leaves the list of open upvalues alone. -/
theorem openUpvalues_of_runtimeError {vm vm' : VM} {message : Option String}
    (h : step P vm = .stopped (.runtimeError message) vm') : vm'.openUpvalues = vm.openUpvalues := by
  obtain ⟨i, vm₁, hread, ho⟩ | ⟨b, vm₁, hread, hrest⟩ := step_cases P h
  · cases ho
    exact (inferInstance : Preserves SameOpen readByte).stopped hread
  have hsame : vm₁.openUpvalues = vm.openUpvalues :=
    (inferInstance : Preserves SameOpen readByte).done hread
  obtain ⟨-, ho⟩ | ⟨-, hreturn⟩ | ⟨op, -, -, ⟨vm₂, -, ho⟩ | ⟨i, vm₂, hrun, ho⟩⟩ := hrest
  · cases ho
  · exact absurd hreturn ((inferInstance : Silent (executeReturn P)).ne _ _ _)
  · cases ho
  · cases ho
    by_cases hclosure : op = .closure
    · subst hclosure
      exact absurd hrun ((inferInstance : Silent (executeClosure P)).ne _ _ _)
    by_cases hclose : op = .closeUpvalue
    · subst hclose
      exact absurd hrun ((inferInstance : Silent (executeCloseUpvalue P)).ne _ _ _)
    have hop : vm'.openUpvalues = vm₁.openUpvalues :=
      (preserves_execute_of_ne P hclosure hclose : Preserves SameOpen (execute P op)).stopped hrun
    exact hop.trans hsame

theorem Steps.openListed {vm vm' : VM} (h : Steps P vm vm') (hlisted : OpenListed vm) :
    OpenListed vm' := by
  induction h with
  | refl => exact hlisted
  | tail _ hstep ih => exact (inferInstance : Preserves KeepsListed (step P)).done hstep ih

end VM

end CppLox
