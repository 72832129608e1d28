import CppLox.VM.Fetch

/-!
# Virtual machine — constructors

A class keeps its constructor beside its methods.  `METHOD` writes both, `INHERIT` writes the methods
only: a class that inherits `init` has no constructor until it declares one of its own.
-/

namespace CppLox

open VMM

/-- The constructor of a class is its method `init`, and nil without one. -/
def ConstructorAgrees (heap : Heap) (a : Addr) : Prop :=
  ∀ name initMethod methods, heap[a]? = some (HeapObject.class name initMethod methods) →
    initMethod = (methods.lookup initName).getD (.nil false)

namespace VM

variable (P : Platform)

/-! ### Tables of methods -/

theorem lookup_filter_ne {table : StringTable} {key key' : Bytes} (h : key' ≠ key) :
    (table.filter fun entry => entry.1 ≠ key).lookup key' = table.lookup key' := by
  induction table with
  | nil => rfl
  | cons entry table ih =>
      obtain ⟨k, v⟩ := entry
      by_cases hk : k = key
      · subst hk
        rw [List.filter_cons_of_neg (by simp), ih, List.lookup_cons, beq_false_of_ne h]
      · rw [List.filter_cons_of_pos (by simpa using hk), List.lookup_cons, List.lookup_cons, ih]

theorem lookup_tableInsert (table : StringTable) (key key' : Bytes) (v : Value) :
    (tableInsert table key v).lookup key' = if key' = key then some v else table.lookup key' := by
  unfold tableInsert
  rw [List.lookup_cons]
  by_cases h : key' = key
  · rw [if_pos h, h, beq_self_eq_true]
  · rw [if_neg h, beq_false_of_ne h]
    exact lookup_filter_ne h

/-- A table into which entries are copied: an entry takes the place of one with its key. -/
theorem lookup_tableInsertAll (table entries : StringTable) (key : Bytes) :
    (tableInsertAll table entries).lookup key = (entries.lookup key).or (table.lookup key) := by
  unfold tableInsertAll
  induction entries with
  | nil => rfl
  | cons entry entries ih =>
      obtain ⟨k, v⟩ := entry
      rw [List.foldr_cons, lookup_tableInsert, ih, List.lookup_cons]
      by_cases h : key = k
      · rw [if_pos h, h, beq_self_eq_true, Option.some_or]
      · rw [if_neg h, beq_false_of_ne h]

/-! ### Instructions that leave classes alone -/

/-- The classes are ones from before, and new ones without constructor and methods. -/
def KeepsClasses (vm vm' : VM) : Prop :=
  ∀ (a : Addr) name initMethod methods,
    vm'.heap[a]? = some (HeapObject.class name initMethod methods) →
      initMethod = .nil false ∧ methods = [] ∨
        vm.heap[a]? = some (HeapObject.class name initMethod methods)

theorem keepsClasses_of_addsPlain {vm : VM} {heap : Heap} (h : vm.heap.AddsPlain heap) :
    KeepsClasses vm { vm with heap } := by
  intro a name initMethod methods ha
  by_cases hplain : (HeapObject.class name initMethod methods).isPlain = true
  · cases initMethod with
    | nil b =>
        cases b with
        | false =>
            cases methods with
            | nil => exact .inl ⟨rfl, rfl⟩
            | cons entry methods => cases hplain
        | true => cases hplain
    | _ => cases hplain
  · exact .inr (h a _ ha (Bool.eq_false_iff.mpr hplain))

instance : Undisturbed KeepsClasses where
  refl _ _ _ _ _ h := .inr h
  trans h h' a name initMethod methods ha := by
    rcases h' a name initMethod methods ha with hempty | ha
    · exact .inl hempty
    · exact h a name initMethod methods ha
  stack _ _ _ _ _ _ _ h := .inr h
  heap _ _ := keepsClasses_of_addsPlain
  output _ _ _ _ _ _ h := .inr h
  ip _ _ _ _ _ _ _ _ _ h := .inr h
  call _ _ _ _ _ _ h := .inr h

instance : IndifferentGlobals KeepsClasses where
  global _ _ _ _ _ _ _ _ h := .inr h

instance : IndifferentClosures KeepsClasses where
  closures _ _ hadds _ _ _ _ h := .inr (hadds _ _ h rfl)

instance : IndifferentUpvalues KeepsClasses :=
  indifferentUpvalues_of (fun vm slot a name initMethod methods ha => by
    rcases Nat.lt_trichotomy a vm.heap.length with hlt | rfl | hgt
    · exact .inr (by rwa [List.getElem?_append_left hlt] at ha)
    · rw [List.getElem?_append_right (Nat.le_refl _), Nat.sub_self] at ha
      cases ha
    · rw [List.getElem?_eq_none (by rw [List.length_append, List.length_singleton]; omega)] at ha
      cases ha) fun _ _ _ _ _ _ h => .inr h

instance : UndisturbedUpvalues KeepsClasses where

theorem KeepsClasses.agrees {vm vm' : VM} (h : KeepsClasses vm vm') {a : Addr}
    (ha : ConstructorAgrees vm.heap a) : ConstructorAgrees vm'.heap a := by
  intro name initMethod methods hclass
  rcases h a name initMethod methods hclass with ⟨rfl, rfl⟩ | hclass
  · rfl
  · exact ha name initMethod methods hclass

/-! ### The two instructions on methods -/

/-- The next instruction is `INHERIT` of a class from one that has an `init`. -/
def InheritsInit (vm : VM) (a : Addr) : Prop :=
  vm.OpAt .inherit ∧ vm.stack (vm.stackTop - 1) = .ofAddr a ∧
    ∃ superclass, (vm.stack (vm.stackTop - 2)).classIn vm.heap = some superclass ∧
      (superclass.2.lookup initName).isSome

/-- The next instruction is `METHOD` with the name `init` on a class. -/
def DeclaresInit (vm : VM) (a : Addr) : Prop :=
  vm.OpAt .method ∧ vm.stack (vm.stackTop - 2) = .ofAddr a ∧
    ∃ frame rest k, vm.frames = frame :: rest ∧ OperandAt frame.function.code (frame.ip + 1) k ∧
      frame.function.constants[k]? = some (.string initName)

/-- A routine that goes on only with a class. -/
theorem class_of_done {v : Value} {vm vm' : VM} {f : Bytes → Value → StringTable → Addr → VMM Unit}
    (h : (match v.heapObject vm.heap, v with
      | some (.class name initMethod methods), .object (.heap a) => f name initMethod methods a
      | _, _ => undefinedBehaviour) vm = .done () vm') :
    ∃ a name initMethod methods, v = .ofAddr a ∧
      vm.heap[a]? = some (HeapObject.class name initMethod methods) := by
  cases v with
  | object o =>
      cases o with
      | heap a =>
          change (match vm.heap[a]?, Value.object (.heap a) with
            | some (.class name initMethod methods), .object (.heap a) => f name initMethod methods a
            | _, _ => undefinedBehaviour) vm = .done () vm' at h
          cases ha : vm.heap[a]? with
          | none =>
              rw [ha] at h
              cases h
          | some object =>
              rw [ha] at h
              cases object with
              | «class» name initMethod methods => exact ⟨a, name, initMethod, methods, rfl, ha⟩
              | _ => cases h
      | _ => cases h
  | _ => cases h

theorem addMethod_done {v : Value} {vm vm' : VM} (h : addMethod v vm = .done () vm') :
    ∃ name a className initMethod methods, v = .ofString name ∧
      vm.stack (vm.stackTop - 2) = .ofAddr a ∧
      vm.heap[a]? = some (HeapObject.class className initMethod methods) ∧
      vm'.heap = vm.heap.set a (.class className
        (if name = initName then vm.stack (vm.stackTop - 1) else initMethod)
        (tableInsert methods name (vm.stack (vm.stackTop - 1)))) := by
  unfold addMethod at h
  split at h
  · rename_i name
    obtain ⟨method, vm₁, h₁, h⟩ := VMM.bind_done.mp h
    obtain ⟨klass, vm₂, h₂, h⟩ := VMM.bind_done.mp h
    obtain ⟨o, vm₃, h₃, h⟩ := VMM.bind_done.mp h
    obtain ⟨rfl, -, rfl⟩ := peek_result h₁
    obtain ⟨rfl, -, hklass⟩ := peek_result h₂
    cases h₃
    obtain ⟨a, className, initMethod, methods, rfl, hobject⟩ := class_of_done h
    rw [heapObject_ofAddr, hobject] at h
    obtain ⟨_, vm₄, h₄, h⟩ := VMM.bind_done.mp h
    obtain ⟨_, vm₅, h₅, h⟩ := VMM.bind_done.mp h
    obtain ⟨-, -, rfl⟩ := pop_done h₅
    cases h₄
    cases h
    exact ⟨name, a, className, initMethod, methods, rfl, hklass.symm, hobject, rfl⟩
  · cases h

theorem executeInherit_done {vm vm' : VM} (h : executeInherit vm = .done () vm') :
    ∃ superclass a name initMethod methods,
      (vm.stack (vm.stackTop - 2)).classIn vm.heap = some superclass ∧
      vm.stack (vm.stackTop - 1) = .ofAddr a ∧
      vm.heap[a]? = some (HeapObject.class name initMethod methods) ∧
      vm'.heap = vm.heap.set a (.class name initMethod (tableInsertAll methods superclass.2)) := by
  unfold executeInherit at h
  obtain ⟨v, vm₁, h₁, h⟩ := VMM.bind_done.mp h
  obtain ⟨o, vm₂, h₂, h⟩ := VMM.bind_done.mp h
  obtain ⟨rfl, -, rfl⟩ := peek_result h₁
  cases h₂
  cases hsuper : (vm₁.stack (vm₁.stackTop - 1 - 1)).heapObject vm₁.heap with
  | none =>
      rw [hsuper] at h
      cases h
  | some object =>
      rw [hsuper] at h
      cases object with
      | «class» superName superInit inherited =>
          obtain ⟨subclass, vm₃, h₃, h⟩ := VMM.bind_done.mp h
          obtain ⟨o, vm₄, h₄, h⟩ := VMM.bind_done.mp h
          obtain ⟨rfl, -, hsub⟩ := peek_result h₃
          cases h₄
          obtain ⟨a, name, initMethod, methods, rfl, hobject⟩ := class_of_done h
          rw [heapObject_ofAddr, hobject] at h
          obtain ⟨_, vm₅, h₅, h⟩ := VMM.bind_done.mp h
          obtain ⟨_, vm₆, h₆, h⟩ := VMM.bind_done.mp h
          obtain ⟨-, -, rfl⟩ := pop_done h₆
          cases h₅
          cases h
          refine ⟨(superName, inherited), a, name, initMethod, methods, ?_, hsub.symm, hobject, rfl⟩
          unfold Value.classIn
          rw [show vm₃.stackTop - 2 = vm₃.stackTop - 1 - 1 by omega, hsuper]
      | _ => cases h

/-! ### Runs -/

theorem agrees_set {heap : Heap} {a b : Addr} {name : Bytes} {initMethod : Value}
    {methods : StringTable} (hb : ConstructorAgrees heap b)
    (ha : a = b → initMethod = (methods.lookup initName).getD (.nil false)) :
    ConstructorAgrees (heap.set a (.class name initMethod methods)) b := by
  intro name' initMethod' methods' hclass
  by_cases hab : a = b
  · subst hab
    by_cases hlt : a < heap.length
    · rw [List.getElem?_set_self hlt] at hclass
      cases hclass
      exact ha rfl
    · rw [List.set_eq_of_length_le (Nat.le_of_not_lt hlt)] at hclass
      exact hb _ _ _ hclass
  · rw [List.getElem?_set_ne hab] at hclass
    exact hb _ _ _ hclass

/-- An instruction other than `METHOD`, `INHERIT` and `RETURN`. -/
theorem keepsClasses_execute {op : OpCode} (hmethod : op ≠ .method) (hinherit : op ≠ .inherit)
    (hreturn : op ≠ .return) : Preserves KeepsClasses (execute P op) := by
  by_cases hop : op ∈ disturbing
  · cases op <;>
      first
      | exact absurd rfl hmethod
      | exact absurd rfl hinherit
      | exact absurd rfl hreturn
      | exact absurd hop (by decide)
      | (unfold execute; infer_instance)
  · exact preserves_execute P hop

instance : IndifferentReturns KeepsClasses where
  pop _ _ _ _ _ h := .inr h

theorem initName_ne {name : Bytes} (h : name ≠ initName) (table : StringTable) (v : Value) :
    (tableInsert table name v).lookup initName = table.lookup initName := by
  rw [lookup_tableInsert, if_neg (Ne.symm h)]

/-- An instruction that does not make a class inherit an `init`. -/
theorem Step.constructorAgrees {vm vm' : VM} {a : Addr} (h : Step P vm vm')
    (ha : ConstructorAgrees vm.heap a) (hno : ¬ InheritsInit vm a) :
    ConstructorAgrees vm'.heap a := by
  obtain ⟨op, hop, ⟨rfl, hreturn⟩ | ⟨hreturn, hrun⟩⟩ := Step.cases P h
  · exact ((inferInstance : Preserves KeepsClasses (executeReturn P)).done hreturn).agrees ha
  by_cases hmethod : op = .method
  · subst hmethod
    obtain ⟨v, vm₁, hread, hrun⟩ := VMM.bind_done.mp (show executeMethod _ = _ from hrun)
    have ha₁ := ((inferInstance : Preserves KeepsClasses readConstantLong).done hread).agrees
      (show ConstructorAgrees (vm.advance 1).heap a from ha)
    obtain ⟨name, b, className, initMethod, methods, -, -, hobject, hheap⟩ := addMethod_done hrun
    rw [hheap]
    refine agrees_set ha₁ fun hab => ?_
    by_cases hname : name = initName
    · rw [if_pos hname, hname, lookup_tableInsert, if_pos rfl]
      rfl
    · rw [if_neg hname, initName_ne hname]
      exact ha₁ _ _ _ (hab ▸ hobject)
  by_cases hinherit : op = .inherit
  · subst hinherit
    obtain ⟨superclass, b, name, initMethod, methods, hsuper, hsub, hobject, hheap⟩ :=
      executeInherit_done (show executeInherit _ = _ from hrun)
    rw [hheap]
    refine agrees_set ha fun hab => ?_
    subst hab
    have hnone : superclass.2.lookup initName = none := by
      by_contra hsome
      exact hno ⟨hop, hsub, superclass, hsuper, Option.isSome_iff_ne_none.mpr hsome⟩
    rw [lookup_tableInsertAll, hnone, Option.none_or]
    exact ha _ _ _ hobject
  · exact ((keepsClasses_execute P hmethod hinherit hreturn).done hrun).agrees ha

/-- `METHOD` with the name `init`. -/
theorem Step.constructorAgrees_of_declares {vm vm' : VM} {a : Addr} (h : Step P vm vm')
    (hdeclares : DeclaresInit vm a) : ConstructorAgrees vm'.heap a := by
  obtain ⟨hop, hslot, frame, rest, k, hframes, hoperand, hname⟩ := hdeclares
  obtain ⟨op, hop', ⟨rfl, -⟩ | ⟨-, hrun⟩⟩ := Step.cases P h
  · cases hop.unique hop'
  cases hop.unique hop'
  obtain ⟨v, vm₁, hread, hrun⟩ := VMM.bind_done.mp (show executeMethod _ = _ from hrun)
  obtain ⟨k', c, hoperand', hc, rfl, rfl⟩ := readConstantLong_done (advance_frames hframes 1) hread
  cases hoperand.unique hoperand'
  cases hname.symm.trans hc
  obtain ⟨name, b, className, initMethod, methods, hv, hb, hobject, hheap⟩ := addMethod_done hrun
  cases hv
  cases hb.symm.trans hslot
  intro name' initMethod' methods' hclass
  rw [hheap, List.getElem?_set_self (List.getElem?_eq_some_iff.mp hobject).1] at hclass
  cases hclass
  rw [lookup_tableInsert, if_pos rfl, if_pos rfl]
  rfl

/-- A class that is made to inherit an `init` without a constructor of its own has none. -/
theorem Step.not_constructorAgrees {vm vm' : VM} {a : Addr} {name : Bytes} {methods : StringTable}
    (h : Step P vm vm') (hinherits : InheritsInit vm a)
    (hclass : vm.heap[a]? = some (HeapObject.class name (.nil false) methods))
    (hproper : ∀ superclass, (vm.stack (vm.stackTop - 2)).classIn vm.heap = some superclass →
      superclass.2.lookup initName ≠ some (.nil false)) : ¬ ConstructorAgrees vm'.heap a := by
  obtain ⟨hop, hslot, superclass, hsuper, hsome⟩ := hinherits
  obtain ⟨op, hop', ⟨rfl, -⟩ | ⟨-, hrun⟩⟩ := Step.cases P h
  · cases hop.unique hop'
  cases hop.unique hop'
  obtain ⟨superclass', b, name', initMethod, methods', hsuper', hsub, hobject, hheap⟩ :=
    executeInherit_done (show executeInherit _ = _ from hrun)
  cases hsuper.symm.trans hsuper'
  cases hsub.symm.trans hslot
  cases hclass.symm.trans hobject
  obtain ⟨v, hv⟩ := Option.isSome_iff_exists.mp hsome
  intro hagrees
  rw [hheap] at hagrees
  have heq := hagrees name _ _ (List.getElem?_set_self (List.getElem?_eq_some_iff.mp hobject).1)
  rw [lookup_tableInsertAll, hv, Option.some_or] at heq
  exact hproper superclass hsuper (hv.trans (congrArg some heq.symm))

instance (f : ObjectFunction) : Preserves KeepsClasses (start P f) := by
  unfold start
  infer_instance

/-- A run after which a class has no inherited `init` that it does not declare itself. -/
inductive Settled (vm₀ : VM) (a : Addr) : VM → Prop where
  | start : Settled vm₀ a vm₀
  | step {vm vm' : VM} (h : Settled vm₀ a vm) (hstep : Step P vm vm') (hno : ¬ InheritsInit vm a) :
      Settled vm₀ a vm'
  | declares {vm vm' : VM} (h : Steps P vm₀ vm) (hstep : Step P vm vm')
      (hdeclares : DeclaresInit vm a) : Settled vm₀ a vm'

theorem Settled.constructorAgrees {vm₀ vm : VM} {a : Addr} (h : Settled P vm₀ a vm)
    (ha : ConstructorAgrees vm₀.heap a) : ConstructorAgrees vm.heap a := by
  induction h with
  | start => exact ha
  | step h hstep hno ih => exact hstep.constructorAgrees P ih hno
  | declares h hstep hdeclares => exact hstep.constructorAgrees_of_declares P hdeclares

/-- Instructions in which a class inherits no `init`. -/
theorem Settled.tested {vm₀ vm vm' : VM} {a : Addr} {test : VM → Bool} (hvm : Settled P vm₀ a vm)
    (h : Relation.ReflTransGen (fun v v' => test v = true ∧ Step P v v') vm vm')
    (htest : ∀ v, test v = true → ¬ InheritsInit v a) : Settled P vm₀ a vm' := by
  induction h with
  | refl => exact hvm
  | tail _ hstep ih => exact ih.step hstep.2 (htest _ hstep.1)

/-! ### The call of a class -/

/-- The call of a class is the call of the method `init` on a new instance. -/
def CallsInit (vm : VM) (a : Addr) : Prop :=
  ∀ name initMethod methods m argCount,
    vm.heap[a]? = some (HeapObject.class name initMethod methods) →
    methods.lookup initName = some (.ofAddr m) →
    callValue P (.ofAddr a) argCount vm = (do
      let inst ← allocate (.instance a [])
      let slot ← calleeSlot argCount
      writeSlot P slot (.ofAddr inst)
      invokeFromClass (name, methods) initName argCount) vm

theorem callsInit_of_agrees {vm : VM} {a : Addr} (h : ConstructorAgrees vm.heap a) :
    CallsInit P vm a := by
  intro name initMethod methods m argCount hclass hm
  obtain rfl : initMethod = .ofAddr m := by
    rw [h name initMethod methods hclass, hm]
    rfl
  refine (VMM.bind_of_done ((objectAt_apply a vm).trans (by rw [hclass])) _).trans ?_
  change callClass P a name (.ofAddr m) argCount vm = _
  unfold callClass invokeFromClass
  rw [hm]
  rfl

end VM

end CppLox
