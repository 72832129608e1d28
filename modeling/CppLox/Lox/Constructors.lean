import CppLox.Lox.ControlState
import CppLox.VM.Constructors

/-!
# Lox — constructors

While a program runs, the constructor of a class is its method `init` as long as no class inherits
an `init` without one of its own.  The program that does so gets a class that is called without it.
-/

namespace CppLox

open VMM

variable {P : Platform} {parseReal : ParseReal}

/-- **The constructor is the method `init`**, in the states of a program that settle every class,
and a call of the class is a call of that method.  `CALL` takes the constructor from `init_method`,
which `METHOD` sets, and `INHERIT` does not: it copies the table of methods only.  A class is
settled when it has inherited no `init`, or has declared one since. -/
theorem constructors_agree {vm vm₀ vm₁ : VM} {nextAddress : Addr} {line : Bytes}
    (hregister : VM.registerNativeFunctions P VM.initial = .done () vm)
    (hstarted : Started P parseReal ⟨vm, nextAddress⟩ line vm₀)
    (hsettled : ∀ a, VM.Settled P vm₀ a vm₁) :
    ∀ a, ConstructorAgrees vm₁.heap a ∧ VM.CallsInit P vm₁ a := by
  intro a
  obtain ⟨fuel, f, s, -, hstart⟩ := hstarted
  have hheap : vm.heap = [] := (VM.registerFrom_done P hregister).2.2.2
  have hnew : ConstructorAgrees vm.heap a := by
    intro name initMethod methods hclass
    rw [hheap] at hclass
    cases hclass
  have hfirst : ConstructorAgrees vm₀.heap a :=
    ((inferInstance : Preserves VM.KeepsClasses (VM.start P f)).done hstart).agrees hnew
  have hlast := (hsettled a).constructorAgrees P hfirst
  exact ⟨hlast, VM.callsInit_of_agrees P hlast⟩

/-- A class with a constructor. -/
def HeapObject.hasConstructor : HeapObject → Bool
  | .class _ (.object (.heap _)) _ => true
  | _ => false

theorem HeapObject.class_of_hasConstructor {object : HeapObject}
    (h : object.hasConstructor = true) :
    ∃ name c methods, object = .class name (.ofAddr c) methods := by
  unfold HeapObject.hasConstructor at h
  split at h
  · exact ⟨_, _, _, rfl⟩
  · cases h

/-- A class that has a method `init` and no constructor. -/
def HeapObject.lacksConstructor : HeapObject → Bool
  | .class _ (.nil _) methods =>
    match methods.lookup initName with
    | some (.object (.heap _)) => true
    | _ => false
  | _ => false

theorem HeapObject.not_agrees_of_lacksConstructor {heap : Heap} {a : Addr} {object : HeapObject}
    (ha : heap[a]? = some object) (h : object.lacksConstructor = true) :
    ¬ ConstructorAgrees heap a := by
  intro hagrees
  unfold HeapObject.lacksConstructor at h
  split at h
  · rename_i methods
    have hinit := hagrees _ _ methods ha
    split at h
    · rename_i hlookup
      rw [hlookup] at hinit
      cases hinit
    · cases h
  · cases h

/-- A value is a reference to an object of the heap. -/
def Value.refersTo (a : Addr) : Value → Bool
  | .object (.heap b) => a == b
  | _ => false

theorem Value.eq_of_refersTo {a : Addr} {v : Value} (h : v.refersTo a = true) : v = .ofAddr a := by
  unfold Value.refersTo at h
  split at h
  · rw [eq_of_beq h]
    rfl
  · cases h

/-- The next instruction is not `INHERIT`, or it is that of the class `a`. -/
def VM.inheritsInto (a : Addr) (vm : VM) : Bool :=
  match vm.frames with
  | frame :: _ => frame.function.code[frame.ip]? != some OpCode.inherit.toByte ||
      (vm.stack (vm.stackTop - 1)).refersTo a
  | [] => true

/-- The next instruction is not `INHERIT`. -/
def VM.beforeInherit (vm : VM) : Bool :=
  match vm.frames with
  | frame :: _ => frame.function.code[frame.ip]? != some OpCode.inherit.toByte
  | [] => true

/-- The next instruction is `METHOD` with the name `init` on the class `a`. -/
def VM.declaresInit (a : Addr) (vm : VM) : Bool :=
  match vm.frames with
  | frame :: _ =>
    match frame.function.code[frame.ip + 1]?, frame.function.code[frame.ip + 1 + 1]? with
    | some low, some high =>
      frame.function.code[frame.ip]? == some OpCode.method.toByte &&
        (vm.stack (vm.stackTop - 2)).refersTo a &&
        (match frame.function.constants[low.toNat + 256 * high.toNat]? with
          | some (.string s) => s == initName
          | _ => false)
    | _, _ => false
  | [] => false

theorem VM.not_inheritsInit_of_inheritsInto {vm : VM} {a b : Addr}
    (h : vm.inheritsInto b = true) (hne : a ≠ b) : ¬ vm.InheritsInit a := by
  rintro ⟨⟨frame, rest, hframes, hop⟩, htop, -⟩
  unfold VM.inheritsInto at h
  rw [hframes] at h
  simp only [hop, bne_self_eq_false, Bool.false_or] at h
  have heq := htop.symm.trans (Value.eq_of_refersTo h)
  cases heq
  exact hne rfl

theorem VM.not_inheritsInit_of_beforeInherit {vm : VM} (h : vm.beforeInherit = true) (a : Addr) :
    ¬ vm.InheritsInit a := by
  rintro ⟨⟨frame, rest, hframes, hop⟩, -⟩
  unfold VM.beforeInherit at h
  rw [hframes] at h
  simp [hop] at h

theorem VM.declaresInit_of_test {vm : VM} {a : Addr} (h : vm.declaresInit a = true) :
    vm.DeclaresInit a := by
  unfold VM.declaresInit at h
  split at h
  · rename_i frame rest hframes
    split at h
    · rename_i low high hlow hhigh
      obtain ⟨h, hname⟩ := Bool.and_eq_true_iff.mp h
      obtain ⟨hop, hclass⟩ := Bool.and_eq_true_iff.mp h
      refine ⟨⟨frame, rest, hframes, eq_of_beq hop⟩, Value.eq_of_refersTo hclass, frame, rest, _,
        hframes, ⟨low, high, hlow, hhigh, rfl⟩, ?_⟩
      split at hname
      · rename_i s hs
        rw [hs, eq_of_beq hname]
      · cases hname
    · cases h
  · cases h

/-- A class that inherits a constructor and declares its own: `class A{init(){}}class B:A{init(){}}`. -/
def redeclaringLine : Bytes :=
  ascii ['c', 'l', 'a', 's', 's', ' ', 'A', '{', 'i', 'n', 'i', 't', '(', ')', '{', '}', '}',
    'c', 'l', 'a', 's', 's', ' ', 'B', ':', 'A', '{', 'i', 'n', 'i', 't', '(', ')', '{', '}', '}']

/-- A run of the two declarations up to their end.  `INHERIT` unsettles the class `B`, at the address
3, and `METHOD` settles it again. -/
theorem constructors_agree_redeclared : ∃ vm₀ vm₁, Started barePlatform noReals ⟨VM.initial, 0⟩
    redeclaringLine vm₀ ∧ VM.Steps barePlatform vm₀ vm₁ ∧
    (∃ name c methods, vm₁.heap[3]? = some (HeapObject.class name (.ofAddr c) methods)) ∧
    ∀ a, ConstructorAgrees vm₁.heap a ∧ VM.CallsInit barePlatform vm₁ a := by
  have hrun : ((startLine barePlatform noReals 80 ⟨VM.initial, 0⟩ redeclaringLine).any fun vm =>
      (VM.stepsWhile barePlatform (VM.inheritsInto 3) 13 vm).any fun vm =>
        (VM.stepsWhile barePlatform (VM.declaresInit 3) 1 vm).any fun vm =>
          (VM.stepsWhile barePlatform VM.beforeInherit 3 vm).any fun vm =>
            vm.heap[3]?.any HeapObject.hasConstructor) = true := by
    decide +kernel
  obtain ⟨vm₀, hstart, hrun⟩ := (Option.any_eq_true _ _).mp hrun
  obtain ⟨vm, hfirst, hrun⟩ := (Option.any_eq_true _ _).mp hrun
  obtain ⟨vm', hmethod, hrun⟩ := (Option.any_eq_true _ _).mp hrun
  obtain ⟨vm₁, hlast, hhas⟩ := (Option.any_eq_true _ _).mp hrun
  obtain ⟨object, hobject, hhas⟩ := (Option.any_eq_true _ _).mp hhas
  obtain ⟨name, c, methods, rfl⟩ := HeapObject.class_of_hasConstructor hhas
  have hstarted := started_of_startLine hstart
  have hfirst := VM.tested_of_stepsWhile hfirst
  have hlast := VM.tested_of_stepsWhile hlast
  obtain ⟨hdeclares, hstep⟩ := VM.step_of_stepsWhile_one hmethod
  have hsteps := VM.steps_of_tested hfirst
  refine ⟨vm₀, vm₁, hstarted, (hsteps.tail hstep).trans (VM.steps_of_tested hlast),
    ⟨name, c, methods, hobject⟩, constructors_agree (show _ = Outcome.done () VM.initial from rfl)
    hstarted fun a => ?_⟩
  have hsettled : VM.Settled barePlatform vm₀ a vm' := by
    by_cases ha : a = 3
    · subst ha
      exact .declares hsteps hstep (VM.declaresInit_of_test hdeclares)
    · have hvm := VM.Settled.start.tested _ hfirst fun _ h =>
        VM.not_inheritsInit_of_inheritsInto h ha
      exact hvm.step hstep fun hinherits =>
        absurd (hinherits.1.unique (VM.declaresInit_of_test hdeclares).1) (by decide)
  exact hsettled.tested _ hlast fun _ h => VM.not_inheritsInit_of_beforeInherit h a

/-- A class that inherits its constructor: `class A{init(){}}class B:A{}`. -/
def inheritingLine : Bytes :=
  ascii ['c', 'l', 'a', 's', 's', ' ', 'A', '{', 'i', 'n', 'i', 't', '(', ')', '{', '}', '}',
    'c', 'l', 'a', 's', 's', ' ', 'B', ':', 'A', '{', '}']

/-- The class `B` has no constructor at the end of the program. -/
theorem constructor_not_inherited : ¬ ∀ (P : Platform) (parseReal : ParseReal) (vm : VM)
    (nextAddress : Addr) (line : Bytes) (vm₀ vm₁ vm' : VM),
    VM.registerNativeFunctions P VM.initial = .done () vm →
    Started P parseReal ⟨vm, nextAddress⟩ line vm₀ → VM.Steps P vm₀ vm₁ →
    VM.step P vm₁ = .done true vm' → ∀ a, ConstructorAgrees vm₁.heap a := by
  intro hall
  have hrun : ((startLine barePlatform noReals 60 ⟨VM.initial, 0⟩ inheritingLine).any fun vm =>
      (VM.executeFuel barePlatform 60 vm).any fun r =>
        r.1.isNone && r.2.1.heap.any HeapObject.lacksConstructor) = true := by
    decide +kernel
  obtain ⟨vm₀, hstart, hrun⟩ := (Option.any_eq_true _ _).mp hrun
  obtain ⟨⟨r, vm₁, vm'⟩, hexecute, hlacks⟩ := (Option.any_eq_true _ _).mp hrun
  obtain ⟨hnone, hlacks⟩ := Bool.and_eq_true_iff.mp hlacks
  obtain rfl := Option.isNone_iff_eq_none.mp hnone
  obtain ⟨hsteps, hlast⟩ := VM.steps_of_executeFuel hexecute
  obtain ⟨object, hmem, hobject⟩ := List.any_eq_true.mp hlacks
  obtain ⟨a, ha⟩ := List.mem_iff_getElem?.mp hmem
  refine HeapObject.not_agrees_of_lacksConstructor ha hobject (hall barePlatform noReals VM.initial 0
    inheritingLine vm₀ vm₁ vm' rfl (started_of_startLine hstart) hsteps hlast a)

end CppLox
