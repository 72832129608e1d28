import CppLox.Lox.ControlState
import CppLox.VM.MapLiterals

/-!
# Lox — literals

Programs of one list or map literal.
-/

namespace CppLox

open VMM VM

/-- Some bytes stand at the current instruction. -/
def VM.standsAt (bytes : List UInt8) (vm : VM) : Bool :=
  match vm.frames with
  | frame :: _ => bytes.isPrefixOf (frame.function.code.drop frame.ip)
  | [] => false

theorem VM.ahead_of_standsAt {bytes : List UInt8} {vm : VM} (h : vm.standsAt bytes = true) :
    vm.Ahead bytes := by
  unfold VM.standsAt at h
  split at h
  · rename_i frame rest hframes
    exact ⟨frame, rest, hframes, List.isPrefixOf_iff_prefix.mp h⟩
  · cases h

/-- The environment of a script without constants. -/
def bareEnv : Env := ⟨.script, [], [], [], []⟩

/-! ### Lists -/

/-- The program `[0,0,0,0,0,[1]];`: its last element is appended to the list of the others. -/
def nestedLine : Bytes :=
  ascii ['[', '0', ',', '0', ',', '0', ',', '0', ',', '0', ',', '[', '1', ']', ']', ';']

/-- The list in the list of the program. -/
def innerElements : Exprs := .cons (.integer 1) .nil

def nestedElements : Exprs :=
  .cons (.integer 0) (.cons (.integer 0) (.cons (.integer 0) (.cons (.integer 0) (.cons (.integer 0)
    (.cons (.list innerElements) .nil)))))

def nestedCodes : List (List Instr) :=
  List.replicate 5 [.op .zero] ++ [listCode [[.op .one]] 0]

section

variable {E : Env} {Γ : List Slot}

theorem innerElements_code {is : List Instr} :
    ExprCode E Γ (.list innerElements) is ↔ is = listCode [[.op .one]] 0 := by
  refine (elementsCode_iff innerElements 0 is).trans ⟨?_, fun h => ?_⟩
  · rintro ⟨codes, hcodes, rfl⟩
    obtain ⟨js, rfl, hone⟩ : ∃ js, codes = [js] ∧ js = [.op .one] := by
      simpa [innerElements, Exprs.toList, List.forall₂_cons_left_iff, ExprCode, and_comm] using hcodes
    rw [hone]
  · exact ⟨_, .cons rfl .nil, h⟩

theorem nestedElements_code {codes : List (List Instr)} :
    List.Forall₂ (ExprCode E Γ) nestedElements.toList codes ↔ codes = nestedCodes := by
  have hzero : ∀ is, ExprCode E Γ (.integer 0) is ↔ is = [.op .zero] := fun is => by simp [ExprCode]
  simp only [nestedElements, Exprs.toList, List.forall₂_cons_left_iff, List.forall₂_nil_left_iff,
    hzero, innerElements_code]
  constructor
  · rintro ⟨_, _, rfl, ⟨_, _, rfl, ⟨_, _, rfl, ⟨_, _, rfl, ⟨_, _, rfl, ⟨_, _, rfl, rfl, rfl⟩, rfl⟩,
      rfl⟩, rfl⟩, rfl⟩, rfl⟩
    rfl
  · rintro rfl
    simp [nestedCodes]

end

/-- Each element can be evaluated anywhere: 0 to the integer, the list to an object. -/
theorem nestedCodes_pushAnywhere (P : Platform) :
    List.Forall₂ (PushesAnywhere P (listBuildAppendThreshold + 1)) nestedCodes
      (List.replicate 5 (· = .integer 0) ++ [fun v => ∃ a, v = .ofAddr a]) := by
  have hzero : PushesAnywhere P (listBuildAppendThreshold + 1) [.op .zero] (· = .integer 0) :=
    (pushesAnywhere_op rfl (by decide)).mono (by decide)
  have hone : PushesAnywhere P 1 [.op .one] (· = .integer 1) := pushesAnywhere_op rfl (by decide)
  have hlist := pushesAnywhere_list (.cons hone .nil) Nat.one_pos
  exact .cons hzero (.cons hzero (.cons hzero (.cons hzero (.cons hzero (.cons hlist .nil)))))

/-- A list in a list of more elements than wait on the stack is made in a program. -/
theorem list_literal_nested : ∃ (vm vm' : VM) (a b : Addr),
    Started barePlatform noReals ⟨VM.initial, 0⟩ nestedLine vm ∧ Steps barePlatform vm vm' ∧
    vm'.heap[a]? = some (HeapObject.list (List.replicate 5 (.integer 0) ++ [.ofAddr b])) := by
  have hrun : ((startLine barePlatform noReals 60 ⟨VM.initial, 0⟩ nestedLine).any fun vm =>
      vm.standsAt (encodeAll (listCode nestedCodes 0)) && decide (vm.stackTop = 1)) = true := by
    decide +kernel
  obtain ⟨vm, hstart, hrun⟩ := (Option.any_eq_true _ _).mp hrun
  obtain ⟨hstands, htop⟩ := Bool.and_eq_true_iff.mp hrun
  have hahead := ahead_of_standsAt hstands
  have htop := of_decide_eq_true htop
  have hcode : ExprCode bareEnv [] (.list nestedElements) (listCode nestedCodes 0) :=
    (elementsCode_iff nestedElements 0 _).mpr ⟨_, nestedElements_code.mpr rfl, rfl⟩
  obtain ⟨codes, hcodes, hliteral⟩ := list_literal barePlatform hcode
  cases nestedElements_code.mp hcodes
  let R : Reserve := ⟨1, []⟩
  have hcollected : Collected barePlatform R vm [] [] vm := .pending (by decide) (.refl R vm)
  obtain ⟨evals, hevals, hvalues⟩ := Collected.elements (nestedCodes_pushAnywhere barePlatform)
    hcollected (Nat.le_of_eq htop.symm) nofun (by rw [htop]; decide)
    (show vm.Ahead (encodeAll ([] ++ listCode nestedCodes 0) ++ []) by simpa using hahead)
  obtain ⟨vm', hbuilds, -⟩ := hliteral R vm evals (Nat.le_of_eq htop.symm) nofun
    (by rw [htop]; decide) hahead hevals
  obtain ⟨a, -, hlist⟩ := hbuilds.list
  obtain ⟨b, hb⟩ : ∃ b, evals.map Prod.snd = List.replicate 5 (.integer 0) ++ [.ofAddr b] := by
    simp only [List.replicate, List.cons_append, List.nil_append, List.forall₂_cons_left_iff,
      List.forall₂_nil_left_iff] at hvalues
    obtain ⟨_, _, h₁, ⟨_, _, h₂, ⟨_, _, h₃, ⟨_, _, h₄, ⟨_, _, h₅, ⟨_, _, ⟨b, h₆⟩, rfl, rfl⟩, rfl⟩,
      rfl⟩, rfl⟩, rfl⟩, rfl⟩ := hvalues
    exact ⟨b, by simp only [List.map_cons, List.map_nil, h₁, h₂, h₃, h₄, h₅, h₆]; rfl⟩
  rw [hb] at hlist
  exact ⟨vm, vm', a, b, started_of_startLine hstart, hbuilds.steps, hlist⟩

/-- The program `[nil,true?1:1];`. -/
def conditionalLine : Bytes :=
  ascii ['[', 'n', 'i', 'l', ',', 't', 'r', 'u', 'e', '?', '1', ':', '1', ']', ';']

/-- The elements of the program, and their code. -/
def conditionalElements : Exprs :=
  .cons .nil (.cons (.conditional (.boolean true) (.integer 1) (.integer 1)) .nil)

def conditionalCodes : List (List Instr) := [[.op .nil], [.op .true, .op .one, .op .one]]

theorem conditionalElements_code (E : Env) (Γ : List Slot) :
    List.Forall₂ (ExprCode E Γ) conditionalElements.toList conditionalCodes :=
  .cons rfl (.cons ⟨[.op .true], [.op .one], [.op .one], rfl, rfl, rfl, rfl⟩ .nil)

/-- A list in the heap starts with nil. -/
def VM.holdsNil (vm : VM) : Bool :=
  vm.heap.any fun
    | .list (.nil _ :: _) => true
    | _ => false

/-- The elements of the program are evaluated to nil and 1. -/
theorem conditionalElements_evaluate {P : Platform} {vm : VM} {bytes : List UInt8}
    (hahead : vm.Ahead (encodeAll ([.op .nil] ++ ([.op .true] ++ ([.op .one] ++ [.op .one]))) ++ bytes))
    (hroom : vm.stackTop + 3 < P.capacity) :
    ∃ vm₁, ElementsEvaluate P (fun _ _ _ => True) conditionalCodes 0 vm
      [(vm, .nil false), (vm₁, .integer 1)] := by
  have h₁ := @pushes_push P _ .nil _ _ ⟨0, []⟩ rfl (by decide) hahead (by omega)
  have hahead₁ := h₁.toFinishes.ahead (by simpa using hahead)
  have h₂ := @pushes_push P _ .true _ _ ⟨0, []⟩ rfl (by decide) hahead₁
    (show vm.stackTop + 1 < P.capacity by omega)
  have hahead₂ := h₂.toFinishes.ahead (by simpa using hahead₁)
  have h₃ := @pushes_push P _ .one _ _ ⟨0, []⟩ rfl (by decide) hahead₂
    (show vm.stackTop + 1 + 1 < P.capacity by omega)
  have hahead₃ := h₃.toFinishes.ahead (by simpa using hahead₂)
  have h₄ := @pushes_push P _ .one _ _ ⟨0, []⟩ rfl (by decide) hahead₃
    (show vm.stackTop + 1 + 1 + 1 < P.capacity by omega)
  have h₂₃ := h₂.trans (h₃.trans h₄ (Nat.zero_le _)) (Nat.zero_le _)
  refine ⟨vm.pushed (.nil false), .nil false, _, _, rfl, h₁.ends, trivial, fun vm₂ hsettles => ?_⟩
  cases hsettles with
  | pending hlt =>
      refine ⟨.integer 1, _, _, rfl, ⟨h₂₃.toFinishes, ?_, h₄.ends.value⟩, trivial, fun _ _ => rfl⟩
      rw [h₂₃.stackTop]
      exact Nat.succ_pos _
  | built hle => exact absurd hle (by decide)

/-- A list literal with an element of which more than its value stays on the stack. -/
theorem list_literal_conditional : ¬ ∀ (P : Platform) (parseReal : ParseReal) (line : Bytes)
    (vm₀ vm : VM) (E : Env) (Γ : List Slot) (es : Exprs) (is : List Instr)
    (codes : List (List Instr)) (evals : List (VM × Value)),
    Started P parseReal ⟨VM.initial, 0⟩ line vm₀ → Steps P vm₀ vm → ExprCode E Γ (.list es) is →
    List.Forall₂ (ExprCode E Γ) es.toList codes → is = listCode codes 0 →
    vm.stackTop < P.capacity → vm.Ahead (encodeAll is) →
    ElementsEvaluate P (fun _ _ _ => True) codes 0 vm evals →
    ∃ vm', BuildsList P es is vm evals vm' := by
  intro hall
  have hrun : ((startLine barePlatform noReals 60 ⟨VM.initial, 0⟩ conditionalLine).any fun vm =>
      vm.standsAt (encodeAll (listCode conditionalCodes 0)) && decide (vm.stackTop = 1) &&
        (trace barePlatform 60 vm).any fun states => states.all fun vm => !vm.holdsNil) = true := by
    decide +kernel
  obtain ⟨vm, hstart, hrun⟩ := (Option.any_eq_true _ _).mp hrun
  obtain ⟨hrun, htrace⟩ := Bool.and_eq_true_iff.mp hrun
  obtain ⟨hstands, htop⟩ := Bool.and_eq_true_iff.mp hrun
  obtain ⟨states, htrace, hstates⟩ := (Option.any_eq_true _ _).mp htrace
  have hahead := ahead_of_standsAt hstands
  have htop := of_decide_eq_true htop
  obtain ⟨vm₁, heval⟩ := @conditionalElements_evaluate barePlatform _ [49, 2]
    (by exact hahead) (by rw [htop]; decide)
  obtain ⟨vm', hbuilds⟩ := hall barePlatform noReals conditionalLine vm vm bareEnv []
    conditionalElements _ conditionalCodes _ (started_of_startLine hstart) .refl
    ((elementsCode_iff conditionalElements 0 _).mpr ⟨_, conditionalElements_code _ _, rfl⟩)
    (conditionalElements_code _ _) rfl (by rw [htop]; decide) hahead heval
  obtain ⟨a, -, hlist⟩ := hbuilds.list
  have hnone := List.all_eq_true.mp hstates vm' (mem_of_trace htrace hbuilds.steps)
  have hsome : vm'.holdsNil = true :=
    List.any_eq_true.mpr ⟨_, List.mem_of_getElem? hlist, rfl⟩
  rw [hsome] at hnone
  cases hnone

/-! ### Maps -/

end CppLox
