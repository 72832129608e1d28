import CppLox.Library.SmallStep
import CppLox.Semantics.Values
import CppLox.VM.Evaluation

/-!
# Virtual machine — the run of a script

A script that calls no function runs in one frame on a heap that does not change: the state of the
machine is where it is in the code, the values on the stack, the globals and the output (`Config`).
Here the instructions of the structured fragment are read as steps between such states.
-/

namespace CppLox

open VMM VM SmallStep

/-- A global as a cell. -/
def GlobalValue.cell (global : GlobalValue) : Cell Value :=
  ⟨global.value, global.defined, global.initialized, global.isConst⟩

/-- The cell of a name. -/
def Context.cell (ctx : Context) (x : Bytes) : Cell Value :=
  (ctx.getInternalValue (ctx.names.idxOf x)).cell

/-- What stays the same while a script runs. -/
structure Script where
  function : ObjectFunction
  heap : Heap
  names : List Bytes

/-- What changes; the lowest value of the stack comes first. -/
structure Config where
  ip : Nat
  values : List Value
  globals : Bytes → Cell Value
  output : Bytes

namespace Script

variable (P : Platform) (S : Script)

/-- The machine is in a state. -/
structure Shows (c : Config) (vm : VM) : Prop where
  frames : ∃ a, vm.frames = [⟨a, S.function, c.ip, 0⟩]
  stackTop : vm.stackTop = c.values.length
  slot : ∀ i v, c.values[i]? = some v → vm.stack i = v
  room : vm.stackTop ≤ P.capacity
  openUpvalues : vm.openUpvalues = []
  heap : vm.heap = S.heap
  names : vm.context.names = S.names
  globals : ∀ x, vm.context.cell x = c.globals x
  output : vm.output = c.output

/-- The next instruction finds the stack full. -/
def Overflowing (vm : VM) : Prop := ∃ vm', step P vm = .stopped (.exception "Stack overflow") vm'

/-- The machine after a script. -/
structure Leaves (output : Bytes) (vm : VM) : Prop where
  output : vm.output = output
  heap : vm.heap = S.heap
  openUpvalues : vm.openUpvalues = []

/-- The next instruction reports an error. -/
def Reporting (fault : Fault) (output : Bytes) (vm : VM) : Prop :=
  ∃ vm', step P vm = .stopped (.runtimeError (some fault.message)) vm' ∧ S.Leaves output vm'

/-- A run goes from a state to another, unless the stack overflows. -/
def Leads (c c' : Config) : Prop :=
  ∀ vm, S.Shows P c vm → Reaches (Step P) vm fun vm' => S.Shows P c' vm' ∨ Overflowing P vm'

/-- A run from a state is stopped by an error. -/
def Stops (c : Config) (fault : Fault) (output : Bytes) : Prop :=
  ∀ vm, S.Shows P c vm →
    Reaches (Step P) vm fun vm' => S.Reporting P fault output vm' ∨ Overflowing P vm'

/-- A run from a state has at least `n` instructions, with some output. -/
def Endures (c : Config) (n : Nat) (output : Bytes) : Prop :=
  ∀ vm, S.Shows P c vm → Lasts (Step P) (fun vm' => vm'.output = output) n vm ∨
    Reaches (Step P) vm (Overflowing P)

/-- One instruction goes from a state to another. -/
def Hops (c c' : Config) : Prop :=
  ∀ vm, S.Shows P c vm → (∃ vm', Step P vm vm' ∧ S.Shows P c' vm') ∨ Overflowing P vm

/-- A run from a state goes to another or is stopped. -/
def Evaluates (c : Config) (output : Bytes) : Except Fault Config → Prop
  | .ok c' => Leads P S c c'
  | .error fault => Stops P S c fault output

/-! ### Runs -/

section

variable {P S} {c c₁ c₂ : Config} {fault : Fault} {n : Nat} {output : Bytes}

theorem Leads.refl (c : Config) : S.Leads P c c := fun _ h => .of (.inl h)

theorem Leads.trans (h : S.Leads P c c₁) (h' : S.Leads P c₁ c₂) : S.Leads P c c₂ := by
  intro vm hvm
  refine (h vm hvm).bind fun vm₁ h₁ => ?_
  rcases h₁ with hshows | hfull
  · exact h' vm₁ hshows
  · exact .of (.inr hfull)

theorem Leads.stops (h : S.Leads P c c₁) (h' : S.Stops P c₁ fault output) :
    S.Stops P c fault output := by
  intro vm hvm
  refine (h vm hvm).bind fun vm₁ h₁ => ?_
  rcases h₁ with hshows | hfull
  · exact h' vm₁ hshows
  · exact .of (.inr hfull)

theorem Leads.endures (h : S.Leads P c c₁) (h' : S.Endures P c₁ n output) :
    S.Endures P c n output := by
  intro vm hvm
  obtain ⟨vm₁, hsteps, hshows | hfull⟩ := h vm hvm
  · rcases h' vm₁ hshows with hlasts | ⟨vm₂, hsteps₂, hfull⟩
    · exact .inl (.of_steps hsteps hlasts)
    · exact .inr ⟨vm₂, hsteps.trans hsteps₂, hfull⟩
  · exact .inr ⟨vm₁, hsteps, hfull⟩

theorem Hops.leads (h : S.Hops P c c₁) : S.Leads P c c₁ := by
  intro vm hvm
  rcases h vm hvm with ⟨vm₁, hstep, hshows⟩ | hfull
  · exact .head hstep (.of (.inl hshows))
  · exact .of (.inr hfull)

theorem Hops.endures (h : S.Hops P c c₁) (h' : S.Endures P c₁ n output) :
    S.Endures P c (n + 1) output := by
  intro vm hvm
  rcases h vm hvm with ⟨vm₁, hstep, hshows⟩ | hfull
  · rcases h' vm₁ hshows with hlasts | hover
    · exact .inl ⟨vm₁, hstep, hlasts⟩
    · exact .inr (hover.head hstep)
  · exact .inr (.of hfull)

theorem Endures.of_output (c : Config) : S.Endures P c 0 c.output :=
  fun _ hvm => .inl (.of hvm.output)

theorem Leads.evaluates {r : Except Fault Config} (h : S.Leads P c c₁)
    (h' : S.Evaluates P c₁ output r) : S.Evaluates P c output r := by
  cases r with
  | ok c₂ => exact h.trans h'
  | error fault => exact h.stops h'

/-- One run after another. -/
theorem Evaluates.bind {α : Type} {x : Except Fault α} {next : α → Except Fault Config}
    {config : α → Config} (h : S.Evaluates P c output (x.map config))
    (h' : ∀ a, x = .ok a → S.Evaluates P (config a) output (next a)) :
    S.Evaluates P c output (x >>= next) := by
  cases x with
  | ok a => exact Leads.evaluates h (h' a rfl)
  | error fault => exact h

end

/-! ### Routines -/

/-- A routine has a value and goes from a state to another. -/
def Yields {α : Type} (m : VMM α) (c : Config) (a : α) (c' : Config) : Prop :=
  ∀ vm, S.Shows P c vm → ∃ vm', m vm = .done a vm' ∧ S.Shows P c' vm'

/-- A routine goes from a state to another or finds the stack full. -/
def Does (m : VMM Unit) (c c' : Config) : Prop :=
  ∀ vm, S.Shows P c vm → (∃ vm', m vm = .done () vm' ∧ S.Shows P c' vm') ∨
    ∃ vm', m vm = .stopped (.exception "Stack overflow") vm'

/-- A routine reports an error. -/
def Fails (m : VMM Unit) (c : Config) (fault : Fault) : Prop :=
  ∀ vm, S.Shows P c vm →
    ∃ vm', m vm = .stopped (.runtimeError (some fault.message)) vm' ∧ S.Leaves c.output vm'

/-- A routine goes from a state to another or reports an error. -/
def Computes (m : VMM Unit) (c : Config) : Except Fault Config → Prop
  | .ok c' => Does P S m c c'
  | .error fault => Fails P S m c fault

section

variable {P S} {c c₁ c₂ : Config} {fault : Fault} {m : VMM Unit} {ip n : Nat} {vs : List Value}
  {u v : Value} {g : Bytes → Cell Value} {out : Bytes}

theorem Yields.does {α : Type} {l : VMM α} {a : α} {f : α → VMM Unit} (h : S.Yields P l c a c₁)
    (h' : S.Does P (f a) c₁ c₂) : S.Does P (l >>= f) c c₂ := by
  intro vm hvm
  obtain ⟨vm₁, h₁, hshows⟩ := h vm hvm
  rw [VMM.bind_of_done h₁]
  exact h' vm₁ hshows

theorem Yields.fails {α : Type} {l : VMM α} {a : α} {f : α → VMM Unit} (h : S.Yields P l c a c₁)
    (h' : S.Fails P (f a) c₁ fault) (hout : c₁.output = c.output) :
    S.Fails P (l >>= f) c fault := by
  intro vm hvm
  obtain ⟨vm₁, h₁, hshows⟩ := h vm hvm
  rw [VMM.bind_of_done h₁, ← hout]
  exact h' vm₁ hshows

theorem Yields.computes {α : Type} {l : VMM α} {a : α} {f : α → VMM Unit}
    {r : Except Fault Config} (h : S.Yields P l c a c₁) (h' : S.Computes P (f a) c₁ r)
    (hout : c₁.output = c.output) : S.Computes P (l >>= f) c r := by
  cases r with
  | ok c₂ => exact h.does h'
  | error fault => exact h.fails h' hout

theorem Does.of_done (h : ∀ vm, S.Shows P c vm → ∃ vm', m vm = .done () vm' ∧ S.Shows P c₁ vm') :
    S.Does P m c c₁ := fun vm hvm => .inl (h vm hvm)

theorem Shows.leaves {vm : VM} (h : S.Shows P c vm) : S.Leaves c.output vm :=
  ⟨h.output, h.heap, h.openUpvalues⟩

/-- The values on the stack, from the top down. -/
theorem Shows.onTop {vm : VM} (h : S.Shows P c vm) : vm.OnTop c.values.reverse := by
  refine ⟨by rw [List.length_reverse, h.stackTop], fun i v hi => h.slot _ v ?_⟩
  have hlt : i < c.values.length := by simpa using (List.getElem?_eq_some_iff.mp hi).1
  rw [List.getElem?_reverse hlt] at hi
  rw [h.stackTop, ← hi]
  congr 1
  omega

theorem Shows.onTop_append {vm : VM} {ws : List Value} (h : S.Shows P ⟨ip, vs ++ ws, g, out⟩ vm) :
    vm.OnTop (ws.reverse ++ vs.reverse) := by
  have := h.onTop
  rwa [List.reverse_append] at this

theorem yields_peek {i : Nat} {ws : List Value} (hi : ws.reverse[i]? = some v) :
    S.Yields P (peek i) ⟨ip, vs ++ ws, g, out⟩ v ⟨ip, vs ++ ws, g, out⟩ := by
  intro vm hvm
  refine ⟨vm, peek_apply hvm.onTop_append ?_, hvm⟩
  rw [List.getElem?_append_left (List.getElem?_eq_some_iff.mp hi).1]
  exact hi

theorem yields_pop : S.Yields P pop ⟨ip, vs ++ [v], g, out⟩ v ⟨ip, vs, g, out⟩ := by
  intro vm hvm
  have htop := hvm.stackTop
  rw [List.length_append, List.length_singleton] at htop
  refine ⟨_, pop_apply hvm.onTop_append, { hvm with
    stackTop := ?_
    slot := fun i w hi => hvm.slot i w ?_
    room := Nat.le_trans (Nat.sub_le _ _) hvm.room }⟩
  · change vm.stackTop - 1 = vs.length
    omega
  · rw [List.getElem?_append_left (List.getElem?_eq_some_iff.mp hi).1]
    exact hi

theorem does_push : S.Does P (push P v) ⟨ip, vs, g, out⟩ ⟨ip, vs ++ [v], g, out⟩ := by
  intro vm hvm
  rcases Nat.lt_or_eq_of_le hvm.room with hlt | heq
  · refine .inl ⟨_, push_apply P hlt, { hvm with
      stackTop := ?_
      slot := fun i w hi => ?_
      room := hlt }⟩
    · change vm.stackTop + 1 = (vs ++ [v]).length
      rw [List.length_append, List.length_singleton, hvm.stackTop]
    · change (if i = vm.stackTop then v else vm.stack i) = w
      rw [hvm.stackTop]
      by_cases hi' : i < vs.length
      · rw [List.getElem?_append_left hi'] at hi
        rw [if_neg (show i ≠ vs.length by omega)]
        exact hvm.slot i w hi
      · rw [List.getElem?_append_right (Nat.le_of_not_lt hi'), List.getElem?_singleton] at hi
        split at hi
        · rw [if_pos (show i = vs.length by omega)]
          exact Option.some.inj hi
        · cases hi
  · refine .inr ⟨vm, ?_⟩
    change (if vm.stackTop = P.capacity then throwException _ else _ : VMM Unit) vm = _
    rw [if_pos heq]
    rfl

/-- A routine that writes to a slot in use. -/
theorem does_writeSlot {i : Nat} (hi : i < vs.length) :
    S.Does P (writeSlot P i v) ⟨ip, vs, g, out⟩ ⟨ip, vs.set i v, g, out⟩ := by
  refine .of_done fun vm hvm => ?_
  have htop : vm.stackTop = vs.length := hvm.stackTop
  refine ⟨vm.setSlot i v, ?_, { hvm with
    stackTop := htop.trans (List.length_set ..).symm
    slot := fun j w hj => ?_ }⟩
  · have hroom := hvm.room
    exact congrFun (if_pos (show i < P.capacity by omega)) vm
  · change (if j = i then v else vm.stack j) = w
    dsimp only at hj
    by_cases hji : j = i
    · subst hji
      rw [List.getElem?_set_self hi] at hj
      rw [if_pos rfl]
      exact Option.some.inj hj
    · rw [List.getElem?_set_ne (Ne.symm hji)] at hj
      rw [if_neg hji]
      exact hvm.slot j w hj

end

/-! ### Instructions in the code -/

/-- Some bytes stand in the code. -/
def HasBytes (ip : Nat) (bytes : List UInt8) : Prop := bytes <+: S.function.code.drop ip

/-- Some instructions stand in the code. -/
def Has (ip : Nat) (is : List Instr) : Prop := S.HasBytes ip (encodeAll is)

section

variable {P S} {c c₁ c₂ : Config} {fault : Fault} {ip n : Nat} {vs : List Value} {u v : Value}
  {g : Bytes → Cell Value} {out : Bytes} {bytes : List UInt8} {is js : List Instr}

theorem Has.left (h : S.Has ip (is ++ js)) : S.Has ip is := by
  unfold Has at h
  rw [encodeAll_append] at h
  exact (List.prefix_append _ _).trans h

theorem Has.right (h : S.Has ip (is ++ js)) : S.Has (ip + codeSize is) js := by
  unfold Has at h
  rw [encodeAll_append] at h
  have := @CodeAt.drop ⟨0, S.function, ip, 0⟩ ip _ _ h
  rwa [length_encodeAll] at this

theorem HasBytes.tail {b : UInt8} (h : S.HasBytes ip (b :: bytes)) : S.HasBytes (ip + 1) bytes :=
  @CodeAt.drop ⟨0, S.function, ip, 0⟩ ip [b] bytes h

theorem Has.byteOperand {op : OpCode} {b : Nat} (h : S.Has ip [.byte op b]) :
    S.HasBytes (ip + 1) [b.toUInt8] :=
  HasBytes.tail (b := op.toByte) h

theorem Has.shortOperand {op : OpCode} (h : S.Has ip [.short op n]) :
    S.HasBytes (ip + 1) (uint16Bytes n ++ []) :=
  HasBytes.tail (b := op.toByte) h

theorem Shows.ahead {vm : VM} (h : S.Shows P c vm) (hbytes : S.HasBytes c.ip bytes) :
    vm.Ahead bytes := by
  obtain ⟨a, hframes⟩ := h.frames
  exact ⟨_, [], hframes, hbytes⟩

theorem Shows.advance {vm : VM} (h : S.Shows P ⟨ip, vs, g, out⟩ vm) (n : Nat) :
    S.Shows P ⟨ip + n, vs, g, out⟩ (vm.advance n) := by
  obtain ⟨a, hframes⟩ := h.frames
  exact { h with frames := ⟨a, advance_frames hframes n⟩ }

theorem yields_readByte {b : UInt8} (h : S.HasBytes ip (b :: bytes)) :
    S.Yields P readByte ⟨ip, vs, g, out⟩ b ⟨ip + 1, vs, g, out⟩ :=
  fun vm hvm => ⟨vm.advance 1, readByte_apply (hvm.ahead h), hvm.advance 1⟩

theorem yields_readUint16Le (hn : n ≤ 0xFFFF) (h : S.HasBytes ip (uint16Bytes n ++ bytes)) :
    S.Yields P readUint16Le ⟨ip, vs, g, out⟩ n ⟨ip + 2, vs, g, out⟩ :=
  fun vm hvm => ⟨vm.advance 2, readUint16Le_apply hn (hvm.ahead h), hvm.advance 2⟩

/-- The instruction at `ip` is executed. -/
theorem hops {op : OpCode} (h : S.HasBytes ip (op.toByte :: bytes)) (hop : op ≠ .return)
    (hdoes : S.Does P (execute P op) ⟨ip + 1, vs, g, out⟩ c₁) :
    S.Hops P ⟨ip, vs, g, out⟩ c₁ := by
  intro vm hvm
  have hstep := step_apply P (hvm.ahead h) hop
  rcases hdoes _ (hvm.advance 1) with ⟨vm', hrun, hshows⟩ | ⟨vm', hrun⟩
  · exact .inl ⟨vm', hstep.trans (VMM.bind_of_done hrun _), hshows⟩
  · exact .inr ⟨vm', hstep.trans (VMM.bind_of_stopped hrun _)⟩

theorem evaluates {op : OpCode} {r : Except Fault Config} (h : S.HasBytes ip (op.toByte :: bytes))
    (hop : op ≠ .return) (hcomputes : S.Computes P (execute P op) ⟨ip + 1, vs, g, out⟩ r) :
    S.Evaluates P ⟨ip, vs, g, out⟩ out r := by
  cases r with
  | ok c₁ => exact (hops h hop hcomputes).leads
  | error fault =>
      intro vm hvm
      obtain ⟨vm', hrun, hout⟩ := hcomputes _ (hvm.advance 1)
      exact .of (.inl ⟨vm', (step_apply P (hvm.ahead h) hop).trans (VMM.bind_of_stopped hrun _), hout⟩)

end

end Script

end CppLox
