import CppLox.VM.Script

/-!
# Virtual machine — the instructions of a script

What each instruction of the structured fragment does to the state of a script.  An operator has the
value the semantics gives it, a variable the cell of its name.
-/

namespace CppLox

open VMM VM SmallStep

namespace Script

variable {P : Platform} {S : Script} {c c₁ c₂ : Config} {fault : Fault} {ip n : Nat}
  {vs : List Value} {a b v : Value} {g : Bytes → Cell Value} {out : Bytes}

theorem Yields.bind {α β : Type} {l : VMM α} {f : α → VMM β} {x : α} {y : β}
    (h : S.Yields P l c x c₁) (h' : S.Yields P (f x) c₁ y c₂) : S.Yields P (l >>= f) c y c₂ := by
  intro vm hvm
  obtain ⟨vm₁, h₁, hshows⟩ := h vm hvm
  rw [VMM.bind_of_done h₁]
  exact h' vm₁ hshows

/-- Routines that are the same from a state. -/
theorem Computes.congr {m m' : VMM Unit} {r : Except Fault Config} (h : S.Computes P m' c r)
    (hm : ∀ vm, S.Shows P c vm → m vm = m' vm) : S.Computes P m c r := by
  cases r with
  | ok c₁ =>
      intro vm hvm
      rw [hm vm hvm]
      exact h vm hvm
  | error fault =>
      intro vm hvm
      rw [hm vm hvm]
      exact h vm hvm

theorem fails_runtimeError (c : Config) (fault : Fault) :
    S.Fails P (runtimeError fault.message) c fault := fun vm hvm => ⟨vm, rfl, hvm.leaves⟩

theorem yields_objectOf (v : Value) (c : Config) :
    S.Yields P (objectOf v) c (v.heapObject S.heap) c :=
  fun vm hvm => ⟨vm, by rw [objectOf_apply, hvm.heap], hvm⟩

theorem yields_top : S.Yields P (peek 0) ⟨ip, vs ++ [v], g, out⟩ v ⟨ip, vs ++ [v], g, out⟩ :=
  yields_peek rfl

/-! ### Values -/

/-- An instruction of one byte. -/
theorem hops_op {op : OpCode} (hcode : S.Has ip [.op op]) (hop : op ≠ .return)
    (hdoes : S.Does P (execute P op) ⟨ip + 1, vs, g, out⟩ c₁) : S.Hops P ⟨ip, vs, g, out⟩ c₁ :=
  hops hcode hop hdoes

theorem hops_push {op : OpCode} (hcode : S.Has ip [.op op]) (hrun : execute P op = push P v)
    (hop : op ≠ .return) : S.Hops P ⟨ip, vs, g, out⟩ ⟨ip + 1, vs ++ [v], g, out⟩ :=
  hops_op hcode hop (hrun ▸ does_push)

theorem yields_constant {k : Nat} {constant : Constant ObjectFunction}
    (h : S.function.constants[k]? = some constant) :
    S.Yields P (VM.constant k) c constant.toValue c := by
  intro vm hvm
  obtain ⟨a, hframes⟩ := hvm.frames
  exact ⟨vm, constant_apply hframes h, hvm⟩

theorem hops_loadConstant {k : Nat} {constant : Constant ObjectFunction} (hk : k ≤ 0xFFFF)
    (h : S.function.constants[k]? = some constant) (hcode : S.Has ip [loadConstant k]) :
    S.Hops P ⟨ip, vs, g, out⟩ ⟨ip + codeSize [loadConstant k], vs ++ [constant.toValue], g, out⟩ := by
  unfold loadConstant at hcode ⊢
  by_cases hshort : k ≤ 0xFF
  · rw [if_pos hshort] at hcode ⊢
    have hread : (UInt8.ofNat k).toNat = k := by simp; omega
    exact hops hcode (by decide) (((yields_readByte hcode.byteOperand).bind
      (hread.symm ▸ yields_constant h)).does does_push)
  · rw [if_neg hshort] at hcode ⊢
    exact hops hcode (by decide) (((yields_readUint16Le hk hcode.shortOperand).bind
      (yields_constant h)).does does_push)

theorem does_popTop : S.Does P executePopTop ⟨ip, vs ++ [v], g, out⟩ ⟨ip, vs, g, out⟩ :=
  yields_pop.does (.of_done fun vm hvm => ⟨vm, rfl, hvm⟩)

/-- Without open upvalues nothing is closed. -/
theorem does_closeUpvalue :
    S.Does P (executeCloseUpvalue P) ⟨ip, vs ++ [v], g, out⟩ ⟨ip, vs, g, out⟩ := by
  intro vm hvm
  have htop := hvm.stackTop
  rw [List.length_append, List.length_singleton] at htop
  have hclose : closeUpvalues P (vm.stackTop - 1) vm = .done () vm := by
    change closeUpvaluesFrom P (vm.stackTop - 1) vm.openUpvalues vm = _
    rw [hvm.openUpvalues]
    change Outcome.done () { vm with openUpvalues := [] } = _
    rw [← hvm.openUpvalues]
  have hrun : executeCloseUpvalue P vm = executePopTop vm := by
    change (if vm.stackTop = 0 then undefinedBehaviour else _ : VMM Unit) vm = _
    rw [if_neg (by omega), VMM.bind_of_done hclose]
    rfl
  rw [hrun]
  exact does_popTop vm hvm

theorem does_dupTop :
    S.Does P (executeDupTop P) ⟨ip, vs ++ [v], g, out⟩ ⟨ip, vs ++ [v] ++ [v], g, out⟩ :=
  yields_top.does does_push

theorem does_not :
    S.Does P (executeNot P) ⟨ip, vs ++ [v], g, out⟩ ⟨ip, vs ++ [v.negated], g, out⟩ :=
  yields_pop.does does_push

/-- The text of a value that refers to closures is printed. -/
theorem does_print (hheap : S.heap.OnlyClosures) :
    S.Does P (executePrint P) ⟨ip, vs ++ [v], g, out⟩
      ⟨ip, vs, g, out ++ (Value.operations P S.heap).text v ++ [10]⟩ := by
  refine yields_pop.does (.of_done fun vm hvm => ?_)
  obtain ⟨text, htext⟩ := Option.isSome_iff_exists.mp
    (hheap.isSome_toString P v (S.heap.length + 1))
  have hrun : toText P v vm = .done text vm := by
    unfold toText
    rw [VMM.bind_of_done (rfl : VMM.get vm = .done vm vm), hvm.heap, htext]
    rfl
  refine ⟨{ vm with output := vm.output ++ text ++ [10] }, ?_, { hvm with output := ?_ }⟩
  · rw [VMM.bind_of_done hrun]
    rfl
  · change vm.output ++ text ++ [10] = _
    simp only [Value.operations, htext, Option.getD_some]
    rw [hvm.output]

/-! ### Operators -/

/-- The state after an operator that has a value or reports an error. -/
def result (ip : Nat) (vs : List Value) (g : Bytes → Cell Value) (out : Bytes)
    (r : Except Fault Value) : Except Fault Config := r.map fun v => ⟨ip, vs ++ [v], g, out⟩

theorem computes_binaryOp (symbol : String) (integers : Int64 → Int64 → Value)
    (reals : Float → Float → Value) :
    S.Computes P (binaryOp P symbol integers reals) ⟨ip, vs ++ [a, b], g, out⟩
      (result ip vs g out (Value.numeric symbol integers reals a b)) := by
  unfold binaryOp Value.numeric
  refine (yields_peek (by rfl)).computes ?_ rfl
  by_cases hb : b.isNumber = true
  · rw [if_neg (by rw [hb]; decide)]
    refine (yields_peek (by rfl)).computes ?_ rfl
    by_cases ha : a.isNumber = true
    · rw [if_neg (by rw [ha]; decide), if_pos (by rw [ha, hb]; rfl), ← List.singleton_append,
        ← List.append_assoc]
      refine yields_pop.computes (yields_pop.computes ?_ rfl) rfl
      cases a with
      | integer a =>
          cases b with
          | integer b => exact does_push
          | real b => exact does_push
          | _ => cases hb
      | real a =>
          cases b with
          | integer b => exact does_push
          | real b => exact does_push
          | _ => cases hb
      | _ => cases ha
    · rw [if_pos (by simpa using ha), if_neg (by simp [ha])]
      exact fails_runtimeError _ (.operands symbol)
  · rw [if_pos (by simpa using hb), if_neg (by simp [hb])]
    exact fails_runtimeError _ (.operands symbol)

theorem computes_subtract : S.Computes P (executeSubtract P) ⟨ip, vs ++ [a, b], g, out⟩
    (result ip vs g out (Value.minus a b)) := by
  unfold executeSubtract Value.minus
  exact computes_binaryOp _ _ _

theorem computes_multiply : S.Computes P (executeMultiply P) ⟨ip, vs ++ [a, b], g, out⟩
    (result ip vs g out (Value.times a b)) := by
  unfold executeMultiply Value.times
  exact computes_binaryOp _ _ _

theorem computes_divide : S.Computes P (executeDivide P) ⟨ip, vs ++ [a, b], g, out⟩
    (result ip vs g out (Value.quotient a b)) := by
  unfold executeDivide Value.quotient
  exact computes_binaryOp _ _ _

theorem computes_greater : S.Computes P (executeGreater P) ⟨ip, vs ++ [a, b], g, out⟩
    (result ip vs g out (Value.isGreater a b)) := by
  unfold executeGreater Value.isGreater
  exact computes_binaryOp _ _ _

theorem computes_less : S.Computes P (executeLess P) ⟨ip, vs ++ [a, b], g, out⟩
    (result ip vs g out (Value.isLess a b)) := by
  unfold executeLess Value.isLess
  exact computes_binaryOp _ _ _

/-- Values that refer to closures are added as numbers or as strings. -/
theorem computes_add (hheap : S.heap.OnlyClosures) :
    S.Computes P (executeAdd P) ⟨ip, vs ++ [a, b], g, out⟩
      (result ip vs g out (Value.plus a b)) := by
  have hnumbers := @computes_binaryOp P S ip vs a b g out "+" (fun a b => .integer (a + b))
    fun a b => realValue (a + b)
  unfold executeAdd
  refine (yields_peek (by rfl)).computes ((yields_objectOf b _).computes ?_ rfl) rfl
  rcases hheap.heapObject b with hb | ⟨f, upvalues, hb⟩
  · rw [hb]
    cases b with
    | object o =>
        cases o with
        | string bs =>
            refine (yields_peek (by rfl)).computes ?_ rfl
            cases a with
            | object o =>
                cases o with
                | string as =>
                    change S.Does P (addStrings P as bs) _ _
                    rw [← List.singleton_append, ← List.append_assoc]
                    exact yields_pop.does (yields_pop.does does_push)
                | _ => exact hnumbers
            | _ => exact hnumbers
        | _ => cases a with
          | object o => cases o <;> exact hnumbers
          | _ => exact hnumbers
    | _ => cases a with
      | object o => cases o <;> exact hnumbers
      | _ => exact hnumbers
  · rw [hb]
    cases b with
    | object o =>
        cases o with
        | heap address => cases a with
          | object o => cases o <;> exact hnumbers
          | _ => exact hnumbers
        | _ => cases hb
    | _ => cases hb

theorem does_equal (hheap : S.heap.OnlyClosures) :
    S.Does P (executeEqual P) ⟨ip, vs ++ [a, b], g, out⟩
      ⟨ip, vs ++ [Value.isEqual S.heap a b], g, out⟩ := by
  unfold executeEqual Value.isEqual
  rw [← List.singleton_append, ← List.append_assoc]
  refine yields_pop.does (yields_pop.does ?_)
  split
  · exact does_push
  · obtain ⟨same, hsame⟩ := Option.isSome_iff_exists.mp (hheap.isSome_equals a b S.heap.length)
    intro vm hvm
    rw [VMM.bind_of_done (rfl : VMM.get vm = .done vm vm), hvm.heap, hsame]
    exact does_push vm hvm

/-! ### Jumps -/

/-- `ip` is changed. -/
theorem does_setIp (ip' : Nat) : S.Does P (setIp ip') ⟨ip, vs, g, out⟩ ⟨ip', vs, g, out⟩ := by
  refine .of_done fun vm hvm => ?_
  obtain ⟨a, hframes⟩ := hvm.frames
  exact ⟨_, setIp_apply ip' hframes, { hvm with frames := ⟨a, rfl⟩ }⟩

theorem yields_currentFrame {vm : VM} (hvm : S.Shows P c vm) :
    ∃ a, currentFrame vm = .done ⟨a, S.function, c.ip, 0⟩ vm := by
  obtain ⟨a, hframes⟩ := hvm.frames
  exact ⟨a, currentFrame_apply hframes⟩

theorem does_jumpForward (n : Nat) :
    S.Does P (jumpForward n) ⟨ip, vs, g, out⟩ ⟨ip + n, vs, g, out⟩ := by
  intro vm hvm
  obtain ⟨a, hframe⟩ := yields_currentFrame hvm
  unfold jumpForward
  rw [VMM.bind_of_done hframe]
  exact does_setIp (ip + n) vm hvm

theorem does_jumpBackward (hn : n ≤ ip) :
    S.Does P (jumpBackward n) ⟨ip, vs, g, out⟩ ⟨ip - n, vs, g, out⟩ := by
  intro vm hvm
  obtain ⟨a, hframe⟩ := yields_currentFrame hvm
  unfold jumpBackward
  rw [VMM.bind_of_done hframe, if_neg (Nat.not_lt.mpr hn)]
  exact does_setIp (ip - n) vm hvm

theorem does_jumpIf (condition : Bool) (n : Nat) : S.Does P (jumpIf condition n)
    ⟨ip, vs, g, out⟩ ⟨if condition then ip + n else ip, vs, g, out⟩ := by
  cases condition with
  | true => exact does_jumpForward n
  | false => exact .of_done fun vm hvm => ⟨vm, rfl, hvm⟩

/-- A jump has its operand behind it. -/
theorem hops_short {op : OpCode} {m : Nat → VMM Unit} (hcode : S.Has ip [.short op n])
    (hn : n ≤ 0xFFFF) (hop : op ≠ .return) (hrun : execute P op = readUint16Le >>= m)
    (hdoes : S.Does P (m n) ⟨ip + 3, vs, g, out⟩ c₁) : S.Hops P ⟨ip, vs, g, out⟩ c₁ :=
  hops hcode hop (hrun ▸ (yields_readUint16Le hn hcode.shortOperand).does hdoes)

theorem hops_jumpForward (hcode : S.Has ip [.short .jumpForward n]) (hn : n ≤ 0xFFFF) :
    S.Hops P ⟨ip, vs, g, out⟩ ⟨ip + 3 + n, vs, g, out⟩ :=
  hops_short hcode hn (by decide) rfl (does_jumpForward n)

theorem hops_jumpBackward (hcode : S.Has ip [.short .jumpBackward n]) (hn : n ≤ 0xFFFF)
    (hle : n ≤ ip + 3) : S.Hops P ⟨ip, vs, g, out⟩ ⟨ip + 3 - n, vs, g, out⟩ :=
  hops_short hcode hn (by decide) rfl (does_jumpBackward hle)

theorem hops_jumpIfFalse (hcode : S.Has ip [.short .jumpIfFalse n]) (hn : n ≤ 0xFFFF) :
    S.Hops P ⟨ip, vs ++ [v], g, out⟩
      ⟨if v.isFalsey then ip + 3 + n else ip + 3, vs ++ [v], g, out⟩ :=
  hops_short hcode hn (by decide) rfl (yields_top.does (does_jumpIf v.isFalsey n))

theorem hops_jumpIfTrue (hcode : S.Has ip [.short .jumpIfTrue n]) (hn : n ≤ 0xFFFF) :
    S.Hops P ⟨ip, vs ++ [v], g, out⟩
      ⟨if !v.isFalsey then ip + 3 + n else ip + 3, vs ++ [v], g, out⟩ :=
  hops_short hcode hn (by decide) rfl (yields_top.does (does_jumpIf (!v.isFalsey) n))

theorem hops_popJumpIfFalse (hcode : S.Has ip [.short .popJumpIfFalse n]) (hn : n ≤ 0xFFFF) :
    S.Hops P ⟨ip, vs ++ [v], g, out⟩ ⟨if v.isFalsey then ip + 3 + n else ip + 3, vs, g, out⟩ :=
  hops_short hcode hn (by decide) rfl (yields_pop.does (does_jumpIf v.isFalsey n))

/-! ### Variables -/

/-- The instructions on variables. -/
theorem evaluates_short {op : OpCode} {m : Nat → VMM Unit} {r : Except Fault Config}
    (hcode : S.Has ip [.short op n]) (hn : n ≤ 0xFFFF) (hop : op ≠ .return)
    (hrun : execute P op = readUint16Le >>= m)
    (hcomputes : S.Computes P (m n) ⟨ip + 3, vs, g, out⟩ r) :
    S.Evaluates P ⟨ip, vs, g, out⟩ out r :=
  evaluates hcode hop (hrun ▸ (yields_readUint16Le hn hcode.shortOperand).computes hcomputes rfl)

/-- A local that is not initialized is not read. -/
theorem computes_loadLocal {i : Nat} (hi : vs[i]? = some v) :
    S.Computes P (loadLocal P i) ⟨ip, vs, g, out⟩
      (if v.isUninitialized then .error .uninitializedLocal
        else .ok ⟨ip, vs ++ [v], g, out⟩) := by
  have hlt := (List.getElem?_eq_some_iff.mp hi).1
  have hrun : ∀ vm, S.Shows P ⟨ip, vs, g, out⟩ vm → loadLocal P i vm =
      (if v.isUninitialized then runtimeError Fault.uninitializedLocal.message
        else push P v : VMM Unit) vm := by
    intro vm hvm
    have htop : vm.stackTop = vs.length := hvm.stackTop
    have hroom := hvm.room
    obtain ⟨a, hframe⟩ := yields_currentFrame hvm
    unfold loadLocal
    rw [VMM.bind_of_done (rfl : VMM.get vm = .done vm vm), if_neg (by omega),
      VMM.bind_of_done hframe]
    have hread : readSlot P (0 + i) vm = .done v vm := by
      unfold readSlot
      rw [VMM.bind_of_done (rfl : VMM.get vm = .done vm vm), if_pos (by omega), Nat.zero_add,
        hvm.slot i v hi]
      rfl
    rw [VMM.bind_of_done hread]
    rfl
  refine .congr ?_ hrun
  split
  · exact fails_runtimeError _ .uninitializedLocal
  · exact does_push

theorem does_storeLocal {i : Nat} (hi : i < vs.length) :
    S.Does P (storeLocal P i) ⟨ip, vs ++ [v], g, out⟩ ⟨ip, vs.set i v ++ [v], g, out⟩ := by
  intro vm hvm
  obtain ⟨a, hframe⟩ := yields_currentFrame hvm
  unfold storeLocal
  rw [VMM.bind_of_done hframe, Nat.zero_add, ← List.set_append_left i v hi]
  refine ((yields_peek (by rfl)).does (does_writeSlot ?_) : S.Does P _ _ _) vm hvm
  rw [List.length_append]
  omega

/-- The index of a name that is in the table. -/
theorem idxOf_of_getElem? {ctx : Context} {i : Nat} {x : Bytes} (h : ctx.names[i]? = some x) :
    ctx.names.idxOf x = i := by
  obtain ⟨hlt, rfl⟩ := List.getElem?_eq_some_iff.mp h
  exact ctx.nodup_names.idxOf_getElem i hlt

theorem exists_of_getElem? {ctx : Context} {i : Nat} {x : Bytes} (h : ctx.names[i]? = some x) :
    ctx.exists i = true := by
  have hlt := (List.getElem?_eq_some_iff.mp h).1
  rw [← ctx.length_values] at hlt
  exact decide_eq_true hlt

theorem cell_of_getElem? {ctx : Context} {i : Nat} {x : Bytes} (h : ctx.names[i]? = some x) :
    ctx.cell x = (ctx.getInternalValue i).cell := by
  unfold Context.cell
  rw [idxOf_of_getElem? h]

theorem getName_of_getElem? {ctx : Context} {i : Nat} {x : Bytes} (h : ctx.names[i]? = some x) :
    ctx.getName i = x := by
  unfold Context.getName
  rw [List.getD_eq_getElem?_getD, h]
  rfl

theorem getInternalValue_modify {ctx : Context} {i : Nat} (hi : i < ctx.values.length)
    (f : GlobalValue → GlobalValue) (j : Nat) : (ctx.modify i f).getInternalValue j =
      if j = i then f (ctx.getInternalValue i) else ctx.getInternalValue j := by
  unfold Context.getInternalValue Context.modify
  rw [List.getD_eq_getElem?_getD, List.getElem?_modify]
  by_cases hj : j = i
  · subst hj
    simp [List.getElem?_eq_getElem hi]
  · simp [hj, Ne.symm hj]

/-- A write to a global changes the cell of its name alone. -/
theorem cell_modify {ctx : Context} {i : Nat} {x : Bytes} (h : ctx.names[i]? = some x)
    (f : GlobalValue → GlobalValue) (y : Bytes) : (ctx.modify i f).cell y =
      if y = x then (f (ctx.getInternalValue i)).cell else ctx.cell y := by
  have hlt := (List.getElem?_eq_some_iff.mp h).1
  have hlt' := hlt
  rw [← ctx.length_values] at hlt'
  unfold Context.cell
  rw [Context.modify_names, getInternalValue_modify hlt']
  by_cases hy : y = x
  · rw [if_pos hy, hy, idxOf_of_getElem? h, if_pos rfl]
  · rw [if_neg hy, if_neg]
    rintro heq
    have hmem := List.idxOf_lt_length_iff.mp (heq.trans_lt hlt)
    rw [← heq, List.getElem?_eq_getElem (List.idxOf_lt_length_of_mem hmem), List.getElem_idxOf] at h
    exact hy (Option.some.inj h)

section

variable {i : Nat} {x : Bytes} (hi : S.names[i]? = some x)

include hi

/-- What the machine finds of a global. -/
theorem Shows.global {vm : VM} (h : S.Shows P c vm) : vm.context.exists i = true ∧
    vm.context.getName i = x ∧ (vm.context.getInternalValue i).cell = c.globals x := by
  rw [← h.names] at hi
  exact ⟨exists_of_getElem? hi, getName_of_getElem? hi, (cell_of_getElem? hi).symm.trans (h.globals x)⟩

/-- A write to a global, as a write to its cell. -/
theorem yields_modifyGlobal {f : GlobalValue → GlobalValue} {F : Cell Value → Cell Value}
    (hf : ∀ global, (f global).cell = F global.cell) : S.Yields P (modifyGlobal i f)
      ⟨ip, vs, g, out⟩ () ⟨ip, vs, fun y => if y = x then F (g x) else g y, out⟩ := by
  intro vm hvm
  obtain ⟨-, -, hcell⟩ := hvm.global hi
  refine ⟨_, rfl, { hvm with globals := fun y => ?_ }⟩
  rw [← hvm.names] at hi
  change (vm.context.modify i f).cell y = if y = x then F (g x) else g y
  rw [cell_modify hi, hf, hcell, hvm.globals y]

theorem fails_undefinedGlobal (c : Config) :
    S.Fails P (undefinedGlobal i) c (.undefinedGlobal x) := by
  intro vm hvm
  obtain ⟨hexists, hname, -⟩ := hvm.global hi
  unfold undefinedGlobal
  rw [VMM.bind_of_done (rfl : VMM.get vm = .done vm vm), hexists, if_neg (by decide), hname]
  exact ⟨vm, rfl, hvm.leaves⟩

theorem computes_loadGlobal : S.Computes P (loadGlobal P i) ⟨ip, vs, g, out⟩
    (if !(g x).defined then .error (.undefinedGlobal x)
      else if !(g x).initialized then .error (.uninitializedGlobal x)
      else .ok ⟨ip, vs ++ [(g x).value], g, out⟩) := by
  have hrun : ∀ vm, S.Shows P ⟨ip, vs, g, out⟩ vm → loadGlobal P i vm =
      (if !(g x).defined then undefinedGlobal i
        else if !(g x).initialized then runtimeError (Fault.uninitializedGlobal x).message
        else push P (g x).value : VMM Unit) vm := by
    intro vm hvm
    obtain ⟨hexists, hname, hcell⟩ := hvm.global hi
    have hcell : (vm.context.getInternalValue i).cell = g x := hcell
    unfold loadGlobal
    rw [VMM.bind_of_done (rfl : VMM.get vm = .done vm vm), hexists, hname, ← hcell]
    rfl
  refine .congr ?_ hrun
  by_cases hdefined : (!(g x).defined) = true
  · rw [if_pos hdefined, if_pos hdefined]
    exact fails_undefinedGlobal hi _
  rw [if_neg hdefined, if_neg hdefined]
  by_cases hinitialized : (!(g x).initialized) = true
  · rw [if_pos hinitialized, if_pos hinitialized]
    exact fails_runtimeError _ (.uninitializedGlobal x)
  rw [if_neg hinitialized, if_neg hinitialized]
  exact does_push

theorem computes_storeGlobal : S.Computes P (storeGlobal i) ⟨ip, vs ++ [v], g, out⟩
    (if !(g x).defined then .error (.undefinedGlobal x)
      else if (g x).isConst then .error (.assignedConst x)
      else .ok ⟨ip, vs ++ [v],
        fun y => if y = x then { g x with value := v, initialized := true } else g y, out⟩) := by
  have hrun : ∀ vm, S.Shows P ⟨ip, vs ++ [v], g, out⟩ vm → storeGlobal i vm =
      (if !(g x).defined then undefinedGlobal i
        else if (g x).isConst then runtimeError (Fault.assignedConst x).message
        else do
          let v ← peek 0
          modifyGlobal i fun global => { global with value := v, initialized := true }) vm := by
    intro vm hvm
    obtain ⟨hexists, hname, hcell⟩ := hvm.global hi
    have hcell : (vm.context.getInternalValue i).cell = g x := hcell
    unfold storeGlobal
    rw [VMM.bind_of_done (rfl : VMM.get vm = .done vm vm), hexists, hname, ← hcell]
    rfl
  refine .congr ?_ hrun
  by_cases hdefined : (!(g x).defined) = true
  · rw [if_pos hdefined, if_pos hdefined]
    exact fails_undefinedGlobal hi _
  rw [if_neg hdefined, if_neg hdefined]
  by_cases hconst : (g x).isConst = true
  · rw [if_pos hconst, if_pos hconst]
    exact fails_runtimeError _ (.assignedConst x)
  rw [if_neg hconst, if_neg hconst]
  have hwrite := @yields_modifyGlobal P S ip (vs ++ [v]) g out i x hi
    (fun global => { global with value := v, initialized := true })
    (fun c => { c with value := v, initialized := true }) fun _ => rfl
  exact fun vm hvm => .inl (yields_top.bind hwrite vm hvm)

/-- The global is marked as defined before its value is written. -/
theorem computes_defineGlobal : S.Computes P (defineGlobal i) ⟨ip, vs ++ [v], g, out⟩
    (if (g x).defined && (g x).isConst then .error (.redeclaredConst x)
      else .ok ⟨ip, vs, fun y => if y = x then
        { g x with
          value := v
          defined := true
          initialized := (g x).initialized || !v.isUninitialized } else g y, out⟩) := by
  have hrun : ∀ vm, S.Shows P ⟨ip, vs ++ [v], g, out⟩ vm → defineGlobal i vm =
      (if (g x).defined && (g x).isConst then runtimeError (Fault.redeclaredConst x).message
        else do
          modifyGlobal i fun global => { global with defined := true }
          let v ← peek 0
          modifyGlobal i fun global =>
            { global with value := v, initialized := global.initialized || !v.isUninitialized }
          let _ ← pop) vm := by
    intro vm hvm
    obtain ⟨hexists, hname, hcell⟩ := hvm.global hi
    have hcell : (vm.context.getInternalValue i).cell = g x := hcell
    unfold defineGlobal
    rw [VMM.bind_of_done (rfl : VMM.get vm = .done vm vm), hexists, hname, ← hcell]
    rfl
  refine .congr ?_ hrun
  by_cases hconst : ((g x).defined && (g x).isConst) = true
  · rw [if_pos hconst, if_pos hconst]
    exact fails_runtimeError _ (.redeclaredConst x)
  rw [if_neg hconst, if_neg hconst]
  have hmark := @yields_modifyGlobal P S ip (vs ++ [v]) g out i x hi
    (fun global => { global with defined := true }) (fun c => { c with defined := true })
    fun _ => rfl
  have hwrite := @yields_modifyGlobal P S ip (vs ++ [v])
    (fun y => if y = x then { g x with defined := true } else g y) out i x hi
    (fun global =>
      { global with value := v, initialized := global.initialized || !v.isUninitialized })
    (fun c => { c with value := v, initialized := c.initialized || !v.isUninitialized })
    fun _ => rfl
  have hcells : (fun y => if y = x then
      { g x with
        value := v
        defined := true
        initialized := (g x).initialized || !v.isUninitialized } else g y) = fun y =>
      if y = x then
        (fun c : Cell Value =>
          { c with value := v, initialized := c.initialized || !v.isUninitialized })
          (if x = x then { g x with defined := true } else g x)
      else if y = x then { g x with defined := true } else g y := by
    funext y
    rw [if_pos (rfl : x = x)]
    split <;> rfl
  rw [hcells]
  refine hmark.does ?_
  exact yields_top.does (hwrite.does does_popTop)

end

end Script

end CppLox
