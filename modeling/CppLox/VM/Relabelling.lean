import CppLox.Container.Renaming
import CppLox.Object.Relabelling
import CppLox.VM.Run

/-!
# Virtual machine — machines under other labels

The machine looks at the address of a function only to compare and to hash it as a value, and never
at its line table.  A machine whose functions have other labels does what it did before: every
routine commutes with a relabelling of the whole machine (`Relabels`).
-/

namespace CppLox

open VMM HashMap

variable {ρ : Relabelling}

/-! ### Objects in the heap -/

section

variable (ρ)

def Location.relabel : Location → Location
  | .slot n => .slot n
  | .closed v => .closed (v.relabel ρ)

def StringTable.relabel (table : StringTable) : StringTable :=
  table.map (Prod.map id (Value.relabel ρ))

/-- A table whose keys and values have other labels. -/
abbrev HashMap.relabel (table : HashMap Value Value) : HashMap Value Value :=
  table.rename (Value.relabel ρ) (Value.relabel ρ)

def HeapObject.relabel : HeapObject → HeapObject
  | .closure f upvalues => .closure (f.relabel ρ) upvalues
  | .upvalue location => .upvalue (location.relabel ρ)
  | .class name initMethod methods =>
    .class name (initMethod.relabel ρ) (StringTable.relabel ρ methods)
  | .instance klass fields => .instance klass (StringTable.relabel ρ fields)
  | .boundMethod receiver method => .boundMethod (receiver.relabel ρ) method
  | .list values => .list (values.map (Value.relabel ρ))
  | .map table => .map (table.relabel ρ)

def Heap.relabel (heap : Heap) : Heap := heap.map (HeapObject.relabel ρ)

end

namespace StringTable

variable (table : StringTable) (name : Bytes)

theorem lookup_relabel :
    (relabel ρ table).lookup name = (table.lookup name).map (Value.relabel ρ) := by
  induction table with
  | nil => rfl
  | cons entry table ih =>
      change ((entry.1, entry.2.relabel ρ) :: relabel ρ table).lookup name =
        Option.map _ (((entry.1, entry.2) :: table).lookup name)
      rw [List.lookup_cons, List.lookup_cons, ih]
      cases name == entry.1 <;> rfl

theorem filter_relabel :
    (relabel ρ table).filter (fun entry => entry.1 ≠ name) =
      relabel ρ (table.filter fun entry => entry.1 ≠ name) := by
  rw [relabel, relabel, List.filter_map]
  rfl

theorem tableInsert_relabel (v : Value) :
    VM.tableInsert (relabel ρ table) name (v.relabel ρ) = relabel ρ (VM.tableInsert table name v) :=
  congrArg ((name, v.relabel ρ) :: ·) (filter_relabel table name)

theorem tableInsertAll_relabel (entries : StringTable) :
    VM.tableInsertAll (relabel ρ table) (relabel ρ entries) =
      relabel ρ (VM.tableInsertAll table entries) := by
  induction entries with
  | nil => rfl
  | cons entry entries ih =>
      change VM.tableInsert (VM.tableInsertAll (relabel ρ table) (relabel ρ entries)) entry.1
        (entry.2.relabel ρ) = _
      rw [ih, tableInsert_relabel]
      rfl

end StringTable

namespace Heap

variable (heap : Heap)

@[simp] theorem length_relabel : (heap.relabel ρ).length = heap.length := List.length_map _

@[simp] theorem getElem?_relabel (a : Addr) :
    (heap.relabel ρ)[a]? = heap[a]?.map (HeapObject.relabel ρ) := List.getElem?_map

theorem append_relabel (object : HeapObject) :
    heap.relabel ρ ++ [object.relabel ρ] = Heap.relabel ρ (heap ++ [object]) := by
  rw [relabel, relabel, List.map_append]
  rfl

theorem set_relabel (a : Addr) (object : HeapObject) :
    (heap.relabel ρ).set a (object.relabel ρ) = Heap.relabel ρ (heap.set a object) := by
  rw [relabel, relabel, List.map_set]

theorem className_relabel (a : Addr) : (heap.relabel ρ).className a = heap.className a := by
  rw [className, className, getElem?_relabel]
  cases heap[a]? with
  | none => rfl
  | some object => cases object <;> rfl

end Heap

/-! ### Values on a heap -/

/-- A platform for the machine under other labels: objects have the same addresses as numbers. -/
structure Platform.Readdresses (ρ : Relabelling) (P P' : Platform) : Prop where
  valueStackMax : P'.valueStackMax = P.valueStackMax
  address : ∀ o, P'.address (o.relabel ρ) = P.address o
  formatReal : P'.formatReal = P.formatReal

variable {P P' : Platform}

theorem Platform.Readdresses.capacity (hP : P.Readdresses ρ P') : P'.capacity = P.capacity := by
  rw [Platform.capacity, Platform.capacity, hP.valueStackMax]

theorem Platform.Readdresses.hashPointer (hP : P.Readdresses ρ P') (o : Object) :
    P'.hashPointer (o.relabel ρ) = P.hashPointer o := by
  rw [Platform.hashPointer, Platform.hashPointer, hP.address]

namespace Value

variable (heap : Heap) (v : Value)

@[simp] theorem heapObject_relabel :
    (v.relabel ρ).heapObject (heap.relabel ρ) = (v.heapObject heap).map (HeapObject.relabel ρ) := by
  cases v with
  | object o => cases o with
    | heap a => exact Heap.getElem?_relabel heap a
    | _ => rfl
  | _ => rfl

@[simp] theorem isNumber_relabel : (v.relabel ρ).isNumber = v.isNumber := by
  cases v <;> rfl

@[simp] theorem isReal_relabel : (v.relabel ρ).isReal = v.isReal := by
  cases v <;> rfl

@[simp] theorem coerceReal_relabel : (v.relabel ρ).coerceReal = v.coerceReal := by
  cases v <;> rfl

@[simp] theorem isFalsey_relabel : (v.relabel ρ).isFalsey = v.isFalsey := by
  cases v <;> rfl

@[simp] theorem isUninitialized_relabel : (v.relabel ρ).isUninitialized = v.isUninitialized := by
  cases v <;> rfl

theorem samePointer_relabel (o o' : Object) :
    samePointer (o.relabel ρ) (o'.relabel ρ) = samePointer o o' := by
  cases o <;> cases o' <;> try rfl
  rename_i f f'
  change ((f.relabel ρ).addr == (f'.relabel ρ).addr) = (f.addr == f'.addr)
  rw [ObjectFunction.addr_relabel, ObjectFunction.addr_relabel, Bool.eq_iff_iff, beq_iff_eq,
    beq_iff_eq, ρ.injective.eq_iff]

theorem sameLocation_relabel (o o' : Object) (l l' : Location) :
    sameLocation (o.relabel ρ, l.relabel ρ) (o'.relabel ρ, l'.relabel ρ) =
      sameLocation (o, l) (o', l') := by
  cases l <;> cases l' <;> try rfl
  exact samePointer_relabel o o'

theorem hashCode_relabel (hP : P.Readdresses ρ P') (fuel : Nat) :
    (v.relabel ρ).hashCode P' (heap.relabel ρ) fuel = v.hashCode P heap fuel := by
  induction fuel using Nat.strong_induction_on generalizing v with
  | _ fuel ih =>
      rw [hashCode.eq_def, hashCode.eq_def P]
      cases v with
      | object o => cases o with
        | heap a =>
            dsimp only [relabel, Object.relabel]
            rw [Heap.getElem?_relabel]
            cases heap[a]? with
            | none => exact hP.hashPointer (.heap a)
            | some object => cases object with
              | boundMethod receiver method => cases fuel with
                | zero => exact hP.hashPointer (.heap a)
                | succ fuel =>
                    have hreceiver := ih fuel (Nat.lt_succ_self fuel) receiver
                    have hmethod : P'.hashPointer (.heap method) = P.hashPointer (.heap method) :=
                      hP.hashPointer (.heap method)
                    dsimp only [Option.map, HeapObject.relabel]
                    rw [hreceiver, hmethod]
              | list values => rfl
              | map table => rfl
              | _ => exact hP.hashPointer (.heap a)
        | string s => rfl
        | function f => exact hP.hashPointer (.function f)
        | native i => exact hP.hashPointer (.native i)
      | _ => rfl

theorem equals_relabel (w : Value) (fuel : Nat) :
    (v.relabel ρ).equals (heap.relabel ρ) fuel (w.relabel ρ) = v.equals heap fuel w := by
  induction fuel using Nat.strong_induction_on generalizing v w with
  | _ fuel ih =>
      rw [equals.eq_def, equals.eq_def heap]
      cases v with
      | object a => cases w with
        | object b =>
            have ha := heapObject_relabel (ρ := ρ) heap (.object a)
            have hb := heapObject_relabel (ρ := ρ) heap (.object b)
            have hpointer := samePointer_relabel (ρ := ρ) a b
            dsimp only [relabel] at ha hb ⊢
            rw [ha, hb]
            cases heapObject heap (.object a) with
            | none => exact congrArg some hpointer
            | some x => cases x with
              | boundMethod receiver method => cases heapObject heap (.object b) with
                | none => rfl
                | some y => cases y with
                  | boundMethod receiver' method' => cases fuel with
                    | zero => rfl
                    | succ fuel =>
                        dsimp only [Option.map, HeapObject.relabel]
                        rw [ih fuel (Nat.lt_succ_self fuel)]
                  | _ => rfl
              | upvalue location => cases heapObject heap (.object b) with
                | none => rfl
                | some y => cases y with
                  | upvalue location' => exact congrArg some (sameLocation_relabel a b location location')
                  | _ => rfl
              | _ => exact congrArg some hpointer
        | _ => rfl
      | _ => cases w <;> rfl

/-- The filled slots under other labels. -/
theorem entries_relabel (table : HashMap Value Value) :
    (table.relabel ρ).entries =
      table.entries.map (Prod.map (relabel ρ) (relabel ρ)) := by
  rw [entries, entries, slots_rename, List.filter_map, List.map_map, List.map_map]
  rfl

theorem toString_relabel (hP : P.Readdresses ρ P') (fuel : Nat) :
    (v.relabel ρ).toString P' (heap.relabel ρ) fuel = v.toString P heap fuel := by
  induction fuel using Nat.strong_induction_on generalizing v with
  | _ fuel ih =>
      rw [Value.toString.eq_def, Value.toString.eq_def P]
      cases v with
      | real bits => exact congrArg (fun format => some (format bits)) hP.formatReal
      | object o => cases o with
        | heap a =>
            dsimp only [relabel, Object.relabel]
            rw [Heap.getElem?_relabel]
            cases heap[a]? with
            | none => rfl
            | some object => cases object with
              | boundMethod receiver method => cases fuel with
                | zero => rfl
                | succ fuel =>
                    dsimp only [Option.map, HeapObject.relabel]
                    rw [ih fuel (Nat.lt_succ_self fuel)]
              | list values => cases fuel with
                | zero => rfl
                | succ fuel =>
                    dsimp only [Option.map, HeapObject.relabel]
                    rw [List.mapM_map]
                    simp only [Function.comp_def, ih fuel (Nat.lt_succ_self fuel)]
              | map table => cases fuel with
                | zero => rfl
                | succ fuel =>
                    dsimp only [Option.map, HeapObject.relabel]
                    rw [entries_relabel, List.mapM_map]
                    simp only [Function.comp_def, Prod.map_fst, Prod.map_snd,
                      ih fuel (Nat.lt_succ_self fuel)]
              | closure f upvalues => exact congrArg (some ∘ functionText) (f.name_relabel ρ)
              | «instance» klass fields =>
                  have haddress : P'.address (.heap a) = P.address (.heap a) := hP.address (.heap a)
                  dsimp only [Option.map, HeapObject.relabel]
                  rw [Heap.className_relabel, haddress]
              | _ => rfl
        | function f => exact congrArg (some ∘ functionText) (f.name_relabel ρ)
        | _ => rfl
      | _ => rfl

end Value

/-! ### Tables of values -/

section

variable (hP : P.Readdresses ρ P') (heap : Heap) (table : HashMap Value Value)

include hP

/-- Labels do not tell keys apart. -/
theorem renamesKeys_relabel : @RenamesKeys Value Value (Value.hashKey P heap)
    (Value.hashKey P' (heap.relabel ρ)) (Value.relabel ρ) := by
  refine @RenamesKeys.mk Value Value (Value.hashKey P heap) (Value.hashKey P' (heap.relabel ρ)) _ rfl
    (fun a b => ?_) (fun a b => ?_) fun a => ?_
  · change ((a.relabel ρ).equals (heap.relabel ρ) _ (b.relabel ρ)).getD false = _
    rw [Heap.length_relabel, Value.equals_relabel]
    rfl
  · change ((a.relabel ρ).equals (heap.relabel ρ) _ (b.relabel ρ)).isSome = _
    rw [Heap.length_relabel, Value.equals_relabel]
    rfl
  · change ((a.relabel ρ).hashCode P' (heap.relabel ρ) _).toUInt64.toNat = _
    rw [Heap.length_relabel, Value.hashCode_relabel _ _ hP]
    rfl

theorem subscript_relabel (key : Value) :
    @subscript _ _ (Value.hashKey P' (heap.relabel ρ)) _ (table.relabel ρ) (key.relabel ρ) =
      (@subscript _ _ (Value.hashKey P heap) _ table key).map (Prod.map id (HashMap.relabel ρ)) :=
  @subscript_rename _ _ _ _ _ _ table (Value.hashKey P heap) (Value.hashKey P' (heap.relabel ρ)) _ _
    (renamesKeys_relabel hP heap) rfl key

theorem writeRef_relabel (i : Nat) (v : Value) :
    @writeRef _ _ (Value.hashKey P' (heap.relabel ρ)) _ (table.relabel ρ) i (v.relabel ρ) =
      (@writeRef _ _ (Value.hashKey P heap) _ table i v).relabel ρ :=
  @writeRef_rename _ _ _ _ _ _ table (Value.hashKey P heap) (Value.hashKey P' (heap.relabel ρ)) _ _
    (renamesKeys_relabel hP heap) rfl i v

theorem get_relabel (key : Value) :
    @HashMap.get _ _ (Value.hashKey P' (heap.relabel ρ)) _ (table.relabel ρ) (key.relabel ρ) =
      (@HashMap.get _ _ (Value.hashKey P heap) _ table key).map (Option.map (Value.relabel ρ)) :=
  @get_rename _ _ _ _ _ _ table (Value.hashKey P heap) (Value.hashKey P' (heap.relabel ρ)) _ _
    (renamesKeys_relabel hP heap) rfl key

theorem contains_relabel (key : Value) :
    @contains _ _ (Value.hashKey P' (heap.relabel ρ)) _ (table.relabel ρ) (key.relabel ρ) =
      @contains _ _ (Value.hashKey P heap) _ table key :=
  @contains_rename _ _ _ _ _ _ table (Value.hashKey P heap) (Value.hashKey P' (heap.relabel ρ)) _ _
    (renamesKeys_relabel hP heap) rfl key

theorem erase_relabel (key : Value) :
    @erase _ _ (Value.hashKey P' (heap.relabel ρ)) _ (table.relabel ρ) (key.relabel ρ) =
      (@erase _ _ (Value.hashKey P heap) _ table key).map (Prod.map id (HashMap.relabel ρ)) :=
  @erase_rename _ _ _ _ _ _ table (Value.hashKey P heap) (Value.hashKey P' (heap.relabel ρ)) _ _
    (renamesKeys_relabel hP heap) rfl key

end

/-! ### The machine -/

section

variable (ρ)

def CallFrame.relabel (frame : CallFrame) : CallFrame :=
  { frame with function := frame.function.relabel ρ }

def VM.relabel (vm : VM) : VM where
  stack i := (vm.stack i).relabel ρ
  stackTop := vm.stackTop
  frames := vm.frames.map (CallFrame.relabel ρ)
  openUpvalues := vm.openUpvalues
  heap := vm.heap.relabel ρ
  context := vm.context.relabel ρ
  output := vm.output

def Outcome.relabel {α β : Type} (r : α → β) : Outcome α → Outcome β
  | .done a vm => .done (r a) (vm.relabel ρ)
  | .stopped i vm => .stopped i (vm.relabel ρ)

/-- On the machine under other labels the second routine does what the first one does, and its
result is the one of the first under other labels (`r`). -/
def Relabels {α β : Type} (r : α → β) (m : VMM α) (m' : VMM β) : Prop :=
  ∀ vm, m' (vm.relabel ρ) = (m vm).relabel ρ r

end

namespace Relabels

variable {α β α' β' : Type} {r : α → β} {r' : α' → β'}

theorem pure (a : α) : Relabels ρ r (pure a) (pure (r a)) := fun _ => rfl

theorem bind {m : VMM α} {m' : VMM β} {f : α → VMM α'} {f' : β → VMM β'} (h : Relabels ρ r m m')
    (hf : ∀ a, Relabels ρ r' (f a) (f' (r a))) : Relabels ρ r' (m >>= f) (m' >>= f') := by
  intro vm
  rw [VMM.bind_apply, VMM.bind_apply, h vm]
  cases m vm with
  | done a vm' => exact hf a vm'
  | stopped i vm' => rfl

/-- A routine whose result stays is followed by another one. -/
theorem bind_id {m m' : VMM α} {f : α → VMM α'} {f' : α → VMM β'} (h : Relabels ρ id m m')
    (hf : ∀ a, Relabels ρ r' (f a) (f' a)) : Relabels ρ r' (m >>= f) (m' >>= f') := h.bind hf

theorem stop (i : Interrupt) : Relabels ρ r (stop i) (stop i) := fun _ => rfl

theorem runtimeError (message : String) : Relabels ρ r (runtimeError message) (runtimeError message) :=
  .stop _

theorem undefinedBehaviour : Relabels ρ r undefinedBehaviour undefinedBehaviour := .stop _

theorem get : Relabels ρ (VM.relabel ρ) get get := fun _ => rfl

theorem modify {f f' : VM → VM} (h : ∀ vm, f' (vm.relabel ρ) = (f vm).relabel ρ) :
    Relabels ρ id (modify f) (modify f') := fun vm => congrArg (Outcome.done ()) (h vm)

theorem ite {c : Prop} [Decidable c] {m n : VMM α} {m' n' : VMM β} (h : Relabels ρ r m m')
    (h' : Relabels ρ r n n') : Relabels ρ r (if c then m else n) (if c then m' else n') := by
  split
  · exact h
  · exact h'

theorem ite_congr {c c' : Prop} [Decidable c] [Decidable c'] {m n : VMM α} {m' n' : VMM β}
    (hc : c' ↔ c) (h : Relabels ρ r m m') (h' : Relabels ρ r n n') :
    Relabels ρ r (if c then m else n) (if c' then m' else n') := by
  by_cases hcond : c
  · rw [if_pos hcond, if_pos (hc.mpr hcond)]
    exact h
  · rw [if_neg hcond, if_neg (mt hc.mp hcond)]
    exact h'

end Relabels

namespace VM

variable (vm : VM)

@[simp] theorem stack_relabel (i : Nat) : (vm.relabel ρ).stack i = (vm.stack i).relabel ρ := rfl

@[simp] theorem stackTop_relabel : (vm.relabel ρ).stackTop = vm.stackTop := rfl

@[simp] theorem frames_relabel : (vm.relabel ρ).frames = vm.frames.map (CallFrame.relabel ρ) := rfl

@[simp] theorem openUpvalues_relabel : (vm.relabel ρ).openUpvalues = vm.openUpvalues := rfl

@[simp] theorem heap_relabel : (vm.relabel ρ).heap = vm.heap.relabel ρ := rfl

@[simp] theorem context_relabel : (vm.relabel ρ).context = vm.context.relabel ρ := rfl

@[simp] theorem output_relabel : (vm.relabel ρ).output = vm.output := rfl

theorem setSlot_relabel (i : Nat) (v : Value) :
    (vm.relabel ρ).setSlot i (v.relabel ρ) = (vm.setSlot i v).relabel ρ := by
  have hstack : (fun j => if j = i then v.relabel ρ else (vm.stack j).relabel ρ) =
      fun j => (if j = i then v else vm.stack j).relabel ρ :=
    funext fun j => (apply_ite (Value.relabel ρ) _ _ _).symm
  change VM.mk _ _ _ _ _ _ _ = VM.mk _ _ _ _ _ _ _
  exact congrArg (fun stack => VM.mk stack _ _ _ _ _ _) hstack

/-! ### The evaluation stack -/

section

variable (hP : P.Readdresses ρ P')

include hP

theorem relabels_push (v : Value) : Relabels ρ id (push P v) (push P' (v.relabel ρ)) := by
  refine .bind .get fun vm => ?_
  rw [hP.capacity]
  refine .ite (.stop _) (.modify fun vm' => ?_)
  exact congrArg (fun vm : VM => { vm with stackTop := vm'.stackTop + 1 })
    (setSlot_relabel vm' vm'.stackTop v)

theorem relabels_readSlot (i : Nat) :
    Relabels ρ (Value.relabel ρ) (readSlot P i) (readSlot P' i) := by
  refine .bind .get fun vm => ?_
  rw [hP.capacity]
  exact .ite (.pure _) .undefinedBehaviour

theorem relabels_writeSlot (i : Nat) (v : Value) :
    Relabels ρ id (writeSlot P i v) (writeSlot P' i (v.relabel ρ)) := by
  unfold writeSlot
  rw [hP.capacity]
  exact .ite (.modify fun vm => setSlot_relabel vm i v) .undefinedBehaviour

end

theorem relabels_pop : Relabels ρ (Value.relabel ρ) pop pop :=
  .bind .get fun _ => .ite (.stop _) (.bind (.modify fun _ => rfl) fun _ => .pure _)

theorem relabels_peek (offset : Nat) : Relabels ρ (Value.relabel ρ) (peek offset) (peek offset) :=
  .bind .get fun _ => .ite (.stop _) (.pure _)

/-! ### The current frame -/

theorem relabels_currentFrame : Relabels ρ (CallFrame.relabel ρ) currentFrame currentFrame := by
  refine .bind .get fun vm => ?_
  dsimp only [frames_relabel]
  cases vm.frames with
  | nil => exact .undefinedBehaviour
  | cons frame frames => exact .pure frame

theorem relabels_setIp (ip : Nat) : Relabels ρ id (setIp ip) (setIp ip) := by
  refine .modify fun vm => ?_
  cases vm with
  | mk stack stackTop frames openUpvalues heap context output => cases frames <;> rfl

theorem relabels_readByte : Relabels ρ id readByte readByte := by
  refine .bind relabels_currentFrame fun frame => ?_
  dsimp only [CallFrame.relabel]
  rw [ObjectFunction.code_relabel]
  cases frame.function.code[frame.ip]? with
  | none => exact .undefinedBehaviour
  | some byte => exact .bind (relabels_setIp _) fun _ => .pure byte

theorem relabels_readUint16Le : Relabels ρ id readUint16Le readUint16Le :=
  .bind_id relabels_readByte fun _ => .bind_id relabels_readByte fun _ => .pure _

theorem relabels_constant (index : Nat) :
    Relabels ρ (Value.relabel ρ) (constant index) (constant index) := by
  refine .bind relabels_currentFrame fun frame => ?_
  dsimp only [CallFrame.relabel]
  rw [ObjectFunction.constants_relabel, List.getElem?_map]
  cases frame.function.constants[index]? with
  | none => exact .undefinedBehaviour
  | some c =>
      dsimp only [Option.map]
      rw [Constant.toValue_relabel]
      exact .pure c.toValue

theorem relabels_readConstant : Relabels ρ (Value.relabel ρ) readConstant readConstant :=
  .bind_id relabels_readByte fun _ => relabels_constant _

theorem relabels_readConstantLong :
    Relabels ρ (Value.relabel ρ) readConstantLong readConstantLong :=
  .bind_id relabels_readUint16Le fun _ => relabels_constant _

/-! ### Objects -/

theorem relabels_allocate (object : HeapObject) :
    Relabels ρ id (allocate object) (allocate (object.relabel ρ)) := by
  intro vm
  change Outcome.done (vm.heap.relabel ρ).length
    { vm.relabel ρ with heap := vm.heap.relabel ρ ++ [object.relabel ρ] } = _
  rw [Heap.length_relabel, Heap.append_relabel]
  rfl

theorem relabels_setObject (a : Addr) (object : HeapObject) :
    Relabels ρ id (setObject a object) (setObject a (object.relabel ρ)) :=
  .modify fun vm => congrArg (fun heap => { vm.relabel ρ with heap })
    (Heap.set_relabel vm.heap a object)

theorem relabels_objectAt (a : Addr) :
    Relabels ρ (HeapObject.relabel ρ) (objectAt a) (objectAt a) := by
  refine .bind .get fun vm => ?_
  rw [heap_relabel, Heap.getElem?_relabel]
  cases vm.heap[a]? with
  | none => exact .undefinedBehaviour
  | some object => exact .pure object

end VM

end CppLox
