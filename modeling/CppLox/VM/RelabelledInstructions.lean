import CppLox.VM.Relabelling

/-!
# Virtual machine — instructions under other labels

Every instruction commutes with a relabelling of the machine, when the native functions do.
-/

namespace CppLox

open VMM HashMap

variable {ρ : Relabelling} {P P' : Platform}

namespace VM

/-! ### Objects -/

theorem relabels_objectOf (v : Value) :
    Relabels ρ (Option.map (HeapObject.relabel ρ)) (objectOf v) (objectOf (v.relabel ρ)) := by
  refine .bind .get fun vm => ?_
  rw [heap_relabel, Value.heapObject_relabel]
  exact .pure _

theorem relabels_stringOf (v : Value) : Relabels ρ id (stringOf v) (stringOf (v.relabel ρ)) := by
  cases v with
  | object o => cases o with
    | string s => exact .pure s
    | _ => exact .undefinedBehaviour
  | _ => exact .undefinedBehaviour

theorem relabels_classOf (v : Value) :
    Relabels ρ (Prod.map id (StringTable.relabel ρ)) (classOf v) (classOf (v.relabel ρ)) := by
  refine .bind (relabels_objectOf v) fun object => ?_
  cases object with
  | none => exact .undefinedBehaviour
  | some object => cases object with
    | «class» name initMethod methods => exact .pure (name, methods)
    | _ => exact .undefinedBehaviour

theorem relabels_classAt (a : Addr) :
    Relabels ρ (Prod.map id (StringTable.relabel ρ)) (classAt a) (classAt a) :=
  relabels_classOf (.ofAddr a)

theorem relabels_closureOf (v : Value) :
    Relabels ρ (Prod.map id (ObjectFunction.relabel ρ)) (closureOf v) (closureOf (v.relabel ρ)) := by
  cases v with
  | object o => cases o with
    | heap a =>
        refine .bind (relabels_objectAt a) fun object => ?_
        cases object with
        | closure function upvalues => exact .pure (a, function)
        | _ => exact .undefinedBehaviour
    | _ => exact .undefinedBehaviour
  | _ => exact .undefinedBehaviour

theorem relabels_calleeSlot (argCount : Nat) :
    Relabels ρ id (calleeSlot argCount) (calleeSlot argCount) :=
  .bind .get fun _ => .ite .undefinedBehaviour (.pure _)

/-! ### Upvalues -/

theorem relabels_locationAt (a : Addr) :
    Relabels ρ (Location.relabel ρ) (locationAt a) (locationAt a) := by
  refine .bind (relabels_objectAt a) fun object => ?_
  cases object with
  | upvalue location => exact .pure location
  | _ => exact .undefinedBehaviour

theorem relabels_closeUpvaluesFrom (hP : P.Readdresses ρ P') (lastValue : Nat) (list : List Addr) :
    Relabels ρ id (closeUpvaluesFrom P lastValue list) (closeUpvaluesFrom P' lastValue list) := by
  induction list with
  | nil => exact .modify fun _ => rfl
  | cons a rest ih =>
      refine .bind (relabels_locationAt a) fun location => ?_
      cases location with
      | slot n =>
          refine .ite ?_ (.modify fun _ => rfl)
          exact .bind (relabels_readSlot hP n) fun v =>
            .bind (relabels_setObject a (.upvalue (.closed v))) fun _ => ih
      | closed v => exact .undefinedBehaviour

theorem relabels_closeUpvalues (hP : P.Readdresses ρ P') (lastValue : Nat) :
    Relabels ρ id (closeUpvalues P lastValue) (closeUpvalues P' lastValue) :=
  .bind .get fun vm => relabels_closeUpvaluesFrom hP lastValue vm.openUpvalues

theorem relabels_captureFrom (slot : Nat) (list : List Addr) :
    Relabels ρ id (captureFrom slot list) (captureFrom slot list) := by
  have hnew : Relabels ρ id (allocate (.upvalue (.slot slot))) (allocate (.upvalue (.slot slot))) :=
    relabels_allocate (.upvalue (.slot slot))
  induction list with
  | nil => exact .bind_id hnew fun _ => .pure _
  | cons current rest ih =>
      refine .bind (relabels_locationAt current) fun location => ?_
      cases location with
      | slot n =>
          refine .ite (.bind_id ih fun _ => .pure _) (.ite (.pure _) ?_)
          exact .bind_id hnew fun _ => .pure _
      | closed v => exact .undefinedBehaviour

theorem relabels_captureUpvalue (slot : Nat) :
    Relabels ρ id (captureUpvalue slot) (captureUpvalue slot) :=
  .bind .get fun vm => .bind_id (relabels_captureFrom slot vm.openUpvalues) fun _ =>
    .bind (.modify fun _ => rfl) fun _ => .pure _

theorem relabels_upvalueOf (index : Nat) : Relabels ρ id (upvalueOf index) (upvalueOf index) := by
  refine .bind relabels_currentFrame fun frame => .bind (relabels_objectAt frame.closure) fun object => ?_
  cases object with
  | closure function upvalues =>
      dsimp only [HeapObject.relabel]
      cases upvalues[index]? with
      | none => exact .undefinedBehaviour
      | some upvalue => cases upvalue with
        | none => exact .undefinedBehaviour
        | some a => exact .pure a
  | _ => exact .undefinedBehaviour

/-! ### Calls -/

theorem relabels_call (closure : Addr × ObjectFunction) (argCount : Nat) :
    Relabels ρ id (call closure argCount)
      (call (Prod.map id (ObjectFunction.relabel ρ) closure) argCount) := by
  obtain ⟨a, function⟩ := closure
  unfold call
  dsimp only [Prod.map, id]
  rw [ObjectFunction.arity_relabel, ObjectFunction.name_relabel]
  refine .ite (.runtimeError _) (.bind .get fun vm => ?_)
  rw [frames_relabel, List.length_map]
  exact .ite (.runtimeError _) (.bind_id (relabels_calleeSlot argCount) fun slots =>
    .modify fun _ => rfl)

theorem relabels_callClosure (v : Value) (argCount : Nat) :
    Relabels ρ id (closureOf v >>= fun closure => call closure argCount)
      (closureOf (v.relabel ρ) >>= fun closure => call closure argCount) :=
  .bind (relabels_closureOf v) fun closure => relabels_call closure argCount

theorem relabels_callClass (hP : P.Readdresses ρ P') (a : Addr) (name : Bytes) (initMethod : Value)
    (argCount : Nat) : Relabels ρ id (callClass P a name initMethod argCount)
      (callClass P' a name (initMethod.relabel ρ) argCount) := by
  refine .bind_id (relabels_allocate (.instance a [])) fun inst =>
    .bind_id (relabels_calleeSlot argCount) fun slot =>
    .bind (relabels_writeSlot hP slot (.ofAddr inst)) fun _ => ?_
  cases initMethod with
  | nil b => exact .ite (.runtimeError _) (.pure _)
  | _ => exact relabels_callClosure _ argCount

end VM

/-! ### Native functions -/

def NativeResult.relabel (ρ : Relabelling) : NativeResult → NativeResult
  | .value v heap printed => .value (v.relabel ρ) (heap.relabel ρ) printed
  | .failed heap interrupt => .failed (heap.relabel ρ) interrupt

/-- A native function on the heap under other labels. -/
structure Native.Relabels (ρ : Relabelling) (native native' : Native) : Prop where
  name : native'.name = native.name
  arity : native'.arity = native.arity
  function : ∀ (heap : Heap) argCount values,
    native'.function (heap.relabel ρ) argCount (fun i => (values i).relabel ρ) =
      (native.function heap argCount values).relabel ρ

/-- A platform, with its native functions, for the machine under other labels. -/
structure Platform.Relabels (ρ : Relabelling) (P P' : Platform) : Prop
    extends P.Readdresses ρ P' where
  natives : List.Forall₂ (Native.Relabels ρ) P.natives P'.natives

namespace VM

theorem relabels_callNative (hP : P.Readdresses ρ P') {native native' : Native}
    (h : native.Relabels ρ native') (argCount : Nat) :
    Relabels ρ id (callNative P native argCount) (callNative P' native' argCount) := by
  unfold callNative
  rw [h.arity]
  refine .ite (.runtimeError _) (.bind_id (relabels_calleeSlot argCount) fun slot =>
    .bind .get fun vm => ?_)
  dsimp only [heap_relabel, stack_relabel]
  rw [h.function vm.heap argCount fun i => vm.stack (slot + i)]
  cases native.function vm.heap argCount fun i => vm.stack (slot + i) with
  | value v heap printed => exact .bind (.modify fun _ => rfl) fun _ => relabels_push hP v
  | failed heap interrupt => exact .bind (.modify fun _ => rfl) fun _ => .stop interrupt

/-- The native function with an index. -/
theorem relabels_native (hP : P.Relabels ρ P') (i argCount : Nat) :
    Relabels ρ id (callValue P (.object (.native i)) argCount)
      (callValue P' (.object (.native i)) argCount) := by
  unfold callValue
  have hnatives := hP.natives
  generalize P.natives = natives at hnatives
  generalize P'.natives = natives' at hnatives
  dsimp only
  induction hnatives generalizing i with
  | nil => exact .undefinedBehaviour
  | cons hnative _ ih => cases i with
    | zero => exact relabels_callNative hP.toReaddresses hnative argCount
    | succ i => exact ih i

theorem relabels_callValue (hP : P.Relabels ρ P') (callee : Value) (argCount : Nat) :
    Relabels ρ id (callValue P callee argCount) (callValue P' (callee.relabel ρ) argCount) := by
  cases callee with
  | object o => cases o with
    | heap a =>
        refine .bind (relabels_objectAt a) fun object => ?_
        cases object with
        | closure function upvalues => exact relabels_call (a, function) argCount
        | boundMethod receiver method =>
            exact .bind_id (relabels_calleeSlot argCount) fun slot =>
              .bind (relabels_writeSlot hP.toReaddresses slot receiver) fun _ =>
              relabels_callClosure (.ofAddr method) argCount
        | «class» name initMethod methods =>
            exact relabels_callClass hP.toReaddresses a name initMethod argCount
        | _ => exact .runtimeError _
    | native i => exact relabels_native hP i argCount
    | function f => exact .stop _
    | string s => exact .runtimeError _
  | _ => exact .runtimeError _

theorem relabels_invokeFromClass (klass : Bytes × StringTable) (name : Bytes) (argCount : Nat) :
    Relabels ρ id (invokeFromClass klass name argCount)
      (invokeFromClass (Prod.map id (StringTable.relabel ρ) klass) name argCount) := by
  unfold invokeFromClass
  dsimp only [Prod.map, id]
  rw [StringTable.lookup_relabel]
  cases klass.2.lookup name with
  | none => exact .runtimeError _
  | some method => exact relabels_callClosure method argCount

theorem relabels_invoke (hP : P.Relabels ρ P') (name : Bytes) (argCount : Nat) :
    Relabels ρ id (invoke P name argCount) (invoke P' name argCount) := by
  refine .bind (relabels_peek argCount) fun receiver => .bind (relabels_objectOf receiver) fun object => ?_
  cases object with
  | none => exact .runtimeError _
  | some object => cases object with
    | «instance» klass fields =>
        dsimp only [Option.map, HeapObject.relabel]
        rw [StringTable.lookup_relabel]
        cases fields.lookup name with
        | none =>
            exact .bind (relabels_classAt klass) fun found => relabels_invokeFromClass found name argCount
        | some v =>
            exact .bind_id (relabels_calleeSlot argCount) fun slot =>
              .bind (relabels_writeSlot hP.toReaddresses slot v) fun _ => relabels_callValue hP v argCount
    | _ => exact .runtimeError _

/-! ### Instructions on the stack -/

section

variable (hP : P.Readdresses ρ P')

include hP

theorem relabels_binaryOp (symbol : String) {integers : Int64 → Int64 → Value}
    {reals : Float → Float → Value} (hintegers : ∀ a b, (integers a b).relabel ρ = integers a b)
    (hreals : ∀ a b, (reals a b).relabel ρ = reals a b) :
    Relabels ρ id (binaryOp P symbol integers reals) (binaryOp P' symbol integers reals) := by
  refine .bind (relabels_peek 0) fun v => ?_
  rw [Value.isNumber_relabel]
  refine .ite (.runtimeError _) (.bind (relabels_peek 1) fun w => ?_)
  rw [Value.isNumber_relabel]
  refine .ite (.runtimeError _) (.bind relabels_pop fun b => .bind relabels_pop fun a => ?_)
  have hpush : Relabels ρ id (push P (reals a.coerceReal b.coerceReal))
      (push P' (reals (a.relabel ρ).coerceReal (b.relabel ρ).coerceReal)) := by
    rw [Value.coerceReal_relabel, Value.coerceReal_relabel]
    have := relabels_push hP (reals a.coerceReal b.coerceReal)
    rwa [hreals] at this
  cases a with
  | integer i => cases b with
    | integer j =>
        have := relabels_push hP (integers i j)
        rwa [hintegers] at this
    | _ => exact hpush
  | _ => exact hpush

theorem relabels_addNumbers : Relabels ρ id (addNumbers P) (addNumbers P') :=
  relabels_binaryOp hP _ (fun _ _ => rfl) fun _ _ => rfl

theorem relabels_addLists (a b : List Value) : Relabels ρ id (addLists P a b)
    (addLists P' (a.map (Value.relabel ρ)) (b.map (Value.relabel ρ))) := by
  unfold addLists
  rw [← List.map_append]
  exact .bind_id (relabels_allocate (.list (a ++ b))) fun list => .bind relabels_pop fun _ =>
    .bind relabels_pop fun _ => relabels_push hP (.ofAddr list)

theorem relabels_addStrings (a b : Bytes) : Relabels ρ id (addStrings P a b) (addStrings P' a b) :=
  .bind relabels_pop fun _ => .bind relabels_pop fun _ => relabels_push hP (.ofString (a ++ b))

theorem relabels_executeAdd : Relabels ρ id (executeAdd P) (executeAdd P') := by
  have hnumbers := relabels_addNumbers hP
  refine .bind (relabels_peek 0) fun b => .bind (relabels_objectOf b) fun object => ?_
  cases object with
  | none => cases b with
    | object o => cases o with
      | string bs =>
          refine .bind (relabels_peek 1) fun a => ?_
          rcases a with _ | _ | _ | _ | (as | _ | _ | _)
          case object.string => exact relabels_addStrings hP as bs
          all_goals exact hnumbers
      | _ => exact hnumbers
    | _ => exact hnumbers
  | some object => cases object with
    | list bs =>
        refine .bind (relabels_peek 1) fun a => .bind (relabels_objectOf a) fun object => ?_
        cases object with
        | none => exact hnumbers
        | some object => cases object with
          | list as => exact relabels_addLists hP as bs
          | _ => exact hnumbers
    | _ => cases b with
      | object o => cases o with
        | string bs =>
            refine .bind (relabels_peek 1) fun a => ?_
            rcases a with _ | _ | _ | _ | (as | _ | _ | _)
            case object.string => exact relabels_addStrings hP as bs
            all_goals exact hnumbers
        | _ => exact hnumbers
      | _ => exact hnumbers

theorem relabels_executeSubtract : Relabels ρ id (executeSubtract P) (executeSubtract P') :=
  relabels_binaryOp hP _ (fun _ _ => rfl) fun _ _ => rfl

theorem relabels_executeMultiply : Relabels ρ id (executeMultiply P) (executeMultiply P') :=
  relabels_binaryOp hP _ (fun _ _ => rfl) fun _ _ => rfl

theorem relabels_executeDivide : Relabels ρ id (executeDivide P) (executeDivide P') :=
  relabels_binaryOp hP _ (fun _ _ => rfl) fun _ _ => rfl

theorem relabels_executeGreater : Relabels ρ id (executeGreater P) (executeGreater P') :=
  relabels_binaryOp hP _ (fun _ _ => rfl) fun _ _ => rfl

theorem relabels_executeLess : Relabels ρ id (executeLess P) (executeLess P') :=
  relabels_binaryOp hP _ (fun _ _ => rfl) fun _ _ => rfl

theorem relabels_executeNot : Relabels ρ id (executeNot P) (executeNot P') := by
  refine .bind relabels_pop fun v => ?_
  rw [Value.isFalsey_relabel]
  exact relabels_push hP (.boolean v.isFalsey)

theorem relabels_executeEqual : Relabels ρ id (executeEqual P) (executeEqual P') := by
  refine .bind relabels_pop fun b => .bind relabels_pop fun a => ?_
  simp only [Value.isNumber_relabel, Value.isReal_relabel, Value.coerceReal_relabel]
  refine .ite (relabels_push hP (.boolean (a.coerceReal == b.coerceReal))) (.bind .get fun vm => ?_)
  rw [heap_relabel, Heap.length_relabel, Value.equals_relabel]
  cases a.equals vm.heap vm.heap.length b with
  | none => exact .undefinedBehaviour
  | some same => exact relabels_push hP (.boolean same)

theorem relabels_toText (v : Value) : Relabels ρ id (toText P v) (toText P' (v.relabel ρ)) := by
  refine .bind .get fun vm => ?_
  rw [heap_relabel, Heap.length_relabel, Value.toString_relabel _ _ hP]
  cases v.toString P vm.heap (vm.heap.length + 1) with
  | none => exact .stop _
  | some text => exact .pure text

theorem relabels_executePrint : Relabels ρ id (executePrint P) (executePrint P') :=
  .bind relabels_pop fun v => .bind_id (relabels_toText hP v) fun _ => .modify fun _ => rfl

theorem relabels_executeDupTop : Relabels ρ id (executeDupTop P) (executeDupTop P') :=
  .bind (relabels_peek 0) fun v => relabels_push hP v

end

theorem relabels_executeNegate : Relabels ρ id executeNegate executeNegate := by
  refine .bind (relabels_peek 0) fun v => ?_
  cases v with
  | real bits => exact .modify fun vm => setSlot_relabel vm _ (realValue (-Float.ofBits bits))
  | integer i => exact .modify fun vm => setSlot_relabel vm _ (.integer (-i))
  | _ => exact .runtimeError _

theorem relabels_executePopTop : Relabels ρ id executePopTop executePopTop :=
  .bind relabels_pop fun _ => .pure _

/-! ### Jumps -/

theorem relabels_jumpForward (offset : Nat) : Relabels ρ id (jumpForward offset) (jumpForward offset) :=
  .bind relabels_currentFrame fun _ => relabels_setIp _

theorem relabels_jumpBackward (offset : Nat) :
    Relabels ρ id (jumpBackward offset) (jumpBackward offset) :=
  .bind relabels_currentFrame fun _ => .ite .undefinedBehaviour (relabels_setIp _)

theorem relabels_jumpIf (condition : Bool) (offset : Nat) :
    Relabels ρ id (jumpIf condition offset) (jumpIf condition offset) :=
  .ite (relabels_jumpForward offset) (.pure _)

theorem relabels_executeJumpIfFalse : Relabels ρ id executeJumpIfFalse executeJumpIfFalse := by
  refine .bind_id relabels_readUint16Le fun offset => .bind (relabels_peek 0) fun v => ?_
  rw [Value.isFalsey_relabel]
  exact relabels_jumpIf v.isFalsey offset

theorem relabels_executeJumpIfTrue : Relabels ρ id executeJumpIfTrue executeJumpIfTrue := by
  refine .bind_id relabels_readUint16Le fun offset => .bind (relabels_peek 0) fun v => ?_
  rw [Value.isFalsey_relabel]
  exact relabels_jumpIf (!v.isFalsey) offset

theorem relabels_executePopJumpIfFalse : Relabels ρ id executePopJumpIfFalse executePopJumpIfFalse := by
  refine .bind_id relabels_readUint16Le fun offset => .bind relabels_pop fun v => ?_
  rw [Value.isFalsey_relabel]
  exact relabels_jumpIf v.isFalsey offset

/-! ### Variables -/

theorem relabels_modifyGlobal {index : Nat} {f f' : GlobalValue → GlobalValue}
    (h : ∀ g, f' (g.relabel ρ) = (f g).relabel ρ) :
    Relabels ρ id (modifyGlobal index f) (modifyGlobal index f') :=
  .modify fun vm => congrArg (fun context => { vm.relabel ρ with context })
    (Context.modify_relabel vm.context h)

/-- The flags of a global are the ones before. -/
theorem global_relabel (vm : VM) (index : Nat) : (vm.relabel ρ).context.getInternalValue index =
    (vm.context.getInternalValue index).relabel ρ := Context.getInternalValue_relabel _ index

theorem exists_relabel (vm : VM) (index : Nat) :
    (vm.relabel ρ).context.exists index = vm.context.exists index := Context.exists_relabel _ index

theorem relabels_defineGlobal (index : Nat) :
    Relabels ρ id (defineGlobal index) (defineGlobal index) := by
  refine .bind .get fun vm => .ite_congr (by rw [exists_relabel]) .undefinedBehaviour ?_
  refine .ite_congr (by rw [global_relabel]; rfl) (.runtimeError _) ?_
  refine .bind (relabels_modifyGlobal fun _ => rfl) fun _ => .bind (relabels_peek 0) fun v =>
    .bind (relabels_modifyGlobal fun g => ?_) fun _ => .bind relabels_pop fun _ => .pure _
  rw [Value.isUninitialized_relabel]
  rfl

theorem relabels_undefinedGlobal (index : Nat) :
    Relabels ρ id (undefinedGlobal index) (undefinedGlobal index) :=
  .bind .get fun vm => .ite_congr (by rw [exists_relabel]) .undefinedBehaviour (.runtimeError _)

theorem relabels_storeGlobal (index : Nat) :
    Relabels ρ id (storeGlobal index) (storeGlobal index) := by
  refine .bind .get fun vm => .ite_congr (by rw [exists_relabel, global_relabel]; rfl)
    (relabels_undefinedGlobal index) (.ite_congr (by rw [global_relabel]; rfl) (.runtimeError _) ?_)
  exact .bind (relabels_peek 0) fun v => relabels_modifyGlobal fun _ => rfl

theorem relabels_loadGlobal (hP : P.Readdresses ρ P') (index : Nat) :
    Relabels ρ id (loadGlobal P index) (loadGlobal P' index) := by
  refine .bind .get fun vm => .ite_congr (by rw [exists_relabel, global_relabel]; rfl)
    (relabels_undefinedGlobal index) (.ite_congr (by rw [global_relabel]; rfl) (.runtimeError _) ?_)
  rw [global_relabel]
  exact relabels_push hP (vm.context.getInternalValue index).value

theorem relabels_loadLocal (hP : P.Readdresses ρ P') (slot : Nat) :
    Relabels ρ id (loadLocal P slot) (loadLocal P' slot) := by
  refine .bind .get fun vm => .ite (.runtimeError _) (.bind relabels_currentFrame fun frame =>
    .bind (relabels_readSlot hP _) fun v => ?_)
  rw [Value.isUninitialized_relabel]
  exact .ite (.runtimeError _) (relabels_push hP v)

theorem relabels_storeLocal (hP : P.Readdresses ρ P') (slot : Nat) :
    Relabels ρ id (storeLocal P slot) (storeLocal P' slot) :=
  .bind relabels_currentFrame fun _ => .bind (relabels_peek 0) fun v => relabels_writeSlot hP _ v

theorem relabels_loadUpvalue (hP : P.Readdresses ρ P') (index : Nat) :
    Relabels ρ id (loadUpvalue P index) (loadUpvalue P' index) := by
  refine .bind_id (relabels_upvalueOf index) fun a => .bind (relabels_locationAt a) fun location => ?_
  cases location with
  | slot n => exact .bind (relabels_readSlot hP n) fun v => relabels_push hP v
  | closed v => exact relabels_push hP v

theorem relabels_storeUpvalue (hP : P.Readdresses ρ P') (index : Nat) :
    Relabels ρ id (storeUpvalue P index) (storeUpvalue P' index) := by
  refine .bind_id (relabels_upvalueOf index) fun a => .bind (relabels_peek 0) fun v =>
    .bind (relabels_locationAt a) fun location => ?_
  cases location with
  | slot n => exact relabels_writeSlot hP n v
  | closed w => exact relabels_setObject a (.upvalue (.closed v))

theorem relabels_executeCloseUpvalue (hP : P.Readdresses ρ P') :
    Relabels ρ id (executeCloseUpvalue P) (executeCloseUpvalue P') :=
  .bind .get fun _ => .ite .undefinedBehaviour (.bind (relabels_closeUpvalues hP _) fun _ =>
    .bind relabels_pop fun _ => .pure _)

/-! ### Functions -/

theorem relabels_captureOne (isLocal : Bool) (index : Nat) :
    Relabels ρ id (captureOne isLocal index) (captureOne isLocal index) :=
  .bind relabels_currentFrame fun _ => .ite (relabels_captureUpvalue _) (relabels_upvalueOf index)

theorem relabels_captureAll (closure : Addr) (n i : Nat) :
    Relabels ρ id (captureAll closure n i) (captureAll closure n i) := by
  induction n generalizing i with
  | zero => exact .pure _
  | succ n ih =>
      refine .bind_id relabels_readByte fun isLocal => .bind_id relabels_readUint16Le fun index =>
        .bind_id (relabels_captureOne _ index) fun a => .bind (relabels_objectAt closure) fun object => ?_
      cases object with
      | closure function upvalues =>
          exact .bind (relabels_setObject closure (.closure function (upvalues.set i (some a))))
            fun _ => ih (i + 1)
      | _ => exact .undefinedBehaviour

theorem relabels_newClosure (function : ObjectFunction) :
    Relabels ρ id (newClosure function) (newClosure (function.relabel ρ)) := by
  unfold newClosure
  rw [ObjectFunction.upvalueCount_relabel]
  exact relabels_allocate (.closure function _)

theorem relabels_makeClosure (hP : P.Readdresses ρ P') (v : Value) :
    Relabels ρ id (makeClosure P v) (makeClosure P' (v.relabel ρ)) := by
  cases v with
  | object o => cases o with
    | function f =>
        refine .bind_id (relabels_newClosure f) fun closure =>
          .bind (relabels_push hP (.ofAddr closure)) fun _ => ?_
        rw [ObjectFunction.upvalueCount_relabel]
        exact relabels_captureAll closure f.upvalueCount 0
    | _ => exact .undefinedBehaviour
  | _ => exact .undefinedBehaviour

theorem relabels_executeCall (hP : P.Relabels ρ P') :
    Relabels ρ id (executeCall P) (executeCall P') :=
  .bind_id relabels_readByte fun _ => .bind (relabels_peek _) fun callee =>
    relabels_callValue hP callee _

theorem relabels_name {α : Type} {f f' : Bytes → VMM α} (h : ∀ name, Relabels ρ id (f name) (f' name)) :
    Relabels ρ id (readConstantLong >>= fun v => stringOf v >>= f)
      (readConstantLong >>= fun v => stringOf v >>= f') :=
  .bind relabels_readConstantLong fun v => .bind_id (relabels_stringOf v) h

theorem relabels_executeInvoke (hP : P.Relabels ρ P') :
    Relabels ρ id (executeInvoke P) (executeInvoke P') :=
  relabels_name fun name => .bind_id relabels_readByte fun _ => relabels_invoke hP name _

theorem relabels_executeSuperInvoke : Relabels ρ id executeSuperInvoke executeSuperInvoke :=
  relabels_name fun name => .bind_id relabels_readByte fun _ => .bind relabels_pop fun v =>
    .bind (relabels_classOf v) fun superclass => relabels_invokeFromClass superclass name _

theorem relabels_executeReturn (hP : P.Readdresses ρ P') :
    Relabels ρ id (executeReturn P) (executeReturn P') := by
  refine .bind relabels_pop fun result => .bind relabels_currentFrame fun frame =>
    .bind (relabels_closeUpvalues hP frame.slots) fun _ => .bind (.modify fun vm => ?_) fun _ =>
    .bind .get fun vm => ?_
  · exact congrArg (fun frames => { vm.relabel ρ with frames }) List.map_tail.symm
  · rw [frames_relabel, List.isEmpty_map]
    refine .ite (.bind relabels_pop fun _ => .pure true) ?_
    exact .bind (.modify fun _ => rfl) fun _ => .bind (relabels_push hP result) fun _ => .pure false

/-! ### Classes -/

theorem relabels_makeClass (hP : P.Readdresses ρ P') (v : Value) :
    Relabels ρ id (makeClass P v) (makeClass P' (v.relabel ρ)) := by
  cases v with
  | object o => cases o with
    | string name =>
        exact .bind (relabels_push hP (.ofString name)) fun _ =>
          .bind_id (relabels_allocate (.class name (.nil false) [])) fun klass =>
          .bind relabels_pop fun _ => relabels_push hP (.ofAddr klass)
    | _ => exact .stop _
  | _ => exact .stop _

theorem relabels_bindMethod (hP : P.Readdresses ρ P') (method : Value) :
    Relabels ρ id (bindMethod P method) (bindMethod P' (method.relabel ρ)) :=
  .bind (relabels_peek 0) fun receiver => .bind (relabels_closureOf method) fun closure =>
    .bind_id (relabels_allocate (.boundMethod receiver closure.1)) fun bound =>
    .bind relabels_pop fun _ => relabels_push hP (.ofAddr bound)

theorem relabels_loadProperty (hP : P.Readdresses ρ P') (klass : Addr) (fields : StringTable)
    (property : Bytes) : Relabels ρ id (loadProperty P klass fields property)
      (loadProperty P' klass (StringTable.relabel ρ fields) property) := by
  unfold loadProperty
  rw [StringTable.lookup_relabel]
  cases fields.lookup property with
  | some v => exact .bind relabels_pop fun _ => relabels_push hP v
  | none =>
      refine .bind (relabels_classAt klass) fun found => ?_
      dsimp only [Prod.map, id]
      rw [StringTable.lookup_relabel]
      cases found.2.lookup property with
      | none => exact .runtimeError _
      | some method => exact relabels_bindMethod hP method

theorem relabels_executeLoadProperty (hP : P.Readdresses ρ P') :
    Relabels ρ id (executeLoadProperty P) (executeLoadProperty P') := by
  refine .bind (relabels_peek 0) fun v => .bind (relabels_objectOf v) fun object => ?_
  cases object with
  | none => exact .runtimeError _
  | some object => cases object with
    | «instance» klass fields =>
        exact relabels_name fun property => relabels_loadProperty hP klass fields property
    | _ => exact .runtimeError _

theorem relabels_replaceByNil (hP : P.Readdresses ρ P') :
    Relabels ρ id (replaceByNil P) (replaceByNil P') :=
  .bind relabels_pop fun _ => relabels_push hP (.nil false)

theorem relabels_loadPropertySafe (hP : P.Readdresses ρ P') (klass : Addr) (fields : StringTable)
    (property : Bytes) : Relabels ρ id (loadPropertySafe P klass fields property)
      (loadPropertySafe P' klass (StringTable.relabel ρ fields) property) := by
  unfold loadPropertySafe
  rw [StringTable.lookup_relabel]
  cases fields.lookup property with
  | some v => exact .bind relabels_pop fun _ => relabels_push hP v
  | none =>
      refine .bind (relabels_classAt klass) fun found => ?_
      dsimp only [Prod.map, id]
      rw [StringTable.lookup_relabel]
      cases found.2.lookup property with
      | none => exact relabels_replaceByNil hP
      | some method => exact relabels_bindMethod hP method

theorem relabels_executeLoadPropertySafe (hP : P.Readdresses ρ P') :
    Relabels ρ id (executeLoadPropertySafe P) (executeLoadPropertySafe P') := by
  have hnil : Relabels ρ id (readConstantLong >>= fun _ => replaceByNil P)
      (readConstantLong >>= fun _ => replaceByNil P') :=
    .bind relabels_readConstantLong fun _ => relabels_replaceByNil hP
  refine .bind (relabels_peek 0) fun v => .bind (relabels_objectOf v) fun object => ?_
  cases object with
  | none => exact hnil
  | some object => cases object with
    | «instance» klass fields =>
        exact relabels_name fun property => relabels_loadPropertySafe hP klass fields property
    | _ => exact hnil

theorem relabels_storeProperty (hP : P.Readdresses ρ P') (a klass : Addr) (fields : StringTable)
    (property : Bytes) : Relabels ρ id (storeProperty P a klass fields property)
      (storeProperty P' a klass (StringTable.relabel ρ fields) property) := by
  refine .bind (relabels_peek 0) fun v => ?_
  rw [StringTable.tableInsert_relabel]
  exact .bind (relabels_setObject a (.instance klass (tableInsert fields property v))) fun _ =>
    .bind relabels_pop fun top => .bind relabels_pop fun _ => relabels_push hP top

/-- The error of `STORE_PROPERTY` on a value that is no instance. -/
theorem relabels_noInstance (v : Value) :
    Relabels ρ id
      (if isObject v then runtimeError "Runtime Error: Can only set properties on instances"
        else runtimeError "Runtime Error: Can only set properties on objects" : VMM Unit)
      (if isObject (v.relabel ρ) then runtimeError "Runtime Error: Can only set properties on instances"
        else runtimeError "Runtime Error: Can only set properties on objects" : VMM Unit) := by
  refine .ite_congr ?_ (.runtimeError _) (.runtimeError _)
  cases v <;> rfl

theorem relabels_executeStoreProperty (hP : P.Readdresses ρ P') :
    Relabels ρ id (executeStoreProperty P) (executeStoreProperty P') := by
  refine .bind (relabels_peek 1) fun target => .bind (relabels_objectOf target) fun object => ?_
  have herror := relabels_noInstance (ρ := ρ) target
  cases object with
  | none => exact herror
  | some object => cases object with
    | «instance» klass fields => cases target with
      | object o => cases o with
        | heap a => exact relabels_name fun property => relabels_storeProperty hP a klass fields property
        | _ => exact herror
      | _ => exact herror
    | _ => exact herror

theorem relabels_addMethod (v : Value) : Relabels ρ id (addMethod v) (addMethod (v.relabel ρ)) := by
  cases v with
  | object o => cases o with
    | string name =>
        refine .bind (relabels_peek 0) fun method => .bind (relabels_peek 1) fun klass =>
          .bind (relabels_objectOf klass) fun object => ?_
        cases object with
        | none => exact .undefinedBehaviour
        | some object => cases object with
          | «class» className initMethod methods => cases klass with
            | object o => cases o with
              | heap a =>
                  dsimp only [Option.map, HeapObject.relabel, Value.relabel_heap]
                  rw [StringTable.tableInsert_relabel, ← apply_ite (Value.relabel ρ)]
                  exact .bind (relabels_setObject a (.class className
                    (if name = initName then method else initMethod) (tableInsert methods name method)))
                    fun _ => .bind relabels_pop fun _ => .pure _
              | _ => exact .undefinedBehaviour
            | _ => exact .undefinedBehaviour
          | _ => exact .undefinedBehaviour
    | _ => exact .stop _
  | _ => exact .stop _

theorem relabels_executeMethod : Relabels ρ id executeMethod executeMethod :=
  .bind relabels_readConstantLong relabels_addMethod

theorem relabels_executeInherit : Relabels ρ id executeInherit executeInherit := by
  refine .bind (relabels_peek 1) fun superclass => .bind (relabels_objectOf superclass) fun object => ?_
  cases object with
  | none => exact .runtimeError _
  | some object => cases object with
    | «class» superName superInit inherited =>
        refine .bind (relabels_peek 0) fun subclass => .bind (relabels_objectOf subclass) fun object => ?_
        cases object with
        | none => exact .undefinedBehaviour
        | some object => cases object with
          | «class» name initMethod methods => cases subclass with
            | object o => cases o with
              | heap a =>
                  dsimp only [Option.map, HeapObject.relabel, Value.relabel_heap]
                  rw [StringTable.tableInsertAll_relabel]
                  exact .bind (relabels_setObject a (.class name initMethod
                    (tableInsertAll methods inherited))) fun _ => .bind relabels_pop fun _ => .pure _
              | _ => exact .undefinedBehaviour
            | _ => exact .undefinedBehaviour
          | _ => exact .undefinedBehaviour
    | _ => exact .runtimeError _

theorem relabels_instanceClassName (v : Value) :
    Relabels ρ id (instanceClassName v) (instanceClassName (v.relabel ρ)) := by
  refine .bind (relabels_objectOf v) fun object => ?_
  cases object with
  | none => exact .undefinedBehaviour
  | some object => cases object with
    | «instance» klass fields => exact .bind (relabels_classAt klass) fun _ => .pure _
    | _ => exact .undefinedBehaviour

theorem relabels_loadSuper (hP : P.Readdresses ρ P') (name : Bytes) :
    Relabels ρ id (loadSuper P name) (loadSuper P' name) := by
  refine .bind relabels_pop fun v => .bind (relabels_classOf v) fun found =>
    .bind (relabels_peek 0) fun receiver => ?_
  dsimp only [Prod.map, id]
  rw [StringTable.lookup_relabel]
  cases found.2.lookup name with
  | none => exact .bind_id (relabels_instanceClassName receiver) fun _ => .runtimeError _
  | some method => exact relabels_bindMethod hP method

theorem relabels_executeLoadSuper (hP : P.Readdresses ρ P') :
    Relabels ρ id (executeLoadSuper P) (executeLoadSuper P') :=
  relabels_name fun name => relabels_loadSuper hP name

/-! ### Lists and maps -/

theorem relabels_popList (n : Nat) (values : List Value) :
    Relabels ρ (List.map (Value.relabel ρ)) (popList n values)
      (popList n (values.map (Value.relabel ρ))) := by
  induction n generalizing values with
  | zero => exact .pure values
  | succ n ih => exact .bind (relabels_peek 0) fun v => .bind relabels_pop fun _ => ih (v :: values)

theorem relabels_buildList (hP : P.Readdresses ρ P') (length : Nat) :
    Relabels ρ id (buildList P length) (buildList P' length) :=
  .bind (relabels_popList length []) fun values => .bind_id (relabels_allocate (.list values))
    fun list => relabels_push hP (.ofAddr list)

theorem relabels_executeListAppend : Relabels ρ id executeListAppend executeListAppend := by
  refine .bind (relabels_peek 1) fun target => .bind (relabels_objectOf target) fun object => ?_
  cases object with
  | none => exact .undefinedBehaviour
  | some object => cases object with
    | list values => cases target with
      | object o => cases o with
        | heap a =>
            refine .bind (relabels_peek 0) fun v => ?_
            have hset := relabels_setObject (ρ := ρ) a (.list (values ++ [v]))
            rw [HeapObject.relabel, List.map_append] at hset
            exact .bind hset fun _ => .bind relabels_pop fun _ => .pure _
        | _ => exact .undefinedBehaviour
      | _ => exact .undefinedBehaviour
    | _ => exact .undefinedBehaviour

section

variable (hP : P.Readdresses ρ P')

include hP

theorem relabels_mapSet (table : HashMap Value Value) (key v : Value) :
    Relabels ρ (Prod.map id (HashMap.relabel ρ)) (mapSet P table key v)
      (mapSet P' (table.relabel ρ) (key.relabel ρ) (v.relabel ρ)) := by
  refine .bind .get fun vm => ?_
  rw [heap_relabel, Heap.length_relabel, Value.hashCode_relabel _ _ hP]
  refine .ite (.pure (false, table)) ?_
  dsimp only
  rw [subscript_relabel hP]
  cases @subscript _ _ (Value.hashKey P vm.heap) _ table key with
  | none => exact .stop _
  | some found =>
      dsimp only [Option.map, Prod.map, id]
      rw [writeRef_relabel hP]
      exact .pure (true, _)

theorem relabels_mapGet (table : HashMap Value Value) (key : Value) :
    Relabels ρ (Option.map (Value.relabel ρ)) (mapGet P table key)
      (mapGet P' (table.relabel ρ) (key.relabel ρ)) := by
  refine .bind .get fun vm => ?_
  rw [heap_relabel]
  dsimp only
  rw [get_relabel hP]
  cases @HashMap.get _ _ (Value.hashKey P vm.heap) _ table key with
  | none => exact .stop _
  | some found => exact .pure found

theorem relabels_keyText (key : Value) :
    Relabels ρ id (keyText P key) (keyText P' (key.relabel ρ)) :=
  .bind_id (relabels_toText hP key) fun _ => .pure _

theorem relabels_popEntries (n : Nat) (table : HashMap Value Value) :
    Relabels ρ (HashMap.relabel ρ) (popEntries P n table)
      (popEntries P' n (table.relabel ρ)) := by
  induction n generalizing table with
  | zero => exact .pure table
  | succ n ih =>
      refine .bind (relabels_peek 1) fun key => .bind (relabels_peek 0) fun v =>
        .bind (relabels_mapSet hP table key v) fun found => .ite ?_ (.runtimeError _)
      exact .bind relabels_pop fun _ => .bind relabels_pop fun _ => ih found.2

theorem relabels_buildMap (length : Nat) :
    Relabels ρ id (buildMap P length) (buildMap P' length) :=
  .bind (relabels_popEntries hP length HashMap.empty) fun table =>
    .bind_id (relabels_allocate (.map table)) fun map => relabels_push hP (.ofAddr map)

theorem relabels_executeMapAdd : Relabels ρ id (executeMapAdd P) (executeMapAdd P') := by
  refine .bind (relabels_peek 2) fun target => .bind (relabels_objectOf target) fun object => ?_
  cases object with
  | none => exact .undefinedBehaviour
  | some object => cases object with
    | map table => cases target with
      | object o => cases o with
        | heap a =>
            refine .bind (relabels_peek 1) fun key => .bind (relabels_peek 0) fun v =>
              .bind (relabels_mapSet hP table key v) fun found => .ite ?_ (.runtimeError _)
            exact .bind (relabels_setObject a (.map found.2)) fun _ => .bind relabels_pop fun _ =>
              .bind relabels_pop fun _ => .pure _
        | _ => exact .undefinedBehaviour
      | _ => exact .undefinedBehaviour
    | _ => exact .undefinedBehaviour

theorem relabels_finishStore (v : Value) :
    Relabels ρ id (finishStore P v) (finishStore P' (v.relabel ρ)) :=
  .bind relabels_pop fun _ => .bind relabels_pop fun _ => .bind relabels_pop fun _ =>
    relabels_push hP v

theorem relabels_storeKey (a : Addr) (table : HashMap Value Value) :
    Relabels ρ id (storeKey P a table)
      (storeKey P' a (table.relabel ρ)) := by
  refine .bind (relabels_peek 1) fun key => .bind (relabels_peek 0) fun v =>
    .bind (relabels_mapSet hP table key v) fun found => .ite ?_ ?_
  · exact .bind (relabels_setObject a (.map found.2)) fun _ => relabels_finishStore hP v
  · exact .bind_id (relabels_keyText hP key) fun _ => .runtimeError _

theorem relabels_storeElement (a : Addr) (values : List Value) :
    Relabels ρ id (storeElement P a values) (storeElement P' a (values.map (Value.relabel ρ))) := by
  refine .bind (relabels_peek 1) fun index => ?_
  cases index with
  | integer i =>
      dsimp only [Value.relabel]
      rw [List.length_map]
      refine .ite (.runtimeError _) (.bind (relabels_peek 0) fun v => ?_)
      have hset := relabels_setObject (ρ := ρ) a (.list (values.set i.toInt.toNat v))
      rw [HeapObject.relabel, List.map_set] at hset
      exact .ite (.bind hset fun _ => relabels_finishStore hP v) (relabels_finishStore hP v)
  | _ => exact .runtimeError _

theorem relabels_executeStoreIndex : Relabels ρ id (executeStoreIndex P) (executeStoreIndex P') := by
  refine .bind (relabels_peek 2) fun target => .bind (relabels_objectOf target) fun object => ?_
  cases target with
  | object o => cases o with
    | heap a => cases object with
      | none => exact .runtimeError _
      | some object => cases object with
        | map table => exact relabels_storeKey hP a table
        | list values => exact relabels_storeElement hP a values
        | _ => exact .runtimeError _
    | _ => cases object with
      | none => exact .runtimeError _
      | some object => cases object <;> exact .runtimeError _
  | _ => cases object with
    | none => exact .runtimeError _
    | some object => cases object <;> exact .runtimeError _

theorem relabels_finishLoad (v : Value) :
    Relabels ρ id (finishLoad P v) (finishLoad P' (v.relabel ρ)) :=
  .bind relabels_pop fun _ => .bind relabels_pop fun _ => relabels_push hP v

theorem relabels_loadKey (table : HashMap Value Value) :
    Relabels ρ id (loadKey P table)
      (loadKey P' (table.relabel ρ)) := by
  refine .bind (relabels_peek 0) fun key => .bind (relabels_mapGet hP table key) fun found =>
    .bind .get fun vm => ?_
  have herror : ∀ before after, Relabels ρ id
      (keyText P key >>= fun text => runtimeError (before ++ text ++ after) : VMM Unit)
      (keyText P' (key.relabel ρ) >>= fun text => runtimeError (before ++ text ++ after)) :=
    fun _ _ => .bind_id (relabels_keyText hP key) fun _ => .runtimeError _
  rw [heap_relabel, Heap.length_relabel, Value.hashCode_relabel _ _ hP]
  refine .ite (herror _ _) ?_
  cases found with
  | none => exact herror _ _
  | some v => exact relabels_finishLoad hP v

theorem relabels_loadElement (values : List Value) :
    Relabels ρ id (loadElement P values) (loadElement P' (values.map (Value.relabel ρ))) := by
  refine .bind (relabels_peek 0) fun index => ?_
  cases index with
  | integer i =>
      dsimp only [Value.relabel]
      rw [List.length_map, List.getElem?_map]
      refine .ite (.runtimeError _) (.ite (.stop _) ?_)
      cases values[i.toInt.toNat]? with
      | none => exact .undefinedBehaviour
      | some v => exact relabels_finishLoad hP v
  | _ => exact .runtimeError _

theorem relabels_loadCharacter (s : Bytes) :
    Relabels ρ id (loadCharacter P s) (loadCharacter P' s) := by
  refine .bind (relabels_peek 0) fun index => ?_
  cases index with
  | integer i =>
      dsimp only [Value.relabel]
      cases s[i.toUInt64.toNat]? with
      | none => exact .runtimeError _
      | some ch => exact relabels_finishLoad hP (.ofString [ch])
  | _ => exact .runtimeError _

theorem relabels_executeLoadIndex : Relabels ρ id (executeLoadIndex P) (executeLoadIndex P') := by
  refine .bind (relabels_peek 1) fun target => .bind (relabels_objectOf target) fun object => ?_
  cases object with
  | none => cases target with
    | object o => cases o with
      | string s => exact relabels_loadCharacter hP s
      | _ => exact .runtimeError _
    | _ => exact .runtimeError _
  | some object => cases object with
    | map table => exact relabels_loadKey hP table
    | list values => exact relabels_loadElement hP values
    | _ => cases target with
      | object o => cases o with
        | string s => exact relabels_loadCharacter hP s
        | _ => exact .runtimeError _
      | _ => exact .runtimeError _

end

/-! ### The machine -/

variable (hP : P.Relabels ρ P')

include hP

/-- An instruction commutes with a relabelling of the machine. -/
theorem relabels_execute (op : OpCode) : Relabels ρ id (execute P op) (execute P' op) := by
  have hP' := hP.toReaddresses
  cases op with
  | loadConstant => exact .bind relabels_readConstant fun v => relabels_push hP' v
  | loadConstantLong => exact .bind relabels_readConstantLong fun v => relabels_push hP' v
  | negate => exact relabels_executeNegate
  | add => exact relabels_executeAdd hP'
  | subtract => exact relabels_executeSubtract hP'
  | multiply => exact relabels_executeMultiply hP'
  | divide => exact relabels_executeDivide hP'
  | nil => exact relabels_push hP' (.nil false)
  | uninitialized => exact relabels_push hP' (.nil true)
  | true => exact relabels_push hP' (.boolean true)
  | false => exact relabels_push hP' (.boolean false)
  | not => exact relabels_executeNot hP'
  | equal => exact relabels_executeEqual hP'
  | greater => exact relabels_executeGreater hP'
  | less => exact relabels_executeLess hP'
  | print => exact relabels_executePrint hP'
  | popTop => exact relabels_executePopTop
  | defineGlobal => exact .bind_id relabels_readUint16Le relabels_defineGlobal
  | storeGlobal => exact .bind_id relabels_readUint16Le relabels_storeGlobal
  | loadGlobal => exact .bind_id relabels_readUint16Le (relabels_loadGlobal hP')
  | storeLocal => exact .bind_id relabels_readUint16Le (relabels_storeLocal hP')
  | loadLocal => exact .bind_id relabels_readUint16Le (relabels_loadLocal hP')
  | storeUpvalue => exact .bind_id relabels_readUint16Le (relabels_storeUpvalue hP')
  | loadUpvalue => exact .bind_id relabels_readUint16Le (relabels_loadUpvalue hP')
  | storeProperty => exact relabels_executeStoreProperty hP'
  | loadProperty => exact relabels_executeLoadProperty hP'
  | loadPropertySafe => exact relabels_executeLoadPropertySafe hP'
  | loadSuper => exact relabels_executeLoadSuper hP'
  | loadIndex => exact relabels_executeLoadIndex hP'
  | storeIndex => exact relabels_executeStoreIndex hP'
  | closeUpvalue => exact relabels_executeCloseUpvalue hP'
  | jumpIfFalse => exact relabels_executeJumpIfFalse
  | jumpIfTrue => exact relabels_executeJumpIfTrue
  | popJumpIfFalse => exact relabels_executePopJumpIfFalse
  | jumpForward => exact .bind_id relabels_readUint16Le relabels_jumpForward
  | jumpBackward => exact .bind_id relabels_readUint16Le relabels_jumpBackward
  | dupTop => exact relabels_executeDupTop hP'
  | call => exact relabels_executeCall hP
  | «class» => exact .bind relabels_readConstantLong (relabels_makeClass hP')
  | invoke => exact relabels_executeInvoke hP
  | superInvoke => exact relabels_executeSuperInvoke
  | inherit => exact relabels_executeInherit
  | closure => exact .bind relabels_readConstantLong (relabels_makeClosure hP')
  | zero => exact relabels_push hP' (.integer 0)
  | minusOne => exact relabels_push hP' (.integer (-1))
  | one => exact relabels_push hP' (.integer 1)
  | method => exact relabels_executeMethod
  | list => exact .bind_id relabels_readByte fun _ => relabels_buildList hP' _
  | listAppend => exact relabels_executeListAppend
  | map => exact .bind_id relabels_readByte fun _ => relabels_buildMap hP' _
  | mapAdd => exact relabels_executeMapAdd hP'
  | invalid => exact .stop _
  | «return» => exact .stop _

theorem relabels_step : Relabels ρ id (step P) (step P') := by
  refine .bind_id relabels_readByte fun byte => ?_
  cases OpCode.ofByte byte with
  | none => exact .stop _
  | some op =>
      exact .ite (relabels_executeReturn hP.toReaddresses)
        (.bind (relabels_execute hP op) fun _ => .pure false)

/-- `VM::run` up to the call of `execute`. -/
theorem relabels_start (f : ObjectFunction) :
    Relabels ρ id (start P f) (start P' (f.relabel ρ)) := by
  have hP' := hP.toReaddresses
  exact .bind (relabels_push hP' (.object (.function f))) fun _ =>
    .bind_id (relabels_newClosure f) fun closure => .bind relabels_pop fun _ =>
    .bind (relabels_push hP' (.ofAddr closure)) fun _ => relabels_call (closure, f) 0

end VM

end CppLox
