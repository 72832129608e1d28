import CppLox.VM.Evaluation

/-!
# Virtual machine — list literals

The elements of a list are evaluated onto the stack until `LIST` makes a list of the first of them;
`LIST_APPEND` adds each later one.  As long as each element pushes exactly one value and leaves alone
the ones before it, the list has the values of the elements in their order.
-/

namespace CppLox

open VMM

/-- Lists of expressions as lists. -/
def Exprs.toList : Exprs → List Expr
  | .nil => []
  | .cons e es => e :: es.toList

namespace VM

variable (P : Platform)

/-! ### The two instructions -/

/-- The `n` values on top of the stack, the last one on top. -/
def topValues (vm : VM) (n : Nat) : List Value :=
  (List.range n).map fun i => vm.stack (vm.stackTop - n + i)

/-- The machine with a new list of the `n` values on top. -/
def listed (vm : VM) (n : Nat) : VM := vm.allocated n (.list (vm.topValues n))

/-- The machine with the value on top at the end of a list. -/
def appended (vm : VM) (a : Addr) (values : List Value) : VM :=
  vm.changed 1 a (.list (values ++ [vm.stack (vm.stackTop - 1)]))

section

variable {P} {vm : VM}

theorem popList_apply {n : Nat} {values : List Value} (h : n ≤ vm.stackTop) :
    popList n values vm =
      .done (vm.topValues n ++ values) { vm with stackTop := vm.stackTop - n } := by
  induction n generalizing vm values with
  | zero => rfl
  | succ n ih =>
      have hpop : pop vm = .done (vm.stack (vm.stackTop - 1)) { vm with stackTop := vm.stackTop - 1 } :=
        @pop_apply _ [] _ ⟨by simp; omega, fun i v hi => by
          cases i with
          | zero => exact Option.some.inj hi
          | succ i => cases hi⟩
      unfold popList
      rw [VMM.bind_of_done (peek_of_lt (n := 0) (by omega)), VMM.bind_of_done hpop, ih
        (show n ≤ vm.stackTop - 1 by omega)]
      have hvalues : topValues { vm with stackTop := vm.stackTop - 1 } n ++
          vm.stack (vm.stackTop - 0 - 1) :: values = vm.topValues (n + 1) ++ values := by
        unfold topValues
        rw [List.range_succ, List.map_append, List.append_assoc]
        refine congrArg₂ (· ++ ·) (List.map_congr_left fun i _ => ?_) ?_
        · exact congrArg vm.stack (by simp only; omega)
        · refine congrArg (vm.stack · :: values) ?_
          omega
      rw [hvalues]
      refine congrArg (fun k => Outcome.done _ { vm with stackTop := k }) ?_
      change vm.stackTop - 1 - n = _
      omega

theorem buildList_apply {n : Nat} (h : n ≤ vm.stackTop) (hroom : vm.stackTop - n < P.capacity) :
    buildList P n vm = .done () (vm.listed n) := by
  unfold buildList
  rw [VMM.bind_of_done (popList_apply h), List.append_nil]
  exact @push_apply P { vm with
    stackTop := vm.stackTop - n, heap := vm.heap ++ [.list (vm.topValues n)] } _ hroom

theorem executeListAppend_apply {a : Addr} {values : List Value} {v : Value}
    (h : vm.OnTop [v, .ofAddr a]) (ha : vm.heap[a]? = some (.list values)) :
    executeListAppend vm = .done () (vm.appended a values) := by
  unfold executeListAppend
  rw [VMM.bind_of_done (peek_apply h (i := 1) rfl), VMM.bind_of_done (objectOf_apply _ vm),
    heapObject_ofAddr, ha]
  refine (VMM.bind_of_done (peek_apply h (i := 0) rfl) _).trans ?_
  have hv : vm.stack (vm.stackTop - 1) = v := h.cons
  have htop : ({ vm with heap := vm.heap.set a (.list (values ++ [v])) } : VM).OnTop [v, .ofAddr a] :=
    ⟨h.length, h.slot⟩
  refine (VMM.bind_of_done (show setObject a _ vm = .done () _ from rfl) _).trans ?_
  refine (VMM.bind_of_done (pop_apply htop) _).trans ?_
  unfold appended changed
  rw [hv]
  rfl

/-- `LIST` makes a list of the values on top. -/
theorem step_list {n : Nat} {bytes : List UInt8} (h : vm.Ahead ((Instr.byte .list n).encode ++ bytes))
    (hn : n ≤ 0xFF) (htop : n ≤ vm.stackTop) (hroom : vm.stackTop - n < P.capacity) :
    Step P vm ((vm.advance 2).listed n) := by
  unfold Step
  have hahead : vm.Ahead (OpCode.list.toByte :: (n.toUInt8 :: bytes)) := h
  rw [step_apply P hahead (by decide)]
  have hread : readByte (vm.advance 1) = .done n.toUInt8 ((vm.advance 1).advance 1) :=
    readByte_apply (@Ahead.advance vm [OpCode.list.toByte] _ hahead)
  refine (VMM.bind_of_done (show executeList P (vm.advance 1) = .done () ((vm.advance 2).listed n)
    from ?_) _).trans rfl
  unfold executeList
  rw [VMM.bind_of_done hread, advance_advance, show n.toUInt8.toNat = n from
    Nat.mod_eq_of_lt (by omega)]
  exact buildList_apply htop hroom

/-- `LIST_APPEND` adds the value on top to the list below it. -/
theorem step_listAppend {a : Addr} {values : List Value} {v : Value} {bytes : List UInt8}
    (h : vm.Ahead ((Instr.op .listAppend).encode ++ bytes)) (htop : vm.OnTop [v, .ofAddr a])
    (ha : vm.heap[a]? = some (.list values)) :
    Step P vm ((vm.advance 1).appended a values) := by
  unfold Step
  rw [step_apply P (show vm.Ahead (OpCode.listAppend.toByte :: bytes) from h) (by decide)]
  exact (VMM.bind_of_done (@executeListAppend_apply (vm.advance 1) _ _ _ ⟨htop.length, htop.slot⟩ ha)
    _).trans rfl

/-- The values a piece of code pushed, as a list. -/
theorem Pushes.topValues {R : Reserve} {is : List Instr} {vm₀ : VM} {values : List Value}
    (h : Pushes P R is vm₀ values vm) : vm.topValues values.length = values := by
  refine List.ext_getElem? fun i => ?_
  unfold VM.topValues
  rw [List.getElem?_map]
  by_cases hi : i < values.length
  · have hv := h.values i values[i] (List.getElem?_eq_getElem hi)
    rw [List.getElem?_range hi, Option.map_some, List.getElem?_eq_getElem hi, h.stackTop, ← hv,
      Nat.add_sub_cancel]
  · rw [List.getElem?_eq_none (by simpa using hi), List.getElem?_eq_none (by simpa using hi)]
    rfl

theorem Pushes.list {R : Reserve} {is : List Instr} {vm₀ : VM} {values : List Value}
    (h : Pushes P R is vm₀ values vm) (hvalid : R.Valid vm₀) {bytes : List UInt8}
    (hahead : vm.Ahead ((Instr.byte .list values.length).encode ++ bytes))
    (hn : values.length ≤ 0xFF) (hroom : vm₀.stackTop < P.capacity) :
    Step P vm ((vm.advance 2).listed values.length) ∧
    Pushes P R (is ++ [.byte .list values.length]) vm₀ [.ofAddr vm.heap.length]
      ((vm.advance 2).listed values.length) ∧
    ((vm.advance 2).listed values.length).heap[vm.heap.length]? = some (.list values) := by
  have htop := h.stackTop
  have hstep := step_list (P := P) hahead hn (by omega) (by omega)
  have hvalues : (vm.advance 2).topValues values.length = values := h.topValues
  unfold listed at hstep ⊢
  rw [hvalues] at hstep ⊢
  exact ⟨hstep, h.allocated hvalid (i := .byte .list values.length) hstep⟩

theorem Pushes.append {R : Reserve} {is : List Instr} {vm₀ : VM} {a : Addr} {v : Value}
    (h : Pushes P R is vm₀ [.ofAddr a, v] vm) {values : List Value} {bytes : List UInt8}
    (hahead : vm.Ahead ((Instr.op .listAppend).encode ++ bytes))
    (ha : vm.heap[a]? = some (.list values)) (hR : a ∉ R.building) :
    Step P vm ((vm.advance 1).appended a values) ∧
    Pushes P R (is ++ [.op .listAppend]) vm₀ [.ofAddr a] ((vm.advance 1).appended a values) ∧
    ((vm.advance 1).appended a values).heap[a]? = some (.list (values ++ [v])) := by
  have honTop : vm.OnTop [v, .ofAddr a] := h.onTop
  have hstep := step_listAppend (P := P) hahead honTop ha
  have hv : (vm.advance 1).stack ((vm.advance 1).stackTop - 1) = v := honTop.cons
  unfold appended at hstep ⊢
  rw [hv] at hstep ⊢
  exact ⟨hstep, Pushes.changed h (i := .op .listAppend) hstep (List.getElem?_eq_some_iff.mp ha).1 hR⟩

end

/-! ### The run of a literal -/

/-- The code of the list whose elements have some codes. -/
abbrev listCode : List (List Instr) → Nat → List Instr :=
  literalCode .list .listAppend listBuildAppendThreshold

theorem elementsCode_iff {E : Env} {Γ : List Slot} : ∀ (es : Exprs) (n : Nat) (is : List Instr),
    ElementsCode E Γ es n is ↔
      ∃ codes, List.Forall₂ (ExprCode E Γ) es.toList codes ∧ is = listCode codes n
  | .nil, n, is => by
      constructor
      · intro h
        exact ⟨[], .nil, h⟩
      · rintro ⟨codes, hcodes, rfl⟩
        cases hcodes
        rfl
  | .cons e es, n, is => by
      constructor
      · rintro ⟨ie, ies, he, hes, rfl⟩
        obtain ⟨codes, hcodes, rfl⟩ := (elementsCode_iff es (n + 1) ies).mp hes
        exact ⟨ie :: codes, .cons he hcodes, rfl⟩
      · rintro ⟨codes, hcodes, rfl⟩
        cases hcodes with
        | cons he hcodes =>
            exact ⟨_, _, he, (elementsCode_iff es (n + 1) _).mpr ⟨_, hcodes, rfl⟩, rfl⟩

/-- The elements of a list can be evaluated from left to right, each after the instruction behind the
one before it: the states in which an evaluation starts, with the values.  Each evaluation satisfies
`C`. -/
def ElementsEvaluate (C : List Addr → VM → VM → Prop) :
    List (List Instr) → Nat → VM → List (VM × Value) → Prop
  | [], _, _, evals => evals = []
  | is :: codes, n, vm, evals => ∃ v vm₁ rest, evals = (vm, v) :: rest ∧ Ends P is vm v vm₁ ∧
      C (vm.beingBuilt listBuildAppendThreshold n) vm vm₁ ∧
      ∀ vm₂, Settles P listBuildAppendThreshold (n + 1) vm₁ vm₂ →
        ElementsEvaluate C codes (n + 1) vm₂ rest

/-- After some elements their values are on the stack, or in a list that is. -/
inductive Collected (R : Reserve) (vm₀ : VM) (is : List Instr) (values : List Value) (vm : VM) :
    Prop where
  | pending (h : values.length < listBuildAppendThreshold) (hpushes : Pushes P R is vm₀ values vm)
  | built (h : listBuildAppendThreshold ≤ values.length) {a : Addr}
      (hpushes : Pushes P R is vm₀ [.ofAddr a] vm) (hlist : vm.heap[a]? = some (.list values))
      (hR : a ∉ R.building)

section

variable {P} {R : Reserve} {vm₀ vm vm₁ vm₂ : VM} {is is' : List Instr} {values : List Value} {v : Value}

/-- One more element is evaluated. -/
theorem Collected.next (h : Collected P R vm₀ is values vm) (hbase : R.base ≤ vm₀.stackTop)
    (hvalid : R.Valid vm₀) (hroom : vm₀.stackTop < P.capacity) {bytes : List UInt8}
    (hahead : vm₀.Ahead (encodeAll (is ++ (is' ++ elementCode .list .listAppend
      listBuildAppendThreshold (values.length + 1))) ++ bytes))
    (heval : Ends P is' vm v vm₁)
    (htidy : Tidy (R.with (vm.beingBuilt listBuildAppendThreshold values.length)) vm vm₁) :
    ∃ vm', Settles P listBuildAppendThreshold (values.length + 1) vm₁ vm' ∧
      Collected P R vm₀ (is ++ (is' ++ elementCode .list .listAppend listBuildAppendThreshold
        (values.length + 1))) (values ++ [v]) vm' := by
  have hlen : (values ++ [v]).length = values.length + 1 := List.length_append
  cases h with
  | pending hlt hpushes =>
      rw [beingBuilt_of_lt hlt] at htidy
      have hall := hpushes.trans (.of_tidy heval (R := R) htidy) hbase
      by_cases hnext : values.length + 1 < listBuildAppendThreshold
      · rw [elementCode_of_lt hnext, List.append_nil]
        exact ⟨vm₁, .pending hnext, .pending (hlen ▸ hnext) hall⟩
      · have heq : values.length + 1 = listBuildAppendThreshold := by omega
        rw [elementCode_of_eq heq, ← List.append_assoc, encodeAll_append, List.append_assoc] at hahead
        rw [elementCode_of_eq heq, ← List.append_assoc]
        have hahead₁ := hall.toFinishes.ahead hahead
        rw [← hlen] at hahead₁ ⊢
        obtain ⟨hstep, hlisted, hlist⟩ := hall.list hvalid (by simpa using hahead₁)
          (by rw [hlen, heq]; decide) hroom
        refine ⟨_, .built (by omega) hstep, .built (by omega) hlisted hlist fun hmem => ?_⟩
        exact Nat.lt_irrefl _ (hall.toKeeps.valid hvalid _ hmem)
  | built hle hpushes hlist hR =>
      rename_i a
      rw [beingBuilt_of_pushes hle hpushes] at htidy
      have hall := hpushes.trans (.of_tidy heval htidy.of_with) hbase
      have hlist₁ : vm₁.heap[a]? = some (.list values) :=
        (htidy.objects a (List.mem_append_left _ (List.mem_singleton_self a))).trans hlist
      rw [elementCode_of_gt (by omega), ← List.append_assoc, encodeAll_append, List.append_assoc]
        at hahead
      rw [elementCode_of_gt (by omega), ← List.append_assoc]
      obtain ⟨hstep, happended, hlist'⟩ := hall.append (by simpa using hall.toFinishes.ahead hahead)
        hlist₁ hR
      exact ⟨_, .built (by omega) hstep, .built (by omega) happended hlist' hR⟩

/-- The values in waiting are at most as many as the threshold, with the next one. -/
theorem Collected.stackTop (h : Collected P R vm₀ is values vm) :
    vm₀.stackTop ≤ vm.stackTop ∧ vm.stackTop + 1 ≤ vm₀.stackTop + listBuildAppendThreshold := by
  cases h with
  | pending hlt hpushes =>
      rw [hpushes.stackTop]
      omega
  | built hle hpushes =>
      rw [hpushes.stackTop]
      exact ⟨Nat.le_add_right _ _, Nat.add_le_add_left (by decide : [Value.ofAddr 0].length + 1 ≤ 5) _⟩

/-- The last element is evaluated. -/
theorem Collected.last (h : Collected P R vm₀ is values vm) (hvalid : R.Valid vm₀)
    (hroom : vm₀.stackTop < P.capacity) {bytes : List UInt8}
    (hahead : vm₀.Ahead (encodeAll (is ++ listCode [] values.length) ++ bytes)) :
    ∃ a vm', Pushes P R (is ++ listCode [] values.length) vm₀ [.ofAddr a] vm' ∧
      vm'.heap[a]? = some (.list values) := by
  unfold listCode literalCode buildCode at hahead ⊢
  cases h with
  | pending hlt hpushes =>
      rw [if_pos hlt] at hahead ⊢
      rw [encodeAll_append, List.append_assoc] at hahead
      obtain ⟨-, hlisted, hlist⟩ := hpushes.list hvalid
        (by simpa using hpushes.toFinishes.ahead hahead)
        (Nat.le_trans (Nat.le_of_lt hlt) (by decide)) hroom
      exact ⟨_, _, hlisted, hlist⟩
  | built hle hpushes hlist =>
      rw [if_neg (Nat.not_lt.mpr hle), List.append_nil]
      exact ⟨_, _, hpushes, hlist⟩

/-- The rest of the elements is evaluated. -/
theorem ElementsEvaluate.collect {codes : List (List Instr)} {evals : List (VM × Value)}
    (h : ElementsEvaluate P (fun as => Tidy (R.with as)) codes values.length vm evals)
    (hc : Collected P R vm₀ is values vm) (hbase : R.base ≤ vm₀.stackTop)
    (hvalid : R.Valid vm₀) (hroom : vm₀.stackTop < P.capacity)
    (hahead : vm₀.Ahead (encodeAll (is ++ listCode codes values.length))) :
    (∃ a vm', Pushes P R (is ++ listCode codes values.length) vm₀ [.ofAddr a] vm' ∧
      vm'.heap[a]? = some (.list (values ++ evals.map Prod.snd))) ∧
    evals.length = codes.length ∧
    ∀ eval ∈ evals, vm₀.stackTop ≤ eval.1.stackTop ∧
      eval.1.stackTop + 1 ≤ vm₀.stackTop + listBuildAppendThreshold := by
  induction codes generalizing is values vm evals with
  | nil =>
      cases (h : evals = [])
      rw [← List.append_nil (encodeAll _)] at hahead
      rw [List.map_nil, List.append_nil]
      exact ⟨hc.last hvalid hroom hahead, rfl, nofun⟩
  | cons is' codes ih =>
      obtain ⟨v, vm₁, rest, rfl, heval, htidy, hrest⟩ := h
      have hcode : is ++ listCode (is' :: codes) values.length =
          is ++ (is' ++ elementCode .list .listAppend listBuildAppendThreshold (values.length + 1)) ++
            listCode codes (values.length + 1) := by
        rw [List.append_assoc]
        rfl
      rw [hcode] at hahead ⊢
      have hfirst := hahead
      rw [encodeAll_append] at hfirst
      obtain ⟨vm₂, hsettles, hc'⟩ := hc.next hbase hvalid hroom hfirst heval htidy
      have hlen : (values ++ [v]).length = values.length + 1 := List.length_append
      have hnext := hrest vm₂ hsettles
      rw [← hlen] at hnext hahead hc' ⊢
      obtain ⟨⟨a, vm', hpushes, hlist⟩, hlength, hpending⟩ := ih hnext hc' hahead
      refine ⟨⟨a, vm', hpushes, ?_⟩, ?_, ?_⟩
      · rw [hlist, List.append_assoc]
        rfl
      · rw [List.length_cons, List.length_cons, hlength]
      · intro eval heval'
        rcases List.mem_cons.mp heval' with rfl | hmem
        · exact hc.stackTop
        · exact hpending eval hmem

end

/-! ### Elements that can be evaluated anywhere -/

/-- Code that pushes one value, of the kind `V`, wherever there is room for `n` values. -/
def PushesAnywhere (n : Nat) (is : List Instr) (V : Value → Prop) : Prop :=
  ∀ (R : Reserve) (vm : VM) (bytes : List UInt8), vm.Ahead (encodeAll is ++ bytes) →
    R.base ≤ vm.stackTop → R.Valid vm → vm.stackTop + n ≤ P.capacity →
    ∃ v vm', Pushes P R is vm [v] vm' ∧ V v

section

variable {P} {R : Reserve} {vm₀ vm vm₁ vm₂ : VM} {is : List Instr} {values : List Value} {n : Nat}
  {codes : List (List Instr)} {Vs : List (Value → Prop)}

theorem Settles.unique {threshold n : Nat} (h : Settles P threshold n vm vm₁)
    (h' : Settles P threshold n vm vm₂) : vm₁ = vm₂ := by
  cases h with
  | pending hlt =>
      cases h' with
      | pending => rfl
      | built hle => exact absurd hlt (Nat.not_lt.mpr hle)
  | built hle hstep =>
      cases h' with
      | pending hlt => exact absurd hlt (Nat.not_lt.mpr hle)
      | built _ hstep' =>
          have heq := (show step P vm = .done false vm₁ from hstep).symm.trans hstep'
          cases heq
          rfl

theorem pushesAnywhere_op {op : OpCode} {v : Value} (hop : execute P op = push P v)
    (hne : op ≠ .return) : PushesAnywhere P 1 [.op op] (· = v) :=
  fun R vm _ hahead _ _ hroom => ⟨v, vm.pushed v, pushes_push R hop hne hahead hroom, rfl⟩

theorem PushesAnywhere.mono {m : Nat} {V : Value → Prop} (h : PushesAnywhere P n is V)
    (hle : n ≤ m) : PushesAnywhere P m is V :=
  fun R vm bytes hahead hbase hvalid hroom => h R vm bytes hahead hbase hvalid (by omega)

theorem Collected.finishes (h : Collected P R vm₀ is values vm) : Finishes P is vm₀ vm := by
  cases h with
  | pending _ hpushes => exact hpushes.toFinishes
  | built _ hpushes => exact hpushes.toFinishes

/-- Also the list that is being built is there. -/
theorem Collected.valid (h : Collected P R vm₀ is values vm) (hvalid : R.Valid vm₀) :
    (R.with (vm.beingBuilt listBuildAppendThreshold values.length)).Valid vm := by
  intro b hb
  cases h with
  | pending hlt hpushes =>
      rw [beingBuilt_of_lt hlt] at hb
      exact hpushes.toKeeps.valid hvalid b hb
  | built hle hpushes hlist =>
      rw [beingBuilt_of_pushes hle hpushes] at hb
      rcases List.mem_append.mp hb with hmem | hmem
      · cases List.mem_singleton.mp hmem
        exact (List.getElem?_eq_some_iff.mp hlist).1
      · exact hpushes.toKeeps.valid hvalid b hmem

/-- Such elements are evaluated in a list literal, however many there are. -/
theorem Collected.elements (hcodes : List.Forall₂ (PushesAnywhere P n) codes Vs)
    (hc : Collected P R vm₀ is values vm) (hbase : R.base ≤ vm₀.stackTop) (hvalid : R.Valid vm₀)
    (hroom : vm₀.stackTop + listBuildAppendThreshold + n ≤ P.capacity) {bytes : List UInt8}
    (hahead : vm₀.Ahead (encodeAll (is ++ listCode codes values.length) ++ bytes)) :
    ∃ evals, ElementsEvaluate P (fun as => Tidy (R.with as)) codes values.length vm evals ∧
      List.Forall₂ (fun V eval => V eval.2) Vs evals := by
  induction hcodes generalizing is values vm with
  | nil => exact ⟨[], rfl, .nil⟩
  | @cons is' V codes Vs hpushes _ ih =>
      have hcode : encodeAll (is ++ listCode (is' :: codes) values.length) ++ bytes =
          encodeAll is ++ (encodeAll is' ++ (encodeAll (elementCode .list .listAppend
            listBuildAppendThreshold (values.length + 1) ++ listCode codes (values.length + 1)) ++
            bytes)) := by
        simp only [listCode, literalCode, encodeAll_append, List.append_assoc]
      have htop := hc.stackTop
      rw [hcode] at hahead
      obtain ⟨v, vm₁, heval, hv⟩ := hpushes (R.with (vm.beingBuilt _ values.length)) vm _
        (hc.finishes.ahead hahead) (Nat.le_trans hbase htop.1) (hc.valid hvalid) (by omega)
      rw [← hcode] at hahead
      have hnext : encodeAll (is ++ listCode (is' :: codes) values.length) ++ bytes =
          encodeAll (is ++ (is' ++ elementCode .list .listAppend listBuildAppendThreshold
            (values.length + 1))) ++ (encodeAll (listCode codes (values.length + 1)) ++ bytes) := by
        simp only [listCode, literalCode, encodeAll_append, List.append_assoc]
      have hlen : (values ++ [v]).length = values.length + 1 := List.length_append
      obtain ⟨vm₂, hsettles, hc'⟩ := hc.next hbase hvalid
        (Nat.lt_of_lt_of_le (Nat.lt_of_lt_of_le (by omega) htop.2) (by omega)) (hnext ▸ hahead)
        heval.ends heval.tidy
      obtain ⟨evals, hevals, hVs⟩ := ih hc' (by
        rw [hlen, ← List.append_assoc is, List.append_assoc]
        simpa only [listCode, literalCode, encodeAll_append, List.append_assoc] using hahead)
      rw [hlen] at hevals
      refine ⟨(vm, v) :: evals, ⟨v, vm₁, evals, rfl, heval.ends, heval.tidy, fun vm₂' hsettles' => ?_⟩,
        .cons hv hVs⟩
      rw [← hsettles.unique hsettles']
      exact hevals

/-- So is a list literal of such elements an element of this kind. -/
theorem pushesAnywhere_list (hcodes : List.Forall₂ (PushesAnywhere P n) codes Vs) (hn : 0 < n) :
    PushesAnywhere P (listBuildAppendThreshold + n) (listCode codes 0)
      (fun v => ∃ a, v = .ofAddr a) := by
  intro R vm bytes hahead hbase hvalid hroom
  have hstart : Collected P R vm [] [] vm := .pending (by decide) (.refl R vm)
  obtain ⟨evals, hevals, -⟩ :=
    Collected.elements hcodes hstart hbase hvalid (by omega) hahead
  obtain ⟨⟨a, vm', hpushes, -⟩, -⟩ :=
    hevals.collect hstart hbase hvalid (by omega) (hahead.left)
  exact ⟨.ofAddr a, vm', hpushes, a, rfl⟩

end

/-- A literal is run to its end and makes a list of the values its elements are evaluated to, of
which at most as many as the threshold wait on the stack. -/
structure BuildsList (es : Exprs) (is : List Instr) (vm : VM) (evals : List (VM × Value)) (vm' : VM) :
    Prop extends Finishes P is vm vm' where
  stackTop : vm'.stackTop = vm.stackTop + 1
  length : evals.length = es.toList.length
  list : ∃ a, vm'.stack vm.stackTop = .ofAddr a ∧
    vm'.heap[a]? = some (.list (evals.map Prod.snd))
  pending : ∀ eval ∈ evals, vm.stackTop ≤ eval.1.stackTop ∧
    eval.1.stackTop + 1 ≤ vm.stackTop + listBuildAppendThreshold

theorem BuildsList.ends {es : Exprs} {is : List Instr} {vm vm' : VM} {evals : List (VM × Value)}
    (h : BuildsList P es is vm evals vm') : ∃ a, Ends P is vm (.ofAddr a) vm' := by
  obtain ⟨a, hvalue, -⟩ := h.list
  refine ⟨a, h.toFinishes, by rw [h.stackTop]; exact Nat.succ_pos _, ?_⟩
  rw [h.stackTop]
  exact hvalue

/-- A literal whose elements are evaluated makes the list of their values. -/
theorem ElementsEvaluate.buildsList {es : Exprs} {codes : List (List Instr)} {R : Reserve} {vm : VM}
    {evals : List (VM × Value)}
    (h : ElementsEvaluate P (fun as => Tidy (R.with as)) codes 0 vm evals)
    (hlength : es.toList.length = codes.length) (hbase : R.base ≤ vm.stackTop) (hvalid : R.Valid vm)
    (hroom : vm.stackTop < P.capacity) (hahead : vm.Ahead (encodeAll (listCode codes 0))) :
    ∃ vm', BuildsList P es (listCode codes 0) vm evals vm' ∧ Tidy R vm vm' := by
  have hstart : Collected P R vm [] [] vm := .pending (by decide) (.refl R vm)
  obtain ⟨⟨a, vm', hpushes, hlist⟩, hevals, hpending⟩ :=
    h.collect hstart hbase hvalid hroom hahead
  exact ⟨vm', ⟨hpushes.toFinishes, hpushes.stackTop, hevals.trans hlength.symm,
    ⟨a, hpushes.values 0 _ rfl, hlist⟩, hpending⟩, hpushes.toKeeps, hpushes.stackTop⟩

/-- **What a list literal makes.**  A list literal whose elements each push one value and leave
alone the values in waiting and the list denotes the list of their values, and is such an element
itself.  At most `LIST_BUILD_APPEND_THRESHOLD` values wait on the stack, however many elements there
are: `LIST` takes the first ones, and `LIST_APPEND` each later one.

The condition is on each element where it stands, so it may itself be a literal, a call, or anything
that does not leave more than its value. -/
theorem list_literal {E : Env} {Γ : List Slot} {es : Exprs} {is : List Instr}
    (hcode : ExprCode E Γ (.list es) is) :
    ∃ codes, List.Forall₂ (ExprCode E Γ) es.toList codes ∧
      ∀ (R : Reserve) (vm : VM) (evals : List (VM × Value)), R.base ≤ vm.stackTop → R.Valid vm →
        vm.stackTop < P.capacity → vm.Ahead (encodeAll is) →
        ElementsEvaluate P (fun as => Tidy (R.with as)) codes 0 vm evals →
        ∃ vm', BuildsList P es is vm evals vm' ∧ Tidy R vm vm' := by
  obtain ⟨codes, hcodes, rfl⟩ := (elementsCode_iff es 0 is).mp hcode
  exact ⟨codes, hcodes, fun R vm evals hbase hvalid hroom hahead heval =>
    heval.buildsList P hcodes.length_eq hbase hvalid hroom hahead⟩

end VM

end CppLox
