import CppLox.VM.ScriptInstructions

/-!
# Semantics — the code of expressions

A run of the code of an expression computes what the evaluator does: the store on the stack is the
one the evaluator ends with and the value is on top, or the same error is reported.  The locals of the
evaluator are the slots of the compiler in reverse order.
-/

namespace CppLox

open VMM VM SmallStep

/-- The code of a function with the environment `E` runs as the script `S`. -/
structure Script.Of (S : Script) (E : Env) : Prop where
  constants : E.constants = S.function.constants
  enclosing : E.enclosing = []
  names : E.globals = S.names
  few : S.names.length ≤ 0x10000
  heap : S.heap.OnlyClosures

namespace Store

/-- The locals as they stand on the stack. -/
def values (σ : Store Value) : List Value := (σ.locals.map Prod.snd).reverse

/-- The state of a script with some values above the locals. -/
def config (σ : Store Value) (ip : Nat) (temps : List Value) : Config :=
  ⟨ip, σ.values ++ temps, σ.globals, σ.output⟩

/-- The locals are those of the slots. -/
def Names (Γ : List Slot) (σ : Store Value) : Prop :=
  σ.locals.map Prod.fst = (Γ.map Slot.name).reverse

theorem Keeps.named {Γ : List Slot} {σ σ' : Store Value} (h : σ.Keeps σ') (hnames : Names Γ σ) :
    Names Γ σ' := h.names.trans hnames

theorem Names.length {Γ : List Slot} {σ : Store Value} (h : Names Γ σ) :
    σ.locals.length = Γ.length := by
  have := congrArg List.length h
  rwa [List.length_map, List.length_reverse, List.length_map] at this

theorem length_values (σ : Store Value) : σ.values.length = σ.locals.length := by
  rw [values, List.length_reverse, List.length_map]

theorem values_leave (σ : Store Value) {n : Nat} (h : n ≤ σ.locals.length) :
    (σ.leave n).values = σ.values.take n := by
  unfold values leave
  dsimp only
  rw [List.map_drop, List.reverse_drop, List.length_map, Nat.sub_sub_self h]

/-- The locals of an enclosing scope. -/
theorem Names.leave {Γ Γ' : List Slot} {σ : Store Value} (h : Names Γ' σ) (hΓ : Γ <+: Γ') :
    Names Γ (σ.leave Γ.length) := by
  obtain ⟨rest, rfl⟩ := hΓ
  have hlength := h.length
  unfold Names Store.leave at *
  dsimp only
  rw [List.map_drop, h, hlength, List.length_append, Nat.add_sub_cancel_left, List.map_append,
    List.reverse_append, List.drop_left' (by rw [List.length_reverse, List.length_map])]

theorem config_push (σ : Store Value) (ip : Nat) (temps : List Value) (v : Value) :
    σ.config ip (temps ++ [v]) = ⟨ip, σ.values ++ temps ++ [v], σ.globals, σ.output⟩ := by
  rw [config, List.append_assoc]

end Store

/-! ### Slots -/

section

variable {x : Bytes} {v w : Value}

/-- The first local of a name, where the slots from the last one on have the names. -/
theorem lookup_of_findIdx {slots : List Slot} {locals : List (Bytes × Value)}
    (hnames : locals.map Prod.fst = slots.map Slot.name) {j : Nat}
    (h : slots.findIdx? (fun l => l.name == x) = some j) :
    ∃ w, locals[j]? = some (x, w) ∧ locals.lookup x = some w ∧
      ∀ v, assignLocal x v locals = some (locals.set j (x, v)) := by
  induction locals generalizing slots j with
  | nil =>
      cases slots with
      | nil => cases h
      | cons l slots => cases hnames
  | cons entry locals ih =>
      obtain ⟨y, w⟩ := entry
      cases slots with
      | nil => cases hnames
      | cons l slots =>
          obtain ⟨hy, hnames⟩ := List.cons.inj hnames
          dsimp only at hy
          rw [List.findIdx?_cons] at h
          by_cases hxy : y = x
          · subst hxy
            rw [if_pos (by simp [hy])] at h
            cases h
            exact ⟨w, rfl, List.lookup_cons_self, fun v => if_pos rfl⟩
          · rw [if_neg (by simpa [← hy] using hxy)] at h
            obtain ⟨k, hk, rfl⟩ := Option.map_eq_some_iff.mp h
            obtain ⟨u, hget, hlookup, hassign⟩ := ih hnames hk
            refine ⟨u, hget, ?_, fun v => ?_⟩
            · rw [List.lookup_cons, show (x == y) = false by simpa using Ne.symm hxy]
              exact hlookup
            · unfold assignLocal
              rw [if_neg (Ne.symm hxy), hassign v]
              rfl

theorem lookup_of_findIdx_none {slots : List Slot} {locals : List (Bytes × Value)}
    (hnames : locals.map Prod.fst = slots.map Slot.name)
    (h : slots.findIdx? (fun l => l.name == x) = none) :
    locals.lookup x = none ∧ ∀ v, assignLocal x v locals = none := by
  induction locals generalizing slots with
  | nil => exact ⟨rfl, fun v => rfl⟩
  | cons entry locals ih =>
      obtain ⟨y, w⟩ := entry
      cases slots with
      | nil => cases hnames
      | cons l slots =>
          obtain ⟨hy, hnames⟩ := List.cons.inj hnames
          dsimp only at hy
          rw [List.findIdx?_cons] at h
          by_cases hxy : y = x
          · rw [if_pos (by simp [← hy, hxy])] at h
            cases h
          · rw [if_neg (by simpa [← hy] using hxy), Option.map_eq_none_iff] at h
            obtain ⟨hlookup, hassign⟩ := ih hnames h
            refine ⟨?_, fun v => ?_⟩
            · rw [List.lookup_cons, show (x == y) = false by simpa using Ne.symm hxy]
              exact hlookup
            · unfold assignLocal
              rw [if_neg (Ne.symm hxy), hassign v]
              rfl

theorem reverse_set (l : List Value) {j : Nat} (hj : j < l.length) :
    (l.set j v).reverse = l.reverse.set (l.length - 1 - j) v := by
  refine List.ext_getElem? fun i => ?_
  by_cases hi : i < l.length
  · rw [List.getElem?_reverse (by simpa using hi), List.getElem?_set, List.getElem?_set,
      List.length_set, List.length_reverse, List.getElem?_reverse hi]
    by_cases hij : j = l.length - 1 - i
    · rw [if_pos hij, if_pos (by omega), if_pos (by omega), if_pos (by omega)]
    · rw [if_neg hij, if_neg (by omega)]
  · rw [List.getElem?_eq_none (by simp; omega), List.getElem?_eq_none (by simp; omega)]

/-- The local a slot stands for. -/
theorem Store.Names.slot {Γ : List Slot} {σ : Store Value} (h : Store.Names Γ σ) {i : Nat}
    (hi : findSlot Γ x = some i) : ∃ w, σ.locals.lookup x = some w ∧ σ.values[i]? = some w ∧
      ∀ v, ∃ locals, assignLocal x v σ.locals = some locals ∧
        ({ σ with locals } : Store Value).values = σ.values.set i v := by
  obtain ⟨j, hj, rfl⟩ := Option.map_eq_some_iff.mp hi
  have hnames : σ.locals.map Prod.fst = Γ.reverse.map Slot.name := by
    rw [List.map_reverse]
    exact h
  obtain ⟨w, hget, hlookup, hassign⟩ := lookup_of_findIdx hnames hj
  have hlt := (List.getElem?_eq_some_iff.mp hget).1
  have hlength := h.length
  refine ⟨w, hlookup, ?_, fun v => ⟨_, hassign v, ?_⟩⟩
  · unfold Store.values
    rw [List.getElem?_reverse (by rw [List.length_map]; omega), List.length_map,
      show σ.locals.length - 1 - (Γ.length - 1 - j) = j by omega, List.getElem?_map, hget]
    rfl
  · unfold Store.values
    dsimp only
    rw [List.map_set, reverse_set _ (by rwa [List.length_map]), List.length_map, hlength]

theorem Store.Names.no_slot {Γ : List Slot} {σ : Store Value} (h : Store.Names Γ σ)
    (hi : findSlot Γ x = none) :
    σ.locals.lookup x = none ∧ ∀ v, assignLocal x v σ.locals = none := by
  refine lookup_of_findIdx_none ?_ (Option.map_eq_none_iff.mp hi)
  rw [List.map_reverse]
  exact h

end

/-! ### Variables -/

theorem map_bind {ε α β γ : Type} (x : Except ε α) (f : α → Except ε β) (k : β → γ) :
    (x >>= f).map k = x >>= fun a => (f a).map k := by
  cases x <;> rfl

namespace Script

variable {P : Platform} {S : Script} {E : Env} {Γ : List Slot} {σ : Store Value} {ip : Nat}
  {temps : List Value} {v : Value} {x : Bytes} {ref : Ref} {is : List Instr}

/-- A name of a script is a slot or a global. -/
theorem Of.resolves (hS : S.Of E) (h : Resolves E Γ x ref) :
    (∃ i, ref = .local i ∧ findSlot Γ x = some i ∧ i ≤ 0xFFFF) ∨
      ∃ i, ref = .global i ∧ findSlot Γ x = none ∧ S.names[i]? = some x ∧ i ≤ 0xFFFF := by
  cases ref with
  | «local» i => exact .inl ⟨i, rfl, h.1, h.2⟩
  | upvalue j =>
      obtain ⟨-, hcaptures, -⟩ := h
      rw [hS.enclosing] at hcaptures
      exact absurd hcaptures id
  | global i =>
      obtain ⟨hnone, -, hname⟩ := h
      rw [hS.names] at hname
      have hlt := (List.getElem?_eq_some_iff.mp hname).1
      have hfew := hS.few
      exact .inr ⟨i, rfl, hnone, hname, by omega⟩

theorem evaluates_load (hS : S.Of E) (href : Resolves E Γ x ref) (hnames : Store.Names Γ σ)
    (hcode : S.Has ip [ref.load]) : S.Evaluates P (σ.config ip temps) σ.output
      ((σ.read (Value.operations P S.heap) x).map fun v => σ.config (ip + 3) (temps ++ [v])) := by
  unfold Store.read
  obtain ⟨i, rfl, hi, hle⟩ | ⟨i, rfl, hi, hname, hle⟩ := hS.resolves href
  · obtain ⟨w, hlookup, hvalue, -⟩ := hnames.slot hi
    have hslot : (σ.values ++ temps)[i]? = some w := by
      rwa [List.getElem?_append_left (List.getElem?_eq_some_iff.mp hvalue).1]
    rw [hlookup]
    have h := evaluates_short hcode hle (by decide) rfl
      (@computes_loadLocal P S (ip + 3) (σ.values ++ temps) w σ.globals σ.output i hslot)
    dsimp only
    by_cases hw : (Value.operations P S.heap).isUninitialized w = true
    · rw [if_pos hw]
      rw [if_pos (show w.isUninitialized = true from hw)] at h
      exact h
    rw [if_neg hw]
    rw [if_neg (show ¬ w.isUninitialized = true from hw)] at h
    change S.Evaluates P _ _ (.ok (σ.config (ip + 3) (temps ++ [w])))
    rw [Store.config_push]
    exact h
  · rw [(hnames.no_slot hi).1]
    have h := evaluates_short hcode hle (by decide) rfl
      (@computes_loadGlobal P S (ip + 3) (σ.values ++ temps) σ.globals σ.output i x hname)
    dsimp only
    by_cases hdefined : (!(σ.globals x).defined) = true
    · rw [if_pos hdefined] at h ⊢
      exact h
    rw [if_neg hdefined] at h ⊢
    by_cases hinitialized : (!(σ.globals x).initialized) = true
    · rw [if_pos hinitialized] at h ⊢
      exact h
    rw [if_neg hinitialized] at h ⊢
    change S.Evaluates P _ _ (.ok (σ.config (ip + 3) (temps ++ [(σ.globals x).value])))
    rw [Store.config_push]
    exact h

theorem evaluates_store (hS : S.Of E) (href : Resolves E Γ x ref) (hnames : Store.Names Γ σ)
    (hcode : S.Has ip [ref.store]) : S.Evaluates P (σ.config ip (temps ++ [v])) σ.output
      ((σ.write x v).map fun σ' => σ'.config (ip + 3) (temps ++ [v])) := by
  unfold Store.write
  rw [Store.config_push]
  obtain ⟨i, rfl, hi, hle⟩ | ⟨i, rfl, hi, hname, hle⟩ := hS.resolves href
  · obtain ⟨w, -, hvalue, hassign⟩ := hnames.slot hi
    obtain ⟨locals, hassign, hvalues⟩ := hassign v
    have hlt := (List.getElem?_eq_some_iff.mp hvalue).1
    rw [hassign]
    change S.Evaluates P _ _ (.ok (({ σ with locals } : Store Value).config (ip + 3) (temps ++ [v])))
    rw [Store.config_push, hvalues, ← List.set_append_left i v hlt]
    refine evaluates_short hcode hle (by decide) rfl (r := .ok _) ?_
    exact does_storeLocal (by rw [List.length_append]; omega)
  · rw [(hnames.no_slot hi).2 v]
    have h := evaluates_short hcode hle (by decide) rfl
      (@computes_storeGlobal P S (ip + 3) (σ.values ++ temps) v σ.globals σ.output i x hname)
    dsimp only
    by_cases hdefined : (!(σ.globals x).defined) = true
    · rw [if_pos hdefined] at h ⊢
      exact h
    rw [if_neg hdefined] at h ⊢
    by_cases hconst : (σ.globals x).isConst = true
    · rw [if_pos hconst] at h ⊢
      exact h
    rw [if_neg hconst] at h ⊢
    change S.Evaluates P _ _
      (.ok ((σ.setGlobal x { σ.globals x with value := v, initialized := true }).config (ip + 3)
        (temps ++ [v])))
    rw [Store.config_push]
    exact h

/-! ### Operators -/

section

variable {vs : List Value} {a b : Value} {g : Bytes → Cell Value} {out : Bytes}
  {r : Except Fault Value}

theorem evaluates_operator {op : OpCode} (hcode : S.Has ip [.op op]) (hop : op ≠ .return)
    (hcomputes : S.Computes P (execute P op) ⟨ip + 1, vs ++ [a, b], g, out⟩
      (result (ip + 1) vs g out r)) :
    S.Evaluates P ⟨ip, vs ++ [a, b], g, out⟩ out (result (ip + 1) vs g out r) :=
  evaluates hcode hop hcomputes

theorem evaluates_negated {op : OpCode} (hcode : S.Has ip ([.op op] ++ [.op .not]))
    (hop : op ≠ .return) (hcomputes : S.Computes P (execute P op) ⟨ip + 1, vs ++ [a, b], g, out⟩
      (result (ip + 1) vs g out r)) : S.Evaluates P ⟨ip, vs ++ [a, b], g, out⟩ out
        (result (ip + 2) vs g out (r.map Value.negated)) := by
  have hfirst := evaluates_operator hcode.left hop hcomputes
  cases r with
  | error fault => exact hfirst
  | ok v => exact Leads.trans hfirst (hops_op hcode.right (by decide) does_not).leads

/-- The opcodes of an operator compute what the operator means. -/
theorem evaluates_binary (hheap : S.heap.OnlyClosures) (op : BinaryOp)
    (hcode : S.Has ip (op.opcodes.map .op)) : S.Evaluates P ⟨ip, vs ++ [a, b], g, out⟩ out
      (result (ip + codeSize (op.opcodes.map .op)) vs g out (Value.binary S.heap op a b)) := by
  cases op with
  | add => exact evaluates_operator hcode (by decide) (computes_add hheap)
  | subtract => exact evaluates_operator hcode (by decide) computes_subtract
  | multiply => exact evaluates_operator hcode (by decide) computes_multiply
  | divide => exact evaluates_operator hcode (by decide) computes_divide
  | equal =>
      exact @evaluates_operator P S ip vs a b g out (.ok _) .equal hcode (by decide)
        (does_equal hheap)
  | notEqual =>
      exact @evaluates_negated P S ip vs a b g out (.ok _) .equal hcode (by decide)
        (does_equal hheap)
  | greater => exact evaluates_operator hcode (by decide) computes_greater
  | greaterEqual => exact evaluates_negated hcode (by decide) computes_less
  | less => exact evaluates_operator hcode (by decide) computes_less
  | lessEqual => exact evaluates_negated hcode (by decide) computes_greater

end

/-! ### Expressions -/

/-- The run of the code of an expression. -/
def EvaluatesTo (P : Platform) (S : Script) (σ : Store Value) (ip size : Nat) (temps : List Value)
    (e : Expr) : Prop :=
  S.Evaluates P (σ.config ip temps) σ.output
    ((e.evaluate (Value.operations P S.heap) σ).map fun r => r.2.config (ip + size) (temps ++ [r.1]))

/-- An instruction that pushes a value. -/
theorem leads_push {op : OpCode} (hcode : S.Has ip [.op op]) (hrun : execute P op = push P v)
    (hop : op ≠ .return) : S.Leads P (σ.config ip temps) (σ.config (ip + 1) (temps ++ [v])) := by
  rw [Store.config_push]
  exact (hops_push hcode hrun hop).leads

theorem leads_loadConstant (hS : S.Of E) {k : Nat} {constant : Constant ObjectFunction}
    (hk : k ≤ 0xFFFF) (h : E.constants[k]? = some constant) (hcode : S.Has ip [loadConstant k]) :
    S.Leads P (σ.config ip temps)
      (σ.config (ip + codeSize [loadConstant k]) (temps ++ [constant.toValue])) := by
  rw [Store.config_push]
  rw [hS.constants] at h
  exact (hops_loadConstant hk h hcode).leads

theorem leads_popTop (hcode : S.Has ip [.op .popTop]) :
    S.Leads P (σ.config ip (temps ++ [v])) (σ.config (ip + 1) temps) := by
  rw [Store.config_push]
  exact (hops_op hcode (by decide) does_popTop).leads

/-- A jump over the right operand takes the value of the left one with it. -/
theorem evaluates_shortCircuit {op : OpCode} {il ir : List Instr} {taken : Bool} {right : Expr}
    {a : Value × Store Value}
    (hcode : S.Has ip (il ++ [.short op (1 + codeSize ir), .op .popTop] ++ ir))
    (hjump : ∀ {ip : Nat}, S.Has ip [.short op (1 + codeSize ir)] →
      S.Hops P ⟨ip, a.2.values ++ temps ++ [a.1], a.2.globals, a.2.output⟩
        ⟨if taken then ip + 3 + (1 + codeSize ir) else ip + 3, a.2.values ++ temps ++ [a.1],
          a.2.globals, a.2.output⟩)
    (hright : S.Has (ip + codeSize il + 4) ir →
      S.EvaluatesTo P a.2 (ip + codeSize il + 4) (codeSize ir) temps right) :
    S.Evaluates P (a.2.config (ip + codeSize il) (temps ++ [a.1])) a.2.output
      ((if taken then .ok a else right.evaluate (Value.operations P S.heap) a.2).map fun r =>
        r.2.config (ip + codeSize (il ++ [.short op (1 + codeSize ir), .op .popTop] ++ ir))
          (temps ++ [r.1])) := by
  have hend : ip + codeSize (il ++ [.short op (1 + codeSize ir), .op .popTop] ++ ir) =
      ip + codeSize il + 4 + codeSize ir := by
    simp only [codeSize_append, codeSize_cons, codeSize_nil, Instr.size]
    omega
  have hpair : S.Has (ip + codeSize il) ([.short op (1 + codeSize ir)] ++ [.op .popTop]) :=
    hcode.left.right
  have hrest := hcode.right
  rw [codeSize_append, ← Nat.add_assoc] at hrest
  have hhop := (hjump hpair.left).leads
  rw [← Store.config_push] at hhop
  rw [hend]
  cases taken with
  | true =>
      change S.Leads P _ (a.2.config _ (temps ++ [a.1]))
      rw [Store.config_push a.2 (_ + codeSize ir)]
      rw [if_pos rfl, show ip + codeSize il + 3 + (1 + codeSize ir) =
        ip + codeSize il + 4 + codeSize ir by omega] at hhop
      exact hhop
  | false =>
      rw [if_neg (by decide), ← Store.config_push] at hhop
      exact (hhop.trans (leads_popTop hpair.right)).evaluates (hright hrest)

/-- What the induction shows of an expression: wherever its code stands, it computes what the
evaluator does. -/
def EvaluatesExpr (P : Platform) (S : Script) (E : Env) (Γ : List Slot) (e : Expr) : Prop :=
  e.structured = true → ∀ {is : List Instr}, ExprCode E Γ e is → ∀ {ip : Nat}, S.Has ip is →
    ∀ {σ : Store Value}, Store.Names Γ σ → ∀ temps, S.EvaluatesTo P σ ip (codeSize is) temps e

/-- 0 and 1 are pushed by instructions of their own, other integers are constants. -/
theorem evaluates_integer (hS : S.Of E) (i : Int64) : S.EvaluatesExpr P E Γ (.integer i) := by
  intro he is h ip hcode σ hnames temps
  unfold ExprCode at h
  split at h
  · rename_i hi
    obtain rfl := h
    rw [hi]
    exact leads_push hcode rfl (by decide)
  · split at h
    · rename_i hi
      obtain rfl := h
      rw [hi]
      exact leads_push hcode rfl (by decide)
    · obtain ⟨k, hk, hconstant, rfl⟩ := h
      exact leads_loadConstant hS hk hconstant hcode

theorem evaluates_variable (hS : S.Of E) (x : Bytes) : S.EvaluatesExpr P E Γ (.variable x) := by
  intro he is h ip hcode σ hnames temps
  obtain ⟨ref, href, rfl⟩ := h
  unfold EvaluatesTo Expr.evaluate
  rw [map_bind]
  have hsize : codeSize [ref.load] = 3 := by cases ref <;> rfl
  rw [hsize]
  exact (evaluates_load hS href hnames hcode).bind fun v _ => .refl _

theorem evaluates_assign (hS : S.Of E) (x : Bytes) {e : Expr} (hvalue : S.EvaluatesExpr P E Γ e) :
    S.EvaluatesExpr P E Γ (.assign x e) := by
  intro he is h ip hcode σ hnames temps
  obtain ⟨ref, ie, href, hie, rfl⟩ := h
  unfold EvaluatesTo Expr.evaluate
  rw [map_bind]
  refine (hvalue he hie hcode.left hnames temps).bind fun r hr => ?_
  have hkeeps := Expr.evaluate_keeps _ e hr
  have hsize : codeSize (ie ++ [ref.store]) = codeSize ie + 3 := by
    rw [codeSize_append]
    cases ref <;> rfl
  rw [map_bind, hsize, ← hkeeps.output, ← Nat.add_assoc]
  exact (evaluates_store hS href (hkeeps.named hnames) hcode.right).bind fun σ' _ => .refl _

theorem evaluates_not {e : Expr} (hoperand : S.EvaluatesExpr P E Γ e) :
    S.EvaluatesExpr P E Γ (.not e) := by
  intro he is h ip hcode σ hnames temps
  obtain ⟨ie, hie, rfl⟩ := h
  unfold EvaluatesTo Expr.evaluate
  rw [map_bind]
  refine (hoperand he hie hcode.left hnames temps).bind fun r hr => ?_
  rw [codeSize_append, ← Nat.add_assoc]
  change S.Leads P _ (r.2.config (ip + codeSize ie + 1) (temps ++ [r.1.negated]))
  rw [Store.config_push, Store.config_push]
  exact (hops_op hcode.right (by decide) does_not).leads

/-- The value of the left operand waits on the stack while the right one is computed. -/
theorem evaluates_operands (hS : S.Of E) (op : BinaryOp) {left right : Expr}
    (hl : S.EvaluatesExpr P E Γ left) (hr : S.EvaluatesExpr P E Γ right) :
    S.EvaluatesExpr P E Γ (.binary op left right) := by
  intro he is h ip hcode σ hnames temps
  obtain ⟨il, ir, hil, hir, rfl⟩ := h
  obtain ⟨hleft, hright⟩ := Bool.and_eq_true_iff.mp he
  unfold EvaluatesTo Expr.evaluate
  rw [map_bind]
  refine (hl hleft hil hcode.left.left hnames temps).bind fun a ha => ?_
  have hkeeps := Expr.evaluate_keeps _ left ha
  rw [map_bind, ← hkeeps.output]
  refine (hr hright hir hcode.left.right (hkeeps.named hnames) (temps ++ [a.1])).bind
    fun b hb => ?_
  have hkeeps' := Expr.evaluate_keeps _ right hb
  have hop := hcode.right
  rw [codeSize_append, ← Nat.add_assoc] at hop
  rw [map_bind, ← hkeeps'.output, codeSize_append, codeSize_append, ← Nat.add_assoc,
    ← Nat.add_assoc]
  have hrun := @evaluates_binary P S (ip + codeSize il + codeSize ir) (b.2.values ++ temps) a.1
    b.1 b.2.globals b.2.output hS.heap op hop
  have hconfig : b.2.config (ip + codeSize il + codeSize ir) (temps ++ [a.1] ++ [b.1]) =
      ⟨ip + codeSize il + codeSize ir, b.2.values ++ temps ++ [a.1, b.1], b.2.globals,
        b.2.output⟩ := by
    simp only [Store.config, List.append_assoc, List.singleton_append]
  rw [hconfig]
  refine hrun.bind fun v _ => ?_
  change S.Leads P _ (b.2.config _ (temps ++ [v]))
  rw [Store.config_push]
  exact .refl _

theorem evaluates_and {left right : Expr} (hl : S.EvaluatesExpr P E Γ left)
    (hr : S.EvaluatesExpr P E Γ right) : S.EvaluatesExpr P E Γ (.and left right) := by
  intro he is h ip hcode σ hnames temps
  obtain ⟨il, ir, hil, hir, hfits, rfl⟩ := h
  obtain ⟨hleft, hright⟩ := Bool.and_eq_true_iff.mp he
  unfold EvaluatesTo Expr.evaluate
  rw [map_bind]
  refine (hl hleft hil hcode.left.left hnames temps).bind fun a ha => ?_
  have hkeeps := Expr.evaluate_keeps _ left ha
  rw [← hkeeps.output]
  exact evaluates_shortCircuit hcode (fun hjump => hops_jumpIfFalse hjump hfits)
    fun hright' => hr hright hir hright' (hkeeps.named hnames) temps

theorem evaluates_or {left right : Expr} (hl : S.EvaluatesExpr P E Γ left)
    (hr : S.EvaluatesExpr P E Γ right) : S.EvaluatesExpr P E Γ (.or left right) := by
  intro he is h ip hcode σ hnames temps
  obtain ⟨il, ir, hil, hir, hfits, rfl⟩ := h
  obtain ⟨hleft, hright⟩ := Bool.and_eq_true_iff.mp he
  unfold EvaluatesTo Expr.evaluate
  rw [map_bind]
  refine (hl hleft hil hcode.left.left hnames temps).bind fun a ha => ?_
  have hkeeps := Expr.evaluate_keeps _ left ha
  -- the jump is taken if the left operand holds
  have hrun := @evaluates_shortCircuit P S ip temps .jumpIfTrue il ir (!a.1.isFalsey) right a
    hcode (fun hjump => hops_jumpIfTrue hjump hfits)
    fun hright' => hr hright hir hright' (hkeeps.named hnames) temps
  rw [← hkeeps.output]
  by_cases hfalsey : (Value.operations P S.heap).isFalsey a.1 = true
  · rw [if_pos hfalsey]
    rw [show a.1.isFalsey = true from hfalsey] at hrun
    exact hrun
  · rw [if_neg hfalsey]
    rw [show a.1.isFalsey = false from Bool.eq_false_iff.mpr hfalsey] at hrun
    exact hrun

/-- **The code of an expression computes what the evaluator does**, for every expression of the
fragment. -/
theorem evaluates_expr (hS : S.Of E) (e : Expr) : S.EvaluatesExpr P E Γ e := by
  cases e with
  | nil =>
      intro he is h ip hcode σ hnames temps
      obtain rfl := h
      exact leads_push hcode rfl (by decide)
  | boolean b =>
      intro he is h ip hcode σ hnames temps
      obtain rfl := h
      cases b with
      | true => exact leads_push hcode rfl (by decide)
      | false => exact leads_push hcode rfl (by decide)
  | integer i => exact evaluates_integer hS i
  | real bits =>
      intro he is h ip hcode σ hnames temps
      obtain ⟨k, hk, hconstant, rfl⟩ := h
      exact leads_loadConstant hS hk hconstant hcode
  | string s =>
      intro he is h ip hcode σ hnames temps
      obtain ⟨k, hk, hconstant, rfl⟩ := h
      exact leads_loadConstant hS hk hconstant hcode
  | «variable» x => exact evaluates_variable hS x
  | assign x e => exact evaluates_assign hS x (evaluates_expr hS e)
  | not e => exact evaluates_not (evaluates_expr hS e)
  | binary op left right =>
      exact evaluates_operands hS op (evaluates_expr hS left) (evaluates_expr hS right)
  | and left right => exact evaluates_and (evaluates_expr hS left) (evaluates_expr hS right)
  | or left right => exact evaluates_or (evaluates_expr hS left) (evaluates_expr hS right)
  | _ =>
      intro he
      cases he

end Script

end CppLox
