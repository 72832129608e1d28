import CppLox.Semantics.Simulation

/-!
# Semantics — the code of statements

A run of the code of a statement does what the evaluator does, by induction on the statement.
-/

namespace CppLox

open VMM VM SmallStep

namespace Script

variable {P : Platform} {S : Script} {E : Env} {Γ Γ' Δ : List Slot} {σ : Store Value}
  {ip n fuel stop stop' : Nat} {v : Value} {is : List Instr} {loop : Option Loop} {c : Config}
  {r : Result Value}

/-- Code behind a statement that leaves the store as it is. -/
theorem Simulates.trans (h : S.Simulates P loop Δ Γ fuel c stop r)
    (h' : ∀ σ : Store Value, S.Leads P (σ.config stop []) (σ.config stop' [])) :
    S.Simulates P loop Δ Γ fuel c stop' r := by
  cases r with
  | done σ => exact ⟨h.1.trans (h' σ), h.2⟩
  | again σ => exact h
  | failed fault output => exact h
  | outOfFuel output => exact h

theorem leads_popJumpIfFalse (hcode : S.Has ip [.short .popJumpIfFalse n]) (hn : JumpFits n) :
    S.Leads P (σ.config ip [v]) (σ.config (if v.isFalsey then ip + 3 + n else ip + 3) []) := by
  unfold Store.config
  rw [List.append_nil]
  exact (hops_popJumpIfFalse hcode hn).leads

theorem hops_forward (hcode : S.Has ip [.short .jumpForward n]) (hn : JumpFits n)
    (σ : Store Value) (temps : List Value) :
    S.Hops P (σ.config ip temps) (σ.config (ip + 3 + n) temps) :=
  hops_jumpForward hcode hn

theorem hops_backward {target : Nat} (hcode : S.Has ip [.short .jumpBackward n]) (hn : JumpFits n)
    (htarget : target + n = ip + 3) (σ : Store Value) (temps : List Value) :
    S.Hops P (σ.config ip temps) (σ.config target temps) := by
  obtain rfl : target = ip + 3 - n := by omega
  exact hops_jumpBackward hcode hn (by omega)

/-- The condition of a loop and the jump behind it. -/
theorem evaluates_condition (hS : S.Of E) {e : Expr} (he : e.structured = true)
    (h : ExprCode E Γ e is) (hcode : S.Has ip (is ++ [.short .popJumpIfFalse n])) (hn : JumpFits n)
    (hnames : Store.Names Γ σ) : S.Evaluates P (σ.config ip []) σ.output
      ((evaluateCondition (Value.operations P S.heap) (some e) σ).map fun r =>
        r.2.config (if r.1 then ip + codeSize is + 3 else ip + codeSize is + 3 + n) []) := by
  unfold evaluateCondition
  rw [map_bind]
  refine (evaluates_expr hS e he h hcode.left hnames []).bind fun r hr => ?_
  have hjump := @leads_popJumpIfFalse P S r.2 _ n r.1 hcode.right hn
  change S.Leads P _ (r.2.config (if !r.1.isFalsey then _ else _) [])
  cases hfalsey : r.1.isFalsey with
  | true =>
      rw [hfalsey] at hjump
      exact hjump
  | false =>
      rw [hfalsey] at hjump
      exact hjump

theorem evaluateCondition_keeps {ops : Operations Value} {e : Option Expr} {σ : Store Value}
    {c : Bool × Store Value} (h : evaluateCondition ops e σ = .ok c) : σ.Keeps c.2 := by
  cases e with
  | none =>
      cases h
      exact .refl σ
  | some e =>
      obtain ⟨r, hr, h⟩ := Except.bind_eq_ok.mp h
      have hkeeps := Expr.evaluate_keeps ops e hr
      cases h
      exact hkeeps

theorem evaluateIncrement_keeps {ops : Operations Value} {e : Option Expr} {σ σ' : Store Value}
    (h : evaluateIncrement ops e σ = .ok σ') : σ.Keeps σ' := by
  cases e with
  | none =>
      cases h
      exact .refl σ
  | some e =>
      obtain ⟨r, hr, h⟩ := Except.bind_eq_ok.mp h
      have hkeeps := Expr.evaluate_keeps ops e hr
      cases h
      exact hkeeps

/-- The code of a `while`, given the run of its body. -/
theorem loopCode_while (hS : S.Of E) {e : Expr} {ib : List Instr} (he : e.structured = true)
    (h : ExprCode E Γ e is) (hbodyFits : JumpFits (codeSize ib + 3))
    (hloopFits : JumpFits (codeSize is + 3 + codeSize ib + 3))
    (hcode : S.Has ip (is ++ [.short .popJumpIfFalse (codeSize ib + 3)] ++ ib ++
      [.short .jumpBackward (codeSize is + 3 + codeSize ib + 3)]))
    {body : Nat → Store Value → Result Value}
    (hbody : ∀ fuel σ, Store.Names Γ σ → S.Simulates P (some ⟨ip, Γ.length⟩) Γ Γ fuel
      (σ.config (ip + codeSize is + 3) []) (ip + codeSize is + 3 + codeSize ib) (body fuel σ)) :
    LoopCode P S Γ ip (ip + codeSize is + 3) (ip + codeSize is + 3 + codeSize ib) ip
      (ip + codeSize is + 3 + (codeSize ib + 3))
      (evaluateCondition (Value.operations P S.heap) (some e)) body .ok where
  test σ hnames := evaluates_condition hS he h hcode.left.left hbodyFits hnames
  run := hbody
  back σ := by
    have hback := hcode.right
    simp only [codeSize_append, codeSize_cons, codeSize_nil, Instr.size, ← Nat.add_assoc,
      Nat.add_zero] at hback
    exact hops_backward hback hloopFits (by omega) σ []
  step σ _ := .refl _
  testKeeps _ _ := evaluateCondition_keeps
  stepKeeps σ σ' hσ := by
    cases hσ
    exact .refl σ

/-- The code of a `for` behind its initializer, given the run of its body. -/
theorem loopCode_for (hS : S.Of E) {condition increment : Option Expr} {head ib : List Instr}
    {start : Nat} (hcondition : condition.all Expr.structured = true)
    (hincrement : increment.all Expr.structured = true)
    (h : ForHead E Γ condition increment (codeSize ib + 3) head start)
    (hloopFits : JumpFits (codeSize head + codeSize ib + 3 - start))
    (hcode : S.Has ip (head ++ ib ++
      [.short .jumpBackward (codeSize head + codeSize ib + 3 - start)]))
    {body : Nat → Store Value → Result Value}
    (hbody : ∀ fuel σ, Store.Names Γ σ → S.Simulates P (some ⟨ip + start, Γ.length⟩) Γ Γ fuel
      (σ.config (ip + codeSize head) []) (ip + codeSize head + codeSize ib) (body fuel σ)) :
    LoopCode P S Γ ip (ip + codeSize head) (ip + codeSize head + codeSize ib) (ip + start)
      (ip + codeSize head + codeSize ib + 3)
      (evaluateCondition (Value.operations P S.heap) condition) body
      (evaluateIncrement (Value.operations P S.heap) increment) := by
  obtain ⟨ic, ii, hc, hi, rfl⟩ := h
  have hstart : start ≤ codeSize (ic ++ ii) := by
    cases increment with
    | none =>
        obtain ⟨-, rfl⟩ := hi
        exact Nat.zero_le _
    | some e =>
        obtain ⟨ie, -, -, -, rfl, rfl⟩ := hi
        simp only [codeSize_append, codeSize_cons, Instr.size]
        omega
  have hsize : codeSize (ic ++ ii) = codeSize ic + codeSize ii := codeSize_append ic ii
  -- from behind the condition to the body, over the increment
  have henter : ∀ σ : Store Value, S.Leads P (σ.config (ip + codeSize ic) [])
      (σ.config (ip + codeSize (ic ++ ii)) []) := by
    intro σ
    have hii := hcode.left.left.right
    cases increment with
    | none =>
        obtain ⟨rfl, -⟩ := hi
        rw [List.append_nil]
        exact .refl _
    | some e =>
        obtain ⟨ie, -, hfits, -, rfl, rfl⟩ := hi
        have hjump := (hops_forward hii.left.left hfits σ [] : S.Hops P _ _).leads
        rw [hsize]
        simp only [codeSize_append, codeSize_cons, codeSize_nil, Instr.size]
        rw [show ip + codeSize ic + 3 + (codeSize ie + 4) =
          ip + (codeSize ic + (3 + 0 + codeSize ie + (1 + (3 + 0)))) by omega] at hjump
        exact hjump
  refine ⟨fun σ hnames => ?_, hbody, fun σ => ?_, fun σ hnames => ?_,
    fun _ _ => evaluateCondition_keeps, fun _ _ => evaluateIncrement_keeps⟩
  · cases condition with
    | none =>
        obtain rfl := hc
        have hleads := henter σ
        rw [codeSize_nil, Nat.add_zero] at hleads
        exact hleads
    | some e =>
        obtain ⟨ie, hie, hfits, rfl⟩ := hc
        have hrun := @evaluates_condition P S E Γ σ ip (codeSize ii + (codeSize ib + 3)) ie hS e
          hcondition hie hcode.left.left.left hfits hnames
        have hie : codeSize (ie ++ [.short .popJumpIfFalse (codeSize ii + (codeSize ib + 3))]) =
            codeSize ie + 3 := by
          simp only [codeSize_append, codeSize_cons, codeSize_nil, Instr.size]
        cases hr : evaluateCondition (Value.operations P S.heap) (some e) σ with
        | error fault =>
            rw [hr] at hrun
            exact hrun
        | ok r =>
            rw [hr] at hrun
            refine Leads.trans hrun ?_
            dsimp only
            cases hgo : r.1 with
            | true =>
                rw [if_pos rfl, if_pos rfl]
                have hleads := henter r.2
                rw [hie, ← Nat.add_assoc] at hleads
                exact hleads
            | false =>
                rw [if_neg (by decide), if_neg (by decide), hsize, hie]
                rw [show ip + (codeSize ie + 3 + codeSize ii) + codeSize ib + 3 =
                  ip + codeSize ie + 3 + (codeSize ii + (codeSize ib + 3)) by omega]
                exact .refl _
  · have hback := hcode.right
    rw [codeSize_append, ← Nat.add_assoc] at hback
    exact hops_backward hback hloopFits (by omega) σ []
  · cases increment with
    | none =>
        obtain ⟨-, rfl⟩ := hi
        exact .refl _
    | some e =>
        obtain ⟨ie, hie, -, hfits, rfl, rfl⟩ := hi
        have hii := hcode.left.left.right
        have hexpr := hii.left.right
        have hend := hii.right
        have hpair : S.Has _ ([.op .popTop] ++
          [.short .jumpBackward (codeSize ic + 3 + codeSize ie + 4)]) := hend
        simp only [codeSize_append, codeSize_cons, codeSize_nil, Instr.size, Nat.add_zero,
          ← Nat.add_assoc] at hexpr hpair ⊢
        unfold evaluateIncrement
        rw [map_bind]
        refine (evaluates_expr hS e hincrement hie hexpr hnames []).bind fun r hr => ?_
        refine (leads_popTop hpair.left).trans ?_
        exact (hops_backward hpair.right hfits
          (by simp only [codeSize_cons, codeSize_nil, Instr.size]; omega) r.2 []).leads

/-! ### `continue` and `switch` -/

/-- A `continue` pops the locals of the body and jumps to the loop. -/
theorem simulates_continue {l : Loop} {target : Nat} (hslots : l.slots = Δ.length) (hΔ : Δ <+: Γ)
    (hle : l.start ≤ ip) (hfits : JumpFits (ip + (Γ.length - l.slots) + 3 - l.start))
    (hcode : S.Has ip (List.replicate (Γ.length - l.slots) (.op .popTop) ++
      [.short .jumpBackward (ip + (Γ.length - l.slots) + 3 - l.start)]))
    (hnames : Store.Names Γ σ) :
    S.Simulates P (some l) Δ Γ' fuel (σ.config ip []) target (.again σ) := by
  have hlength := hnames.length
  have hprefix := hΔ.length_le
  have hpops := @leads_leave P S ip _ σ Δ.length (by omega)
    (by rw [List.length_replicate, hslots, hlength])
    (fun i hi => .inl (List.eq_of_mem_replicate hi)) hcode.left
  have hsize : codeSize (List.replicate (Γ.length - l.slots) (.op .popTop)) =
      Γ.length - l.slots := by
    generalize Γ.length - l.slots = k
    induction k with
    | zero => rfl
    | succ k ih =>
        rw [List.replicate_succ, codeSize_cons, ih]
        exact Nat.add_comm 1 k
  have hback := hcode.right
  rw [hsize] at hback
  rw [List.length_replicate] at hpops
  exact ⟨l, rfl, ⟨_, hpops, hops_backward hback hfits (by omega) _ []⟩, hnames.leave hΔ⟩

/-- The slots of an arm: those around the `switch` and its value. -/
def armSlots (Γ : List Slot) (captured : Bool) : List Slot := Γ ++ [⟨switchVariableName, captured⟩]

theorem names_armSlots {captured : Bool} (h : Store.Names (armSlots Γ false) σ) :
    Store.Names (armSlots Γ captured) σ := by
  unfold Store.Names armSlots at *
  rw [h, List.map_append, List.map_append]
  rfl

theorem names_declare (hnames : Store.Names Γ σ) :
    Store.Names (armSlots Γ false) (σ.declare switchVariableName v) := by
  unfold Store.Names armSlots Store.declare
  rw [List.map_cons, hnames, List.map_append, List.reverse_append]
  rfl

theorem config_declare (σ : Store Value) (x : Bytes) (v : Value) (ip : Nat) :
    (σ.declare x v).config ip [] = σ.config ip [v] := by
  unfold Store.config Store.values Store.declare
  rw [List.map_cons, List.reverse_cons, List.append_nil]

/-- The value of the `switch` is the last one on the stack. -/
theorem values_top {ops : Operations Value} (hnames : Store.Names (armSlots Γ false) σ) :
    ∃ vs, σ.values = vs ++ [σ.top ops] := by
  unfold Store.Names armSlots at hnames
  unfold Store.top Store.values
  cases hlocals : σ.locals with
  | nil =>
      rw [hlocals, List.map_append, List.reverse_append] at hnames
      cases hnames
  | cons entry locals => exact ⟨_, List.reverse_cons ..⟩

/-- The label of an arm is compared with the value of the `switch`, and a jump is taken if they
differ. -/
theorem evaluates_label (hS : S.Of E) {label : Expr} {il : List Instr}
    (hlabel : label.structured = true) {captured : Bool}
    (hil : ExprCode E (armSlots Γ captured) label il)
    (hcode : S.Has ip ([.op .dupTop] ++ il ++ [.op .equal, .short .popJumpIfFalse n]))
    (hn : JumpFits n) (hnames : Store.Names (armSlots Γ false) σ) :
    S.Evaluates P (σ.config ip []) σ.output
      ((label.evaluate (Value.operations P S.heap) σ).map fun r => r.2.config
        (if (Value.isEqual S.heap (σ.top (Value.operations P S.heap)) r.1).isFalsey then
          ip + codeSize il + 5 + n else ip + codeSize il + 5) []) := by
  obtain ⟨vs, hvs⟩ := @values_top Γ σ (Value.operations P S.heap) hnames
  have hdup : S.Leads P (σ.config ip []) (σ.config (ip + 1) [σ.top (Value.operations P S.heap)]) := by
    unfold Store.config
    rw [List.append_nil, hvs]
    exact (hops_op hcode.left.left (by decide) does_dupTop).leads
  have hrun := hdup.evaluates (evaluates_expr hS label hlabel hil
    (by simpa [codeSize_cons, Instr.size] using hcode.left.right) (names_armSlots hnames)
    [σ.top (Value.operations P S.heap)])
  cases hr : label.evaluate (Value.operations P S.heap) σ with
  | error fault =>
      rw [hr] at hrun
      exact hrun
  | ok r =>
      rw [hr] at hrun
      refine Leads.trans hrun ?_
      have hpair := hcode.right
      rw [codeSize_append, ← Nat.add_assoc] at hpair
      have hpair : S.Has (ip + 1 + codeSize il)
        ([.op .equal] ++ [.short .popJumpIfFalse n]) := hpair
      have hequal := @hops_op P S _ (ip + 1 + codeSize il)
        (r.2.values ++ [σ.top (Value.operations P S.heap), r.1]) r.2.globals r.2.output .equal
        hpair.left (by decide) (does_equal hS.heap)
      have hjump := @hops_popJumpIfFalse P S _ n r.2.values
        (Value.isEqual S.heap (σ.top (Value.operations P S.heap)) r.1) r.2.globals r.2.output
        hpair.right hn
      have hleads := hequal.leads.trans hjump.leads
      dsimp only
      unfold Store.config
      rw [List.append_nil]
      rw [show ip + 1 + codeSize il + codeSize [.op .equal] + 3 = ip + codeSize il + 5 by
        simp only [codeSize_cons, codeSize_nil, Instr.size]; omega] at hleads
      exact hleads

/-! ### Statements -/

/-- A statement of the fragment only adds slots. -/
theorem stmtCode_extends {s : Stmt} (hs : s.structured = true) {p : Place}
    (h : StmtCode s p Γ is Γ') : Γ <+: Γ' := by
  cases s with
  | empty => exact h.2 ▸ List.prefix_refl _
  | expression e =>
      obtain ⟨ie, -, -, rfl⟩ := h
      exact List.prefix_refl _
  | print e =>
      obtain ⟨ie, -, -, rfl⟩ := h
      exact List.prefix_refl _
  | var x initializer =>
      cases initializer with
      | none =>
          obtain ⟨id, hdefine, -⟩ := h
          exact defineCode_extends hdefine
      | some e =>
          obtain ⟨ie, id, hdefine, -⟩ := h
          exact defineCode_extends hdefine
  | const x e =>
      obtain ⟨ie, id, hdefine, -⟩ := h
      exact defineCode_extends hdefine
  | block body =>
      obtain ⟨ib, Γb, -, -, rfl⟩ := h
      exact List.prefix_refl _
  | «if» c t =>
      obtain ⟨ic, it, -, -, -, -, rfl⟩ := h
      exact List.prefix_refl _
  | ifElse c t e =>
      obtain ⟨ic, it, ie, -, -, -, -, -, -, rfl⟩ := h
      exact List.prefix_refl _
  | «while» c b =>
      obtain ⟨ic, ib, -, -, -, -, -, rfl⟩ := h
      exact List.prefix_refl _
  | «for» init c i b =>
      obtain ⟨ii, Γi, head, start, ib, -, -, -, -, -, rfl⟩ := h
      exact List.prefix_refl _
  | switch e cases =>
      obtain ⟨ie, ic, -, -, -, rfl⟩ := h
      exact List.prefix_refl _
  | «continue» =>
      obtain ⟨l, -, -, -, -, -, rfl⟩ := h
      exact List.prefix_refl _
  | function x params body => cases hs
  | «class» x superclass methods => cases hs
  | «return» value => cases hs

theorem stmtsCode_extends (ss : Stmts) : ss.structured = true → ∀ {p : Place} {Γ : List Slot}
    {is : List Instr} {Γ' : List Slot}, StmtsCode ss p Γ is Γ' → Γ <+: Γ' := by
  intro hs p Γ is Γ' h
  cases ss with
  | nil => exact h.2 ▸ List.prefix_refl _
  | cons s ss =>
      obtain ⟨hfirst, hrest⟩ := Bool.and_eq_true_iff.mp hs
      obtain ⟨i, Γ₁, is', hi, his', -⟩ := h
      exact (stmtCode_extends hfirst hi).trans (stmtsCode_extends ss hrest his')

/-- The loop a place is in has the slots `Δ`. -/
def InLoop (p : Place) (Δ Γ : List Slot) : Prop :=
  ∀ l, p.loop = some l → l.slots = Δ.length ∧ Δ <+: Γ

theorem InLoop.extend {p q : Place} (h : InLoop p Δ Γ) (hloop : q.loop = p.loop) (hΓ : Γ <+: Γ') :
    InLoop q Δ Γ' := by
  intro l hl
  obtain ⟨hslots, hΔ⟩ := h l (hloop.symm.trans hl)
  exact ⟨hslots, hΔ.trans hΓ⟩

theorem depth_nested (p : Place) : true = true ↔ p.nested.depth ≠ 0 :=
  iff_of_true rfl (Nat.succ_ne_zero _)

theorem inLoop_self (p : Place) (start : Nat) : InLoop (p.inLoop start Γ.length) Γ Γ := by
  intro l hl
  cases hl
  exact ⟨rfl, List.prefix_refl _⟩

/-- What the induction shows of a statement: wherever its code stands, a run of it does what the
evaluator does. Each form of statement has its own lemma, with this of the statements in it. -/
def SimulatesStmt (P : Platform) (S : Script) (E : Env) (s : Stmt) : Prop :=
  s.structured = true → ∀ {p : Place} {Γ : List Slot} {is : List Instr} {Γ' : List Slot},
    p.env = E → StmtCode s p Γ is Γ' → S.Has p.pos is → ∀ {Δ : List Slot}, InLoop p Δ Γ →
    ∀ {inScope : Bool}, (inScope = true ↔ p.depth ≠ 0) → ∀ {σ : Store Value}, Store.Names Γ σ →
    ∀ fuel, S.Simulates P p.loop Δ Γ' fuel (σ.config p.pos []) (p.pos + codeSize is)
      (s.execute (Value.operations P S.heap) inScope fuel σ)

def SimulatesStmts (P : Platform) (S : Script) (E : Env) (ss : Stmts) : Prop :=
  ss.structured = true → ∀ {p : Place} {Γ : List Slot} {is : List Instr} {Γ' : List Slot},
    p.env = E → StmtsCode ss p Γ is Γ' → S.Has p.pos is → ∀ {Δ : List Slot}, InLoop p Δ Γ →
    ∀ {inScope : Bool}, (inScope = true ↔ p.depth ≠ 0) → ∀ {σ : Store Value}, Store.Names Γ σ →
    ∀ fuel, S.Simulates P p.loop Δ Γ' fuel (σ.config p.pos []) (p.pos + codeSize is)
      (ss.execute (Value.operations P S.heap) inScope fuel σ)

def SimulatesCases (P : Platform) (S : Script) (E : Env) (cs : Cases) : Prop :=
  cs.structured = true → ∀ {p : Place} {Γ : List Slot} {is : List Instr}, p.env = E →
    CasesCode cs p Γ is → S.Has p.pos is → ∀ {Δ : List Slot}, InLoop p Δ Γ →
    ∀ {σ : Store Value}, Store.Names (armSlots Γ false) σ →
    ∀ fuel, S.Simulates P p.loop Δ Γ fuel (σ.config p.pos []) (p.pos + codeSize is)
      (cs.execute (Value.operations P S.heap) Γ.length fuel σ)

theorem simulates_expression (hS : S.Of E) (e : Expr) : S.SimulatesStmt P E (.expression e) := by
  intro hs p Γ is Γ' hE h hcode Δ hloop inScope hscope σ hnames fuel
  obtain ⟨ie, hie, rfl, rfl⟩ := h
  rw [hE] at hie
  refine (evaluates_expr hS e hs hie hcode.left hnames []).attempt fun r hr => ?_
  rw [codeSize_append, ← Nat.add_assoc]
  exact ⟨leads_popTop hcode.right, (Expr.evaluate_keeps _ e hr).named hnames⟩

theorem simulates_print (hS : S.Of E) (e : Expr) : S.SimulatesStmt P E (.print e) := by
  intro hs p Γ is Γ' hE h hcode Δ hloop inScope hscope σ hnames fuel
  obtain ⟨ie, hie, rfl, rfl⟩ := h
  rw [hE] at hie
  refine (evaluates_expr hS e hs hie hcode.left hnames []).attempt fun r hr => ?_
  rw [codeSize_append, ← Nat.add_assoc]
  refine ⟨?_, (Expr.evaluate_keeps _ e hr).named hnames⟩
  rw [Store.config_push]
  exact (hops_op hcode.right (by decide) (does_print hS.heap)).leads

theorem simulates_var (hS : S.Of E) (x : Bytes) (initializer : Option Expr) :
    S.SimulatesStmt P E (.var x initializer) := by
  intro hs p Γ is Γ' hE h hcode Δ hloop inScope hscope σ hnames fuel
  cases initializer with
  | none =>
      obtain ⟨id, hdefine, rfl⟩ := h
      have hpush := @leads_push P S σ p.pos [] (.nil true) .uninitialized hcode.left rfl
        (by decide)
      rw [codeSize_append, ← Nat.add_assoc]
      exact hpush.simulates (simulates_define (hE ▸ hS) hdefine hcode.right hnames hscope)
  | some e =>
      obtain ⟨ie, id, hdefine, hie, rfl⟩ := h
      exact simulates_declareWith (hE ▸ hS) hs hie hdefine hcode hnames hscope

/-- The locals of a block are popped where it ends. -/
theorem simulates_block {body : Stmts} (hbody : S.SimulatesStmts P E body) :
    S.SimulatesStmt P E (.block body) := by
  intro hs p Γ is Γ' hE h hcode Δ hloop inScope hscope σ hnames fuel
  obtain ⟨ib, Γb, hib, rfl, rfl⟩ := h
  have hprefix := stmtsCode_extends body hs hib
  have hrun := hbody hs (p := p.nested) hE hib hcode.left
    (hloop.extend rfl (List.prefix_refl _)) (depth_nested p) hnames fuel
  have hexecute : (Stmt.block body).execute (Value.operations P S.heap) inScope fuel σ =
      (body.execute (Value.operations P S.heap) true fuel σ).endScope Γ'.length :=
    congrArg (Result.endScope · _) hnames.length
  rw [codeSize_append, ← Nat.add_assoc, hexecute]
  exact hrun.endScope hprefix hcode.right

theorem simulates_if (hS : S.Of E) (c : Expr) {t : Stmt} (hthen : S.SimulatesStmt P E t) :
    S.SimulatesStmt P E (.if c t) := by
  intro hs p Γ is Γ' hE h hcode Δ hloop inScope hscope σ hnames fuel
  obtain ⟨ic, it, hic, hit, hfits, rfl, rfl⟩ := h
  obtain ⟨hc, ht⟩ := Bool.and_eq_true_iff.mp hs
  rw [hE] at hic
  refine (evaluates_expr hS c hc hic hcode.left.left hnames []).attempt fun r hr => ?_
  have hnames₁ := (Expr.evaluate_keeps _ c hr).named hnames
  have hthenCode := hcode.right
  rw [codeSize_append, ← Nat.add_assoc] at hthenCode
  rw [codeSize_append, codeSize_append, ← Nat.add_assoc, ← Nat.add_assoc]
  refine (leads_popJumpIfFalse hcode.left.right hfits).simulates ?_
  by_cases hfalsey : (Value.operations P S.heap).isFalsey r.1 = true
  · rw [if_pos hfalsey, if_pos (show r.1.isFalsey = true from hfalsey)]
    exact ⟨.refl _, hnames₁⟩
  · rw [if_neg hfalsey, if_neg (show ¬ r.1.isFalsey = true from hfalsey)]
    exact hthen ht (p := p.after (codeSize ic + 3)) hE hit hthenCode
      (hloop.extend rfl (List.prefix_refl _)) hscope hnames₁ fuel

/-- The first branch jumps over the second one. -/
theorem simulates_ifElse (hS : S.Of E) (c : Expr) {t e : Stmt} (hthen : S.SimulatesStmt P E t)
    (helse : S.SimulatesStmt P E e) : S.SimulatesStmt P E (.ifElse c t e) := by
  intro hs p Γ is Γ' hE h hcode Δ hloop inScope hscope σ hnames fuel
  obtain ⟨ic, it, ie, hic, hit, hie, hfits, hfits', rfl, rfl⟩ := h
  obtain ⟨hct, he⟩ := Bool.and_eq_true_iff.mp hs
  obtain ⟨hc, ht⟩ := Bool.and_eq_true_iff.mp hct
  rw [hE] at hic
  refine (evaluates_expr hS c hc hic hcode.left.left.left.left hnames []).attempt
    fun r hr => ?_
  have hnames₁ := (Expr.evaluate_keeps _ c hr).named hnames
  have hthenCode := hcode.left.left.right
  have hover := hcode.left.right
  have helseCode := hcode.right
  simp only [codeSize_append, codeSize_cons, codeSize_nil, Instr.size, Nat.add_zero,
    ← Nat.add_assoc] at hthenCode hover helseCode ⊢
  refine (leads_popJumpIfFalse hcode.left.left.left.right hfits).simulates ?_
  by_cases hfalsey : (Value.operations P S.heap).isFalsey r.1 = true
  · rw [if_pos hfalsey, if_pos (show r.1.isFalsey = true from hfalsey)]
    have hrun := helse he (p := p.after (codeSize ic + 3 + codeSize it + 3)) hE hie
      (by simpa only [Place.after, ← Nat.add_assoc] using helseCode)
      (hloop.extend rfl (List.prefix_refl _)) hscope hnames₁ fuel
    simpa only [Place.after, ← Nat.add_assoc] using hrun
  · rw [if_neg hfalsey, if_neg (show ¬ r.1.isFalsey = true from hfalsey)]
    have hrun := hthen ht (p := p.after (codeSize ic + 3)) hE hit hthenCode
      (hloop.extend rfl (List.prefix_refl _)) hscope hnames₁ fuel
    exact hrun.trans fun σ => (hops_forward hover hfits' σ []).leads

theorem simulates_while (hS : S.Of E) (c : Expr) {b : Stmt} (hbody : S.SimulatesStmt P E b) :
    S.SimulatesStmt P E (.while c b) := by
  intro hs p Γ is Γ' hE h hcode Δ hloop inScope hscope σ hnames fuel
  obtain ⟨ic, ib, hic, hib, hfits, hfits', rfl, rfl⟩ := h
  obtain ⟨hc, hb⟩ := Bool.and_eq_true_iff.mp hs
  rw [hE] at hic
  have hbodyCode := hcode.left.right
  rw [codeSize_append, ← Nat.add_assoc] at hbodyCode
  have hparts := loopCode_while hS hc hic hfits hfits' hcode fun fuel σ hnames =>
    hbody hb (p := (p.nested.inLoop p.pos Γ'.length).after (codeSize ic + 3)) hE hib
      hbodyCode (inLoop_self p.nested p.pos) (depth_nested p) hnames fuel
  have hexecute : (Stmt.while c b).execute (Value.operations P S.heap) inScope fuel σ =
      executeLoop Γ'.length (evaluateCondition (Value.operations P S.heap) (some c))
        (b.execute (Value.operations P S.heap) true) .ok fuel σ := by
    rw [← hnames.length]
    rfl
  simp only [codeSize_append, codeSize_cons, codeSize_nil, Instr.size, Nat.add_zero,
    ← Nat.add_assoc]
  rw [hexecute]
  exact hparts.simulates fuel σ hnames

/-- A `for` is its initializer and a loop in a scope of their own. -/
theorem simulates_for (hS : S.Of E) {init : Stmt} (c i : Option Expr) {b : Stmt}
    (hinitial : S.SimulatesStmt P E init) (hbody : S.SimulatesStmt P E b) :
    S.SimulatesStmt P E (.for init c i b) := by
  intro hs p Γ is Γ' hE h hcode Δ hloop inScope hscope σ hnames fuel
  obtain ⟨ii, Γi, head, start, ib, hii, hhead, hib, hfits, rfl, rfl⟩ := h
  obtain ⟨hrest, hb⟩ := Bool.and_eq_true_iff.mp hs
  obtain ⟨hrest, hi⟩ := Bool.and_eq_true_iff.mp hrest
  obtain ⟨hinit, hc⟩ := Bool.and_eq_true_iff.mp hrest
  rw [hE] at hhead
  have hprefix := stmtCode_extends hinit hii
  -- the code of the loop stands behind that of the initializer
  have hloopCode : S.Has (p.pos + codeSize ii) (head ++ ib ++
      [.short .jumpBackward (codeSize head + codeSize ib + 3 - start)]) := by
    have := hcode.left
    rw [List.append_assoc, List.append_assoc] at this
    rw [List.append_assoc]
    exact this.right
  have hbodyCode := hloopCode.left.right
  have hparts := loopCode_for hS hc hi hhead hfits hloopCode fun fuel σ hnames => by
    have hrun := hbody hb (p := (p.nested.inLoop (p.pos + codeSize ii + start)
      Γi.length).after (codeSize ii + codeSize head)) hE hib
      (by simpa only [Place.after, Place.inLoop, Place.nested, ← Nat.add_assoc] using hbodyCode)
      (inLoop_self p.nested _) (depth_nested p) hnames fuel
    simpa only [Place.after, Place.inLoop, Place.nested, ← Nat.add_assoc] using hrun
  have hinitRun := hinitial hinit (p := p.nested) hE hii
    hcode.left.left.left.left (hloop.extend rfl (List.prefix_refl _)) (depth_nested p) hnames fuel
  have hend := hcode.right
  simp only [codeSize_append, codeSize_cons, codeSize_nil, Instr.size, Nat.add_zero,
    ← Nat.add_assoc] at hend ⊢
  have hexecute : (Stmt.for init c i b).execute (Value.operations P S.heap) inScope fuel σ =
      ((init.execute (Value.operations P S.heap) true fuel σ).andThen fun σ' =>
        executeLoop σ'.locals.length (evaluateCondition (Value.operations P S.heap) c)
          (b.execute (Value.operations P S.heap) true)
          (evaluateIncrement (Value.operations P S.heap) i) fuel σ').endScope Γ'.length := by
    rw [← hnames.length]
    rfl
  rw [hexecute]
  refine Simulates.endScope ?_ hprefix hend
  refine hinitRun.andThen fun σ' hnames' => ?_
  rw [hnames'.length]
  exact hparts.simulates fuel σ' hnames'

/-- The value of a `switch` is a local of its own around the arms. -/
theorem simulates_switch (hS : S.Of E) (e : Expr) {cases : Cases}
    (harms : S.SimulatesCases P E cases) : S.SimulatesStmt P E (.switch e cases) := by
  intro hs p Γ is Γ' hE h hcode Δ hloop inScope hscope σ hnames fuel
  obtain ⟨ie, ic, hie, hic, rfl, rfl⟩ := h
  obtain ⟨he, hcases⟩ := Bool.and_eq_true_iff.mp hs
  rw [hE] at hie
  refine (evaluates_expr hS e he hie hcode.left hnames []).attempt fun r hr => ?_
  have hnames₁ := (Expr.evaluate_keeps _ e hr).named hnames
  rw [codeSize_append, ← Nat.add_assoc, hnames.length]
  have hrun := harms hcases (p := p.after (codeSize ie)) hE hic hcode.right
    (hloop.extend rfl (List.prefix_refl _)) (names_declare (v := r.1) hnames₁) fuel
  rw [config_declare] at hrun
  exact hrun

theorem simulates_cons {s : Stmt} {ss : Stmts} (hhead : S.SimulatesStmt P E s)
    (htail : S.SimulatesStmts P E ss) : S.SimulatesStmts P E (.cons s ss) := by
  intro hs p Γ is Γ' hE h hcode Δ hloop inScope hscope σ hnames fuel
  obtain ⟨hfirst, hrest⟩ := Bool.and_eq_true_iff.mp hs
  obtain ⟨i, Γ₁, is', hi, his', rfl⟩ := h
  rw [codeSize_append, ← Nat.add_assoc]
  refine (hhead hfirst hE hi hcode.left hloop hscope hnames fuel).andThen fun σ₁ hnames₁ => ?_
  exact htail hrest (p := p.after (codeSize i)) hE his' hcode.right
    (hloop.extend rfl (stmtCode_extends hfirst hi)) hscope hnames₁ fuel

/-- Where no arm is taken, the value of the `switch` is popped. -/
theorem simulates_noArm : S.SimulatesCases P E .nil := by
  intro hs p Γ is hE h hcode Δ hloop σ hnames fuel
  obtain rfl := h
  have hlength := hnames.length
  rw [armSlots, List.length_append, List.length_singleton] at hlength
  refine ⟨?_, hnames.leave (List.prefix_append _ _)⟩
  exact leads_leave (by omega) (by rw [hlength, Nat.add_sub_cancel_left]; rfl)
    (fun i hi => .inl (List.mem_singleton.mp hi)) hcode

theorem simulates_default {body : Stmts} (hbody : S.SimulatesStmts P E body) :
    S.SimulatesCases P E (.default body) := by
  intro hs p Γ is hE h hcode Δ hloop σ hnames fuel
  obtain ⟨ib, Γb, captured, hib, rfl⟩ := h
  have hprefix := (List.prefix_append Γ _).trans (stmtsCode_extends body hs hib)
  have hrun := hbody hs (p := p.nested) hE hib hcode.left.left
    (hloop.extend rfl (List.prefix_append _ _)) (depth_nested p)
    (names_armSlots hnames) fuel
  have hover := hcode.right
  simp only [codeSize_append, codeSize_cons, codeSize_nil, Instr.size, Nat.add_zero,
    ← Nat.add_assoc] at hover ⊢
  exact (hrun.endScope hprefix hcode.left.right).trans
    fun σ => (hops_forward hover (Nat.zero_le _) σ []).leads

/-- An arm with a label goes on at the next arm if its label differs, else it runs its body, ends
the scope of the `switch` and jumps over the other arms. -/
theorem simulates_case (hS : S.Of E) (label : Expr) {body : Stmts} {rest : Cases}
    (hbody : S.SimulatesStmts P E body) (hothers : S.SimulatesCases P E rest) :
    S.SimulatesCases P E (.case label body rest) := by
  intro hs p Γ is hE h hcode Δ hloop σ hnames fuel
  obtain ⟨il, ib, Γb, captured, ir, hil, hib, hir, hfits, hfits', rfl⟩ := h
  obtain ⟨hlb, hrest⟩ := Bool.and_eq_true_iff.mp hs
  obtain ⟨hl, hb⟩ := Bool.and_eq_true_iff.mp hlb
  rw [hE] at hil
  have hprefix := (List.prefix_append Γ _).trans (stmtsCode_extends body hb hib)
  have hrestCode := hcode.right
  have hover := hcode.left.right
  have hbodyCode := hcode.left.left.right
  have hlabelCode : S.Has p.pos ([.op .dupTop] ++ il ++ [.op .equal, .short .popJumpIfFalse
      (codeSize (ib ++ scopeEnd (Γb.drop Γ.length)) + 3)]) := by
    simpa only [List.append_assoc, List.cons_append, List.nil_append] using hcode.left.left.left
  refine (evaluates_label hS hl hil hlabelCode hfits hnames).attempt fun r hr => ?_
  have hnames₁ := (Expr.evaluate_keeps _ label hr).named hnames
  simp only [codeSize_append, codeSize_cons, codeSize_nil, Instr.size, Nat.add_zero,
    ← Nat.add_assoc] at hrestCode hover hbodyCode ⊢
  change S.Simulates P p.loop Δ Γ fuel _ _
    (if (Value.operations P S.heap).isFalsey
        (Value.isEqual S.heap (σ.top (Value.operations P S.heap)) r.1) then
      rest.execute (Value.operations P S.heap) Γ.length fuel r.2
    else (body.execute (Value.operations P S.heap) true fuel r.2).endScope Γ.length)
  by_cases hfalsey : (Value.operations P S.heap).isFalsey
      (Value.isEqual S.heap (σ.top (Value.operations P S.heap)) r.1) = true
  · rw [if_pos hfalsey, if_pos (show Value.isFalsey _ = true from hfalsey)]
    have hpos : (p.after (codeSize il + 5 + codeSize (ib ++ scopeEnd (Γb.drop Γ.length)) + 3)).pos =
        p.pos + 1 + codeSize il + 1 + 3 + codeSize ib + codeSize (scopeEnd (Γb.drop Γ.length)) +
          3 := by
      simp only [Place.after, codeSize_append]
      omega
    have hrun := hothers hrest (p := p.after (codeSize il + 5 +
      codeSize (ib ++ scopeEnd (Γb.drop Γ.length)) + 3)) hE hir (hpos ▸ hrestCode)
      (hloop.extend rfl (List.prefix_refl _)) hnames₁ fuel
    rw [hpos] at hrun
    have hstart : p.pos + codeSize il + 5 + codeSize ib + codeSize (scopeEnd (Γb.drop Γ.length)) +
          3 = p.pos + 1 + codeSize il + 1 + 3 + codeSize ib +
          codeSize (scopeEnd (Γb.drop Γ.length)) + 3 := by
      omega
    rw [hstart]
    exact hrun
  · rw [if_neg hfalsey, if_neg (show ¬ Value.isFalsey _ = true from hfalsey)]
    have hpos : (p.nested.after (codeSize il + 5)).pos = p.pos + 1 + codeSize il + 1 + 3 := by
      simp only [Place.after, Place.nested]
      omega
    have hrun := hbody hb (p := p.nested.after (codeSize il + 5)) hE hib
      (hpos ▸ hbodyCode.left) (hloop.extend rfl (List.prefix_append _ _)) (depth_nested p)
      (names_armSlots hnames₁) fuel
    rw [hpos] at hrun
    have hstart : p.pos + codeSize il + 5 = p.pos + 1 + codeSize il + 1 + 3 := by omega
    rw [hstart]
    exact (hrun.endScope hprefix hbodyCode.right).trans
      fun σ => (hops_forward hover hfits' σ []).leads

mutual

/-- **A run of the code of a statement does what the evaluator does**, for every statement of the
fragment. -/
theorem simulates_stmt (hS : S.Of E) (s : Stmt) : S.SimulatesStmt P E s := by
  cases s with
  | empty =>
      intro hs p Γ is Γ' hE h hcode Δ hloop inScope hscope σ hnames fuel
      obtain ⟨rfl, rfl⟩ := h
      exact ⟨.refl _, hnames⟩
  | expression e => exact simulates_expression hS e
  | print e => exact simulates_print hS e
  | var x initializer => exact simulates_var hS x initializer
  | const x e =>
      intro hs p Γ is Γ' hE h hcode Δ hloop inScope hscope σ hnames fuel
      obtain ⟨ie, id, hdefine, hie, rfl⟩ := h
      exact simulates_declareWith (hE ▸ hS) hs hie hdefine hcode hnames hscope
  | block body => exact simulates_block (simulates_stmts hS body)
  | «if» c t => exact simulates_if hS c (simulates_stmt hS t)
  | ifElse c t e => exact simulates_ifElse hS c (simulates_stmt hS t) (simulates_stmt hS e)
  | «while» c b => exact simulates_while hS c (simulates_stmt hS b)
  | «for» init c i b =>
      exact simulates_for hS c i (simulates_stmt hS init) (simulates_stmt hS b)
  | switch e cases => exact simulates_switch hS e (simulates_cases hS cases)
  | «continue» =>
      intro hs p Γ is Γ' hE h hcode Δ hloop inScope hscope σ hnames fuel
      obtain ⟨l, hl, -, hle, hfits, rfl, rfl⟩ := h
      obtain ⟨hslots, hΔ⟩ := hloop l hl
      rw [hl]
      exact simulates_continue hslots hΔ hle hfits hcode hnames
  | function x params body =>
      intro hs
      cases hs
  | «class» x superclass methods =>
      intro hs
      cases hs
  | «return» value =>
      intro hs
      cases hs

theorem simulates_stmts (hS : S.Of E) (ss : Stmts) : S.SimulatesStmts P E ss := by
  cases ss with
  | nil =>
      intro hs p Γ is Γ' hE h hcode Δ hloop inScope hscope σ hnames fuel
      obtain ⟨rfl, rfl⟩ := h
      exact ⟨.refl _, hnames⟩
  | cons s ss => exact simulates_cons (simulates_stmt hS s) (simulates_stmts hS ss)

theorem simulates_cases (hS : S.Of E) (cs : Cases) : S.SimulatesCases P E cs := by
  cases cs with
  | nil => exact simulates_noArm
  | default body => exact simulates_default (simulates_stmts hS body)
  | case label body rest =>
      exact simulates_case hS label (simulates_stmts hS body) (simulates_cases hS rest)

end

end Script

end CppLox
