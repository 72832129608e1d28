import CppLox.Semantics.Expressions

/-!
# Semantics — the simulation of statements

A run of the code of a statement *simulates* the evaluator: it ends where the code ends with the locals
of the evaluator on the stack, at a `continue` it comes to the loop with the locals of the loop, it
reports the same error, and it has as many instructions as the evaluator had fuel when that is used up.
The rules here are those of sequences, scopes, declarations and loops.
-/

namespace CppLox

open VMM VM SmallStep

namespace Script

variable (P : Platform) (S : Script)

/-- A run goes from a state to another with one instruction at least. -/
def Jumps (c c' : Config) : Prop := ∃ c₁, S.Leads P c c₁ ∧ S.Hops P c₁ c'

/-- A run from a state does what a statement does, with the slots `Γ` afterwards, in a loop `loop` whose
slots are `Δ`. -/
def Simulates (loop : Option Loop) (Δ Γ : List Slot) (fuel : Nat) (c : Config) (stop : Nat) :
    Result Value → Prop
  | .done σ => S.Leads P c (σ.config stop []) ∧ Store.Names Γ σ
  | .again σ => ∃ l, loop = some l ∧ S.Jumps P c ((σ.leave Δ.length).config l.start []) ∧
      Store.Names Δ (σ.leave Δ.length)
  | .failed fault output => S.Stops P c fault output
  | .outOfFuel output => S.Endures P c fuel output

section

variable {P S} {loop : Option Loop} {Δ Γ Γ' : List Slot} {fuel n : Nat} {c c₁ c₂ : Config}
  {stop stop' ip : Nat} {r : Result Value} {σ : Store Value} {output : Bytes}

theorem Leads.jumps (h : S.Leads P c c₁) (h' : S.Jumps P c₁ c₂) : S.Jumps P c c₂ := by
  obtain ⟨c₃, hleads, hhops⟩ := h'
  exact ⟨c₃, h.trans hleads, hhops⟩

theorem Jumps.leads (h : S.Jumps P c c₁) : S.Leads P c c₁ := by
  obtain ⟨c₂, hleads, hhops⟩ := h
  exact hleads.trans hhops.leads

theorem Jumps.endures (h : S.Jumps P c c₁) (h' : S.Endures P c₁ n output) :
    S.Endures P c (n + 1) output := by
  obtain ⟨c₂, hleads, hhops⟩ := h
  exact hleads.endures (hhops.endures h')

theorem Leads.simulates (h : S.Leads P c c₁) (h' : S.Simulates P loop Δ Γ fuel c₁ stop r) :
    S.Simulates P loop Δ Γ fuel c stop r := by
  cases r with
  | done σ => exact ⟨h.trans h'.1, h'.2⟩
  | again σ =>
      obtain ⟨l, hl, hjumps, hnames⟩ := h'
      exact ⟨l, hl, h.jumps hjumps, hnames⟩
  | failed fault output => exact h.stops h'
  | outOfFuel output => exact h.endures h'

/-- What follows an expression. -/
theorem Evaluates.attempt {α : Type} {x : Except Fault α} {next : α → Result Value}
    {config : α → Config} (h : S.Evaluates P c σ.output (x.map config))
    (h' : ∀ a, x = .ok a → S.Simulates P loop Δ Γ fuel (config a) stop (next a)) :
    S.Simulates P loop Δ Γ fuel c stop (attempt σ x next) := by
  cases x with
  | ok a => exact Leads.simulates h (h' a rfl)
  | error fault => exact h

/-- What follows a statement. -/
theorem Simulates.andThen {next : Store Value → Result Value}
    (h : S.Simulates P loop Δ Γ' fuel c stop' r)
    (h' : ∀ σ, Store.Names Γ' σ →
      S.Simulates P loop Δ Γ fuel (σ.config stop' []) stop (next σ)) :
    S.Simulates P loop Δ Γ fuel c stop (r.andThen next) := by
  cases r with
  | done σ => exact h.1.simulates (h' σ h.2)
  | again σ => exact h
  | failed fault output => exact h
  | outOfFuel output => exact h

end

/-! ### The end of a scope -/

section

variable {P S} {Γ Γ' Δ : List Slot} {loop : Option Loop} {fuel : Nat} {c : Config} {stop ip : Nat}
  {vs ws : List Value} {g : Bytes → Cell Value} {out : Bytes} {is : List Instr} {σ : Store Value}
  {r : Result Value}

theorem codeSize_scopeEnd (slots : List Slot) : codeSize (scopeEnd slots) = slots.length := by
  unfold scopeEnd
  rw [← List.length_reverse]
  induction slots.reverse with
  | nil => rfl
  | cons l ls ih =>
      rw [List.map_cons, codeSize_cons, ih, List.length_cons]
      exact Nat.add_comm 1 _

/-- Instructions that pop a value each. -/
theorem leads_pops (hlength : is.length = ws.length)
    (his : ∀ i ∈ is, i = .op .popTop ∨ i = .op .closeUpvalue) (hcode : S.Has ip is) :
    S.Leads P ⟨ip, vs ++ ws, g, out⟩ ⟨ip + is.length, vs, g, out⟩ := by
  induction is generalizing ip ws with
  | nil =>
      obtain rfl := List.length_eq_zero_iff.mp hlength.symm
      rw [List.append_nil]
      exact .refl _
  | cons i is ih =>
      obtain rfl | ⟨ws', w, rfl⟩ := List.eq_nil_or_concat' ws
      · cases hlength
      · have hcode : S.Has ip ([i] ++ is) := hcode
        have hlast : is.length = ws'.length := by
          rw [List.length_cons, List.length_append, List.length_singleton] at hlength
          omega
        have hpop : S.Leads P ⟨ip, vs ++ ws' ++ [w], g, out⟩ ⟨ip + 1, vs ++ ws', g, out⟩ := by
          rcases his i List.mem_cons_self with rfl | rfl
          · exact (hops_op hcode.left (by decide) does_popTop).leads
          · exact (hops_op hcode.left (by decide) does_closeUpvalue).leads
        have hsize : codeSize [i] = 1 := by
          rcases his i List.mem_cons_self with rfl | rfl <;> rfl
        have hrest := hcode.right
        rw [hsize] at hrest
        rw [← List.append_assoc, List.length_cons, Nat.add_comm is.length, ← Nat.add_assoc]
        exact hpop.trans (ih hlast (fun j hj => his j (List.mem_cons_of_mem _ hj)) hrest)

/-- The locals beyond the first `n` are popped. -/
theorem leads_leave {n : Nat} (hn : n ≤ σ.locals.length) (hlength : is.length = σ.locals.length - n)
    (his : ∀ i ∈ is, i = .op .popTop ∨ i = .op .closeUpvalue) (hcode : S.Has ip is) :
    S.Leads P (σ.config ip []) ((σ.leave n).config (ip + is.length) []) := by
  have hpops := @leads_pops P S ip (σ.values.take n) (σ.values.drop n) σ.globals σ.output is
    (by rw [List.length_drop, σ.length_values, hlength]) his hcode
  rw [List.take_append_drop] at hpops
  unfold Store.config
  rw [σ.values_leave hn, List.append_nil, List.append_nil]
  exact hpops

/-- The end of a scope pops the locals declared in it. -/
theorem Simulates.endScope (h : S.Simulates P loop Δ Γ' fuel c stop r) (hΓ : Γ <+: Γ')
    (hcode : S.Has stop (scopeEnd (Γ'.drop Γ.length))) :
    S.Simulates P loop Δ Γ fuel c (stop + codeSize (scopeEnd (Γ'.drop Γ.length)))
      (r.endScope Γ.length) := by
  refine h.andThen fun σ hnames => ⟨?_, hnames.leave hΓ⟩
  have hlength := hnames.length
  have hle := hΓ.length_le
  have hsize : (scopeEnd (Γ'.drop Γ.length)).length = codeSize (scopeEnd (Γ'.drop Γ.length)) := by
    rw [codeSize_scopeEnd]
    unfold scopeEnd
    rw [List.length_map, List.length_reverse]
  rw [← hsize]
  refine leads_leave (by omega) ?_ (fun i hi => ?_) hcode
  · rw [hsize, codeSize_scopeEnd, List.length_drop, hlength]
  · obtain ⟨l, -, rfl⟩ := List.mem_map.mp hi
    cases l.captured
    · exact .inl rfl
    · exact .inr rfl

end

/-! ### Declarations -/

section

variable {P S} {E : Env} {p : Place} {Γ Γ' Δ : List Slot} {x : Bytes} {is : List Instr}
  {σ σ' : Store Value} {ip fuel : Nat} {v : Value} {inScope : Bool} {loop : Option Loop}

theorem defineCode_extends (h : DefineCode p Γ x is Γ') : Γ <+: Γ' := by
  unfold DefineCode at h
  split at h
  · obtain ⟨g, -, -, -, rfl⟩ := h
    exact List.prefix_refl _
  · obtain ⟨captured, -, rfl⟩ := h
    exact List.prefix_append _ _

/-- A declaration takes the value on top of the stack: as a slot it stays there. -/
theorem evaluates_define (hS : S.Of p.env) (h : DefineCode p Γ x is Γ') (hcode : S.Has ip is)
    (hscope : inScope = true ↔ p.depth ≠ 0) : S.Evaluates P (σ.config ip [v]) σ.output
      ((σ.define (Value.operations P S.heap) inScope x v).map fun σ' =>
        σ'.config (ip + codeSize is) []) := by
  unfold DefineCode at h
  unfold Store.define
  split at h
  · rename_i hdepth
    obtain ⟨i, hname, hi, rfl, rfl⟩ := h
    rw [hS.names] at hname
    have hrun := evaluates_short hcode hi (by decide) rfl
      (@computes_defineGlobal P S (ip + 3) σ.values v σ.globals σ.output i x hname)
    rw [if_neg (fun hin => hscope.mp hin hdepth)]
    dsimp only
    by_cases hconst : ((σ.globals x).defined && (σ.globals x).isConst) = true
    · rw [if_pos hconst] at hrun ⊢
      exact hrun
    rw [if_neg hconst] at hrun ⊢
    change S.Leads P _ (Store.config _ (ip + 3) [])
    unfold Store.config
    rw [List.append_nil]
    exact hrun
  · rename_i hdepth
    obtain ⟨captured, rfl, rfl⟩ := h
    rw [if_pos (hscope.mpr hdepth)]
    change S.Leads P _ ((σ.declare x v).config ip [])
    have hvalues : (σ.declare x v).values = σ.values ++ [v] := by
      unfold Store.values Store.declare
      rw [List.map_cons, List.reverse_cons]
    unfold Store.config
    rw [hvalues, List.append_nil]
    exact .refl _

theorem Store.names_define {ops : Operations Value} (h : DefineCode p Γ x is Γ')
    (hnames : Store.Names Γ σ) (hscope : inScope = true ↔ p.depth ≠ 0)
    (hdefine : σ.define ops inScope x v = .ok σ') : Store.Names Γ' σ' := by
  unfold DefineCode at h
  unfold Store.define at hdefine
  split at h
  · rename_i hdepth
    obtain ⟨i, -, -, -, rfl⟩ := h
    rw [if_neg (fun hin => hscope.mp hin hdepth)] at hdefine
    dsimp only at hdefine
    split at hdefine
    · cases hdefine
    · cases hdefine
      exact hnames
  · rename_i hdepth
    obtain ⟨captured, -, rfl⟩ := h
    rw [if_pos (hscope.mpr hdepth)] at hdefine
    cases hdefine
    unfold Store.Names Store.declare
    rw [List.map_cons, hnames, List.map_append, List.reverse_append]
    rfl

/-- A declaration of the value on top of the stack. -/
theorem simulates_define (hS : S.Of p.env) (h : DefineCode p Γ x is Γ') (hcode : S.Has ip is)
    (hnames : Store.Names Γ σ) (hscope : inScope = true ↔ p.depth ≠ 0) :
    S.Simulates P loop Δ Γ' fuel (σ.config ip [v]) (ip + codeSize is)
      (attempt σ (σ.define (Value.operations P S.heap) inScope x v) .done) :=
  (evaluates_define hS h hcode hscope).attempt fun _ hdefine =>
    ⟨.refl _, Store.names_define h hnames hscope hdefine⟩

/-- A declaration with an initializer. -/
theorem simulates_declareWith (hS : S.Of p.env) {e : Expr} {ie : List Instr}
    (he : e.structured = true) (hie : ExprCode p.env Γ e ie) (h : DefineCode p Γ x is Γ')
    (hcode : S.Has ip (ie ++ is)) (hnames : Store.Names Γ σ)
    (hscope : inScope = true ↔ p.depth ≠ 0) :
    S.Simulates P loop Δ Γ' fuel (σ.config ip []) (ip + codeSize (ie ++ is))
      (declareWith (Value.operations P S.heap) inScope x e σ) := by
  refine (evaluates_expr hS e he hie hcode.left hnames []).attempt fun r hr => ?_
  rw [codeSize_append, ← Nat.add_assoc]
  exact simulates_define hS h hcode.right ((Expr.evaluate_keeps _ e hr).named hnames) hscope

end

/-! ### Loops -/

section

variable {P S} {Γ Δ : List Slot} {loop : Option Loop} {head bodyStart bodyStop next stop n : Nat}
  {condition : Store Value → Except Fault (Bool × Store Value)}
  {body : Nat → Store Value → Result Value} {increment : Store Value → Except Fault (Store Value)}

/-- The parts of a loop: its condition goes to the body or to the end, the body ends with a jump to
what comes before the next iteration, and that goes to the condition. -/
structure LoopCode (P : Platform) (S : Script) (Γ : List Slot) (head bodyStart bodyStop next stop : Nat)
    (condition : Store Value → Except Fault (Bool × Store Value))
    (body : Nat → Store Value → Result Value) (increment : Store Value → Except Fault (Store Value)) :
    Prop where
  test : ∀ σ, Store.Names Γ σ → S.Evaluates P (σ.config head []) σ.output
    ((condition σ).map fun c => c.2.config (if c.1 then bodyStart else stop) [])
  run : ∀ fuel σ, Store.Names Γ σ → S.Simulates P (some ⟨next, Γ.length⟩) Γ Γ fuel
    (σ.config bodyStart []) bodyStop (body fuel σ)
  back : ∀ σ : Store Value, S.Hops P (σ.config bodyStop []) (σ.config next [])
  step : ∀ σ, Store.Names Γ σ → S.Evaluates P (σ.config next []) σ.output
    ((increment σ).map fun σ' => σ'.config head [])
  testKeeps : ∀ σ c, condition σ = .ok c → σ.Keeps c.2
  stepKeeps : ∀ σ σ', increment σ = .ok σ' → σ.Keeps σ'

/-- A run of a loop, by induction on the fuel: an iteration has one instruction at least. -/
theorem LoopCode.simulates
    (h : LoopCode P S Γ head bodyStart bodyStop next stop condition body increment) (fuel : Nat) :
    ∀ σ, Store.Names Γ σ → S.Simulates P loop Δ Γ fuel (σ.config head []) stop
      (executeLoop Γ.length condition body increment fuel σ) := by
  induction fuel with
  | zero =>
      intro σ hnames
      exact Endures.of_output (σ.config head [])
  | succ fuel ih =>
      intro σ hnames
      refine (h.test σ hnames).attempt fun c hc => ?_
      have hnames₁ := (h.testKeeps σ c hc).named hnames
      cases hgo : c.1 with
      | false =>
          rw [if_neg (by decide), if_neg (by decide)]
          exact ⟨.refl _, hnames₁⟩
      | true =>
          rw [if_pos rfl, if_pos rfl]
          have hbody := h.run (fuel + 1) c.2 hnames₁
          -- from the end of an iteration: one more instruction than the rest of the loop
          have hnext : ∀ σ₁, Store.Names Γ (σ₁.leave Γ.length) →
              S.Jumps P (c.2.config bodyStart []) ((σ₁.leave Γ.length).config next []) →
              S.Simulates P loop Δ Γ (fuel + 1) (c.2.config bodyStart []) stop
                (attempt σ₁ (increment (σ₁.leave Γ.length)) fun σ₂ =>
                  executeLoop Γ.length condition body increment fuel σ₂) := by
            intro σ₁ hnames₂ hjumps
            have hincrement := h.step _ hnames₂
            cases hi : increment (σ₁.leave Γ.length) with
            | error fault =>
                rw [hi] at hincrement
                exact hjumps.leads.stops hincrement
            | ok σ₂ =>
                rw [hi] at hincrement
                have hnames₃ := (h.stepKeeps _ _ hi).named hnames₂
                have hrest := Leads.simulates hincrement (ih σ₂ hnames₃)
                change S.Simulates P loop Δ Γ (fuel + 1) _ stop
                  (executeLoop Γ.length condition body increment fuel σ₂)
                generalize executeLoop Γ.length condition body increment fuel σ₂ = r at hrest
                cases r with
                | outOfFuel output => exact hjumps.endures hrest
                | done σ' => exact hjumps.leads.simulates hrest
                | again σ' => exact hjumps.leads.simulates hrest
                | failed fault output => exact hjumps.leads.simulates hrest
          generalize hr : body (fuel + 1) c.2 = r at hbody
          cases r with
          | done σ₁ =>
              obtain ⟨hleads, hnames₂⟩ := hbody
              have hleave : σ₁.leave Γ.length = σ₁ := by
                unfold Store.leave
                rw [hnames₂.length, Nat.sub_self, List.drop_zero]
              refine hnext σ₁ (hleave.symm ▸ hnames₂) ?_
              rw [hleave]
              exact ⟨_, hleads, h.back σ₁⟩
          | again σ₁ =>
              obtain ⟨l, hl, hjumps, hnames₂⟩ := hbody
              cases hl
              exact hnext σ₁ hnames₂ hjumps
          | failed fault output => exact hbody
          | outOfFuel output => exact hbody

end

end Script

end CppLox
