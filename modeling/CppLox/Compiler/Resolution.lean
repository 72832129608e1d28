import CppLox.Compiler.Emission

/-!
# Compiler — names

`named_variable` looks a name up in the locals of the current function, then in those of the
functions around it, and last among the globals.  The relation `Resolves` says where the name is
found in terms of the functions at the end of their compilation, so it holds for every environment
that has what the state has (`Approximates`).
-/

namespace CppLox

open CompilerM

/-! ### Environments of a state -/

/-- Slots with the names of the locals, at least the captured ones captured. -/
structure SlotsApprox (Γ : List Slot) (ls : List Local) : Prop where
  names : Γ.map Slot.name = ls.map Local.name
  captured : ∀ i, CapturedAt ls i → (Γ[i]?.map Slot.captured) = some true

/-- The functions around the one being compiled, at the end of their compilation. -/
abbrev ChainApprox : List EnclosingFunction → List FunctionState → Prop :=
  List.Forall₂ fun F c => SlotsApprox F.slots c.locals ∧ c.upvalues <+: F.upvalues

/-- A function at the end of its compilation has what it has in a state. -/
structure Approximates (E : Env) (s : CompilerState) : Prop where
  type : E.type = s.current.functionType
  constants : s.current.function.constants <+: E.constants
  upvalues : s.current.upvalues <+: E.upvalues
  enclosing : ChainApprox E.enclosing s.enclosing
  globals : s.context.names <+: E.globals

/-- The slots in which a name is found as it is in the locals. -/
structure ViewOf (Γ : List Slot) (ls : List Local) : Prop where
  absent : ∀ name, Compiler.findLocal ls name = none → findSlot Γ name = none
  found : ∀ name i, Compiler.findLocal ls name = some i →
    (ls.getD i default).uninitialized = false → findSlot Γ name = some i

/-- The index of the last occurrence of a name. -/
def lastIndexOf (names : List Bytes) (name : Bytes) : Option Nat :=
  (names.reverse.findIdx? (· == name)).map fun i => names.length - 1 - i

theorem Compiler.findLocal_eq (ls : List Local) (name : Bytes) :
    Compiler.findLocal ls name = lastIndexOf (ls.map Local.name) name := by
  rw [Compiler.findLocal, lastIndexOf, ← List.map_reverse, List.findIdx?_map, List.length_map]
  rfl

theorem findSlot_eq (Γ : List Slot) (name : Bytes) :
    findSlot Γ name = lastIndexOf (Γ.map Slot.name) name := by
  rw [findSlot, lastIndexOf, ← List.map_reverse, List.findIdx?_map, List.length_map]
  rfl

namespace SlotsApprox

variable {Γ : List Slot} {d : Nat} {ls ls' : List Local}

theorem length_eq (h : SlotsApprox Γ ls) : Γ.length = ls.length := by
  simpa using congrArg List.length h.names

theorem findSlot_eq (h : SlotsApprox Γ ls) (name : Bytes) :
    findSlot Γ name = Compiler.findLocal ls name := by
  rw [CppLox.findSlot_eq, Compiler.findLocal_eq, h.names]

theorem view (h : SlotsApprox Γ ls) : ViewOf Γ ls where
  absent name hname := (h.findSlot_eq name).trans hname
  found name _ hname _ := (h.findSlot_eq name).trans hname

theorem map_name_of_signature {ls ls' : List Local}
    (h : ls'.map Local.signature = ls.map Local.signature) :
    ls'.map Local.name = ls.map Local.name := by
  have := congrArg (List.map Local.name) h
  simpa [Function.comp_def, Local.signature] using this

/-- The slots of the locals there were before. -/
theorem take (h : SlotsApprox Γ ls') (hle : LocalsExtend d ls ls') :
    SlotsApprox (Γ.take ls.length) ls where
  names := by
    rw [List.map_take, h.names, ← List.map_take]
    exact map_name_of_signature hle.signature
  captured i hi := by
    have hlt : i < ls.length := by
      by_contra hge
      rw [CapturedAt, List.getElem?_eq_none (by omega)] at hi
      cases hi
    rw [List.getElem?_take, if_pos hlt]
    exact h.captured i (hle.captured i hi)

end SlotsApprox

theorem ChainApprox.of_grows {Fs : List EnclosingFunction} {cs cs' : List FunctionState}
    (h : ChainApprox Fs cs') (hg : ChainGrows cs cs') : ChainApprox Fs cs := by
  induction hg generalizing Fs with
  | nil => exact h
  | cons hc _ ih =>
      cases h with
      | cons hF hFs =>
          refine .cons ⟨?_, hc.upvalues.trans hF.2⟩ (ih hFs)
          have htake := hF.1.take hc.locals
          rwa [List.take_of_length_le (by rw [hF.1.length_eq, hc.length])] at htake

theorem ChainApprox.exists_of_mem {Fs : List EnclosingFunction} {cs : List FunctionState}
    {F : EnclosingFunction} (h : ChainApprox Fs cs) (hF : F ∈ Fs) :
    ∃ c ∈ cs, SlotsApprox F.slots c.locals := by
  induction h with
  | nil => cases hF
  | cons hc _ ih =>
      rcases List.mem_cons.mp hF with rfl | hF
      · exact ⟨_, List.mem_cons_self, hc.1⟩
      · obtain ⟨c, hmem, hslots⟩ := ih hF
        exact ⟨c, List.mem_cons_of_mem _ hmem, hslots⟩

theorem Approximates.of_extends {E : Env} {s s' : CompilerState} (h : Approximates E s')
    (hg : Extends s s') : Approximates E s where
  type := h.type.trans hg.type
  constants := hg.constants.trans h.constants
  upvalues := hg.upvalues.trans h.upvalues
  enclosing := h.enclosing.of_grows hg.enclosing
  globals := hg.names.trans h.globals

/-- The slots of locals as they are. -/
def slotsOf (ls : List Local) : List Slot := ls.map fun l => ⟨l.name, l.isCaptured⟩

/-- The environment of a function whose compilation ends in a state. -/
def envOf (s : CompilerState) : Env where
  type := s.current.functionType
  constants := s.current.function.constants
  upvalues := s.current.upvalues
  enclosing := s.enclosing.map fun c => ⟨slotsOf c.locals, c.upvalues⟩
  globals := s.context.names

theorem slotsApprox_slotsOf (ls : List Local) : SlotsApprox (slotsOf ls) ls where
  names := by simp [slotsOf]
  captured i hi := by
    unfold CapturedAt at hi
    unfold slotsOf
    rw [List.getElem?_map]
    cases hl : ls[i]? with
    | none => simp [hl] at hi
    | some l => simpa [hl] using hi

theorem approximates_envOf (s : CompilerState) : Approximates (envOf s) s where
  type := rfl
  constants := List.prefix_refl _
  upvalues := List.prefix_refl _
  enclosing := by
    refine List.forall₂_map_left_iff.mpr (List.forall₂_same.mpr fun c _ => ?_)
    exact ⟨slotsApprox_slotsOf c.locals, List.prefix_refl _⟩
  globals := List.prefix_refl _

/-! ### Runs -/

/-- A piece of compilation that appends the instructions `is`, leaves the locals alone, and has the
property `code` in terms of the function at the end of its compilation. -/
structure CodeRun (s s' : CompilerState) (is : List Instr) (code : Env → List Slot → Prop) :
    Prop where
  emits : Emits s s' (encodeAll is)
  laid : Laid s s' is
  locals : s'.current.locals = s.current.locals
  code : ∀ E Γ, StateOk s → Approximates E s' → ViewOf Γ s.current.locals → code E Γ

namespace CodeRun

variable {s s' s'' : CompilerState} {is is' : List Instr} {code code' : Env → List Slot → Prop}

theorem trans (h : CodeRun s s' is code) (h' : CodeRun s' s'' is' code') :
    CodeRun s s'' (is ++ is') fun E Γ => code E Γ ∧ code' E Γ where
  emits := encodeAll_append is is' ▸ h.emits.trans h'.emits
  laid := h.laid.trans h'.laid h.emits.ok h'.emits.constants
  locals := h'.locals.trans h.locals
  code E Γ hok hE hΓ := ⟨h.code E Γ hok (hE.of_extends h'.emits.toExtends) hΓ,
    h'.code E Γ (h.emits.ok hok) hE (by rwa [h.locals])⟩

/-- The property in terms of the state itself. -/
theorem code_envOf (h : CodeRun s s' is code) (hok : StateOk s) :
    code (envOf s') (slotsOf s.current.locals) :=
  h.code _ _ hok (approximates_envOf s') (slotsApprox_slotsOf _).view

theorem imp (h : CodeRun s s' is code) (himp : ∀ E Γ, code E Γ → code' E Γ) :
    CodeRun s s' is code' :=
  ⟨h.emits, h.laid, h.locals, fun E Γ hok hE hΓ => himp E Γ (h.code E Γ hok hE hΓ)⟩

theorem of_parser_eq {p : Parser} (h : s' = { s with parser := p }) :
    CodeRun s s' [] fun _ _ => True :=
  ⟨Emits.of_parser_eq h, Laid.of_eq (by rw [h]) (by rw [h]), by rw [h], fun _ _ _ _ _ => trivial⟩

end CodeRun

theorem Writes.codeRun {s s' : CompilerState} {w : List Instr} (h : Writes s s' (encodeAll w))
    (hw : ∀ i ∈ w, i.Plain) :
    CodeRun s s' w fun _ _ => True :=
  ⟨h.emits, h.laid fun i hi => (hw i hi).fits _, h.locals, fun _ _ _ _ _ => trivial⟩

/-! ### Locals -/

theorem Compiler.findLocal_lt {ls : List Local} {name : Bytes} {i : Nat}
    (h : Compiler.findLocal ls name = some i) : i < ls.length := by
  unfold Compiler.findLocal at h
  obtain ⟨k, hk, rfl⟩ := Option.map_eq_some_iff.mp h
  have hlt := (List.findIdx?_eq_some_iff_getElem.mp hk).1
  rw [List.length_reverse] at hlt
  omega

/-- The local at an index with its `is_captured` member set. -/
def captureLocal (e : FunctionState) (i : Nat) : FunctionState :=
  { e with locals := e.locals.modify i fun l => { l with isCaptured := true } }

theorem map_name_captureLocal (e : FunctionState) (i : Nat) :
    (captureLocal e i).locals.map Local.name = e.locals.map Local.name := by
  refine List.ext_getElem? fun j => ?_
  rw [List.getElem?_map, List.getElem?_map, captureLocal, List.getElem?_modify]
  cases e.locals[j]? with
  | none => rfl
  | some l => by_cases hij : i = j <;> simp [hij]

theorem findLocal_captureLocal (e : FunctionState) (i : Nat) (name : Bytes) :
    Compiler.findLocal (captureLocal e i).locals name = Compiler.findLocal e.locals name := by
  rw [Compiler.findLocal_eq, map_name_captureLocal, ← Compiler.findLocal_eq]

theorem capturedAt_captureLocal {e : FunctionState} {i : Nat} (h : i < e.locals.length) :
    CapturedAt (captureLocal e i).locals i := by
  simp [CapturedAt, captureLocal, h]

theorem grows_captureLocal (e : FunctionState) (i : Nat) : Grows e (captureLocal e i) := by
  refine ⟨⟨?_, fun j hj => ?_, ?_⟩, by simp [captureLocal], List.prefix_refl _, rfl⟩
  · have hlen : (captureLocal e i).locals.length = e.locals.length := by simp [captureLocal]
    rw [← hlen, List.take_length]
    refine List.ext_getElem? fun j => ?_
    rw [List.getElem?_map, List.getElem?_map, captureLocal, List.getElem?_modify]
    cases e.locals[j]? with
    | none => rfl
    | some l =>
        by_cases hij : i = j <;> simp [hij, Local.signature]
  · unfold CapturedAt captureLocal at *
    rw [List.getElem?_modify]
    cases hl : e.locals[j]? with
    | none => simp [hl] at hj
    | some l => by_cases hij : i = j <;> simp_all
  · have hlen : (captureLocal e i).locals.length = e.locals.length := by simp [captureLocal]
    rw [← hlen, List.drop_length]
    nofun

theorem CompilerOk.captureLocal {e : FunctionState} (h : CompilerOk e) (i : Nat) :
    CompilerOk (captureLocal e i) :=
  ⟨h.numbers, by simpa [CppLox.captureLocal] using h.locals, h.upvalues, h.count, h.functions⟩

theorem UpvaluesOk.of_grows {e e' : FunctionState} {U : List Upvalue} (h : UpvaluesOk e U)
    (hg : Grows e e') : UpvaluesOk e' U := by
  intro u hu
  have hu := h u hu
  split at hu <;> rename_i hlocal
  · rw [if_pos hlocal]
    exact hg.locals.captured _ hu
  · rw [if_neg hlocal]
    exact hu.trans_le hg.upvalues.length_le

theorem getElem?_of_extends {α : Type} {l l' : List α} {i : Nat} {a : α} (h : l <+: l')
    (hi : l[i]? = some a) : l'[i]? = some a := by
  obtain ⟨hlt, rfl⟩ := List.getElem?_eq_some_iff.mp hi
  rw [List.getElem?_eq_getElem (hlt.trans_le h.length_le), ← h.getElem hlt]

namespace Accepts

variable {s s' : CompilerState}

theorem resolveLocal {c : FunctionState} {name : Bytes} {found : Option Nat}
    (h : Accepts (Compiler.resolveLocal c name) s found s') :
    s' = s ∧ found = Compiler.findLocal c.locals name ∧
      ∀ i, found = some i → (c.locals.getD i default).uninitialized = false := by
  unfold Compiler.resolveLocal at h
  split at h
  · rename_i hnone
    obtain ⟨rfl, rfl⟩ := h.pure
    refine ⟨rfl, hnone.symm, fun i hi => ?_⟩
    cases hi
  · rename_i i hi
    rcases h.ite with ⟨-, h⟩ | ⟨hinit, h⟩
    · obtain ⟨_, _, h₁, -⟩ := h.bind
      exact absurd h₁ not_reportError
    · obtain ⟨rfl, rfl⟩ := h.pure
      refine ⟨rfl, hi.symm, fun j hj => ?_⟩
      cases hj
      simpa using hinit

/-! ### Upvalues -/

theorem addUpvalue {c c' : FunctionState} {i j : Nat} {isLocal : Bool}
    (h : Accepts (Compiler.addUpvalue c i isLocal) s (j, c') s') :
    s' = s ∧ j ≤ 0xFFFF ∧ c'.upvalues[j]? = some ⟨i, isLocal⟩ ∧ Grows c c' ∧
      (CompilerOk c → CompilerOk c') ∧ (∀ u ∈ c'.upvalues, u ∈ c.upvalues ∨ u = ⟨i, isLocal⟩) ∧
      c'.locals = c.locals := by
  rcases h.ite with ⟨-, h⟩ | ⟨hlen, h⟩
  · exact absurd h not_throw
  · split at h
    · rename_i idx hidx
      obtain ⟨heq, rfl⟩ := h.pure
      cases heq
      have hfound := List.findIdx?_eq_some_iff_getElem.mp hidx
      obtain ⟨hlt, heq, -⟩ := hfound
      refine ⟨rfl, by omega, ?_, Grows.refl c, id, fun u hu => .inl hu, rfl⟩
      rw [List.getElem?_eq_getElem hlt, eq_of_beq heq]
    · obtain ⟨heq, rfl⟩ := h.pure
      cases heq
      refine ⟨rfl, by omega, by simp, ?_, fun hok => ?_, fun u hu => ?_, rfl⟩
      · exact ⟨LocalsExtend.refl _ _, rfl, List.prefix_append _ _, rfl⟩
      · exact ⟨hok.numbers, hok.locals, by simp; omega, by simp, hok.functions⟩
      · simpa using hu

/-- What is found of a name in the functions around, whose compilers are `cs` before and `cs'`
after: nothing, or an upvalue of the compiler `c'`. -/
def FoundUpvalue (name : Bytes) (cs cs' : List FunctionState) (c' : FunctionState) :
    Option (Nat × Bool) → Prop
  | none => ∀ e ∈ cs, Compiler.findLocal e.locals name = none
  | some (j, _) => j ≤ 0xFFFF ∧ j < c'.upvalues.length ∧
      ∀ Fs U, ChainApprox Fs cs' → c'.upvalues <+: U → Captures name Fs U j

theorem resolveUpvalue {name : Bytes} {c c' : FunctionState} {cs cs' : List FunctionState}
    {found : Option (Nat × Bool)}
    (h : Accepts (Compiler.resolveUpvalue name c cs) s (found, c', cs') s') :
    s' = s ∧ Grows c c' ∧ c'.locals = c.locals ∧ ChainGrows cs cs' ∧
      (ChainOk c cs → ChainOk c' cs') ∧ FoundUpvalue name cs cs' c' found := by
  induction cs generalizing c c' cs' found s' with
  | nil =>
      obtain ⟨heq, rfl⟩ := Accepts.pure h
      cases heq
      exact ⟨rfl, Grows.refl c, rfl, .nil, id, nofun⟩
  | cons e outer ih =>
      obtain ⟨found₁, s₁, h₁, h'⟩ := h.bind_of inferInstance fun found => by
        cases found with
        | some i => infer_instance
        | none =>
            refine Obeys.bind inferInstance fun x => ?_
            obtain ⟨found, e, outer⟩ := x
            cases found <;> infer_instance
      obtain ⟨hs₁, hfound, hinit⟩ := h₁.resolveLocal
      rw [hs₁] at h'
      cases found₁ with
      -- a local of the function around: it is captured and the upvalue refers to it
      | some i =>
          obtain ⟨⟨j, c₁⟩, s₂, h₂, h₃⟩ := h'.bind
          obtain ⟨hs₂, hj, hget, hgrows, hok, hmem, hlocals⟩ := h₂.addUpvalue
          rw [hs₂] at h₃
          obtain ⟨heq, hs'⟩ := h₃.pure
          cases heq
          have hlt := Compiler.findLocal_lt hfound.symm
          have hlen := (List.getElem?_eq_some_iff.mp hget).1
          refine ⟨hs', hgrows, hlocals, .cons (grows_captureLocal e i) (ChainGrows.refl outer),
            fun hchain => ⟨hok hchain.1, ?_, ?_⟩, hj, hlen, fun Fs U hFs hU => ?_⟩
          · intro u hu
            rcases hmem u hu with hu | rfl
            · exact hchain.2.1.of_grows (grows_captureLocal e i) u hu
            · exact capturedAt_captureLocal hlt
          · exact hchain.2.2.of_upvalues_eq (hchain.2.2.compilerOk.captureLocal i) rfl
          · cases hFs with
            | cons hF hFs =>
                have hslot := (hF.1.findSlot_eq name).trans
                  ((findLocal_captureLocal e i name).trans hfound.symm)
                unfold Captures
                rw [hslot]
                exact ⟨getElem?_of_extends hU hget, hF.1.captured i (capturedAt_captureLocal hlt)⟩
      | none =>
          obtain ⟨⟨found₂, e₁, outer₁⟩, s₂, h₂, h₃⟩ := h'.bind_of inferInstance fun x => by
            obtain ⟨found, e, outer⟩ := x
            cases found <;> infer_instance
          obtain ⟨hs₂, hgrows, hlocals, hchain, hok, hfound₂⟩ := ih h₂
          rw [hs₂] at h₃
          cases found₂ with
          -- an upvalue of the function around: the upvalue refers to that one
          | some x =>
              obtain ⟨j', isConst⟩ := x
              obtain ⟨hj', hlt', hcaptures⟩ := hfound₂
              obtain ⟨⟨j, c₁⟩, s₃, h₄, h₅⟩ := h₃.bind
              obtain ⟨hs₃, hj, hget, hgrows₁, hok₁, hmem, hlocals₁⟩ := h₄.addUpvalue
              rw [hs₃] at h₅
              obtain ⟨heq, hs'⟩ := h₅.pure
              cases heq
              have hlen := (List.getElem?_eq_some_iff.mp hget).1
              refine ⟨hs', hgrows₁, hlocals₁, .cons hgrows hchain,
                fun hchainOk => ⟨hok₁ hchainOk.1, ?_, hok hchainOk.2.2⟩, hj, hlen,
                fun Fs U hFs hU => ?_⟩
              · intro u hu
                rcases hmem u hu with hu | rfl
                · exact hchainOk.2.1.of_grows hgrows u hu
                · exact hlt'
              · cases hFs with
                | cons hF hFs =>
                    have hslot := hF.1.findSlot_eq name
                    rw [hlocals, ← hfound] at hslot
                    unfold Captures
                    rw [hslot]
                    exact ⟨j', hcaptures _ _ hFs hF.2, getElem?_of_extends hU hget⟩
          | none =>
              obtain ⟨heq, hs'⟩ := h₃.pure
              cases heq
              refine ⟨hs', Grows.refl c, rfl, .cons hgrows hchain, fun hchainOk => ?_, ?_⟩
              · exact ⟨hchainOk.1, hchainOk.2.1.of_grows hgrows, hok hchainOk.2.2⟩
              -- neither the function around nor those around it have the name
              · intro e' he'
                rcases List.mem_cons.mp he' with rfl | he'
                · exact hfound.symm
                · exact hfound₂ e' he'

/-! ### Variables -/

theorem identifier {name : Bytes} {g : Nat} (h : Accepts (Compiler.identifier name) s g s') :
    s'.parser = s.parser ∧ CodeRun s s' [] fun E _ => E.globals[g]? = some name := by
  have hrun := h.run
  have hs : s' = { s with context := (s.context.getGlobal name).2 } := by
    cases hrun
    rfl
  have hg : g = (s.context.getGlobal name).1 := by
    cases hrun
    rfl
  have hnames : s.context.names <+: (s.context.getGlobal name).2.names ∧
      (s.context.getGlobal name).2.names[(s.context.getGlobal name).1]? = some name := by
    by_cases hmem : name ∈ s.context.names
    · rw [Context.getGlobal_of_mem hmem]
      refine ⟨List.prefix_refl _, ?_⟩
      rw [List.getElem?_eq_getElem (List.idxOf_lt_length_iff.mpr hmem), List.getElem_idxOf]
    · rw [Context.getGlobal_names_of_not_mem hmem, Context.getGlobal_fst_of_not_mem hmem]
      exact ⟨List.prefix_append _ _, by simp⟩
  rw [hs]
  refine ⟨rfl, ⟨⟨⟨hnames.1, ChainGrows.refl _, List.prefix_refl _, List.prefix_refl _, rfl⟩,
    by simp⟩, LocalsExtend.refl _ _, rfl, id⟩, Laid.of_eq rfl rfl, rfl, fun E Γ _ hE _ => ?_⟩
  rw [hg]
  exact getElem?_of_extends hE.globals hnames.2

/-- The first half of `named_variable` finds the innermost variable of the name. -/
theorem resolve {token : Token} {r : Compiler.Resolved}
    (h : Accepts (Compiler.resolve token) s r s') :
    ∃ ref : Ref, .short r.loadOp r.index = ref.load ∧ .short r.storeOp r.index = ref.store ∧
      s'.parser = s.parser ∧ CodeRun s s' [] fun E Γ => Resolves E Γ token.lexeme ref := by
  have hstored : ∀ current enclosing, Mono (CompilerM.modify fun s => { s with current, enclosing }) :=
    fun _ _ => obeys_modify fun _ => errorsStay.refl _
  obtain ⟨t, s₁, h₁, h'⟩ := h.bind_of inferInstance fun t =>
    Obeys.bind inferInstance fun found => by
      cases found with
      | some i => infer_instance
      | none =>
          refine Obeys.bind inferInstance fun x => Obeys.bind (hstored _ _) fun _ => ?_
          obtain ⟨found, -⟩ := x
          cases found <;> infer_instance
  obtain ⟨ht, hs₁⟩ := h₁.get
  rw [ht, hs₁] at h'
  obtain ⟨found, s₂, h₂, h₃⟩ := h'.bind_of inferInstance fun found => by
    cases found with
    | some i => infer_instance
    | none =>
        refine Obeys.bind inferInstance fun x => Obeys.bind (hstored _ _) fun _ => ?_
        obtain ⟨found, -⟩ := x
        cases found <;> infer_instance
  obtain ⟨hs₂, hfound, hinit⟩ := h₂.resolveLocal
  rw [hs₂] at h₃
  cases found with
  -- a local of the function itself
  | some i =>
      obtain ⟨hr, hs'⟩ := h₃.pure
      refine ⟨.local i, by rw [hr]; rfl, by rw [hr]; rfl, by rw [hs'], ?_⟩
      rw [hs']
      refine ⟨Emits.refl s, Laid.of_eq rfl rfl, rfl, fun E Γ hok _ hΓ => ⟨?_, ?_⟩⟩
      · exact hΓ.found _ i hfound.symm (hinit i rfl)
      · have hlt := Compiler.findLocal_lt hfound.symm
        have hmax := hok.compilerOk.locals
        unfold Compiler.maxNumberOfLocalVariables at hmax
        omega
  | none =>
      obtain ⟨⟨found, c', cs'⟩, s₃, h₄, h₅⟩ := h₃.bind_of inferInstance fun x => by
        refine Obeys.bind (hstored _ _) fun _ => ?_
        obtain ⟨found, -⟩ := x
        cases found <;> infer_instance
      obtain ⟨hs₃, hgrows, hlocals, hchain, hok, hupvalue⟩ := h₄.resolveUpvalue
      rw [hs₃] at h₅
      obtain ⟨_, s₄, h₆, h₇⟩ := h₅.bind_of (hstored _ _) fun _ => by
        cases found <;> infer_instance
      have hs₄ : s₄ = { s with current := c', enclosing := cs' } := Accepts.modify h₆
      -- the compilers are stored back, with the captures they got
      have hrun : CodeRun s s₄ [] fun E _ => Approximates E s₄ := by
        rw [hs₄]
        refine ⟨⟨⟨⟨List.prefix_refl _, hchain, hgrows.upvalues, ?_, ?_⟩, ?_⟩, ?_, ?_, hok⟩,
          Laid.of_eq hgrows.code hgrows.lines, hlocals, fun E Γ _ hE _ => hE⟩
        · exact hgrows.constants ▸ List.prefix_refl _
        · exact hgrows.functionType
        · simpa using hgrows.code
        · exact hgrows.locals
        · exact hgrows.frame
      cases found with
      -- a local of a function around
      | some x =>
          obtain ⟨j, isConst⟩ := x
          obtain ⟨hr, hs'⟩ := h₇.pure
          obtain ⟨hj, -, hcaptures⟩ := hupvalue
          refine ⟨.upvalue j, by rw [hr]; rfl, by rw [hr]; rfl, by rw [hs', hs₄], ?_⟩
          rw [hs']
          refine ⟨hrun.emits, hrun.laid, hrun.locals, fun E Γ hok hE hΓ => ⟨hΓ.absent _ hfound.symm, ?_, hj⟩⟩
          rw [hs₄] at hE
          exact hcaptures _ _ hE.enclosing hE.upvalues
      | none =>
          obtain ⟨g, s₅, h₈, h₉⟩ := h₇.bind
          obtain ⟨hr, hs'⟩ := h₉.pure
          obtain ⟨hparser, hglobal⟩ := h₈.identifier
          refine ⟨.global g, by rw [hr]; rfl, by rw [hr]; rfl, by rw [hs', hparser, hs₄], ?_⟩
          rw [hs']
          have htrans := hrun.trans hglobal
          refine ⟨htrans.emits, htrans.laid, htrans.locals, fun E Γ hok hE hΓ => ?_⟩
          obtain ⟨hE₄, hget⟩ := htrans.code E Γ hok hE hΓ
          refine ⟨hΓ.absent _ hfound.symm, fun F hF => ?_, hget⟩
          -- no function around has the name, so it is a global
          obtain ⟨c, hc, hslots⟩ := (hE₄.of_extends hrun.emits.toExtends).enclosing.exists_of_mem hF
          rw [hslots.findSlot_eq]
          exact hupvalue c hc

end Accepts

end CppLox
