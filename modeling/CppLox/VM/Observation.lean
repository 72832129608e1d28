import CppLox.VM.RelabelledInstructions
import CppLox.VM.Reports

/-!
# Virtual machine — what a run shows

A run is observed after any number of instructions: whether the script has ended or the run was
stopped, what was printed, and what `report_error` hands to the reporter.  A machine under other labels
shows the same, but for lines that come from other line tables.
-/

namespace CppLox

open VMM

/-- What a run shows. -/
structure Observation where
  ended : Bool
  interrupt : Option Interrupt
  output : Bytes
  report : Option VM.ErrorReport

namespace VM

/-- A report without its lines. -/
def ErrorReport.withoutLines (report : ErrorReport) : ErrorReport :=
  ⟨report.stackTrace.map (Prod.map (fun _ => 0) id), 0, report.message⟩

/-- The report of a run that was stopped. -/
def reportOf : Interrupt → VM → Option ErrorReport
  | .runtimeError (some message), vm => vm.reportError message
  | _, _ => none

end VM

def Observation.withoutLines (o : Observation) : Observation :=
  { o with report := o.report.map VM.ErrorReport.withoutLines }

@[simp] theorem Observation.output_withoutLines (o : Observation) :
    o.withoutLines.output = o.output := rfl

/-- What is seen of an outcome. -/
def Outcome.observe : Outcome Bool → Observation
  | .done ended vm => ⟨ended, none, vm.output, none⟩
  | .stopped i vm => ⟨true, some i, vm.output, vm.reportOf i⟩

namespace VM

section

variable (P : Platform)

/-- `VM::execute`, for `n` instructions at most: whether the script has ended. -/
def executeFor : Nat → VMM Bool
  | 0 => pure false
  | n + 1 => do
    if ← step P then pure true else executeFor n

/-- What `run_source` does with a machine and a function, for `n` instructions at most. -/
def runFor (n : Nat) (f : ObjectFunction) : VMM Bool := do
  registerNativeFunctions P
  start P f
  executeFor P n

end

variable {ρ : Relabelling} {P P' : Platform}

/-! ### Runs under other labels -/

theorem relabels_defineGlobalValue (name : Bytes) (v : Value) :
    Relabels ρ id (defineGlobalValue name v) (defineGlobalValue name (v.relabel ρ)) := by
  refine .modify fun vm => ?_
  rw [context_relabel, Context.getGlobal_relabel]
  dsimp only
  rw [Context.modify_relabel]
  · rfl
  · exact fun _ => rfl

theorem relabels_defineNativeFunction (hP : P.Readdresses ρ P') (i : Nat) {native native' : Native}
    (h : native.Relabels ρ native') :
    Relabels ρ id (defineNativeFunction P i native) (defineNativeFunction P' i native') := by
  unfold defineNativeFunction
  rw [h.name]
  exact .bind (relabels_push hP (.ofString native.name)) fun _ =>
    .bind (relabels_push hP (.object (.native i))) fun _ =>
    .bind (relabels_peek 1) fun v => .bind_id (relabels_stringOf v) fun name =>
    .bind (relabels_peek 0) fun v => .bind_id (relabels_defineGlobalValue name v) fun _ =>
    .bind relabels_pop fun _ => .bind relabels_pop fun _ => .pure _

theorem relabels_registerFrom (hP : P.Readdresses ρ P') {natives natives' : List Native}
    (h : List.Forall₂ (Native.Relabels ρ) natives natives') (i : Nat) :
    Relabels ρ id (registerFrom P i natives) (registerFrom P' i natives') := by
  induction h generalizing i with
  | nil => exact .pure _
  | cons hnative _ ih => exact .bind_id (relabels_defineNativeFunction hP i hnative) fun _ => ih (i + 1)

theorem relabels_executeFor (hP : P.Relabels ρ P') (n : Nat) :
    Relabels ρ id (executeFor P n) (executeFor P' n) := by
  induction n with
  | zero => exact .pure _
  | succ n ih => exact .bind_id (relabels_step hP) fun ended => .ite (.pure _) ih

/-- A run commutes with a relabelling, however long it is. -/
theorem relabels_runFor (hP : P.Relabels ρ P') (n : Nat) (f : ObjectFunction) :
    Relabels ρ id (runFor P n f) (runFor P' n (f.relabel ρ)) :=
  .bind_id (relabels_registerFrom hP.toReaddresses hP.natives 0) fun _ =>
    .bind_id (relabels_start hP f) fun _ => relabels_executeFor hP n

/-! ### Observations under other labels -/

theorem getLineNumber_relabel (hlines : ρ.lines = id) (f : ObjectFunction) (offset : Int) :
    Chunk.getLineNumber (f.relabel ρ) offset = Chunk.getLineNumber f offset := by
  unfold Chunk.getLineNumber
  rw [ObjectFunction.lines_relabel, hlines, id]

theorem text_traceEntry_relabel (frame : CallFrame) :
    (traceEntry (frame.relabel ρ)).2 = (traceEntry frame).2 := by
  unfold traceEntry CallFrame.relabel
  dsimp only
  rw [ObjectFunction.name_relabel]

theorem traceEntry_relabel (hlines : ρ.lines = id) (frame : CallFrame) :
    traceEntry (frame.relabel ρ) = traceEntry frame :=
  Prod.ext (getLineNumber_relabel hlines frame.function _) (text_traceEntry_relabel frame)

variable (message : String) (vm : VM)

theorem reportError_relabel (hlines : ρ.lines = id) :
    (vm.relabel ρ).reportError message = vm.reportError message := by
  have htrace : traceEntry ∘ CallFrame.relabel ρ = traceEntry := funext (traceEntry_relabel hlines)
  unfold reportError
  rw [frames_relabel]
  cases vm.frames with
  | nil => rfl
  | cons frame rest =>
      simp only [List.map_cons, List.map_map, htrace, traceEntry_relabel hlines]
      exact congrArg (fun line => some (ErrorReport.mk _ line message))
        (getLineNumber_relabel hlines frame.function _)

theorem reportError_relabel_withoutLines :
    ((vm.relabel ρ).reportError message).map ErrorReport.withoutLines =
      (vm.reportError message).map ErrorReport.withoutLines := by
  have htrace : Prod.map (fun _ => (0 : Int32)) id ∘ traceEntry ∘ CallFrame.relabel ρ =
      Prod.map (fun _ => 0) id ∘ traceEntry :=
    funext fun frame => congrArg (Prod.mk 0) (text_traceEntry_relabel frame)
  unfold reportError
  rw [frames_relabel]
  cases vm.frames with
  | nil => rfl
  | cons frame rest =>
      have hframe := congrFun htrace frame
      simp only [Function.comp_apply] at hframe
      simp only [List.map_cons, Option.map_some, ErrorReport.withoutLines, List.map_map, htrace, hframe]

theorem reportOf_relabel (hlines : ρ.lines = id) (i : Interrupt) :
    reportOf i (vm.relabel ρ) = reportOf i vm := by
  unfold reportOf
  split
  · exact reportError_relabel _ vm hlines
  · rfl

theorem reportOf_relabel_withoutLines (i : Interrupt) :
    (reportOf i (vm.relabel ρ)).map ErrorReport.withoutLines =
      (reportOf i vm).map ErrorReport.withoutLines := by
  unfold reportOf
  split
  · exact reportError_relabel_withoutLines _ vm
  · rfl

end VM

/-- An outcome shows the same under other labels, when the line tables are the same. -/
theorem Outcome.observe_relabel {ρ : Relabelling} (hlines : ρ.lines = id) (o : Outcome Bool) :
    (o.relabel ρ id).observe = o.observe := by
  cases o with
  | done ended vm => rfl
  | stopped i vm => exact congrArg (Observation.mk true (some i) vm.output) (VM.reportOf_relabel vm hlines i)

/-- An outcome shows the same under other labels, but for the lines. -/
theorem Outcome.observe_relabel_withoutLines {ρ : Relabelling} (o : Outcome Bool) :
    (o.relabel ρ id).observe.withoutLines = o.observe.withoutLines := by
  cases o with
  | done ended vm => rfl
  | stopped i vm =>
      exact congrArg (Observation.mk true (some i) vm.output) (VM.reportOf_relabel_withoutLines vm i)

end CppLox
