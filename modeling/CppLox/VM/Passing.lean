import CppLox.VM.CompiledCode

/-!
# Virtual machine — passing through code

A block of code whose jumps end in it is left at its end only, whatever the functions it calls do: a
frame that runs from its start to some place behind it passes through its end.
-/

namespace CppLox

open VMM

namespace VM

variable (P : Platform)

/-- The current frame is at an offset of a function, above some frames. -/
def AtOffset (f : ObjectFunction) (rest : List CallFrame) (p : Nat) (vm : VM) : Prop :=
  ∃ frame, vm.frames = frame :: rest ∧ frame.function = f ∧ frame.ip = p

/-- An instruction after which there is still a frame above some frames. -/
def StepAbove (rest : List CallFrame) (vm vm' : VM) : Prop :=
  Step P vm vm' ∧ rest.length < vm'.frames.length

/-- The run of a frame above some frames, and of the functions it calls. -/
def StepsAbove (rest : List CallFrame) : VM → VM → Prop := Relation.ReflTransGen (StepAbove P rest)

/-- A run of a frame in which it comes to an offset. -/
def Passes (f : ObjectFunction) (rest : List CallFrame) (p : Nat) (vm vm' : VM) : Prop :=
  ∃ mid, StepsAbove P rest vm mid ∧ AtOffset f rest p mid ∧ StepsAbove P rest mid vm'

/-- The code of a function from an offset on: instructions with jumps that end among them. -/
structure Block (f : ObjectFunction) (p : Nat) (is : List Instr) : Prop where
  code : ∃ pre post, pre.length = p ∧ f.code = pre ++ (encodeAll is ++ post)
  fits : ∀ i ∈ is, i.Fits f.constants
  jumps : JumpsIn (· ∈ cuts p is) p is

/-- A frame above some frames is in a block, before its end unless it waits for a call. -/
def Inside (f : ObjectFunction) (rest : List CallFrame) (p : Nat) (is : List Instr) (vm : VM) :
    Prop :=
  ∃ above frame, vm.frames = above ++ frame :: rest ∧ frame.function = f ∧ frame.ip ∈ cuts p is ∧
    (above = [] → frame.ip < p + codeSize is)

variable {P} {f : ObjectFunction} {rest : List CallFrame} {p : Nat} {is : List Instr} {vm vm' : VM}

theorem StepsAbove.steps (h : StepsAbove P rest vm vm') : Steps P vm vm' := by
  induction h with
  | refl => exact .refl
  | tail _ hstep ih => exact ih.tail hstep.1

/-- A frame in a block goes on in it or is at its end. -/
theorem inside_or_at {above : List CallFrame} {frame : CallFrame}
    (hframes : vm.frames = above ++ frame :: rest) (hf : frame.function = f)
    (hip : frame.ip ∈ cuts p is) : Inside f rest p is vm ∨ AtOffset f rest (p + codeSize is) vm := by
  rcases Nat.lt_or_eq_of_le (le_of_mem_cuts hip) with hlt | heq
  · exact .inl ⟨above, frame, hframes, hf, hip, fun _ => hlt⟩
  · cases above with
    | nil => exact .inr ⟨frame, hframes, hf, heq⟩
    | cons a above => exact .inl ⟨a :: above, frame, hframes, hf, hip, nofun⟩

/-- Where an instruction of a block goes on, if it is no `RETURN`. -/
theorem Block.step_frames (hblock : Block f p is) {frame : CallFrame} {b : Bool}
    (hframes : vm.frames = frame :: rest) (hf : frame.function = f) (hip : frame.ip ∈ cuts p is)
    (hlt : frame.ip < p + codeSize is) (h : step P vm = .done b vm') :
    vm'.frames = rest ∨ ∃ pushed frame', vm'.frames = pushed ++ frame' :: rest ∧
      frame'.function = f ∧ frame'.ip ∈ cuts p is := by
  obtain ⟨pre, post, hpre, hcode⟩ := hblock.code
  obtain ⟨before, after, rfl, hcut⟩ := mem_cuts_iff.mp hip
  cases after with
  | nil =>
      rw [List.append_nil] at hlt
      omega
  | cons i after =>
      have hfits := hblock.fits i (by simp)
      have hat : f.code = (pre ++ encodeAll before) ++ (i.encode ++ (encodeAll after ++ post)) := by
        rw [hcode, encodeAll_append, encodeAll_cons]
        simp only [List.append_assoc]
      have hlength : (pre ++ encodeAll before).length = frame.ip := by
        rw [List.length_append, length_encodeAll, hpre, hcut]
      have hop : frame.function.code[frame.ip]? = some i.opcode.toByte := by
        obtain ⟨bytes, hbytes⟩ := i.encode_eq
        rw [hf, hat, hbytes, ← hlength]
        simp
      have hnext : frame.ip + i.size ∈ cuts p (before ++ i :: after) := by
        refine mem_cuts_iff.mpr ⟨before ++ [i], after, by simp, ?_⟩
        rw [hcut, codeSize_append, codeSize_cons, Nat.add_assoc]
        rfl
      have hframes' := VM.step_frames P hframes hop h
      split at hframes'
      · exact .inl hframes'
      · refine .inr ?_
        split at hframes'
        · rename_i hjump
          obtain ⟨n, hn, -, hframes'⟩ := hframes'
          obtain ⟨k, hi, hread⟩ := jump_of_code (pre ++ encodeAll before) hfits hjump hat
          have hjumps := (jumpsIn_append.mp hblock.jumps).2.1
          rw [← hcut] at hjumps
          generalize cuts p (before ++ i :: after) = cuts at hjumps hnext ⊢
          rw [hi] at hjumps hnext
          obtain ⟨hk, htarget, -⟩ := jumpTarget_of_jumpsTo hjump hjumps
          rw [Nat.mod_eq_of_lt (by omega), hlength, ← hf] at hread
          obtain rfl := hn.unique (operandAt_of_readU16Le hread)
          refine ⟨[], _, hframes', hf, ?_⟩
          dsimp only
          split
          · exact htarget
          · exact hnext
        · obtain ⟨pushed, -, -, hframes'⟩ := hframes'
          refine ⟨pushed, _, hframes', hf, ?_⟩
          have hsize := operandBytesAt_of_code (pre ++ encodeAll before) hfits hat
          rw [hlength, ← hf] at hsize
          dsimp only
          rw [hsize]
          exact hnext

/-- An instruction of a frame leaves those below it alone. -/
theorem step_frames_below {frame : CallFrame} {below : List CallFrame} {b : Bool}
    (hframes : vm.frames = frame :: below) (h : step P vm = .done b vm') :
    ∃ above, vm'.frames = above ++ below := by
  obtain ⟨op, frame', below', hframes', hop⟩ := opAt_of_step_done P h
  obtain ⟨rfl, rfl⟩ := List.cons.inj (hframes.symm.trans hframes')
  have hcases := VM.step_frames P hframes hop h
  split at hcases
  · exact ⟨[], hcases⟩
  · split at hcases
    · obtain ⟨_, -, -, hcases⟩ := hcases
      exact ⟨[_], hcases⟩
    · obtain ⟨pushed, -, -, hcases⟩ := hcases
      exact ⟨pushed ++ [_], by rw [hcases, List.append_assoc]; rfl⟩

/-- A frame in a block stays in it with an instruction, or comes to its end. -/
theorem Inside.step (hblock : Block f p is) (hin : Inside f rest p is vm)
    (h : StepAbove P rest vm vm') :
    Inside f rest p is vm' ∨ AtOffset f rest (p + codeSize is) vm' := by
  obtain ⟨above, frame, hframes, hf, hip, hlt⟩ := hin
  obtain ⟨hstep, habove⟩ := h
  cases above with
  | nil =>
      rcases hblock.step_frames hframes hf hip (hlt rfl) hstep with hreturn | hnext
      · rw [hreturn] at habove
        exact absurd habove (Nat.lt_irrefl _)
      · obtain ⟨pushed, frame', hframes', hf', hip'⟩ := hnext
        exact inside_or_at hframes' hf' hip'
  | cons a above =>
      obtain ⟨above', hframes'⟩ := step_frames_below hframes hstep
      exact inside_or_at (hframes'.trans (List.append_assoc above' above _).symm) hf hip

/-- A frame that was in a block is still in it, or has passed through its end. -/
theorem Inside.steps (hblock : Block f p is) (hin : Inside f rest p is vm)
    (h : StepsAbove P rest vm vm') :
    Inside f rest p is vm' ∨ Passes P f rest (p + codeSize is) vm vm' := by
  induction h with
  | refl => exact .inl hin
  | tail hsteps hstep ih =>
      rcases ih with hin' | ⟨mid, hfirst, hat, hlast⟩
      · rcases hin'.step hblock hstep with hin'' | hend
        · exact .inl hin''
        · exact .inr ⟨_, hsteps.tail hstep, hend, .refl⟩
      · exact .inr ⟨mid, hfirst, hat, hlast.tail hstep⟩

/-- A run from the start of a block to a place behind it passes through its end. -/
theorem Block.passes (hblock : Block f p is) (hstart : AtOffset f rest p vm)
    (h : StepsAbove P rest vm vm') {last : CallFrame} (hlast : vm'.frames = last :: rest)
    (hip : p + codeSize is ≤ last.ip) : Passes P f rest (p + codeSize is) vm vm' := by
  obtain ⟨frame, hframes, hf, rfl⟩ := hstart
  rcases @inside_or_at _ _ _ _ _ [] _ hframes hf (start_mem_cuts frame.ip is) with hin | hat
  · refine (hin.steps hblock h).resolve_left ?_
    rintro ⟨above, frame', hframes', -, -, hlt⟩
    obtain rfl : above = [] := by
      have hlength := congrArg List.length (hframes'.symm.trans hlast)
      rw [List.length_append, List.length_cons, List.length_cons] at hlength
      exact List.length_eq_zero_iff.mp (by omega)
    obtain ⟨rfl, -⟩ := List.cons.inj (hframes'.symm.trans hlast)
    exact absurd (hlt rfl) (Nat.not_lt.mpr hip)
  · exact ⟨vm, .refl, hat, h⟩

end VM

end CppLox
