import CppLox.Bytecode.Layout
import CppLox.Compiler.Accepts
import CppLox.Compiler.Code

/-!
# Compiler — what an accepting run leaves behind

The state only grows while code is compiled: code, constants, upvalues and global names are
appended to, and locals of the functions around become captured.  `Emits s s' bytes` says so of a
piece of compilation and names the bytes it appends.  `Approximates E s` says that the function
`E` at the end of the compilation has everything the state `s` has, so that it also has what an
earlier state had.
-/

namespace CppLox

open CompilerM LittleEndian

/-! ### Growing -/

/-- A local without its `is_captured` member, which is the only one that changes later. -/
def Local.signature (l : Local) : Local := { l with isCaptured := false }

/-- The local at an index is captured. -/
def CapturedAt (ls : List Local) (i : Nat) : Prop := (ls[i]?.map Local.isCaptured) = some true

/-- Locals that may have become captured, with new ones of depth `d` after them. -/
structure LocalsExtend (d : Nat) (ls ls' : List Local) : Prop where
  signature : (ls'.take ls.length).map Local.signature = ls.map Local.signature
  captured : ∀ i, CapturedAt ls i → CapturedAt ls' i
  depth : ∀ l ∈ ls'.drop ls.length, l.depth = d

namespace LocalsExtend

variable {d : Nat} {ls ls' ls'' : List Local}

theorem refl (d : Nat) (ls : List Local) : LocalsExtend d ls ls :=
  ⟨by simp, fun _ => id, by simp⟩

theorem length_le (h : LocalsExtend d ls ls') : ls.length ≤ ls'.length := by
  have := congrArg List.length h.signature
  simp only [List.length_map, List.length_take] at this
  omega

theorem trans (h : LocalsExtend d ls ls') (h' : LocalsExtend d ls' ls'') :
    LocalsExtend d ls ls'' := by
  have hle := h.length_le
  have hle' := h'.length_le
  refine ⟨?_, fun i hi => h'.captured i (h.captured i hi), fun l hl => ?_⟩
  · have htake := congrArg (List.take ls.length) h'.signature
    rw [← List.map_take, ← List.map_take, List.take_take, Nat.min_eq_left hle] at htake
    rw [htake, h.signature]
  · -- a new local is new in the second step, or it was new in the first one
    obtain ⟨i, hi, rfl⟩ := List.getElem_of_mem hl
    rw [List.getElem_drop]
    rw [List.length_drop] at hi
    by_cases hlt : ls.length + i < ls'.length
    · have hsig := congrArg (fun l => l[ls.length + i]?) h'.signature
      simp only [List.getElem?_map, List.getElem?_take, if_pos hlt] at hsig
      rw [List.getElem?_eq_getElem (by omega), List.getElem?_eq_getElem hlt] at hsig
      simp only [Option.map_some, Option.some.injEq] at hsig
      have hdepth := congrArg Local.depth hsig
      have hmem : ls'[ls.length + i] ∈ ls'.drop ls.length :=
        List.mem_drop_iff_getElem.mpr ⟨i, by omega, rfl⟩
      exact hdepth.trans (h.depth ls'[ls.length + i] hmem)
    · refine h'.depth _ (List.mem_drop_iff_getElem.mpr ⟨ls.length + i - ls'.length, by omega, ?_⟩)
      congr 1
      omega

/-- Locals that may have become captured. -/
theorem signature_eq (h : LocalsExtend d ls ls') (hlen : ls'.length = ls.length) :
    ls'.map Local.signature = ls.map Local.signature := by
  rw [← h.signature, List.take_of_length_le (by omega)]

end LocalsExtend

/-- What compiling statements leaves as it is in the innermost compiler. -/
def FunctionState.frame (c : FunctionState) :
    Nat × Nat × Int × Int × FunctionType × List Bool × Bytes × Nat :=
  (c.scopeDepth, c.loopDepth, c.loopScopeDepth, c.loopStartOffset, c.functionType,
    c.enclosingClass, c.function.name, c.function.arity)

/-- What compiling a nested function leaves as it is in the compilers around it. -/
def FunctionState.fixed (c : FunctionState) :
    (Nat × Nat × Int × Int × FunctionType × List Bool × Bytes × Nat) × List (Int64 × Nat) ×
      List UInt8 × List (Constant ObjectFunction) × List LineInfo :=
  (c.frame, c.constantNumbers, c.function.code, c.function.constants, c.function.lines)

/-- A compiler of a function around the one being compiled: a local may be captured, an upvalue
added. -/
structure Grows (c c' : FunctionState) : Prop where
  locals : LocalsExtend c.scopeDepth c.locals c'.locals
  length : c'.locals.length = c.locals.length
  upvalues : c.upvalues <+: c'.upvalues
  fixed : c'.fixed = c.fixed

namespace Grows

variable {c c' c'' : FunctionState}

theorem refl (c : FunctionState) : Grows c c :=
  ⟨LocalsExtend.refl _ _, rfl, List.prefix_refl _, rfl⟩

theorem frame (h : Grows c c') : c'.frame = c.frame := congrArg (·.1) h.fixed

theorem constantNumbers (h : Grows c c') : c'.constantNumbers = c.constantNumbers :=
  congrArg (·.2.1) h.fixed

theorem code (h : Grows c c') : c'.function.code = c.function.code := congrArg (·.2.2.1) h.fixed

theorem constants (h : Grows c c') : c'.function.constants = c.function.constants :=
  congrArg (·.2.2.2.1) h.fixed

theorem lines (h : Grows c c') : c'.function.lines = c.function.lines :=
  congrArg (·.2.2.2.2) h.fixed

theorem scopeDepth (h : Grows c c') : c'.scopeDepth = c.scopeDepth := congrArg (·.1) h.frame

theorem functionType (h : Grows c c') : c'.functionType = c.functionType :=
  congrArg (·.2.2.2.2.1) h.frame

theorem trans (h : Grows c c') (h' : Grows c' c'') : Grows c c'' := by
  exact ⟨h.locals.trans (h.scopeDepth ▸ h'.locals), h'.length.trans h.length,
    h.upvalues.trans h'.upvalues, h'.fixed.trans h.fixed⟩

end Grows

/-- The compilers around the one being compiled. -/
abbrev ChainGrows : List FunctionState → List FunctionState → Prop := List.Forall₂ Grows

theorem ChainGrows.refl (cs : List FunctionState) : ChainGrows cs cs :=
  List.forall₂_same.mpr fun c _ => Grows.refl c

theorem ChainGrows.trans {cs cs' cs'' : List FunctionState} (h : ChainGrows cs cs')
    (h' : ChainGrows cs' cs'') : ChainGrows cs cs'' := by
  induction h generalizing cs'' with
  | nil => exact h'
  | cons hc _ ih =>
      cases h' with
      | cons hc' hcs => exact .cons (hc.trans hc') (ih hcs)

/-! ### The invariant -/

/-- The integers that are deduplicated are in the constant pool. -/
def NumbersOk (c : FunctionState) : Prop :=
  ∀ v k, c.constantNumbers.lookup v = some k → c.function.constants[k]? = some (.integer v)

/-- The upvalues of a compiler are captured locals and upvalues of the compiler around it. -/
def UpvaluesOk (e : FunctionState) (upvalues : List Upvalue) : Prop :=
  ∀ u ∈ upvalues, if u.isLocal then CapturedAt e.locals u.index else u.index < e.upvalues.length

/-- The invariant of one compiler. -/
structure CompilerOk (c : FunctionState) : Prop where
  numbers : NumbersOk c
  locals : c.locals.length ≤ Compiler.maxNumberOfLocalVariables
  upvalues : c.upvalues.length ≤ 0x10000
  count : c.function.upvalueCount = c.upvalues.length
  functions : ∀ g, Constant.function g ∈ c.function.constants → Compiled g

/-- The invariant of the chain of compilers. -/
def ChainOk : FunctionState → List FunctionState → Prop
  | c, [] => CompilerOk c ∧ c.upvalues = []
  | c, e :: outer => CompilerOk c ∧ UpvaluesOk e c.upvalues ∧ ChainOk e outer

/-- The invariant of a compilation. -/
def StateOk (s : CompilerState) : Prop := ChainOk s.current s.enclosing

theorem ChainOk.compilerOk {c : FunctionState} {cs : List FunctionState} (h : ChainOk c cs) :
    CompilerOk c := by
  cases cs with
  | nil => exact h.1
  | cons e outer => exact h.1

/-- The invariant depends on the innermost compiler through its upvalues only. -/
theorem ChainOk.of_upvalues_eq {c c' : FunctionState} {cs : List FunctionState} (h : ChainOk c cs)
    (hok : CompilerOk c') (hup : c'.upvalues = c.upvalues) : ChainOk c' cs := by
  cases cs with
  | nil => exact ⟨hok, hup.trans h.2⟩
  | cons e outer => exact ⟨hok, hup ▸ h.2.1, h.2.2⟩

/-! ### Emitting -/

/-- A state that has what an earlier one had. -/
structure Extends (s s' : CompilerState) : Prop where
  names : s.context.names <+: s'.context.names
  enclosing : ChainGrows s.enclosing s'.enclosing
  upvalues : s.current.upvalues <+: s'.current.upvalues
  constants : s.current.function.constants <+: s'.current.function.constants
  type : s'.current.functionType = s.current.functionType

theorem Extends.refl (s : CompilerState) : Extends s s :=
  ⟨List.prefix_refl _, ChainGrows.refl _, List.prefix_refl _, List.prefix_refl _, rfl⟩

theorem Extends.trans {s s' s'' : CompilerState} (h : Extends s s') (h' : Extends s' s'') :
    Extends s s'' where
  names := h.names.trans h'.names
  enclosing := h.enclosing.trans h'.enclosing
  upvalues := h.upvalues.trans h'.upvalues
  constants := h.constants.trans h'.constants
  type := h'.type.trans h.type

/-- A piece of compilation that appends `bytes` to the code of the current function. -/
structure Grown (s s' : CompilerState) (bytes : List UInt8) : Prop extends Extends s s' where
  code : s'.current.function.code = s.current.function.code ++ bytes

/-- A piece of compilation that in the end leaves the scopes and loops as they were, and adds
locals to the innermost scope. -/
structure Emits (s s' : CompilerState) (bytes : List UInt8) : Prop extends Grown s s' bytes where
  locals : LocalsExtend s.current.scopeDepth s.current.locals s'.current.locals
  frame : s'.current.frame = s.current.frame
  ok : StateOk s → StateOk s'

namespace Grown

variable {s s' s'' : CompilerState} {bytes bytes' : List UInt8}

theorem trans (h : Grown s s' bytes) (h' : Grown s' s'' bytes') : Grown s s'' (bytes ++ bytes') where
  toExtends := h.toExtends.trans h'.toExtends
  code := by rw [h'.code, h.code, List.append_assoc]

/-- A change of scopes, locals and loops. -/
theorem of_current {c : FunctionState} (h : s' = { s with current := c })
    (hfun : c.function = s.current.function) (hup : c.upvalues = s.current.upvalues)
    (htype : c.functionType = s.current.functionType) : Grown s s' [] := by
  subst h
  exact ⟨⟨List.prefix_refl _, ChainGrows.refl _, hup ▸ List.prefix_refl _,
    hfun ▸ List.prefix_refl _, htype⟩, by simp [hfun]⟩

end Grown

namespace Emits

variable {s s' s'' : CompilerState} {bytes bytes' : List UInt8}

theorem refl (s : CompilerState) : Emits s s [] :=
  ⟨⟨Extends.refl s, by simp⟩, LocalsExtend.refl _ _, rfl, id⟩

theorem scopeDepth (h : Emits s s' bytes) : s'.current.scopeDepth = s.current.scopeDepth :=
  congrArg (·.1) h.frame

theorem loopDepth (h : Emits s s' bytes) : s'.current.loopDepth = s.current.loopDepth :=
  congrArg (·.2.1) h.frame

theorem loopScopeDepth (h : Emits s s' bytes) :
    s'.current.loopScopeDepth = s.current.loopScopeDepth := congrArg (·.2.2.1) h.frame

theorem loopStartOffset (h : Emits s s' bytes) :
    s'.current.loopStartOffset = s.current.loopStartOffset := congrArg (·.2.2.2.1) h.frame

theorem enclosingClass (h : Emits s s' bytes) :
    s'.current.enclosingClass = s.current.enclosingClass := congrArg (·.2.2.2.2.2.1) h.frame

theorem name (h : Emits s s' bytes) : s'.current.function.name = s.current.function.name :=
  congrArg (·.2.2.2.2.2.2.1) h.frame

theorem arity (h : Emits s s' bytes) : s'.current.function.arity = s.current.function.arity :=
  congrArg (·.2.2.2.2.2.2.2) h.frame

theorem length_code (h : Emits s s' bytes) :
    s'.current.function.code.length = s.current.function.code.length + bytes.length := by
  rw [h.code, List.length_append]

theorem trans (h : Emits s s' bytes) (h' : Emits s' s'' bytes') : Emits s s'' (bytes ++ bytes') where
  toGrown := h.toGrown.trans h'.toGrown
  locals := h.locals.trans (h.scopeDepth ▸ h'.locals)
  frame := h'.frame.trans h.frame
  ok := fun hs => h'.ok (h.ok hs)

/-- A step that moves the parser. -/
theorem of_parser_eq {p : Parser} (h : s' = { s with parser := p }) : Emits s s' [] := by
  rw [h]
  exact ⟨⟨⟨List.prefix_refl _, ChainGrows.refl _, List.prefix_refl _, List.prefix_refl _, rfl⟩,
    by simp⟩, LocalsExtend.refl _ _, rfl, id⟩

end Emits

/-- A step that appends bytes, all on the line of the last token, and changes nothing else. -/
def Writes (s s' : CompilerState) (bytes : List UInt8) : Prop :=
  s' = { s with current := { s.current with
    function := Chunk.writeBytes s.current.function bytes s.parser.tokens.previous.line } }

namespace Chunk

theorem writeBytes_eq (f : ObjectFunction) (bytes : List UInt8) (line : Int32) :
    ∃ lines, writeBytes f bytes line = { f with code := f.code ++ bytes, lines } := by
  cases bytes with
  | nil => exact ⟨f.lines, by rw [List.append_nil, f.eta]; rfl⟩
  | cons byte bytes => exact ⟨_, writeBytes_cons f byte bytes line⟩

end Chunk

namespace Writes

variable {s s' s'' : CompilerState} {bytes bytes' : List UInt8}

theorem refl (s : CompilerState) : Writes s s [] := rfl

theorem parser (h : Writes s s' bytes) : s'.parser = s.parser := by
  rw [h]

theorem locals (h : Writes s s' bytes) : s'.current.locals = s.current.locals := by
  rw [h]

/-- Everything but the code and its lines is as it was. -/
theorem exists_eq (h : Writes s s' bytes) :
    ∃ lines, s' = { s with current := { s.current with function := { s.current.function with
      code := s.current.function.code ++ bytes, lines } } } := by
  obtain ⟨lines, hlines⟩ :=
    Chunk.writeBytes_eq s.current.function bytes s.parser.tokens.previous.line
  exact ⟨lines, by rw [h, hlines]⟩

theorem trans (h : Writes s s' bytes) (h' : Writes s' s'' bytes') :
    Writes s s'' (bytes ++ bytes') := by
  unfold Writes at h h' ⊢
  rw [h', h, Chunk.writeBytes_append]

theorem emits (h : Writes s s' bytes) : Emits s s' bytes := by
  obtain ⟨_, rfl⟩ := h.exists_eq
  refine ⟨⟨⟨List.prefix_refl _, ChainGrows.refl _, List.prefix_refl _, List.prefix_refl _, rfl⟩,
    rfl⟩, LocalsExtend.refl _ _, rfl, fun hs => ?_⟩
  obtain ⟨h₁, h₂, h₃, h₄, h₅⟩ := ChainOk.compilerOk hs
  exact ChainOk.of_upvalues_eq hs ⟨h₁, h₂, h₃, h₄, h₅⟩ rfl

end Writes

/-! ### Instructions and their lines -/

/-- A piece of compilation that writes the instructions `is`, each on one line. -/
structure Lined (s s' : CompilerState) (is : List Instr) : Prop where
  length : s'.current.function.code.length = s.current.function.code.length + codeSize is
  lines : ∃ lines : List Int32, lines.length = is.length ∧ s'.current.function.lines =
    Chunk.addLines s.current.function.lines s.current.function.code.length (lineBlocks is lines)

/-- A piece of compilation that writes instructions with the operands of their opcodes. -/
structure Laid (s s' : CompilerState) (is : List Instr) : Prop extends Lined s s' is where
  fits : StateOk s → ∀ i ∈ is, i.Fits s'.current.function.constants

theorem Lined.trans {s s' s'' : CompilerState} {is is' : List Instr} (h : Lined s s' is)
    (h' : Lined s' s'' is') : Lined s s'' (is ++ is') := by
  obtain ⟨lines, hlen, hlines⟩ := h.lines
  obtain ⟨lines', hlen', hlines'⟩ := h'.lines
  refine ⟨by rw [h'.length, h.length, codeSize_append, Nat.add_assoc],
    ⟨lines ++ lines', by simp [*], ?_⟩⟩
  rw [hlines', hlines, h.length, lineBlocks_append hlen, Chunk.addLines_append,
    total_lineBlocks hlen]

/-- Instructions that are written together are on one line. -/
theorem Writes.lined {s s' : CompilerState} {w : List Instr} (h : Writes s s' (encodeAll w)) :
    Lined s s' w := by
  refine ⟨?_, ⟨List.replicate w.length s.parser.tokens.previous.line, by simp, ?_⟩⟩
  · rw [h.emits.code, List.length_append, length_encodeAll]
  · cases w with
    | nil => rw [h]; rfl
    | cons i w =>
        obtain ⟨bytes, hbytes⟩ := i.encode_eq
        rw [lineBlocks_replicate, List.map_cons, List.map_cons, Chunk.addLines,
          Chunk.addLines_replicate, h, encodeAll_cons, hbytes, List.cons_append,
          Chunk.writeBytes_cons]

theorem Writes.laid {s s' : CompilerState} {w : List Instr} (h : Writes s s' (encodeAll w))
    (hw : ∀ i ∈ w, i.Fits s'.current.function.constants) : Laid s s' w :=
  ⟨h.lined, fun _ => hw⟩

namespace Laid

variable {s s' s'' : CompilerState} {is is' : List Instr}

/-- No instruction is written. -/
theorem of_eq (hcode : s'.current.function.code = s.current.function.code)
    (hlines : s'.current.function.lines = s.current.function.lines) : Laid s s' [] :=
  ⟨⟨by rw [hcode]; rfl, ⟨[], rfl, hlines⟩⟩, fun _ => nofun⟩

theorem lines_eq (h : Laid s s' []) :
    s'.current.function.lines = s.current.function.lines := by
  obtain ⟨lines, hlen, hlines⟩ := h.lines
  rw [List.eq_nil_of_length_eq_zero hlen] at hlines
  exact hlines

theorem trans (h : Laid s s' is) (h' : Laid s' s'' is') (hok : StateOk s → StateOk s')
    (hconstants : s'.current.function.constants <+: s''.current.function.constants) :
    Laid s s'' (is ++ is') := by
  refine ⟨h.toLined.trans h'.toLined, fun hs i hi => ?_⟩
  rcases List.mem_append.mp hi with hi | hi
  · exact (h.fits hs i hi).mono hconstants
  · exact h'.fits (hok hs) i hi

/-- The code is changed, but not where instructions start. -/
theorem recode (h : Laid s s' is) {code : List UInt8}
    (hs : s'' = { s' with current := { s'.current with
      function := { s'.current.function with code } } })
    (hlen : code.length = s'.current.function.code.length)
    (hsizes : is'.map Instr.size = is.map Instr.size)
    (hfits : StateOk s → ∀ i ∈ is', i.Fits s'.current.function.constants) : Laid s s'' is' := by
  obtain ⟨lines, hlines, htable⟩ := h.lines
  have hlength : is'.length = is.length := by simpa using congrArg List.length hsizes
  rw [hs]
  refine ⟨⟨?_, ⟨lines, hlines.trans hlength.symm, ?_⟩⟩, hfits⟩
  · rw [codeSize, hsizes]
    exact hlen.trans h.length
  · rw [lineBlocks, hsizes]
    exact htable

end Laid

/-! ### The parser -/

namespace Accepts

variable {m : CompilerM Unit} {s s' : CompilerState} {u : Unit}

/-- A quiet parser stays quiet over a token that is not reported. -/
theorem quiet_reportErrorToken {p : Parser} {token : Token} (hp : p.Quiet)
    (h : (p.reportErrorToken token).Quiet) : token.err = .noError := by
  unfold Parser.reportErrorToken at h
  split at h
  · exact absurd h hp.not_reportError
  · exact absurd h hp.not_reportError
  · exact absurd h hp.not_reportError
  · assumption

theorem nextToken_of_quiet (rest : List Token) (p : Parser) (hp : p.Quiet)
    (h : (Parser.advanceFrom rest p).Quiet) :
    Syntax.nextToken p.tokens.previous rest = some ((), (Parser.advanceFrom rest p).tokens) := by
  induction rest generalizing p with
  | nil => rfl
  | cons token rest ih =>
      unfold Parser.advanceFrom at h ⊢
      unfold Syntax.nextToken
      dsimp only at h ⊢
      by_cases herr : token.tokenType = .error
      · rw [if_pos herr] at h ⊢
        have hq : Parser.Quiet { p with
            tokens := { p.tokens with current := token, rest := rest } } :=
          ⟨hp.hadError, hp.panicMode⟩
        have hq' := (Parser.le_advanceFrom rest _).quiet h
          ((Parser.le_reportErrorToken _ token).panic fun hpanic => by
            rw [hq.panicMode] at hpanic
            cases hpanic)
        have hno := quiet_reportErrorToken hq hq'
        have hsame : Parser.reportErrorToken { p with
            tokens := { p.tokens with current := token, rest := rest } } token =
            { p with tokens := { p.tokens with current := token, rest := rest } } := by
          rw [Parser.reportErrorToken, hno]
        rw [hsame] at h ⊢
        rw [if_pos herr, if_neg (by simp [Syntax.isReported, hno])]
        exact ih _ hq h
      · rw [if_neg herr, if_neg herr]

/-- The tokens move on as they do when the tree is built. -/
theorem advance (h : Accepts Compiler.advance s u s') :
    Syntax.advance s.parser.tokens = some ((), s'.parser.tokens) ∧
      ∃ p, s' = { s with parser := p } := by
  have hs := Accepts.modify h
  have hq := h.after
  rw [hs] at hq ⊢
  refine ⟨?_, _, rfl⟩
  exact nextToken_of_quiet s.parser.tokens.rest
    { s.parser with tokens := { s.parser.tokens with previous := s.parser.tokens.current } }
    ⟨h.before.hadError, h.before.panicMode⟩ hq

/-- A change of the parser that reports or advances. -/
theorem of_advance (h : Accepts m s u s') (hm : m s = Compiler.advance s) :
    Accepts Compiler.advance s u s' := ⟨hm ▸ h.run, h.before, h.after⟩

theorem consume {expected : TokenType} {message : String}
    (h : Accepts (Compiler.consume expected message) s u s') :
    Syntax.consume expected s.parser.tokens = some ((), s'.parser.tokens) ∧
      ∃ p, s' = { s with parser := p } := by
  by_cases hc : s.parser.tokens.current.tokenType = expected
  · have hadv := (of_advance h (by
      simp [Compiler.consume, Compiler.advance, CompilerM.modify, Parser.consume, Parser.check,
        hc])).advance
    refine ⟨?_, hadv.2⟩
    rw [← hadv.1]
    show (if decide (_ = expected) = true then _ else _ : SyntaxM Unit) _ = _
    rw [if_pos (by simpa using hc)]
  · have hs := Accepts.modify h
    have hq := h.after
    rw [hs] at hq
    have hr : s.parser.consume expected message =
        s.parser.reportError ("Syntax Error: " ++ message) := by
      simp [Parser.consume, Parser.check, hc]
    dsimp only at hq
    rw [hr] at hq
    exact absurd hq h.before.not_reportError

theorem matchToken {expected : TokenType} {b : Bool}
    (h : Accepts (Compiler.matchToken expected) s b s') :
    Syntax.matchToken expected s.parser.tokens = some (b, s'.parser.tokens) ∧
      ∃ p, s' = { s with parser := p } := by
  by_cases hc : s.parser.tokens.current.tokenType = expected
  · have hrun := h.run
    have hm : s.parser.match expected = (true, s.parser.advance) := by
      simp [Parser.match, Parser.check, hc]
    simp only [Compiler.matchToken, hm, Except.ok.injEq, Prod.mk.injEq] at hrun
    obtain ⟨rfl, hs⟩ := hrun
    have hadv : Accepts Compiler.advance s () s' := ⟨by rw [← hs]; rfl, h.before, h.after⟩
    refine ⟨?_, hadv.advance.2⟩
    show ((if decide (_ = expected) = true then _ else _ : SyntaxM Bool) _) = _
    rw [if_pos (by simpa using hc), SyntaxM.bind_eq hadv.advance.1]
    rfl
  · have hrun := h.run
    have hm : s.parser.match expected = (false, s.parser) := by
      simp [Parser.match, Parser.check, hc]
    simp only [Compiler.matchToken, hm, Except.ok.injEq, Prod.mk.injEq] at hrun
    obtain ⟨rfl, hs⟩ := hrun
    refine ⟨?_, s.parser, hs.symm⟩
    show ((if decide (_ = expected) = true then _ else _ : SyntaxM Bool) _) = _
    rw [if_neg (by simpa using hc), ← hs]
    rfl

theorem matchIf {canAssign : Bool} {expected : TokenType} {b : Bool}
    (h : Accepts (Compiler.matchIf canAssign expected) s b s') :
    Syntax.matchIf canAssign expected s.parser.tokens = some (b, s'.parser.tokens) ∧
      ∃ p, s' = { s with parser := p } := by
  unfold Syntax.matchIf
  obtain ⟨hc, h⟩ | ⟨hc, h⟩ := Accepts.ite h
  · rw [if_pos hc]
    exact h.matchToken
  · rw [if_neg hc]
    obtain ⟨rfl, rfl⟩ := h.pure
    exact ⟨rfl, s'.parser, rfl⟩

end Accepts

end CppLox
