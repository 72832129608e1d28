import CppLox.Compiler.Reading
import CppLox.Compiler.Statements

/-!
# Compiler — long programs

Nothing bounds the length of a program: `n` statements `0;` on one line are accepted, and the code of
the script has two bytes for each of them.  The lexer is followed through the line by the tokens of one
character, and the compiler by the state after each statement.
-/

namespace CppLox

/-- `n` statements `0;` on one line. -/
def zeros : Nat → Bytes
  | 0 => []
  | n + 1 => 48 :: 59 :: zeros n

/-- The tokens of `n` statements `0;`. -/
def zeroTokens : Nat → List Token
  | 0 => []
  | n + 1 => { tokenType := .numberInt, lexeme := [48] } ::
      { tokenType := .semicolon, lexeme := [59] } :: zeroTokens n

theorem length_zeros (n : Nat) : (zeros n).length = 2 * n := by
  induction n with
  | zero => rfl
  | succ n ih =>
      simp only [zeros, List.length_cons, ih]
      omega

namespace Lexer

namespace TokenIterator

variable {it : TokenIterator} {c : UInt8} {r : Bytes}

/-! ### Tokens of one character -/

theorem advanceWhile_of_not {p : TokenIterator → Bool} (h : p it = false) (fuel : Nat) :
    advanceWhile p fuel it = it := by
  cases fuel with
  | zero => rfl
  | succ fuel =>
      rw [advanceWhile, h]
      rfl

theorem skipWhitespace_of_rest (h : it.rest = c :: r) (hc : c ∉ [32, 9, 13, 10, 47]) (fuel : Nat) :
    skipWhitespace fuel it = it := by
  simp only [List.mem_cons, List.not_mem_nil, or_false, not_or] at hc
  cases fuel with
  | zero => rfl
  | succ fuel => simp [skipWhitespace, peek_of_rest h, hc]

/-- The iterator at a token of one character. -/
def atSingle (it : TokenIterator) (type : TokenType) (c : UInt8) : TokenIterator :=
  { it with
    start := it.current, current := it.current + 1, currentTokenType := type, err := .noError
    cachedToken := { line := it.line, lexeme := [c], tokenType := type } }

theorem next_of_scanToken {type : TokenType} (h : it.rest = c :: r)
    (hscan : scanToken { it with start := it.current, err := .noError } =
      (type, { it with start := it.current, err := .noError, current := it.current + 1 })) :
    it.next = it.atSingle type c := by
  have hend : it.isAtEnd = false := isAtEnd_eq_false h
  have hlexeme : (it.source.drop it.current).take (it.current + 1 - it.current) = [c] := by
    rw [Nat.add_sub_cancel_left]
    exact congrArg (List.take 1) h
  unfold next
  dsimp only
  rw [show isAtEnd { it with err := .noError } = false from hend, if_neg Bool.false_ne_true, hscan]
  dsimp only
  rw [hlexeme, atSingle]

theorem matchNumber_of_rest (h : it.rest = 59 :: r) : it.matchNumber = (.numberInt, it) := by
  have hpeek : it.peek = 59 := peek_of_rest h
  have hdigit : isDigit it.peek = false := by rw [hpeek]; rfl
  have hword : isWord it.peek = false := by rw [hpeek]; rfl
  have hpoint : it.peek ≠ 46 := by rw [hpeek]; decide
  unfold matchNumber
  rw [advanceWhile_of_not hdigit]
  simp only [if_pos hpoint]
  rw [hword, if_neg Bool.false_ne_true, advanceWhile_of_not hword]

theorem next_zero (h : it.rest = 48 :: 59 :: r) : it.next = it.atSingle .numberInt 48 := by
  refine next_of_scanToken h ?_
  have hskip := fun fuel => @skipWhitespace_of_rest { it with start := it.current, err := .noError }
    48 _ h (by decide) fuel
  have hpeek : peek { it with start := it.current, err := .noError } = 48 := peek_of_rest h
  have hend : isAtEnd { it with start := it.current, err := .noError } = false := isAtEnd_eq_false h
  unfold scanToken
  dsimp only
  rw [hskip, hend, hpeek, if_neg Bool.false_ne_true, if_neg (by decide), if_pos (by decide)]
  exact matchNumber_of_rest (rest_advance h)

theorem next_semicolon (h : it.rest = 59 :: r) : it.next = it.atSingle .semicolon 59 := by
  refine next_of_scanToken h ?_
  have hskip := fun fuel => @skipWhitespace_of_rest { it with start := it.current, err := .noError }
    59 _ h (by decide) fuel
  have hpeek : peek { it with start := it.current, err := .noError } = 59 := peek_of_rest h
  have hend : isAtEnd { it with start := it.current, err := .noError } = false := isAtEnd_eq_false h
  unfold scanToken
  dsimp only
  rw [hskip, hend, hpeek, if_neg Bool.false_ne_true, if_neg (by decide), if_neg (by decide)]
  rfl

theorem next_of_rest_nil (h : it.rest = []) : it.next.currentTokenType = .endOfFile := by
  have hend : it.isAtEnd = true := isAtEnd_iff.mpr h
  unfold next
  dsimp only
  rw [show isAtEnd { it with err := .noError } = true from hend, if_pos rfl]

theorem tokensFrom_zeros {n fuel : Nat} (h : it.rest = zeros n) (hline : it.line = 1)
    (hfuel : 2 * n < fuel) : tokensFrom fuel it.next = zeroTokens n := by
  induction n generalizing it fuel with
  | zero =>
      obtain ⟨fuel, rfl⟩ : ∃ k, fuel = k + 1 := ⟨fuel - 1, by omega⟩
      rw [tokensFrom, if_pos (next_of_rest_nil h)]
      rfl
  | succ n ih =>
      obtain ⟨fuel, rfl⟩ : ∃ k, fuel = k + 2 := ⟨fuel - 2, by omega⟩
      have hrest : (it.atSingle .numberInt 48).rest = 59 :: zeros n := rest_advance h
      have hrest' : ((it.atSingle .numberInt 48).atSingle .semicolon 59).rest = zeros n :=
        rest_advance hrest
      rw [next_zero h, tokensFrom, if_neg (by simp [atSingle]), next_semicolon hrest, tokensFrom,
        if_neg (by simp [atSingle]), ih hrest' hline (by omega)]
      simp [token, atSingle, zeroTokens, hline]

end TokenIterator

theorem tokens_zeros (n : Nat) : Lexer.tokens (zeros n) = zeroTokens n :=
  TokenIterator.tokensFrom_zeros rfl rfl (by rw [length_zeros]; omega)

end Lexer

/-! ### Statements one after the other -/

namespace Compiler

variable {parseReal : ParseReal}

/-- The parser is before `n` statements `0;`, and has reported nothing. -/
structure BeforeZeros (n : Nat) (s : CompilerState) : Prop where
  current : s.parser.tokens.current = (zeroTokens n).headD {}
  rest : s.parser.tokens.rest = (zeroTokens n).tail
  hadError : s.parser.hadError = false
  panicMode : s.parser.panicMode = false

/-- The state after a statement `0;` before `n` of them. -/
def afterZero (n : Nat) (s : CompilerState) : CompilerState :=
  { s with
    parser := { s.parser with
      tokens := ⟨{ tokenType := .semicolon, lexeme := [59] }, (zeroTokens n).headD {},
        (zeroTokens n).tail⟩ }
    current := { s.current with
      function := Chunk.writeSimpleOp (Chunk.writeSimpleOp s.current.function .zero 1) .popTop 1 } }

theorem BeforeZeros.afterZero {n : Nat} {s : CompilerState} (h : BeforeZeros (n + 1) s) :
    BeforeZeros n (afterZero n s) := ⟨rfl, rfl, h.hadError, h.panicMode⟩

theorem code_afterZero (n : Nat) (s : CompilerState) :
    (afterZero n s).current.function.code =
      s.current.function.code ++ [OpCode.zero.toByte, OpCode.popTop.toByte] := by
  simp only [afterZero, Chunk.writeSimpleOp, Chunk.writeByte_eq, List.append_assoc,
    List.singleton_append]

/-- A statement is compiled by the same steps wherever it stands. -/
theorem declaration_zero {n fuel : Nat} {s : CompilerState} (h : BeforeZeros (n + 1) s) :
    (routines parseReal (fuel + 4)).declaration s = .ok ((), afterZero n s) := by
  obtain ⟨⟨⟨previous, current, rest⟩, hadError, panicMode, errors⟩, cur, enclosing, context, next⟩ := s
  obtain ⟨hcurrent, hrest, hadError', hpanic⟩ := h
  dsimp only at hcurrent hrest hadError' hpanic
  subst hcurrent hrest hadError' hpanic
  cases n <;> rfl

theorem programLoop_zeros (n : Nat) {s : CompilerState} (h : BeforeZeros n s) :
    ∃ s', (routines parseReal (n + 5)).programLoop s = .ok ((), s') ∧ s'.parser.hadError = false ∧
      s'.current.functionType = s.current.functionType ∧
      s'.current.function.code.length = s.current.function.code.length + 2 * n := by
  induction n generalizing s with
  | zero =>
      obtain ⟨⟨⟨previous, current, rest⟩, hadError, panicMode, errors⟩, cur, enclosing, context, next⟩ := s
      obtain ⟨hcurrent, hrest, hadError', hpanic⟩ := h
      dsimp only at hcurrent hrest hadError' hpanic
      subst hcurrent hrest hadError' hpanic
      exact ⟨_, rfl, rfl, rfl, rfl⟩
  | succ n ih =>
      obtain ⟨s', hloop, hadError, htype, hlength⟩ := ih h.afterZero
      have hmatch : matchToken .endOfFile s = .ok (false, s) := by
        simp [matchToken, Parser.match, Parser.check, h.current, zeroTokens]
      refine ⟨s', ?_, hadError, htype, ?_⟩
      · change programLoop (routines parseReal (n + 5)) s = _
        rw [programLoop, CompilerM.bind_apply, hmatch]
        change ((routines parseReal (n + 1 + 4)).declaration >>= fun _ => _) s = _
        rw [CompilerM.bind_apply, declaration_zero h]
        exact hloop
      · rw [hlength, code_afterZero, List.length_append]
        simp only [List.length_cons, List.length_nil]
        omega

/-- The state after the end of a script. -/
def afterReturn (s : CompilerState) : CompilerState :=
  { s with current := { s.current with
      function := Chunk.writeSimpleOp
        (Chunk.writeSimpleOp s.current.function .nil s.parser.tokens.previous.line) .return
        s.parser.tokens.previous.line } }

theorem emitReturn_script {s : CompilerState} (h : s.current.functionType = .script) :
    emitReturn s = .ok ((), afterReturn s) := by
  unfold emitReturn
  rw [CompilerM.bind_apply]
  dsimp only [CompilerM.get]
  rw [h]
  rfl

theorem length_afterReturn (s : CompilerState) :
    (afterReturn s).current.function.code.length = s.current.function.code.length + 2 := by
  simp only [afterReturn, Chunk.writeSimpleOp, Chunk.writeByte_eq, List.length_append,
    List.length_singleton]

/-- **There are accepted programs of every length.**  No limit of the compiler is on the length of a
chunk: those on constants, locals and jumps say nothing about statements one after the other. -/
theorem compile_zeros (parseReal : ParseReal) (n : Nat) : ∃ f s,
    compile parseReal (n + 5) (zeros n) .empty 0 = .ok (some f, s) ∧ f.code.length = 2 * n + 2 := by
  have hparser : (initialState (zeros n) .empty 0).parser = Parser.init (zeroTokens n) :=
    congrArg Parser.init (Lexer.tokens_zeros n)
  have hbefore : BeforeZeros n (initialState (zeros n) .empty 0) := by
    constructor
    all_goals
      rw [hparser]
      cases n <;> rfl
  obtain ⟨s', hloop, hadError, htype, hlength⟩ := @programLoop_zeros parseReal n _ hbefore
  have hscript : s'.current.functionType = .script := htype
  have hcode : s'.current.function.code.length = 2 * n := hlength.trans (Nat.zero_add _)
  refine ⟨_, afterReturn s', ?_, (length_afterReturn s').trans (congrArg (· + 2) hcode)⟩
  unfold compile compileScript
  rw [CompilerM.bind_apply, hloop]
  dsimp only
  rw [emitReturn_script hscript]
  dsimp only
  rw [show (afterReturn s').parser.hadError = false from hadError, if_neg Bool.false_ne_true]

end Compiler

end CppLox
