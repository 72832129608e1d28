import CppLox.Compiler.Lexer
import Mathlib.Data.List.GetD
import Mathlib.Logic.Function.Iterate

/-!
# Compiler — progress of the lexer

Each iteration of a loop of the lexer consumes a byte, and so does each token before the end of
the file.  So the loops end by their conditions, and the iterator reaches `END_OF_FILE`.
-/

namespace CppLox

namespace Lexer

namespace TokenIterator

/-- The iterator has moved on in the same source. -/
structure Moves (it it' : TokenIterator) : Prop where
  source : it'.source = it.source
  le : it.current ≤ it'.current

theorem Moves.refl (it : TokenIterator) : Moves it it := ⟨rfl, Nat.le_refl _⟩

theorem Moves.trans {a b c : TokenIterator} (h : Moves a b) (h' : Moves b c) : Moves a c :=
  ⟨h'.source.trans h.source, Nat.le_trans h.le h'.le⟩

theorem moves_advance (it : TokenIterator) : Moves it it.advance := ⟨rfl, Nat.le_succ _⟩

/-- A character was read, so there is one. -/
theorem lt_of_peek {it : TokenIterator} (h : it.peek ≠ 0) : it.current < it.source.length := by
  by_contra hle
  exact h (List.getD_eq_default _ _ (by omega))

/-! ### The loops -/

variable {p : TokenIterator → Bool}

theorem moves_advanceWhile (p : TokenIterator → Bool) (fuel : Nat) (it : TokenIterator) :
    Moves it (advanceWhile p fuel it) := by
  induction fuel generalizing it with
  | zero => exact Moves.refl it
  | succ fuel ih =>
      unfold advanceWhile
      split
      · exact (moves_advance it).trans (ih _)
      · exact Moves.refl it

/-- A loop that stops at the end of the source ends by its condition. -/
theorem advanceWhile_ends (hp : ∀ it, p it = true → it.current < it.source.length) {fuel : Nat}
    {it : TokenIterator} (h : it.source.length - it.current ≤ fuel) :
    p (advanceWhile p fuel it) = false := by
  induction fuel generalizing it with
  | zero =>
      by_contra hne
      have hlt := hp it (by simpa [advanceWhile] using hne)
      omega
  | succ fuel ih =>
      unfold advanceWhile
      split
      · refine ih ?_
        change it.source.length - (it.current + 1) ≤ fuel
        omega
      · rename_i hne
        simpa using hne

theorem lt_of_isDigit (it : TokenIterator) (h : isDigit it.peek = true) :
    it.current < it.source.length := by
  refine lt_of_peek fun hz => ?_
  rw [hz] at h
  exact absurd h (by decide)

theorem lt_of_isWord (it : TokenIterator) (h : isWord it.peek = true) :
    it.current < it.source.length := by
  refine lt_of_peek fun hz => ?_
  rw [hz] at h
  exact absurd h (by decide)

/-- The condition of the loop over a comment. -/
def inComment (it : TokenIterator) : Bool := !it.isAtEnd && it.peek != 10

theorem lt_of_inComment (it : TokenIterator) (h : inComment it = true) :
    it.current < it.source.length := by
  simp only [inComment, isAtEnd, Bool.and_eq_true, Bool.not_eq_true', decide_eq_false_iff_not] at h
  omega

/-- What `skip_whitespace` skips. -/
def Blank (it : TokenIterator) : Prop :=
  it.peek = 32 ∨ it.peek = 9 ∨ it.peek = 13 ∨ it.peek = 10 ∨ it.peek = 47 ∧ it.peekNext = 47

theorem Blank.lt {it : TokenIterator} (h : it.Blank) : it.current < it.source.length := by
  refine lt_of_peek fun hz => ?_
  unfold Blank at h
  rw [hz] at h
  rcases h with h | h | h | h | ⟨h, -⟩ <;> exact absurd h (by decide)

theorem moves_skipWhitespace (fuel : Nat) (it : TokenIterator) :
    Moves it (skipWhitespace fuel it) := by
  induction fuel generalizing it with
  | zero => exact Moves.refl it
  | succ fuel ih =>
      unfold skipWhitespace
      dsimp only
      split
      · exact (moves_advance it).trans (ih _)
      · split
        · have h := ih { it.advance with line := it.line + 1 }
          exact ⟨h.source, Nat.le_of_succ_le h.le⟩
        · split
          · exact (moves_advanceWhile _ _ it).trans (ih _)
          · exact Moves.refl it

/-- The first character of a comment is skipped. -/
theorem comment_progress {it : TokenIterator} (h : it.peek = 47) :
    it.current < (advanceWhile inComment it.source.length it).current := by
  have hlt : it.current < it.source.length := lt_of_peek (by rw [h]; decide)
  have hcond : inComment it = true := by
    simp [inComment, isAtEnd, h, hlt]
  obtain ⟨n, hn⟩ : ∃ n, it.source.length = n + 1 := ⟨it.source.length - 1, by omega⟩
  rw [hn, advanceWhile, if_pos hcond]
  exact (moves_advanceWhile _ n it.advance).le

theorem skipWhitespace_ends {fuel : Nat} {it : TokenIterator}
    (h : it.source.length - it.current < fuel) : ¬ (skipWhitespace fuel it).Blank := by
  induction fuel generalizing it with
  | zero => omega
  | succ fuel ih =>
      unfold skipWhitespace
      dsimp only
      split
      · rename_i hb
        have hlt : it.current < it.source.length := Blank.lt (show it.Blank by unfold Blank; tauto)
        refine ih ?_
        change it.source.length - (it.current + 1) < fuel
        omega
      · rename_i hb
        split
        · rename_i hn
          have hlt : it.current < it.source.length := Blank.lt (show it.Blank by unfold Blank; tauto)
          refine ih ?_
          change it.source.length - (it.current + 1) < fuel
          omega
        · rename_i hn
          split
          · rename_i hc
            have hlt : it.current < it.source.length := lt_of_peek (by rw [hc.1]; decide)
            have hmoves := moves_advanceWhile inComment it.source.length it
            have hprogress := comment_progress hc.1
            refine ih ?_
            change (advanceWhile inComment it.source.length it).source.length -
              (advanceWhile inComment it.source.length it).current < fuel
            rw [hmoves.source]
            omega
          · rename_i hc
            unfold Blank
            tauto

theorem moves_scanString (fuel : Nat) (it : TokenIterator) : Moves it (scanString fuel it) := by
  induction fuel generalizing it with
  | zero => exact Moves.refl it
  | succ fuel ih =>
      unfold scanString
      split
      · have h := ih { it.advance with line := if it.peek = 10 then it.line + 1 else it.line }
        exact ⟨h.source, Nat.le_of_succ_le h.le⟩
      · exact Moves.refl it

theorem scanString_ends {fuel : Nat} {it : TokenIterator}
    (h : it.source.length - it.current ≤ fuel) :
    (scanString fuel it).peek = 34 ∨ (scanString fuel it).isAtEnd = true := by
  induction fuel generalizing it with
  | zero => exact .inr (decide_eq_true (by omega : it.source.length ≤ it.current))
  | succ fuel ih =>
      unfold scanString
      split
      · refine ih ?_
        change it.source.length - (it.current + 1) ≤ fuel
        omega
      · rename_i hc
        by_contra hne
        simp only [not_or] at hne
        exact hc ⟨hne.1, by simpa using hne.2⟩

/-- The loops of the lexer end by their conditions. -/
structure LoopsEnd (it : TokenIterator) : Prop where
  whitespace : ¬ (skipWhitespace (it.source.length + 1) it).Blank
  comment : inComment (advanceWhile inComment it.source.length it) = false
  digits : isDigit (advanceWhile (fun it => isDigit it.peek) it.source.length it).peek = false
  word : isWord (advanceWhile (fun it => isWord it.peek) it.source.length it).peek = false
  string : (scanString it.source.length it).peek = 34 ∨
    (scanString it.source.length it).isAtEnd = true

theorem loopsEnd (it : TokenIterator) : LoopsEnd it where
  whitespace := skipWhitespace_ends (Nat.lt_succ_of_le (Nat.sub_le _ _))
  comment := advanceWhile_ends lt_of_inComment (Nat.sub_le _ _)
  digits := advanceWhile_ends (p := fun it => isDigit it.peek) lt_of_isDigit (Nat.sub_le _ _)
  word := advanceWhile_ends (p := fun it => isWord it.peek) lt_of_isWord (Nat.sub_le _ _)
  string := scanString_ends (Nat.sub_le _ _)

/-! ### The tokens -/

theorem moves_matchString (it : TokenIterator) : Moves it it.matchString.2 := by
  unfold matchString
  dsimp only
  have h := moves_scanString it.source.length it
  split
  · exact ⟨h.source, h.le⟩
  · exact h.trans (moves_advance _)

/-- The end of a number, with an error or without. -/
theorem moves_ite {it a : TokenIterator} (h : Moves it a) (b : Bool) (err : ErrorCode)
    (type : TokenType) :
    Moves it (if b = true then (TokenType.error, { a with err }) else (type, a)).2 := by
  split
  · exact ⟨h.source, h.le⟩
  · exact h

theorem moves_matchNumber (it : TokenIterator) : Moves it it.matchNumber.2 := by
  have hdigits := moves_advanceWhile (fun it => isDigit it.peek) it.source.length it
  unfold matchNumber
  dsimp only
  split
  · exact moves_ite (hdigits.trans (moves_advanceWhile _ _ _)) _ _ _
  · refine moves_ite (hdigits.trans ?_) _ _ _
    exact (moves_advance _).trans ((moves_advanceWhile _ _ _).trans (moves_advanceWhile _ _ _))

theorem moves_matchIdentifier (it : TokenIterator) : Moves it it.matchIdentifier.2 :=
  moves_advanceWhile _ _ it

theorem moves_match (it : TokenIterator) (ch : UInt8) : Moves it (it.match ch).2 := by
  unfold TokenIterator.match
  split
  · exact Moves.refl it
  · split
    · exact Moves.refl it
    · exact moves_advance it

theorem moves_orElse (it : TokenIterator) (ch : Char) (two one : TokenType) :
    Moves it (it.orElse ch two one).2 :=
  moves_match it _

/-- A token before the end of the file consumes a byte. -/
theorem scanToken_progress (it : TokenIterator) :
    it.scanToken.1 = .endOfFile ∨
      it.scanToken.2.source = it.source ∧ it.current < it.scanToken.2.current := by
  have hskip := moves_skipWhitespace (it.source.length + 1) it
  unfold scanToken
  dsimp only
  generalize skipWhitespace (it.source.length + 1) it = a at hskip ⊢
  have hafter : ∀ b : TokenIterator, Moves { a with start := a.current, current := a.current + 1 } b →
      b.source = it.source ∧ it.current < b.current := fun b hb =>
    ⟨hb.source.trans hskip.source, Nat.lt_of_le_of_lt hskip.le hb.le⟩
  split
  · exact .inl rfl
  · right
    split
    · exact hafter _ (moves_matchIdentifier _)
    · split
      · exact hafter _ (moves_matchNumber _)
      · split <;> first
          | exact hafter _ (moves_orElse _ _ _ _)
          | exact hafter _ (moves_matchString _)
          | exact hafter _ (Moves.refl _)
          | exact hafter _ ⟨rfl, Nat.le_refl _⟩

/-- `operator++` consumes a byte or comes to the end of the file. -/
theorem next_progress (it : TokenIterator) :
    it.next.currentTokenType = .endOfFile ∨
      it.next.source = it.source ∧ it.current < it.next.current ∧
        it.current < it.source.length := by
  unfold next
  dsimp only
  split
  · exact .inl rfl
  · rename_i hend
    have hlt : it.current < it.source.length := by simpa [isAtEnd] using hend
    rcases scanToken_progress { it with err := .noError, start := it.current } with h | h
    · exact .inl h
    · exact .inr ⟨h.1, h.2, hlt⟩

/-- The iterator reaches the end of the file. -/
theorem exists_endOfFile {n : Nat} {it : TokenIterator} (h : it.source.length - it.current < n) :
    ∃ k ≤ n, (next^[k] it).currentTokenType = .endOfFile := by
  induction n generalizing it with
  | zero => omega
  | succ n ih =>
      rcases next_progress it with hend | ⟨hsource, hprogress, hlt⟩
      · exact ⟨1, by omega, hend⟩
      · have hshort : it.next.source.length - it.next.current < n := by
          rw [hsource]
          omega
        obtain ⟨k, hk, hend⟩ := ih hshort
        exact ⟨k + 1, by omega, hend⟩

/-- More fuel gives no more tokens. -/
theorem tokensFrom_eq {fuel k : Nat} {it : TokenIterator}
    (h : (next^[k] it).currentTokenType = .endOfFile) (hk : k ≤ fuel) :
    it.tokensFrom (fuel + 1) = it.tokensFrom (k + 1) := by
  induction k generalizing it fuel with
  | zero =>
      have hend : it.currentTokenType = .endOfFile := h
      rw [tokensFrom, tokensFrom, if_pos hend, if_pos hend]
  | succ k ih =>
      obtain ⟨fuel, rfl⟩ : ∃ n, fuel = n + 1 := ⟨fuel - 1, by omega⟩
      rw [tokensFrom, ih h (by omega)]
      rfl

end TokenIterator

/-- From the beginning, too. -/
theorem begin_endOfFile (source : Bytes) :
    ∃ k ≤ source.length,
      (TokenIterator.next^[k] (Lexer.begin source)).currentTokenType = .endOfFile := by
  rcases TokenIterator.next_progress { source, start := 0, current := 0, line := 1 } with
    hend | ⟨hsource, hprogress, hlt⟩
  · exact ⟨0, Nat.zero_le _, hend⟩
  · refine TokenIterator.exists_endOfFile ?_
    change (Lexer.begin source).source = source at hsource
    change 0 < (Lexer.begin source).current at hprogress
    change 0 < source.length at hlt
    rw [hsource]
    omega

/-- The whole source is read. -/
theorem tokensFrom_begin {source : Bytes} {fuel : Nat} (h : source.length < fuel) :
    (Lexer.begin source).tokensFrom fuel = Lexer.tokens source := by
  obtain ⟨k, hk, hend⟩ := begin_endOfFile source
  obtain ⟨n, rfl⟩ : ∃ n, fuel = n + 1 := ⟨fuel - 1, by omega⟩
  rw [TokenIterator.tokensFrom_eq hend (by omega)]
  exact (TokenIterator.tokensFrom_eq hend hk).symm

end Lexer

end CppLox
