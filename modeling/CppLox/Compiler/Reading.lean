import CppLox.Compiler.Lexemes
import CppLox.Compiler.Scanning

/-!
# Compiler — what the lexer reads

The functions of the iterator move it over a prefix of the rest of the source.  The loops read the
longest prefix of a class of characters, `skip_whitespace` reads a gap, and every matching function
reads a lexeme.
-/

namespace CppLox

namespace Lexer

namespace TokenIterator

/-- The source from the next character on. -/
def rest (it : TokenIterator) : Bytes := it.source.drop it.current

/-- The newlines of a text as `line` counts them. -/
def newlines (bytes : Bytes) : Int32 := Int32.ofNat (bytes.count 10)

theorem newlines_append (bytes bytes' : Bytes) :
    newlines (bytes ++ bytes') = newlines bytes + newlines bytes' := by
  rw [newlines, List.count_append, Int32.ofNat_add]
  rfl

theorem newlines_singleton {c : UInt8} (hc : c ≠ 10) : newlines [c] = 0 := by
  rw [newlines, List.count_singleton, if_neg (by simpa using hc)]
  rfl

theorem newlines_cons {c : UInt8} (hc : c ≠ 10) (bytes : Bytes) :
    newlines (c :: bytes) = newlines bytes := by
  rw [newlines, List.count_cons_of_ne hc]
  rfl

/-- The iterator moves over bytes, and counts the newlines. -/
structure Advances (it it' : TokenIterator) (bytes : Bytes) : Prop where
  source : it'.source = it.source
  start : it'.start = it.start
  err : it'.err = it.err
  current : it'.current = it.current + bytes.length
  line : it'.line = it.line + newlines bytes
  rest : it.rest = bytes ++ it'.rest

variable {it it' it'' : TokenIterator} {bytes bytes' : Bytes} {c : UInt8} {r : Bytes}

theorem Advances.refl (it : TokenIterator) : Advances it it [] := ⟨rfl, rfl, rfl, rfl, (Int32.add_zero _).symm, rfl⟩

theorem Advances.trans (h : Advances it it' bytes) (h' : Advances it' it'' bytes') :
    Advances it it'' (bytes ++ bytes') where
  source := h'.source.trans h.source
  start := h'.start.trans h.start
  err := h'.err.trans h.err
  current := by rw [h'.current, h.current, List.length_append, Nat.add_assoc]
  line := by rw [h'.line, h.line, newlines_append, Int32.add_assoc]
  rest := by rw [h.rest, h'.rest, List.append_assoc]

/-! ### Single characters -/

theorem isAtEnd_iff : it.isAtEnd = true ↔ it.rest = [] := by
  rw [isAtEnd, rest, List.drop_eq_nil_iff, decide_eq_true_eq]

theorem isAtEnd_eq_false (h : it.rest = c :: r) : it.isAtEnd = false := by
  rw [Bool.eq_false_iff]
  exact fun hend => nomatch h.symm.trans (isAtEnd_iff.mp hend)

theorem peek_eq (it : TokenIterator) : it.peek = it.rest.head?.getD 0 := by
  rw [peek, rest, List.head?_drop, List.getD_eq_getElem?_getD]

theorem peekNext_eq (it : TokenIterator) : it.peekNext = it.rest.tail.head?.getD 0 := by
  rw [peekNext, rest, List.tail_drop, List.head?_drop, List.getD_eq_getElem?_getD]

theorem peek_of_rest (h : it.rest = c :: r) : it.peek = c := by
  rw [peek_eq, h]
  rfl

theorem rest_of_peek (h : it.peek ≠ 0) : it.rest = it.peek :: it.rest.tail := by
  rw [peek_eq] at h ⊢
  cases hrest : it.rest with
  | nil =>
      rw [hrest] at h
      exact absurd rfl h
  | cons => rfl

theorem rest_advance (h : it.rest = c :: r) : it.advance.rest = r := by
  rw [rest] at h
  rw [rest, advance, ← List.tail_drop, h]
  rfl

theorem advances_advance (h : it.rest = c :: r) (hc : c ≠ 10) : Advances it it.advance [c] where
  source := rfl
  start := rfl
  err := rfl
  current := rfl
  line := by rw [newlines_singleton hc, Int32.add_zero]; rfl
  rest := by rw [h, rest_advance h]; rfl

theorem advances_newline (h : it.rest = 10 :: r) :
    Advances it { it.advance with line := it.line + 1 } [10] where
  source := rfl
  start := rfl
  err := rfl
  current := rfl
  line := rfl
  rest := by rw [h]; exact congrArg (10 :: ·) (rest_advance h).symm

/-! ### The loops -/

/-- A loop over a class of characters without the newline reads as many of them as there are. -/
theorem advances_advanceWhile {cond : TokenIterator → Bool} {p : UInt8 → Bool}
    (hcond : ∀ it, cond it = it.rest.head?.any p) (hline : p 10 = false) {fuel : Nat}
    (h : it.rest.length ≤ fuel) :
    Advances it (advanceWhile cond fuel it) (it.rest.takeWhile p) := by
  induction fuel generalizing it with
  | zero =>
      rw [List.length_eq_zero_iff.mp (Nat.le_zero.mp h)]
      exact Advances.refl it
  | succ fuel ih =>
      unfold advanceWhile
      rw [hcond]
      cases hrest : it.rest with
      | nil => exact Advances.refl it
      | cons c r =>
          rw [List.takeWhile_cons]
          change Advances it (if p c = true then _ else _) _
          split
          · rename_i hc
            have hne : c ≠ 10 := by
              rintro rfl
              rw [hline] at hc
              cases hc
            have htail := rest_advance hrest
            rw [hrest, List.length_cons] at h
            have hih := @ih it.advance (by rw [htail]; omega)
            rw [htail] at hih
            exact (advances_advance hrest hne).trans hih
          · exact Advances.refl it

/-- A class without `NUL`, which `peek` returns at the end of the source. -/
theorem class_peek {p : UInt8 → Bool} (hzero : p 0 = false) (it : TokenIterator) :
    p it.peek = it.rest.head?.any p := by
  rw [peek_eq]
  cases it.rest with
  | nil => exact hzero
  | cons => rfl

theorem inComment_eq (it : TokenIterator) : inComment it = it.rest.head?.any (· != 10) := by
  rw [inComment, peek_eq]
  cases h : it.rest with
  | nil =>
      rw [isAtEnd_iff.mpr h]
      rfl
  | cons c r =>
      rw [isAtEnd_eq_false h]
      rfl

theorem length_rest_le (it : TokenIterator) : it.rest.length ≤ it.source.length := by
  rw [rest, List.length_drop]
  exact Nat.sub_le _ _

theorem advances_digits (it : TokenIterator) :
    Advances it (advanceWhile (fun it => isDigit it.peek) it.source.length it)
      (it.rest.takeWhile isDigit) :=
  advances_advanceWhile (class_peek (by decide)) (by decide) (length_rest_le it)

theorem advances_word (it : TokenIterator) :
    Advances it (advanceWhile (fun it => isWord it.peek) it.source.length it)
      (it.rest.takeWhile isWord) :=
  advances_advanceWhile (class_peek (by decide)) (by decide) (length_rest_le it)

theorem advances_comment (it : TokenIterator) :
    Advances it (advanceWhile inComment it.source.length it) (it.rest.takeWhile (· != 10)) :=
  advances_advanceWhile inComment_eq (by decide) (length_rest_le it)

/-- The loop over a string reads to the next quote, or to the end of the source. -/
theorem advances_scanString {fuel : Nat} (h : it.rest.length ≤ fuel) :
    Advances it (scanString fuel it) (it.rest.takeWhile (· != 34)) := by
  induction fuel generalizing it with
  | zero =>
      rw [List.length_eq_zero_iff.mp (Nat.le_zero.mp h)]
      exact Advances.refl it
  | succ fuel ih =>
      unfold scanString
      cases hrest : it.rest with
      | nil =>
          rw [if_neg (by simp [isAtEnd_iff.mpr hrest])]
          exact Advances.refl it
      | cons c r =>
          have htail := rest_advance hrest
          rw [peek_of_rest hrest, isAtEnd_eq_false hrest, List.takeWhile_cons]
          rw [hrest, List.length_cons] at h
          by_cases hc : c = 34
          · have hcond : ¬ (c ≠ 34 ∧ (!false) = true) := fun h => h.1 hc
            have hquote : ¬ (c != 34) = true := by simp [hc]
            rw [if_neg hcond, if_neg hquote]
            exact Advances.refl it
          · have hcond : c ≠ 34 ∧ (!false) = true := ⟨hc, rfl⟩
            have hquote : (c != 34) = true := by simp [hc]
            rw [if_pos hcond, if_pos hquote]
            by_cases hn : c = 10
            · rw [if_pos hn]
              subst hn
              have hih := @ih { it.advance with line := it.line + 1 }
                (by change it.advance.rest.length ≤ fuel; rw [htail]; omega)
              change Advances _ _ (it.advance.rest.takeWhile _) at hih
              rw [htail] at hih
              exact (advances_newline hrest).trans hih
            · rw [if_neg hn]
              have hih := @ih it.advance (by rw [htail]; omega)
              rw [htail] at hih
              exact (advances_advance hrest hn).trans hih

/-- Where the loop over a class ends. -/
theorem Advances.rest_eq_dropWhile {p : UInt8 → Bool}
    (h : Advances it it' (it.rest.takeWhile p)) : it'.rest = it.rest.dropWhile p :=
  List.append_cancel_left (h.rest.symm.trans List.takeWhile_append_dropWhile.symm)

theorem Advances.stops {p : UInt8 → Bool} (h : Advances it it' (it.rest.takeWhile p)) :
    Stops p it'.rest := by
  rw [h.rest_eq_dropWhile]
  exact stops_dropWhile _

theorem forall_mem_takeWhile {p : UInt8 → Bool} (text : Bytes) :
    ∀ d ∈ text.takeWhile p, p d = true := fun _ => List.mem_takeWhile_imp

/-! ### Gaps -/

/-- A comment is read with the slashes it begins with. -/
theorem advances_commentText (h : it.peek = 47) (h' : it.peekNext = 47) :
    ∃ text, 10 ∉ text ∧
      Advances it (advanceWhile inComment it.source.length it) (47 :: 47 :: text) := by
  have hrest := @rest_of_peek it (by rw [h]; decide)
  rw [h] at hrest
  rw [peekNext_eq] at h'
  cases htail : it.rest.tail with
  | nil =>
      rw [htail] at h'
      cases h'
  | cons c text =>
      rw [htail] at h' hrest
      have hc : c = 47 := h'
      subst hc
      have hread := advances_comment it
      rw [hrest, List.takeWhile_cons_of_pos (by decide), List.takeWhile_cons_of_pos (by decide)]
        at hread
      refine ⟨text.takeWhile (· != 10), fun hmem => ?_, hread⟩
      simpa using List.mem_takeWhile_imp hmem

/-- A comment ends with the source or before a newline. -/
theorem comment_end (it : TokenIterator) :
    (advanceWhile inComment it.source.length it).rest = [] ∨
      (advanceWhile inComment it.source.length it).rest.head? = some 10 := by
  have hstops := (advances_comment it).stops
  cases hrest : (advanceWhile inComment it.source.length it).rest with
  | nil => exact .inl rfl
  | cons c r =>
      rw [hrest, stops_cons] at hstops
      exact .inr (congrArg some (by simpa using hstops))

/-- `skip_whitespace` reads a gap. -/
theorem skipWhitespace_spec {fuel : Nat} (h : it.rest.length < fuel) :
    ∃ gap, Advances it (skipWhitespace fuel it) gap ∧ Gap gap (skipWhitespace fuel it).rest := by
  induction fuel generalizing it with
  | zero => exact absurd h (Nat.not_lt_zero _)
  | succ fuel ih =>
      unfold skipWhitespace
      dsimp only
      split
      · rename_i hblank
        have hne : it.peek ≠ 0 ∧ it.peek ≠ 10 := by
          rcases hblank with hc | hc | hc <;> rw [hc] <;> decide
        have hrest := rest_of_peek hne.1
        have hlen := congrArg List.length hrest
        rw [List.length_cons] at hlen
        obtain ⟨gap, hgap, hblanks⟩ := @ih it.advance (by rw [rest_advance hrest]; omega)
        refine ⟨_, (advances_advance hrest hne.2).trans hgap, .blank ?_ hblanks⟩
        rcases hblank with hc | hc | hc <;> simp [hc]
      · split
        · rename_i hnewline
          have hrest := @rest_of_peek it (by rw [hnewline]; decide)
          have hlen := congrArg List.length hrest
          rw [List.length_cons] at hlen
          rw [hnewline] at hrest
          obtain ⟨gap, hgap, hblanks⟩ := @ih { it.advance with line := it.line + 1 }
            (by change it.advance.rest.length < fuel; rw [rest_advance hrest]; omega)
          exact ⟨_, (advances_newline hrest).trans hgap, .blank (by simp) hblanks⟩
        · split
          · rename_i hcomment
            obtain ⟨text, htext, hread⟩ := advances_commentText hcomment.1 hcomment.2
            have hlen := congrArg List.length hread.rest
            rw [List.length_append, List.length_cons, List.length_cons] at hlen
            obtain ⟨gap, hgap, hblanks⟩ :=
              @ih (advanceWhile inComment it.source.length it) (by omega)
            have hend := comment_end it
            rw [hgap.rest] at hend
            exact ⟨47 :: 47 :: text ++ gap, hread.trans hgap, .comment htext hend hblanks⟩
          · exact ⟨[], Advances.refl it, .nil⟩

/-! ### Lexemes -/

/-- A function that is called after the character `c` reads the lexeme that begins with it. -/
def Matches (it : TokenIterator) (c : UInt8) (result : TokenType × TokenIterator) : Prop :=
  ∃ it' bytes err, Advances it it' bytes ∧ result.2 = { it' with err } ∧
    Lexeme result.1 err (c :: bytes) it'.rest

/-- Without an error the iterator only advances. -/
theorem Matches.of_advances {type : TokenType} (herr : it.err = .noError)
    (h : Advances it it' bytes) (hlexeme : Lexeme type .noError (c :: bytes) it'.rest) :
    Matches it c (type, it') := by
  refine ⟨it', bytes, .noError, h, ?_, hlexeme⟩
  rw [← herr, ← h.err]

theorem matchString_spec (herr : it.err = .noError) : Matches it 34 it.matchString := by
  have hread : Advances it (scanString it.source.length it) _ :=
    advances_scanString (length_rest_le it)
  have hquote : 34 ∉ it.rest.takeWhile (· != 34) := fun hmem => by
    simpa using List.mem_takeWhile_imp hmem
  unfold matchString
  dsimp only
  split
  · rename_i hend
    refine ⟨_, _, .unterminatedString, hread, rfl, ?_⟩
    rw [isAtEnd_iff.mp hend]
    exact .unterminated hquote
  · rename_i hend
    have hstops := hread.stops
    cases hrest : (scanString it.source.length it).rest with
    | nil => exact absurd (isAtEnd_iff.mpr hrest) hend
    | cons d r =>
        rw [hrest, stops_cons] at hstops
        have hd : d = 34 := by simpa using hstops
        subst hd
        exact .of_advances herr (hread.trans (advances_advance hrest (by decide))) (.string hquote)

/-- After a number the letters, digits and underscores that follow it directly are read. -/
theorem matches_numberEnd {type : TokenType} (herr : it.err = .noError)
    (h : Advances it it' bytes) (hnumeral : Numeral type (c :: bytes))
    (hlongest : LongestPrefix IsNumber (c :: bytes ++ it'.rest) (c :: bytes)) :
    Matches it c
      (if isWord it'.peek = true then
        (.error, { advanceWhile (fun it => isWord it.peek) it'.source.length it' with
          err := .invalidDecimalLiteral })
      else (type, advanceWhile (fun it => isWord it.peek) it'.source.length it')) := by
  have hword := advances_word it'
  have hstops := hword.stops
  split
  · rename_i hc
    have hrest := @rest_of_peek it' fun hzero => by rw [hzero] at hc; cases hc
    refine ⟨_, _, .invalidDecimalLiteral, h.trans hword, rfl, ?_⟩
    rw [hword.rest] at hlongest
    refine .invalidNumber hlongest ?_ (forall_mem_takeWhile _) hstops
    rw [hrest, List.takeWhile_cons_of_pos hc]
    exact List.cons_ne_nil _ _
  · rename_i hc
    have hnil : it'.rest.takeWhile isWord = [] := by
      rw [class_peek (p := isWord) (by decide)] at hc
      cases hrest : it'.rest with
      | nil => rfl
      | cons d r =>
          rw [hrest] at hc
          exact List.takeWhile_cons_of_neg hc
    have hall := h.trans hword
    rw [hnil, List.append_nil] at hall
    refine .of_advances herr hall (.number hnumeral ?_ hstops)
    rwa [hword.rest, hnil] at hlongest

theorem matchNumber_spec (herr : it.err = .noError) (hc : isDigit c = true) :
    Matches it c it.matchNumber := by
  have hdigits := advances_digits it
  have hstops := hdigits.stops
  have hall : ∀ d ∈ c :: it.rest.takeWhile isDigit, isDigit d = true := by
    intro d hd
    rcases List.mem_cons.mp hd with rfl | hd
    · exact hc
    · exact forall_mem_takeWhile _ d hd
  unfold matchNumber
  dsimp only
  generalize advanceWhile (fun it => isDigit it.peek) it.source.length it = a at hdigits hstops ⊢
  by_cases hpoint : a.peek = 46
  · -- the point is read with the digits after it
    have hrest := @rest_of_peek a (by rw [hpoint]; decide)
    rw [hpoint] at hrest
    have hfraction : Advances a.advance
        (advanceWhile (fun it => isDigit it.peek) a.source.length a.advance) _ :=
      advances_digits a.advance
    have hread := (hdigits.trans (advances_advance hrest (by decide))).trans hfraction
    rw [List.append_assoc] at hread
    have hall' := forall_mem_takeWhile (p := isDigit) a.advance.rest
    have hend := matches_numberEnd herr hread (.real (List.cons_ne_nil _ _) hall hall')
      (longestPrefix_real (List.cons_ne_nil _ _) hall hall' hfraction.stops)
    simpa only [hpoint, ne_eq, not_true_eq_false, if_false] using hend
  · have hhead : a.rest.head? ≠ some 46 := fun hhead => hpoint (by rw [peek_eq, hhead]; rfl)
    have hend := matches_numberEnd herr hdigits (.int (List.cons_ne_nil _ _) hall)
      (longestPrefix_int (List.cons_ne_nil _ _) hall hstops hhead)
    simpa only [hpoint, ne_eq, not_false_eq_true, if_true] using hend

/-- A symbol of one character that no longer one goes on with. -/
theorem matches_symbol {type : TokenType} (herr : it.err = .noError) (hmem : ([c], type) ∈ symbols)
    (h : ∀ s ∈ symbols, s.1.head? = some c → s.1 = [c] ∨ s.1[1]? ≠ it.rest.head?) :
    Matches it c (type, it) :=
  .of_advances herr (Advances.refl it) (.symbol hmem (longestPrefix_symbol ⟨_, hmem⟩ h))

/-- A symbol that no longer one begins with. -/
theorem matches_single {type : TokenType} (herr : it.err = .noError) (hmem : ([c], type) ∈ symbols)
    (h : ∀ s ∈ symbols, s.1.head? = some c → s.1 = [c]) : Matches it c (type, it) :=
  matches_symbol herr hmem fun s hs hc => .inl (h s hs hc)

/-- A symbol of one character, or of two when the second one is `ch`. -/
theorem orElse_spec {ch : Char} {d : UInt8} {two one : TokenType} (herr : it.err = .noError)
    (hd : ch.toNat.toUInt8 = d) (hnewline : d ≠ 10) (htwo : ([c, d], two) ∈ symbols)
    (hone : ([c], one) ∈ symbols)
    (h : ∀ s ∈ symbols, s.1.head? = some c → s.1 = [c] ∨ s.1[1]? = some d) :
    Matches it c (it.orElse ch two one) := by
  have hone' : it.rest.head? ≠ some d → Matches it c (one, it) := fun hnext =>
    matches_symbol herr hone fun s hs hc => (h s hs hc).imp_right fun heq => by
      rw [heq]
      exact hnext.symm
  have hpeek := peek_eq it
  rw [peek] at hpeek
  unfold orElse TokenIterator.match
  rw [hd, hpeek]
  cases hrest : it.rest with
  | nil =>
      rw [isAtEnd_iff.mpr hrest]
      exact hone' (by rw [hrest]; nofun)
  | cons e r =>
      rw [isAtEnd_eq_false hrest]
      by_cases he : e = d
      · subst he
        simpa using Matches.of_advances herr (advances_advance hrest hnewline)
          (.symbol htwo (longestPrefix_symbol₂ ⟨_, htwo⟩))
      · have hnext : it.rest.head? ≠ some d := by
          rw [hrest]
          exact fun heq => he (Option.some.inj heq)
        simpa [he] using hone' hnext

end TokenIterator

end Lexer

end CppLox
