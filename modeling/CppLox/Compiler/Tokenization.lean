import CppLox.Compiler.Keywords
import Mathlib.Algebra.Group.Nat.Defs

/-!
# Compiler — the tokens of a source

`operator++` reads a gap and a lexeme, until there is none.  So the lexemes of the tokens from
`begin` to the end of the file are a partition of the source, with gaps between them.
-/

namespace CppLox

namespace Lexer

namespace TokenIterator

/-- What `scan_token` reads: a gap, and a lexeme after it. -/
structure Scans (it : TokenIterator) (type : TokenType) (it' : TokenIterator) (gap word : Bytes) :
    Prop where
  source : it'.source = it.source
  rest : it.rest = gap ++ (word ++ it'.rest)
  blanks : Gap gap (word ++ it'.rest)
  start : it'.start = it.current + gap.length
  current : it'.current = it'.start + word.length
  line : it'.line = it.line + newlines gap + newlines word
  lexeme : Lexeme type it'.err word it'.rest

/-- What `scan_token` reads at the end: a gap, and nothing after it. -/
structure ScansEnd (it : TokenIterator) (it' : TokenIterator) : Prop where
  source : it'.source = it.source
  blanks : Gap it.rest []
  start : it'.start = it.current + it.rest.length
  current : it'.current = it'.start

variable {it it' a : TokenIterator} {gap word : Bytes} {c : UInt8}

/-- A lexeme is read after its first character. -/
theorem Matches.scans {result : TokenType × TokenIterator} (h : Matches it' c result)
    (hgap : Advances it a gap) (hblanks : Gap gap a.rest) (hrest : a.rest = c :: it'.rest)
    (hc : c ≠ 10) (hsource : it'.source = a.source) (hstart : it'.start = a.current)
    (hcurrent : it'.current = a.current + 1) (hline : it'.line = a.line) :
    ∃ word, Scans it result.1 result.2 gap word := by
  obtain ⟨b, bytes, err, hread, hresult, hlexeme⟩ := h
  have hresult' : result.2.rest = b.rest := by rw [hresult]; rfl
  have htext : a.rest = c :: bytes ++ b.rest := by
    rw [hrest, hread.rest]
    rfl
  refine ⟨c :: bytes, ?_⟩
  constructor
  · rw [hresult]
    exact hread.source.trans (hsource.trans hgap.source)
  · rw [hresult', ← htext]
    exact hgap.rest
  · rw [hresult', ← htext]
    exact hblanks
  · rw [hresult]
    exact hread.start.trans (hstart.trans hgap.current)
  · rw [hresult]
    change b.current = b.start + _
    rw [hread.current, hread.start, hcurrent, hstart, List.length_cons]
    omega
  · rw [hresult]
    change b.line = _
    rw [hread.line, hline, hgap.line, newlines_cons hc]
  · rw [hresult']
    rw [hresult]
    exact hlexeme

/-- The characters of symbols and strings. -/
theorem scanSymbol_spec (herr : it.err = .noError) (hword : isWordStart c = false)
    (hdigit : isDigit c = false) :
    Matches it c
      (match Char.ofNat c.toNat with
      | ':' => (.colon, it)
      | '?' => it.orElse '.' .questionDot .questionMark
      | '(' => (.leftParen, it)
      | ')' => (.rightParen, it)
      | '{' => (.leftBrace, it)
      | '}' => (.rightBrace, it)
      | '[' => (.leftBracket, it)
      | ']' => (.rightBracket, it)
      | ';' => (.semicolon, it)
      | ',' => (.comma, it)
      | '.' => (.dot, it)
      | '-' => (.minus, it)
      | '+' => (.plus, it)
      | '/' => (.slash, it)
      | '*' => (.star, it)
      | '!' => it.orElse '=' .bangEqual .bang
      | '=' => it.orElse '=' .equalEqual .equal
      | '<' => it.orElse '=' .lessEqual .less
      | '>' => it.orElse '=' .greaterEqual .greater
      | '"' => it.matchString
      | _ => (.error, { it with err := .unrecognizedCharacter })) := by
  split
  all_goals first
    | rename_i h
      obtain rfl := eq_of_char h
      first
        | exact matches_single herr (by decide) (by decide)
        | exact orElse_spec herr rfl (by decide) (by decide) (by decide) (by decide)
        | exact matchString_spec herr
    | skip
  -- no other character starts a token
  have hchars : (34 :: symbolStarts).map (fun b => Char.ofNat b.toNat) = ['"', ':', '?', '(', ')',
      '{', '}', '[', ']', ';', ',', '.', '-', '+', '/', '*', '!', '=', '<', '>'] := by decide
  have hother : c ∉ 34 :: symbolStarts := fun hmem => by
    have hchar : Char.ofNat c.toNat ∈ _ := hchars ▸ List.mem_map_of_mem hmem
    simp_all
  rw [List.mem_cons, not_or] at hother
  have hstarts : startsToken c = false := by
    simp [startsToken, hword, hdigit, hother.1, hother.2]
  exact ⟨it, [], .unrecognizedCharacter, Advances.refl it, rfl, .unrecognized hstarts⟩

/-- `scan_token` reads a gap and a lexeme, or a gap to the end of the source. -/
theorem scanToken_spec (herr : it.err = .noError) :
    (it.scanToken.1 = .endOfFile ∧ ScansEnd it it.scanToken.2) ∨
      ∃ gap word, Scans it it.scanToken.1 it.scanToken.2 gap word := by
  obtain ⟨gap, hgap, hblanks⟩ :=
    @skipWhitespace_spec it _ (Nat.lt_succ_of_le (length_rest_le it))
  have hend := (loopsEnd it).whitespace
  unfold scanToken
  dsimp only
  generalize skipWhitespace (it.source.length + 1) it = a at hgap hblanks hend ⊢
  cases hrest : a.rest with
  | nil =>
      have hatEnd : isAtEnd { a with start := a.current } = true := isAtEnd_iff.mpr hrest
      have hall := hgap.rest
      rw [hrest, List.append_nil] at hall
      rw [if_pos hatEnd]
      refine .inl ⟨rfl, hgap.source, ?_, ?_, rfl⟩
      · rw [hall, ← hrest]
        exact hblanks
      · rw [hall]
        exact hgap.current
  | cons c r =>
      have hatEnd : ¬ isAtEnd { a with start := a.current } = true := by
        rw [isAtEnd_iff]
        exact fun hnil => nomatch hrest.symm.trans hnil
      have hpeek : peek { a with start := a.current } = c := peek_of_rest hrest
      have hnewline : c ≠ 10 := fun hc => hend (.inr (.inr (.inr (.inl ((peek_of_rest hrest).trans hc)))))
      rw [if_neg hatEnd, hpeek]
      have hread : rest (advance { a with start := a.current }) = r := rest_advance hrest
      have herr' : (advance { a with start := a.current }).err = .noError := hgap.err.trans herr
      have hscans : ∀ {result}, Matches (advance { a with start := a.current }) c result →
          ∃ word, Scans it result.1 result.2 gap word := fun h =>
        h.scans hgap hblanks (hrest.trans (congrArg (c :: ·) hread.symm)) hnewline rfl rfl rfl rfl
      refine .inr ⟨gap, ?_⟩
      split
      · rename_i hc
        refine hscans (matchIdentifier_spec herr' ?_ ?_ rfl)
        · simpa [isWordStart] using hc
        · exact hrest.trans (congrArg (c :: ·) hread.symm)
      · rename_i hword
        split
        · rename_i hc
          exact hscans (matchNumber_spec herr' hc)
        · rename_i hdigit
          exact hscans (scanSymbol_spec herr' (by simpa [isWordStart] using hword)
            (by simpa using hdigit))

/-! ### Iteration -/

/-- The token an iterator is at, with the offset of its lexeme. -/
def located (it : TokenIterator) : Located := ⟨it.start, it.token⟩

/-- `operator++` reads a gap and a lexeme. -/
structure Steps (it it' : TokenIterator) (gap : Bytes) : Prop where
  source : it'.source = it.source
  rest : it.rest = gap ++ (it'.token.lexeme ++ it'.rest)
  blanks : Gap gap (it'.token.lexeme ++ it'.rest)
  start : it'.start = it.current + gap.length
  current : it'.current = it'.start + it'.token.lexeme.length
  line : it'.line = it.line + newlines gap + newlines it'.token.lexeme
  tokenLine : it'.token.line = it'.line
  lexeme : Lexeme it'.token.tokenType it'.token.err it'.token.lexeme it'.rest

/-- The iterator is at the end of the file. -/
structure AtEndOfFile (it : TokenIterator) : Prop where
  tokenType : it.token.tokenType = .endOfFile
  start : it.start = it.source.length
  current : it.current = it.source.length

/-- The slice of the source from `start` to `current` is the lexeme. -/
theorem Scans.lexeme_eq {type : TokenType} (h : Scans it type it' gap word) : it'.lexeme = word := by
  have hdrop : it'.source.drop it'.start = word ++ it'.rest := by
    rw [h.source, h.start, ← List.drop_drop]
    change it.rest.drop gap.length = _
    rw [h.rest, List.drop_left]
  rw [TokenIterator.lexeme, hdrop, h.current, Nat.add_sub_cancel_left, List.take_left]

/-- `operator++` caches the token of what `scan_token` reads. -/
theorem Scans.steps {b : TokenIterator} {type : TokenType} (h : Scans it type it' gap word)
    (hb : b = { it' with
      currentTokenType := type
      cachedToken :=
        { line := it'.line, lexeme := it'.lexeme, tokenType := type, err := it'.err } }) :
    Steps it b gap := by
  have htoken : b.token =
      { line := it'.line, lexeme := word, tokenType := type, err := it'.err } := by
    rw [hb, token, if_neg h.lexeme.ne_endOfFile, h.lexeme_eq]
  have hrest : b.rest = it'.rest := by
    rw [hb]
    rfl
  constructor
  · rw [hb]
    exact h.source
  · rw [htoken, hrest]
    exact h.rest
  · rw [htoken, hrest]
    exact h.blanks
  · rw [hb]
    exact h.start
  · rw [htoken, hb]
    exact h.current
  · rw [htoken, hb]
    exact h.line
  · rw [htoken, hb]
  · rw [htoken, hrest]
    exact h.lexeme

/-- `operator++` reads a gap and a lexeme, or a gap to the end of the file. -/
theorem next_spec (hle : it.current ≤ it.source.length) :
    (AtEndOfFile it.next ∧ it.next.source = it.source ∧ Gap it.rest []) ∨
      ∃ gap, Steps it it.next gap := by
  have hrest := congrArg List.length (show it.rest = it.source.drop it.current from rfl)
  rw [List.length_drop] at hrest
  unfold next
  dsimp only
  split
  · rename_i hend
    have hnil : it.rest = [] := isAtEnd_iff.mp hend
    refine .inl ⟨⟨rfl, rfl, rfl⟩, rfl, ?_⟩
    rw [hnil]
    exact .nil
  · rename_i hend
    rcases @scanToken_spec { it with err := .noError, start := it.current } rfl with
      ⟨htype, hends⟩ | ⟨gap, word, hscans⟩
    · have hstart : _ = it.current + it.rest.length := hends.start
      have hlength : it.current + it.rest.length = it.source.length := by omega
      refine .inl ⟨⟨?_, ?_, ?_⟩, hends.source, hends.blanks⟩
      · rw [token, if_pos htype]
      · dsimp only
        rw [hstart, hends.source]
        exact hlength
      · dsimp only
        rw [hends.current, hstart, hends.source]
        exact hlength
    · have hscans' : Scans it _ _ gap word := ⟨hscans.source, hscans.rest, hscans.blanks,
        hscans.start, hscans.current, hscans.line, hscans.lexeme⟩
      exact .inr ⟨gap, hscans'.steps rfl⟩

/-- The iterator comes to the end of the file, and to `end`, after `n` tokens. -/
structure EndsAfter (it : TokenIterator) (n : Nat) : Prop where
  before : ∀ k < n, (next^[k] it).token.tokenType ≠ .endOfFile ∧
    (next^[k] it).equal (Lexer.end it.source) = false
  after : (next^[n] it).token.tokenType = .endOfFile ∧
    (next^[n] it).equal (Lexer.end it.source) = true

theorem AtEndOfFile.endsAfter (h : AtEndOfFile it) : EndsAfter it 0 := by
  refine ⟨fun k hk => absurd hk (Nat.not_lt_zero k), h.tokenType, ?_⟩
  simp [equal, Lexer.end, h.start, h.current]

theorem Steps.ne_end {gap : Bytes} (h : Steps it it' gap) :
    it'.token.tokenType ≠ .endOfFile ∧ it'.equal (Lexer.end it'.source) = false := by
  refine ⟨h.lexeme.ne_endOfFile, ?_⟩
  have hne := List.length_pos_of_ne_nil h.lexeme.wellFormedToken.ne_nil
  have hcurrent := h.current
  simp only [equal, Lexer.end, Bool.and_eq_false_iff, beq_eq_false_iff_ne]
  omega

theorem next_source (hle : it.current ≤ it.source.length) : it.next.source = it.source := by
  rcases next_spec hle with ⟨-, hsource, -⟩ | ⟨_, hstep⟩
  · exact hsource
  · exact hstep.source

theorem EndsAfter.next {k : Nat} (h : EndsAfter it.next k) (hsource : it.next.source = it.source)
    (hne : it.token.tokenType ≠ .endOfFile ∧ it.equal (Lexer.end it.source) = false) :
    EndsAfter it (k + 1) := by
  refine ⟨fun i hi => ?_, hsource ▸ h.after⟩
  cases i with
  | zero => exact hne
  | succ i =>
      rw [Function.iterate_succ_apply, ← hsource]
      exact h.before i (Nat.lt_of_succ_lt_succ hi)

/-- The source up to the end of a lexeme. -/
theorem Steps.take_source {gap : Bytes} (h : Steps it it' gap) (hle : it.current ≤ it.source.length) :
    it'.source.take it'.current = it.source.take it.current ++ gap ++ it'.token.lexeme := by
  have hsplit : it.source = (it.source.take it.current ++ gap ++ it'.token.lexeme) ++ it'.rest := by
    rw [List.append_assoc, List.append_assoc, ← h.rest]
    exact (List.take_append_drop _ _).symm
  have hlength : (it.source.take it.current ++ gap ++ it'.token.lexeme).length = it'.current := by
    rw [List.length_append, List.length_append, List.length_take_of_le hle, h.current, h.start]
  rw [h.source, ← hlength]
  exact (List.prefix_iff_eq_take.mp ⟨it'.rest, hsplit.symm⟩).symm

theorem Steps.current_le {gap : Bytes} (h : Steps it it' gap) (hle : it.current ≤ it.source.length) :
    it'.current ≤ it'.source.length := by
  have hlength := congrArg List.length (h.take_source hle)
  rw [List.length_take, List.length_append, List.length_append, List.length_take_of_le hle] at hlength
  have hcurrent := h.current
  have hstart := h.start
  omega

/-- The tokens from an iterator on make up the rest of the source.  The newlines of the source are
counted without an overflow. -/
theorem next_partition {n : Nat} (hn : it.rest.length < n) (hle : it.current ≤ it.source.length)
    (hcount : it.source.count 10 < 2 ^ 31 - 1)
    (hline : it.line = 1 + newlines (it.source.take it.current)) :
    ∃ k, EndsAfter it.next k ∧
      Partition (fun token rest => Lexeme token.tokenType token.err token.lexeme rest)
        (it.source.take it.current) it.rest
        ((List.range k).map fun i => (next^[i] it.next).located) := by
  induction n generalizing it with
  | zero => exact absurd hn (Nat.not_lt_zero _)
  | succ n ih =>
      rcases next_spec hle with ⟨hend, -, hblanks⟩ | ⟨gap, hstep⟩
      · exact ⟨0, hend.endsAfter, .done hblanks⟩
      · have hbefore := hstep.take_source hle
        have hle' := hstep.current_le hle
        have hlength := congrArg List.length hstep.rest
        rw [List.length_append, List.length_append] at hlength
        have hne := List.length_pos_of_ne_nil hstep.lexeme.wellFormedToken.ne_nil
        have hline' : it.next.line = 1 + newlines (it.next.source.take it.next.current) := by
          rw [hbefore, newlines_append, newlines_append, hstep.line, hline]
          simp only [Int32.add_assoc]
        have hsource := next_source hle
        obtain ⟨k, hends, hpartition⟩ := @ih it.next (by omega) hle' (hsource ▸ hcount) hline'
        have htoInt : it.next.line.toInt = 1 + (it.next.source.take it.next.current).count 10 := by
          have hprefix := ((List.take_sublist it.next.current it.next.source).count_le 10).trans_lt
            (hsource ▸ hcount)
          have hofNat : it.next.line =
              Int32.ofNat (1 + (it.next.source.take it.next.current).count 10) := by
            rw [hline', Int32.ofNat_add]
            rfl
          rw [hofNat, Int32.toInt_ofNat_of_lt (by omega)]
          rfl
        rw [hbefore] at hpartition htoInt
        refine ⟨k + 1, hends.next (next_source hle') hstep.ne_end, ?_⟩
        rw [List.range_succ_eq_map, List.map_cons, List.map_map, hstep.rest]
        refine Partition.token (t := it.next.located) hstep.blanks ?_ ?_ hstep.lexeme hpartition
        · change it.next.start = _
          rw [hstep.start, List.length_append, List.length_take_of_le hle]
        · exact (congrArg Int32.toInt hstep.tokenLine).trans htoInt

end TokenIterator

open TokenIterator

theorem Partition.mono {T T' : Token → Bytes → Prop} {before text : Bytes} {tokens : List Located}
    (h : Partition T before text tokens) (himp : ∀ token rest, T token rest → T' token rest) :
    Partition T' before text tokens := by
  induction h with
  | done hblanks => exact .done hblanks
  | token hblanks hstart hline htoken _ ih =>
      exact .token hblanks hstart hline (himp _ _ htoken) ih

/-- The tokens from `begin` to the end of the file are lexemes that make up the source. -/
theorem begin_lexemes {source : Bytes} (hcount : source.count 10 < 2 ^ 31 - 1) :
    ∃ n, EndsAfter (Lexer.begin source) n ∧
      Partition (fun token rest => Lexeme token.tokenType token.err token.lexeme rest) [] source
        ((List.range n).map fun k => (next^[k] (Lexer.begin source)).located) :=
  @next_partition { source, start := 0, current := 0, line := 1 } _ (Nat.lt_succ_self _)
    (Nat.zero_le _) hcount rfl

/-- **The lexer partitions the source.**  The iteration from `begin` comes to the end of the file, and
the lexemes of the tokens before it are slices of the source, one after the other, with nothing but
blanks and comments between them.  What a lexeme may be is said by its text and by what follows it
alone, so there is no second way to cut up the source.  Lines are `int`s: the newlines are fewer than
`2 ^ 31 - 1`. -/
theorem begin_partition {source : Bytes} (hcount : source.count 10 < 2 ^ 31 - 1) :
    ∃ n, EndsAfter (Lexer.begin source) n ∧
      Partition (fun token rest => WellFormedToken token.tokenType token.lexeme rest) [] source
        ((List.range n).map fun k => (next^[k] (Lexer.begin source)).located) := by
  obtain ⟨n, hends, hpartition⟩ := begin_lexemes hcount
  exact ⟨n, hends, hpartition.mono fun _ _ h => h.wellFormedToken⟩

/-- `a;`, a comment, and `"` on the next line. -/
def unterminatedSource : Bytes := ascii ['a', ';', '/', '/', 'b', '\n', '"', '\n', 'c']

theorem begin_partition_unterminated :
    ∃ n, EndsAfter (Lexer.begin unterminatedSource) n ∧
      Partition (fun token rest => WellFormedToken token.tokenType token.lexeme rest) []
        unterminatedSource
        ((List.range n).map fun k => (next^[k] (Lexer.begin unterminatedSource)).located) :=
  begin_partition (by decide)

/-! ### Sources with too many lines -/

theorem Gap.blank_of_notMem {gap rest : Bytes} (h : Gap gap rest) (hslash : 47 ∉ gap) :
    ∀ c ∈ gap, c = 32 ∨ c = 9 ∨ c = 13 ∨ c = 10 := by
  induction h with
  | nil => nofun
  | blank hc _ ih =>
      rw [List.forall_mem_cons]
      exact ⟨hc, ih fun hmem => hslash (List.mem_cons_of_mem _ hmem)⟩
  | comment => exact absurd List.mem_cons_self hslash

/-- A source without comments that ends in a letter has a token that ends where it does. -/
theorem Partition.exists_last {T : Token → Bytes → Prop} {before text : Bytes} {tokens : List Located}
    (h : Partition T before text tokens) (hslash : 47 ∉ text) (hlast : text.getLast? = some 97) :
    ∃ t ∈ tokens, t.token.line.toInt = 1 + (before ++ text).count 10 := by
  induction h with
  | done hblanks =>
      have hblank := hblanks.blank_of_notMem hslash 97 (List.mem_of_getLast? hlast)
      exact absurd hblank (by decide)
  | @token before gap rest t ts hblanks hstart hline htoken hrest ih =>
      cases rest with
      | nil =>
          refine ⟨t, List.mem_cons_self, ?_⟩
          rw [hline, List.append_nil, List.append_assoc]
      | cons c rest =>
          rw [← List.append_assoc, List.getLast?_append_of_ne_nil _ (List.cons_ne_nil c rest)] at hlast
          obtain ⟨t', ht', hline'⟩ := ih (fun hmem => hslash (by simp [hmem])) hlast
          refine ⟨t', List.mem_cons_of_mem _ ht', ?_⟩
          rw [hline']
          simp only [List.append_assoc]

/-- No `int` is the line of a token after `2 ^ 31 - 1` newlines. -/
theorem not_begin_partition :
    let source : Bytes := List.replicate (2 ^ 31 - 1) 10 ++ [97]
    ¬ ∃ n, EndsAfter (Lexer.begin source) n ∧
      Partition (fun token rest => WellFormedToken token.tokenType token.lexeme rest) [] source
        ((List.range n).map fun k => (next^[k] (Lexer.begin source)).located) := by
  obtain ⟨m, hm⟩ : ∃ m, m = 2 ^ 31 - 1 := ⟨_, rfl⟩
  rw [← hm]
  intro source
  rintro ⟨n, -, hpartition⟩
  obtain ⟨t, -, hline⟩ := hpartition.exists_last (by simp [source]) (by simp [source])
  have hcount : ([] ++ (List.replicate m 10 ++ [97]) : Bytes).count 10 = m := by simp
  have hlt := t.token.line.toInt_lt
  rw [hcount, hm] at hline
  omega

end Lexer

end CppLox
