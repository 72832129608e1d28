import CppLox.Compiler.Reading

/-!
# Compiler — keywords

`get_identifier_type` once more with every index into the source checked against the lexeme: the
accesses that the length guards protect never leave it, so what is returned depends on the lexeme
only, and it is the type of the keyword that the lexeme spells.
-/

namespace CppLox

namespace Lexer

namespace TokenIterator

/-- The bytes from `start` to `current`. -/
def lexeme (it : TokenIterator) : Bytes := (it.source.drop it.start).take (it.current - it.start)

/-! ### Checked accesses -/

/-- `source[start + i]` inside the lexeme. -/
def charWithin (it : TokenIterator) (i : Nat) : Option Char :=
  if it.start + i < it.current ∧ it.start + i < it.source.length then some (it.charAt i) else none

/-- `const_token_iterator::check_keyword`, whose `substr` is taken inside the lexeme. -/
def checkKeywordWithin (it : TokenIterator) (idx length : Nat) (rest : Bytes) (type : TokenType) :
    Option TokenType :=
  if it.current - it.start = idx + length then
    if it.start + idx + length ≤ it.current ∧ it.start + idx + length ≤ it.source.length then
      some (if (it.source.drop (it.start + idx)).take length = rest then type else .identifier)
    else none
  else some .identifier

/-- `const_token_iterator::get_identifier_type`, or nothing when it leaves the lexeme. -/
def getIdentifierTypeWithin (it : TokenIterator) : Option TokenType := do
  match ← it.charWithin 0 with
  | 'a' => it.checkKeywordWithin 1 2 (ascii ['n', 'd']) .and
  | 'c' =>
    if 1 < it.lexemeLength then
      match ← it.charWithin 1 with
      | 'a' => it.checkKeywordWithin 2 2 (ascii ['s', 'e']) .case
      | 'l' => it.checkKeywordWithin 2 3 (ascii ['a', 's', 's']) .class
      | 'o' =>
        if 3 < it.lexemeLength then
          if (← it.charWithin 2) = 'n' then
            match ← it.charWithin 3 with
            | 's' => it.checkKeywordWithin 4 1 (ascii ['t']) .const
            | 't' => it.checkKeywordWithin 4 4 (ascii ['i', 'n', 'u', 'e']) .continue
            | _ => return .identifier
          else return .identifier
        else return .identifier
      | _ => return .identifier
    else return .identifier
  | 'b' => it.checkKeywordWithin 1 4 (ascii ['r', 'e', 'a', 'k']) .break
  | 'd' => it.checkKeywordWithin 1 6 (ascii ['e', 'f', 'a', 'u', 'l', 't']) .default
  | 'e' =>
    if 1 < it.lexemeLength then
      match ← it.charWithin 1 with
      | 'c' => it.checkKeywordWithin 2 2 (ascii ['h', 'o']) .print
      | 'l' => it.checkKeywordWithin 2 2 (ascii ['s', 'e']) .else
      | _ => return .identifier
    else return .identifier
  | 'f' =>
    if 1 < it.lexemeLength then
      match ← it.charWithin 1 with
      | 'a' => it.checkKeywordWithin 2 3 (ascii ['l', 's', 'e']) .false
      | 'o' => it.checkKeywordWithin 2 1 (ascii ['r']) .for
      | 'u' => it.checkKeywordWithin 2 1 (ascii ['n']) .fun
      | _ => return .identifier
    else return .identifier
  | 'i' => it.checkKeywordWithin 1 1 (ascii ['f']) .if
  | 'n' =>
    if 1 < it.lexemeLength then
      match ← it.charWithin 1 with
      | 'i' => it.checkKeywordWithin 2 1 (ascii ['l']) .nil
      | 'o' => it.checkKeywordWithin 2 1 (ascii ['t']) .not
      | _ => return .identifier
    else return .identifier
  | 'o' => it.checkKeywordWithin 1 1 (ascii ['r']) .or
  | 'r' => it.checkKeywordWithin 1 5 (ascii ['e', 't', 'u', 'r', 'n']) .return
  | 's' =>
    if 1 < it.lexemeLength then
      match ← it.charWithin 1 with
      | 'w' => it.checkKeywordWithin 2 4 (ascii ['i', 't', 'c', 'h']) .switch
      | 'u' => it.checkKeywordWithin 2 3 (ascii ['p', 'e', 'r']) .super
      | _ => return .identifier
    else return .identifier
  | 't' =>
    if 1 < it.lexemeLength then
      match ← it.charWithin 1 with
      | 'h' => it.checkKeywordWithin 2 2 (ascii ['i', 's']) .this
      | 'r' => it.checkKeywordWithin 2 2 (ascii ['u', 'e']) .true
      | _ => return .identifier
    else return .identifier
  | 'v' => it.checkKeywordWithin 1 2 (ascii ['a', 'r']) .var
  | 'w' => it.checkKeywordWithin 1 4 (ascii ['h', 'i', 'l', 'e']) .while
  | _ => return .identifier

/-- The iterator has a lexeme, a part of the source that is not empty. -/
structure HasLexeme (it : TokenIterator) : Prop where
  lt : it.start < it.current
  le : it.current ≤ it.source.length

variable {it it' : TokenIterator}

theorem HasLexeme.length_lexeme (h : it.HasLexeme) : it.lexeme.length = it.current - it.start := by
  rw [lexeme, List.length_take, List.length_drop]
  have := h.le
  omega

theorem HasLexeme.lexemeLength_eq (h : it.HasLexeme) : it.lexemeLength = it.lexeme.length :=
  h.length_lexeme.symm

/-- A character of the lexeme. -/
theorem HasLexeme.charAt_eq (h : it.HasLexeme) {i : Nat} (hi : i < it.lexeme.length) :
    it.charAt i = Char.ofNat (it.lexeme[i]).toNat := by
  have hget : it.source[it.start + i]? = some it.lexeme[i] := by
    rw [← List.getElem?_drop, ← List.getElem?_eq_getElem hi, lexeme,
      List.getElem?_take_of_lt (h.length_lexeme ▸ hi)]
  rw [charAt, List.getD_eq_getElem?_getD, hget]
  rfl

/-- The checked access reads the lexeme. -/
theorem HasLexeme.charWithin_eq (h : it.HasLexeme) (i : Nat) :
    it.charWithin i = it.lexeme[i]?.map fun c => Char.ofNat c.toNat := by
  have hlen := h.length_lexeme
  have hle := h.le
  rw [charWithin]
  split
  · have hi : i < it.lexeme.length := by omega
    rw [List.getElem?_eq_getElem hi, h.charAt_eq hi]
    rfl
  · rw [List.getElem?_eq_none (by omega)]
    rfl

theorem HasLexeme.charWithin_of_lt (h : it.HasLexeme) {i : Nat} (hi : i < it.lexemeLength) :
    it.charWithin i = some (it.charAt i) := by
  rw [h.lexemeLength_eq] at hi
  rw [h.charWithin_eq, h.charAt_eq hi, List.getElem?_eq_getElem hi]
  rfl

theorem drop_lexeme {idx length : Nat} (hlen : it.current - it.start = idx + length) :
    (it.source.drop (it.start + idx)).take length = it.lexeme.drop idx := by
  rw [lexeme, hlen, List.drop_take, List.drop_drop, Nat.add_sub_cancel_left]

/-- The checked comparison is that of the end of the lexeme. -/
theorem HasLexeme.checkKeywordWithin_eq (h : it.HasLexeme) (idx length : Nat) (rest : Bytes)
    (type : TokenType) :
    it.checkKeywordWithin idx length rest type =
      some (if it.lexeme.length = idx + length ∧ it.lexeme.drop idx = rest then type
        else .identifier) := by
  have hlt := h.lt
  have hle := h.le
  rw [checkKeywordWithin, h.length_lexeme]
  split
  · rename_i hlen
    rw [if_pos (by omega), drop_lexeme hlen]
    simp only [hlen, true_and]
  · rename_i hlen
    rw [if_neg fun h => hlen h.1]

theorem HasLexeme.checkKeywordWithin_some (h : it.HasLexeme) (idx length : Nat) (rest : Bytes)
    (type : TokenType) :
    it.checkKeywordWithin idx length rest type = some (it.checkKeyword idx length rest type) := by
  rw [h.checkKeywordWithin_eq, checkKeyword, h.length_lexeme]
  congr 1
  by_cases hlen : it.current - it.start = idx + length
  · rw [drop_lexeme hlen]
  · rw [if_neg fun h => hlen h.1, if_neg fun h => hlen h.1]

/-! ### The guards -/

/-- No access leaves the lexeme. -/
theorem HasLexeme.getIdentifierTypeWithin_eq (h : it.HasLexeme) :
    it.getIdentifierTypeWithin = some it.getIdentifierType := by
  have hzero : 0 < it.lexemeLength := Nat.sub_pos_of_lt h.lt
  have hchar : ∀ {i}, i < it.lexemeLength → it.charWithin i = some (it.charAt i) :=
    fun hi => h.charWithin_of_lt hi
  unfold getIdentifierTypeWithin getIdentifierType
  simp only [hchar hzero, h.checkKeywordWithin_some, Option.bind_eq_bind, Option.bind_some]
  generalize it.charAt 0 = c₀
  -- the second character is read behind one guard, the third and the fourth behind another
  by_cases h₁ : 1 < it.lexemeLength
  · simp only [h₁, if_true, hchar h₁, Option.bind_some]
    generalize it.charAt 1 = c₁
    by_cases h₃ : 3 < it.lexemeLength
    · have h₂ : 2 < it.lexemeLength := by omega
      simp only [h₃, if_true, true_and, hchar h₂, hchar h₃, Option.bind_some]
      by_cases hn : it.charAt 2 = 'n'
      · simp only [hn, if_true]
        generalize it.charAt 3 = c₃
        split <;> simp only [Option.pure_def] <;> split <;> try simp [*]
        all_goals split <;> simp [*]
      · simp only [hn, if_false]
        split <;> simp only [Option.pure_def] <;> split <;> simp [*]
    · simp only [h₃, if_false, false_and]
      split <;> simp only [Option.pure_def] <;> split <;> simp [*]
  · simp only [h₁, if_false]
    split <;> simp [*]

/-- What is returned depends on the lexeme only. -/
theorem HasLexeme.getIdentifierType_congr (h : it.HasLexeme) (h' : it'.HasLexeme)
    (heq : it.lexeme = it'.lexeme) : it.getIdentifierType = it'.getIdentifierType := by
  have hwithin : it.getIdentifierTypeWithin = it'.getIdentifierTypeWithin := by
    unfold getIdentifierTypeWithin
    simp only [h.charWithin_eq, h'.charWithin_eq, h.checkKeywordWithin_eq, h'.checkKeywordWithin_eq,
      h.lexemeLength_eq, h'.lexemeLength_eq, heq]
  rw [h.getIdentifierTypeWithin_eq, h'.getIdentifierTypeWithin_eq] at hwithin
  exact Option.some.inj hwithin

/-! ### Keywords are recognized -/

/-- A source that is one lexeme. -/
def ofLexeme (word : Bytes) : TokenIterator :=
  { source := word, start := 0, current := word.length, line := 1 }

theorem getIdentifierType_ofLexeme :
    ∀ keyword ∈ keywords, (ofLexeme keyword.1).getIdentifierType = keyword.2 := by decide

theorem keywords_ne_nil : ∀ keyword ∈ keywords, 0 < keyword.1.length := by decide

theorem HasLexeme.getIdentifierType_of_keyword (h : it.HasLexeme) {keyword : Bytes × TokenType}
    (hmem : keyword ∈ keywords) (heq : it.lexeme = keyword.1) : it.getIdentifierType = keyword.2 := by
  have hword : (ofLexeme keyword.1).HasLexeme := ⟨keywords_ne_nil keyword hmem, Nat.le_refl _⟩
  rw [← getIdentifierType_ofLexeme keyword hmem]
  exact h.getIdentifierType_congr hword (heq.trans (List.take_length).symm)

/-! ### Nothing else is -/

/-- An identifier, or the type of the keyword the lexeme spells. -/
def Recognized (it : TokenIterator) (type : TokenType) : Prop :=
  type = .identifier ∨ (it.lexeme, type) ∈ keywords

theorem eq_of_char {b : UInt8} {ch : Char} (h : Char.ofNat b.toNat = ch) : b = ch.toNat.toUInt8 := by
  have hvalid : b.toNat.isValidChar := .inl (by have := b.toNat_lt; omega)
  have hnat : ch.toNat = b.toNat := by
    rw [← h, Char.ofNat, dif_pos hvalid]
    rfl
  rw [hnat]
  exact UInt8.ofNat_toNat.symm

theorem HasLexeme.take_succ (h : it.HasLexeme) {pre : List Char} {i : Nat} {ch : Char}
    (hi : i < it.lexemeLength) (htake : it.lexeme.take i = ascii pre) (hch : it.charAt i = ch) :
    it.lexeme.take (i + 1) = ascii (pre ++ [ch]) := by
  rw [h.lexemeLength_eq] at hi
  rw [h.charAt_eq hi] at hch
  rw [List.take_add_one, List.getElem?_eq_getElem hi, htake, eq_of_char hch]
  simp [ascii]

theorem HasLexeme.recognized_checkKeyword (h : it.HasLexeme) {pre : List Char} {idx length : Nat}
    {rest : Bytes} {type : TokenType} (htake : it.lexeme.take idx = ascii pre)
    (hmem : (ascii pre ++ rest, type) ∈ keywords) :
    it.Recognized (it.checkKeyword idx length rest type) := by
  have hcheck := (h.checkKeywordWithin_some idx length rest type).symm.trans
    (h.checkKeywordWithin_eq idx length rest type)
  rw [Option.some.inj hcheck]
  split
  · rename_i hword
    right
    rwa [← List.take_append_drop idx it.lexeme, htake, hword.2]
  · exact .inl rfl

theorem HasLexeme.recognized (h : it.HasLexeme) : it.Recognized it.getIdentifierType := by
  have htake₁ : ∀ {a}, it.charAt 0 = a → it.lexeme.take 1 = ascii [a] :=
    h.take_succ (Nat.sub_pos_of_lt h.lt) (show it.lexeme.take 0 = ascii [] from rfl)
  have htake₂ : ∀ {a b}, it.charAt 0 = a → 1 < it.lexemeLength → it.charAt 1 = b →
      it.lexeme.take 2 = ascii [a, b] := fun ha hlt => h.take_succ hlt (htake₁ ha)
  unfold getIdentifierType
  split <;> rename_i h₀
  all_goals first
    | exact .inl rfl
    | exact h.recognized_checkKeyword (htake₁ h₀) (by decide)
    | skip
  all_goals
    split <;> rename_i h₁
    swap
    · exact .inl rfl
    split <;> rename_i h₂
  all_goals first
    | exact .inl rfl
    | exact h.recognized_checkKeyword (htake₂ h₀ h₁ h₂) (by decide)
    | skip
  -- `con` has a guard of its own
  split
  · rename_i h₃
    have htake₃ := h.take_succ (by omega) (htake₂ h₀ h₁ h₂) h₃.2
    split <;> rename_i h₄
    · exact h.recognized_checkKeyword (h.take_succ h₃.1 htake₃ h₄) (by decide)
    · exact h.recognized_checkKeyword (h.take_succ h₃.1 htake₃ h₄) (by decide)
    · exact .inl rfl
  · exact .inl rfl

/-- The type of a word is that of the keyword it spells. -/
theorem HasLexeme.getIdentifierType_eq (h : it.HasLexeme) :
    it.getIdentifierType = keywordType it.lexeme := by
  have hkeyword : ∀ keyword ∈ keywords, keywordType keyword.1 = keyword.2 := by decide
  rcases h.recognized with htype | hmem
  · rcases keywordType_cases it.lexeme with hk | hk
    · rw [htype, hk]
    · exact h.getIdentifierType_of_keyword hk rfl
  · exact (hkeyword _ hmem).symm

/-! ### Identifiers in a source -/

variable {c : UInt8}

/-- `match_identifier` after the first character reads the rest of the word. -/
theorem matchIdentifier_advances (it : TokenIterator) :
    Advances it it.matchIdentifier.2 (it.rest.takeWhile isWord) :=
  advances_word it

theorem matchIdentifier_lexeme (hsource : it.source.drop it.start = c :: it.rest)
    (hcurrent : it.current = it.start + 1) :
    it.matchIdentifier.2.HasLexeme ∧
      it.matchIdentifier.2.lexeme = c :: it.rest.takeWhile isWord := by
  have hread := matchIdentifier_advances it
  generalize it.rest.takeWhile isWord = word at hread ⊢
  generalize it.matchIdentifier.2 = it' at hread ⊢
  have hlength := congrArg List.length hsource
  rw [List.length_drop, List.length_cons, hread.rest, List.length_append] at hlength
  have hcurrent' := hread.current
  refine ⟨⟨?_, ?_⟩, ?_⟩
  · rw [hread.start]
    omega
  · rw [hread.source]
    omega
  · have hlen : it'.current - it'.start = word.length + 1 := by
      rw [hread.start]
      omega
    rw [lexeme, hlen, hread.source, hread.start, hsource, hread.rest, List.take_succ_cons,
      List.take_left]

theorem matchIdentifier_spec (herr : it.err = .noError) (hc : isWordStart c = true)
    (hsource : it.source.drop it.start = c :: it.rest) (hcurrent : it.current = it.start + 1) :
    Matches it c it.matchIdentifier := by
  have hread := matchIdentifier_advances it
  obtain ⟨hlexeme, hword⟩ := matchIdentifier_lexeme hsource hcurrent
  have hidentifier : IsIdentifier (c :: it.rest.takeWhile isWord) := ⟨hc, forall_mem_takeWhile _⟩
  have htype : it.matchIdentifier.1 = keywordType (c :: it.rest.takeWhile isWord) := by
    rw [← hword]
    exact hlexeme.getIdentifierType_eq
  have hmatched : Lexeme it.matchIdentifier.1 .noError (c :: it.rest.takeWhile isWord)
      it.matchIdentifier.2.rest := by
    rw [htype]
    exact .word (.of_stops hidentifier (fun _ h => h.chars) hread.stops)
  exact Matches.of_advances herr hread hmatched

/-- **Keywords are recognized exactly**: a word at any place of a source has the type of a keyword
exactly when it spells it, and `get_identifier_type`, a trie written out as nested switches, reads
no character outside the word.  The last part is that of a version with bounded reads, which never
fails. -/
theorem getIdentifierType_exact {before word after : Bytes} (hword : IsIdentifier word)
    (hafter : Stops isWord after) (hsource : it.source = before ++ (word ++ after))
    (hstart : it.start = before.length) (hcurrent : it.current = before.length + 1) :
    ∃ it', it.matchIdentifier = (it'.getIdentifierType, it') ∧ it'.lexeme = word ∧
      (∀ keyword ∈ keywords, it'.getIdentifierType = keyword.2 ↔ word = keyword.1) ∧
      ((∀ keyword ∈ keywords, word ≠ keyword.1) → it'.getIdentifierType = .identifier) ∧
      it'.getIdentifierTypeWithin = some it'.getIdentifierType := by
  cases word with
  | nil => cases hword
  | cons c word =>
      have hdrop : it.source.drop it.start = c :: (word ++ after) := by
        rw [hsource, hstart, List.drop_left]
        rfl
      have hrest : it.rest = word ++ after := by
        rw [rest, hcurrent, ← hstart, ← List.drop_drop, hdrop]
        rfl
      rw [← hrest] at hdrop
      obtain ⟨hlexeme, heq⟩ := matchIdentifier_lexeme hdrop (hstart ▸ hcurrent)
      have htake : it.rest.takeWhile isWord = word := by
        rw [hrest]
        exact hafter.takeWhile_append hword.2
      rw [htake] at heq
      have htypes : ∀ k ∈ keywords, k.2 ≠ .identifier := by decide
      have hunique : ∀ k ∈ keywords, ∀ k' ∈ keywords, k.2 = k'.2 → k.1 = k'.1 := by decide
      refine ⟨it.matchIdentifier.2, rfl, heq, fun keyword hmem => ⟨fun htype => ?_, fun hspell => ?_⟩,
        fun hnone => ?_, hlexeme.getIdentifierTypeWithin_eq⟩
      · rcases hlexeme.recognized with hidentifier | hrecognized
        · exact absurd (htype.symm.trans hidentifier) (htypes keyword hmem)
        · rw [← heq]
          exact hunique _ hrecognized keyword hmem htype
      · exact hlexeme.getIdentifierType_of_keyword hmem (heq.trans hspell)
      · rcases hlexeme.recognized with hidentifier | hrecognized
        · exact hidentifier
        · exact absurd heq.symm (hnone _ hrecognized)

/-- The end of `x=case`. -/
theorem getIdentifierType_exact_case :
    let it : TokenIterator :=
      { source := ascii ['x', '=', 'c', 'a', 's', 'e'], start := 2, current := 3, line := 1 }
    ∃ it', it.matchIdentifier = (it'.getIdentifierType, it') ∧
      it'.lexeme = ascii ['c', 'a', 's', 'e'] ∧
      (∀ keyword ∈ keywords,
        it'.getIdentifierType = keyword.2 ↔ ascii ['c', 'a', 's', 'e'] = keyword.1) ∧
      ((∀ keyword ∈ keywords, ascii ['c', 'a', 's', 'e'] ≠ keyword.1) →
        it'.getIdentifierType = .identifier) ∧
      it'.getIdentifierTypeWithin = some it'.getIdentifierType :=
  getIdentifierType_exact ⟨by decide, List.all_eq_true.mp (by decide)⟩ stops_nil
    (show ascii ['x', '=', 'c', 'a', 's', 'e'] =
      ascii ['x', '='] ++ (ascii ['c', 'a', 's', 'e'] ++ []) from rfl) rfl rfl

end TokenIterator

end Lexer

end CppLox
