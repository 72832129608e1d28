import CppLox.Compiler.Lexer
import CppLox.Library.LongestPrefix

/-!
# Compiler — lexemes

What the tokens of a source are, said of the text and not of the lexer.  A source is a sequence of
lexemes with gaps of white space and comments between them; a word, a number and a symbol are as
long as they can be.
-/

namespace CppLox

namespace Lexer

/-! ### Words, numbers and symbols -/

/-- The characters an identifier begins with. -/
def isWordStart (c : UInt8) : Bool := isAlpha c || c == 95

/-- Letters, digits and underscores, not beginning with a digit. -/
def IsIdentifier : Bytes → Prop
  | [] => False
  | c :: word => isWordStart c = true ∧ ∀ d ∈ word, isWord d = true

/-- The keywords with their spellings. -/
def keywords : List (Bytes × TokenType) := [
  (ascii ['a', 'n', 'd'], .and),
  (ascii ['b', 'r', 'e', 'a', 'k'], .break),
  (ascii ['c', 'a', 's', 'e'], .case),
  (ascii ['c', 'l', 'a', 's', 's'], .class),
  (ascii ['c', 'o', 'n', 's', 't'], .const),
  (ascii ['c', 'o', 'n', 't', 'i', 'n', 'u', 'e'], .continue),
  (ascii ['d', 'e', 'f', 'a', 'u', 'l', 't'], .default),
  (ascii ['e', 'c', 'h', 'o'], .print),
  (ascii ['e', 'l', 's', 'e'], .else),
  (ascii ['f', 'a', 'l', 's', 'e'], .false),
  (ascii ['f', 'o', 'r'], .for),
  (ascii ['f', 'u', 'n'], .fun),
  (ascii ['i', 'f'], .if),
  (ascii ['n', 'i', 'l'], .nil),
  (ascii ['n', 'o', 't'], .not),
  (ascii ['o', 'r'], .or),
  (ascii ['r', 'e', 't', 'u', 'r', 'n'], .return),
  (ascii ['s', 'u', 'p', 'e', 'r'], .super),
  (ascii ['s', 'w', 'i', 't', 'c', 'h'], .switch),
  (ascii ['t', 'h', 'i', 's'], .this),
  (ascii ['t', 'r', 'u', 'e'], .true),
  (ascii ['v', 'a', 'r'], .var),
  (ascii ['w', 'h', 'i', 'l', 'e'], .while)]

/-- The type of a word: that of the keyword it spells, if it spells one. -/
def keywordType (word : Bytes) : TokenType := (keywords.lookup word).getD .identifier

/-- Digits, and digits with a decimal point and a fraction, which may be empty. -/
inductive Numeral : TokenType → Bytes → Prop
  | int {digits : Bytes} : digits ≠ [] → (∀ c ∈ digits, isDigit c = true) →
      Numeral .numberInt digits
  | real {digits fraction : Bytes} : digits ≠ [] → (∀ c ∈ digits, isDigit c = true) →
      (∀ c ∈ fraction, isDigit c = true) → Numeral .numberReal (digits ++ 46 :: fraction)

def IsNumber (word : Bytes) : Prop := ∃ type, Numeral type word

/-- The symbols with their types. -/
def symbols : List (Bytes × TokenType) := [
  (ascii [':'], .colon), (ascii ['?', '.'], .questionDot), (ascii ['?'], .questionMark),
  (ascii ['('], .leftParen), (ascii [')'], .rightParen), (ascii ['{'], .leftBrace),
  (ascii ['}'], .rightBrace), (ascii ['['], .leftBracket), (ascii [']'], .rightBracket),
  (ascii [';'], .semicolon), (ascii [','], .comma), (ascii ['.'], .dot), (ascii ['-'], .minus),
  (ascii ['+'], .plus), (ascii ['/'], .slash), (ascii ['*'], .star),
  (ascii ['!', '='], .bangEqual), (ascii ['!'], .bang), (ascii ['=', '='], .equalEqual),
  (ascii ['='], .equal), (ascii ['<', '='], .lessEqual), (ascii ['<'], .less),
  (ascii ['>', '='], .greaterEqual), (ascii ['>'], .greater)]

def IsSymbol (word : Bytes) : Prop := ∃ type, (word, type) ∈ symbols

/-- The characters a symbol begins with. -/
def symbolStarts : Bytes :=
  ascii [':', '?', '(', ')', '{', '}', '[', ']', ';', ',', '.', '-', '+', '/', '*', '!', '=', '<', '>']

/-- The characters a token begins with: those of words, numbers, strings and symbols. -/
def startsToken (c : UInt8) : Bool :=
  isWordStart c || isDigit c || c == 34 || symbolStarts.contains c

/-! ### Gaps -/

/-- White space and comments before `rest`.  A comment goes to the end of its line or of the
source. -/
inductive Gap : Bytes → Bytes → Prop
  | nil {rest : Bytes} : Gap [] rest
  | blank {c : UInt8} {gap rest : Bytes} : c = 32 ∨ c = 9 ∨ c = 13 ∨ c = 10 → Gap gap rest →
      Gap (c :: gap) rest
  | comment {text gap rest : Bytes} : 10 ∉ text → gap ++ rest = [] ∨ (gap ++ rest).head? = some 10 →
      Gap gap rest → Gap (47 :: 47 :: text ++ gap) rest

/-! ### Errors -/

/-- A text that begins with a string without an end. -/
def UnterminatedString (text : Bytes) : Prop := ∃ s, text = 34 :: s ∧ 34 ∉ s

/-- A text that begins with a number, directly followed by a letter, a digit or an underscore that
is not part of it. -/
def NumberRunsOn (text : Bytes) : Prop :=
  ∃ number c rest, LongestPrefix IsNumber text number ∧ text = number ++ c :: rest ∧ isWord c = true

/-- A text that begins with a character that starts no token. -/
def StartsNoToken (text : Bytes) : Prop := ∃ c rest, text = c :: rest ∧ startsToken c = false

/-! ### Tokens -/

/-- A lexeme before `rest`, with the type and the error of its token. -/
inductive Lexeme : TokenType → ErrorCode → Bytes → Bytes → Prop
  | word {word rest : Bytes} : LongestPrefix IsIdentifier (word ++ rest) word →
      Lexeme (keywordType word) .noError word rest
  | number {type : TokenType} {number rest : Bytes} : Numeral type number →
      LongestPrefix IsNumber (number ++ rest) number → Stops isWord rest →
      Lexeme type .noError number rest
  | invalidNumber {number word rest : Bytes} :
      LongestPrefix IsNumber (number ++ (word ++ rest)) number → word ≠ [] →
      (∀ c ∈ word, isWord c = true) → Stops isWord rest →
      Lexeme .error .invalidDecimalLiteral (number ++ word) rest
  | string {s rest : Bytes} : 34 ∉ s → Lexeme .string .noError (34 :: (s ++ [34])) rest
  | unterminated {s : Bytes} : 34 ∉ s → Lexeme .error .unterminatedString (34 :: s) []
  | symbol {type : TokenType} {word rest : Bytes} : (word, type) ∈ symbols →
      LongestPrefix IsSymbol (word ++ rest) word → Lexeme type .noError word rest
  | unrecognized {c : UInt8} {rest : Bytes} : startsToken c = false →
      Lexeme .error .unrecognizedCharacter [c] rest

/-- A token with the offset of its lexeme in the source. -/
structure Located where
  start : Nat
  token : Token

/-- After the bytes `before` of a source, lexemes and the gaps between them make up the text: the
next gap, the lexeme of the next token, of which `T` says what it may be before the rest, and so on,
up to a last gap.  A token has the offset of its lexeme and the line of the end of it. -/
inductive Partition (T : Token → Bytes → Prop) : Bytes → Bytes → List Located → Prop
  | done {before gap : Bytes} : Gap gap [] → Partition T before gap []
  | token {before gap rest : Bytes} {t : Located} {ts : List Located} :
      Gap gap (t.token.lexeme ++ rest) → t.start = (before ++ gap).length →
      t.token.line.toInt = 1 + (before ++ gap ++ t.token.lexeme).count 10 → T t.token rest →
      Partition T (before ++ gap ++ t.token.lexeme) rest ts →
      Partition T before (gap ++ (t.token.lexeme ++ rest)) (t :: ts)

/-- A lexeme is not empty, identifiers and numbers are as long as they can be, and a lexeme is an
error exactly where the text begins with none. -/
structure WellFormedToken (type : TokenType) (lexeme rest : Bytes) : Prop where
  ne_nil : lexeme ≠ []
  identifier : type = .identifier ∨ IsIdentifier lexeme →
    LongestPrefix IsIdentifier (lexeme ++ rest) lexeme
  number : type = .numberInt ∨ type = .numberReal ∨ IsNumber lexeme →
    LongestPrefix IsNumber (lexeme ++ rest) lexeme
  error_iff : type = .error ↔ UnterminatedString (lexeme ++ rest) ∨ NumberRunsOn (lexeme ++ rest) ∨
    StartsNoToken (lexeme ++ rest)

/-! ### The characters a token begins with -/

variable {word rest text number : Bytes} {type : TokenType} {c : UInt8}

theorem IsIdentifier.head (h : IsIdentifier word) : ∃ c v, word = c :: v ∧ isWordStart c = true := by
  cases word with
  | nil => cases h
  | cons c v => exact ⟨c, v, rfl, h.1⟩

theorem Numeral.head (h : Numeral type number) : ∃ c v, number = c :: v ∧ isDigit c = true := by
  cases h with
  | int hne hdigits =>
      obtain ⟨c, v, rfl⟩ := List.exists_cons_of_ne_nil hne
      exact ⟨c, v, rfl, hdigits c List.mem_cons_self⟩
  | real hne hdigits =>
      obtain ⟨c, v, rfl⟩ := List.exists_cons_of_ne_nil hne
      exact ⟨c, _, rfl, hdigits c List.mem_cons_self⟩

theorem head_of_mem_symbols (h : (word, type) ∈ symbols) :
    ∃ c v, word = c :: v ∧ c ∈ symbolStarts := by
  have hall : ∀ s ∈ symbols, ∃ c ∈ symbolStarts, s.1.head? = some c := by decide
  obtain ⟨c, hc, hhead⟩ := hall _ h
  obtain ⟨v, hv⟩ := List.head?_eq_some_iff.mp hhead
  exact ⟨c, v, hv, hc⟩

theorem not_isWordStart_of_isDigit (h : isDigit c = true) : isWordStart c = false := by
  simp only [isDigit, Bool.and_eq_true, decide_eq_true_eq, UInt8.le_iff_toNat_le] at h
  simp only [isWordStart, isAlpha, Bool.or_eq_false_iff, Bool.and_eq_false_iff, decide_eq_false_iff_not,
    UInt8.le_iff_toNat_le, beq_eq_false_iff_ne, ne_eq, ← UInt8.toNat_inj]
  simp only [UInt8.reduceToNat] at h ⊢
  omega

theorem isWord_of_isWordStart (h : isWordStart c = true) : isWord c = true := by
  simp only [isWordStart, isWord, Bool.or_eq_true] at h ⊢
  rcases h with h | h
  · exact .inl (.inl h)
  · exact .inr h

theorem IsIdentifier.chars (h : IsIdentifier word) : ∀ d ∈ word, isWord d = true := by
  cases word with
  | nil => cases h
  | cons c word =>
      intro d hd
      rcases List.mem_cons.mp hd with rfl | hd
      · exact isWord_of_isWordStart h.1
      · exact h.2 d hd

theorem symbolStarts_apart : ∀ c ∈ symbolStarts,
    isWordStart c = false ∧ isDigit c = false ∧ c ≠ 34 := by
  have hall : symbolStarts.all (fun c => !isWordStart c && !isDigit c && c != 34) = true := by decide
  intro c hc
  simpa [and_assoc] using List.all_eq_true.mp hall c hc

/-! ### Numbers -/

theorem Numeral.chars (h : Numeral type number) : ∀ d ∈ number, (isDigit d || d == 46) = true := by
  intro d hd
  cases h with
  | int _ hdigits => simp [hdigits d hd]
  | real _ hdigits hfraction =>
      rcases List.mem_append.mp hd with hd | hd
      · simp [hdigits d hd]
      · rcases List.mem_cons.mp hd with rfl | hd
        · rfl
        · simp [hfraction d hd]

/-- Digits are a number that is as long as it can be when neither a digit nor a point follows. -/
theorem longestPrefix_int (hne : number ≠ []) (hdigits : ∀ d ∈ number, isDigit d = true)
    (hstops : Stops isDigit rest) (hpoint : rest.head? ≠ some 46) :
    LongestPrefix IsNumber (number ++ rest) number := by
  refine LongestPrefix.of_stops (p := fun d => isDigit d || d == 46) ⟨_, .int hne hdigits⟩
    (fun other ⟨_, hother⟩ => hother.chars) fun d hd => ?_
  have hne : d ≠ 46 := fun h => hpoint (h ▸ hd)
  simp [hstops d hd, hne]

/-- A number with a point ends where its fraction does. -/
theorem longestPrefix_real {fraction : Bytes} (hne : number ≠ [])
    (hdigits : ∀ d ∈ number, isDigit d = true) (hfraction : ∀ d ∈ fraction, isDigit d = true)
    (hstops : Stops isDigit rest) :
    LongestPrefix IsNumber ((number ++ 46 :: fraction) ++ rest) (number ++ 46 :: fraction) where
  mem := ⟨_, .real hne hdigits hfraction⟩
  isPrefix := List.prefix_append _ _
  longest other hother hprefix := by
    have hpoint : isDigit 46 = false := by decide
    rw [List.append_assoc, List.cons_append] at hprefix
    rw [List.length_append]
    obtain ⟨_, hother⟩ := hother
    cases hother with
    | int _ hdigits' =>
        have hle := (stops_cons.mpr hpoint).length_le hdigits' hprefix
        omega
    | real _ hdigits' hfraction' =>
        obtain ⟨rfl, -, hrest⟩ := eq_of_prefix_append hdigits' hdigits hpoint hpoint hprefix
        have hle := hstops.length_le hfraction' hrest
        rw [List.length_append, List.length_cons, List.length_cons]
        omega

/-! ### Symbols -/

theorem symbols_length : ∀ s ∈ symbols, s.1.length ≤ 2 := by decide

/-- A symbol of one character is as long as it can be when no longer one goes on with the text. -/
theorem longestPrefix_symbol (hmem : IsSymbol [c])
    (h : ∀ s ∈ symbols, s.1.head? = some c → s.1 = [c] ∨ s.1[1]? ≠ rest.head?) :
    LongestPrefix IsSymbol ([c] ++ rest) [c] where
  mem := hmem
  isPrefix := List.prefix_append _ _
  longest other hother hprefix := by
    obtain ⟨_, hother⟩ := hother
    obtain ⟨d, v, rfl, -⟩ := head_of_mem_symbols hother
    obtain ⟨rfl, htail⟩ := List.cons_prefix_cons.mp hprefix
    rcases h _ hother rfl with heq | hne
    · exact (congrArg List.length heq).le
    · cases v with
      | nil => exact Nat.le_refl _
      | cons e v =>
          obtain ⟨tail, htail⟩ := htail
          exact absurd (congrArg List.head? htail) hne

theorem longestPrefix_symbol₂ {d : UInt8} (hmem : IsSymbol [c, d]) :
    LongestPrefix IsSymbol ([c, d] ++ rest) [c, d] where
  mem := hmem
  isPrefix := List.prefix_append _ _
  longest other hother _ := by
    obtain ⟨_, hother⟩ := hother
    exact symbols_length _ hother

/-! ### Errors and the characters -/

theorem UnterminatedString.head (h : UnterminatedString (c :: text)) : c = 34 := by
  obtain ⟨s, heq, -⟩ := h
  exact (List.cons.inj heq).1

theorem NumberRunsOn.head (h : NumberRunsOn (c :: text)) : isDigit c = true := by
  obtain ⟨number, d, rest, ⟨⟨_, hnumber⟩, -, -⟩, heq, -⟩ := h
  obtain ⟨c', v, rfl, hc⟩ := hnumber.head
  rw [(List.cons.inj heq).1]
  exact hc

theorem StartsNoToken.head (h : StartsNoToken (c :: text)) : startsToken c = false := by
  obtain ⟨c', rest, heq, hc⟩ := h
  rw [(List.cons.inj heq).1]
  exact hc

/-- A text that begins a word or a symbol begins with no error. -/
theorem not_error (hquote : c ≠ 34) (hdigit : isDigit c = false) (hstarts : startsToken c = true) :
    ¬ (UnterminatedString (c :: text) ∨ NumberRunsOn (c :: text) ∨ StartsNoToken (c :: text)) := by
  rintro (h | h | h)
  · exact hquote h.head
  · rw [h.head] at hdigit
    cases hdigit
  · rw [h.head] at hstarts
    cases hstarts

theorem isDigit_of_isWordStart (h : isWordStart c = true) : isDigit c = false := by
  by_contra hdigit
  rw [not_isWordStart_of_isDigit (by simpa using hdigit)] at h
  cases h

theorem ne_quote_of_isWordStart (h : isWordStart c = true) : c ≠ 34 := by
  rintro rfl
  cases h

theorem ne_quote_of_isDigit (h : isDigit c = true) : c ≠ 34 := by
  rintro rfl
  cases h

theorem keywordType_cases (word : Bytes) :
    keywordType word = .identifier ∨ (word, keywordType word) ∈ keywords := by
  unfold keywordType
  cases h : keywords.lookup word with
  | none => exact .inl rfl
  | some type =>
      obtain ⟨l, l', heq, -⟩ := List.lookup_eq_some_iff.mp h
      exact .inr (heq ▸ by simp)

/-- A word has no type but that of an identifier or of a keyword. -/
theorem keywordType_ne (hne : type ≠ .identifier) (h : ∀ k ∈ keywords, k.2 ≠ type) (word : Bytes) :
    keywordType word ≠ type := by
  rcases keywordType_cases word with hk | hk
  · rw [hk]
    exact hne.symm
  · exact h _ hk

theorem symbols_types : ∀ s ∈ symbols,
    s.2 ≠ .error ∧ s.2 ≠ .identifier ∧ s.2 ≠ .numberInt ∧ s.2 ≠ .numberReal := by decide

/-! ### Lexemes are well-formed tokens -/

/-- A number begins with a digit, and an identifier with none. -/
theorem not_isNumber_cons (h : isDigit c = false) : ¬ IsNumber (c :: text) := by
  rintro ⟨_, hnumber⟩
  obtain ⟨_, _, heq, hc⟩ := hnumber.head
  rw [← (List.cons.inj heq).1, h] at hc
  cases hc

theorem not_isIdentifier_cons (h : isWordStart c = false) : ¬ IsIdentifier (c :: text) :=
  fun hword => by rw [hword.1] at h; cases h

theorem wellFormedToken_word (h : LongestPrefix IsIdentifier (word ++ rest) word) :
    WellFormedToken (keywordType word) word rest := by
  obtain ⟨c, v, rfl, hc⟩ := h.mem.head
  have hdigit := isDigit_of_isWordStart hc
  refine ⟨List.cons_ne_nil c v, fun _ => h, fun hnumber => ?_, fun herror => ?_, fun herror => ?_⟩
  · rcases hnumber with htype | htype | hnumber
    · exact absurd htype (keywordType_ne (by decide) (by decide) _)
    · exact absurd htype (keywordType_ne (by decide) (by decide) _)
    · exact absurd hnumber (not_isNumber_cons hdigit)
  · exact absurd herror (keywordType_ne (by decide) (by decide) _)
  · exact absurd herror (not_error (ne_quote_of_isWordStart hc) hdigit (by simp [startsToken, hc]))

theorem Numeral.type_cases (h : Numeral type number) : type = .numberInt ∨ type = .numberReal := by
  cases h
  · exact .inl rfl
  · exact .inr rfl

/-- The number a text runs on from is the longest one. -/
theorem NumberRunsOn.next (h : NumberRunsOn (number ++ rest))
    (hnumber : LongestPrefix IsNumber (number ++ rest) number) : ¬ Stops isWord rest := by
  obtain ⟨number', d, rest', hnumber', heq, hd⟩ := h
  obtain rfl := hnumber.unique hnumber'
  rw [List.append_cancel_left heq, stops_cons, hd]
  nofun

theorem wellFormedToken_number (hnumeral : Numeral type number)
    (h : LongestPrefix IsNumber (number ++ rest) number) (hstops : Stops isWord rest) :
    WellFormedToken type number rest := by
  obtain ⟨c, v, rfl, hc⟩ := hnumeral.head
  have hword := not_isWordStart_of_isDigit hc
  have htype := hnumeral.type_cases
  refine ⟨List.cons_ne_nil c v, fun hidentifier => ?_, fun _ => h, fun herror => ?_, fun herror => ?_⟩
  · rcases hidentifier with rfl | hidentifier
    · rcases htype with htype | htype <;> cases htype
    · exact absurd hidentifier (not_isIdentifier_cons hword)
  · rcases htype with htype | htype <;> rw [herror] at htype <;> cases htype
  · rcases herror with herror | herror | herror
    · exact absurd herror.head (ne_quote_of_isDigit hc)
    · exact absurd hstops (herror.next h)
    · have hstarts := herror.head
      simp [startsToken, hc] at hstarts

theorem wellFormedToken_invalidNumber
    (h : LongestPrefix IsNumber (number ++ (word ++ rest)) number) (hne : word ≠ [])
    (hword : ∀ d ∈ word, isWord d = true) : WellFormedToken .error (number ++ word) rest := by
  obtain ⟨_, hnumeral⟩ := h.mem
  obtain ⟨c, v, rfl, hc⟩ := hnumeral.head
  obtain ⟨d, w, rfl⟩ := List.exists_cons_of_ne_nil hne
  refine ⟨List.cons_ne_nil c _, fun hidentifier => ?_, fun hnumber => ?_, fun _ => ?_, fun _ => rfl⟩
  · rcases hidentifier with htype | hidentifier
    · cases htype
    · exact absurd hidentifier (not_isIdentifier_cons (not_isWordStart_of_isDigit hc))
  · rcases hnumber with htype | htype | hnumber
    · cases htype
    · cases htype
    · have hle := h.longest _ hnumber (by rw [← List.append_assoc]; exact List.prefix_append _ _)
      simp only [List.length_append, List.length_cons] at hle
      omega
  · rw [List.append_assoc]
    exact .inr (.inl ⟨_, d, w ++ rest, h, rfl, hword d List.mem_cons_self⟩)

theorem wellFormedToken_symbol (hmem : (word, type) ∈ symbols) : WellFormedToken type word rest := by
  obtain ⟨c, v, rfl, hc⟩ := head_of_mem_symbols hmem
  obtain ⟨hword, hdigit, hquote⟩ := symbolStarts_apart c hc
  obtain ⟨herror, hidentifier, hint, hreal⟩ := symbols_types _ hmem
  refine ⟨List.cons_ne_nil c v, fun h => ?_, fun h => ?_, fun h => absurd h herror, fun h => ?_⟩
  · rcases h with h | h
    · exact absurd h hidentifier
    · exact absurd h (not_isIdentifier_cons hword)
  · rcases h with h | h | h
    · exact absurd h hint
    · exact absurd h hreal
    · exact absurd h (not_isNumber_cons hdigit)
  · exact absurd h (not_error hquote hdigit (by simp [startsToken, hc]))

/-- A string, with an end or without, and a character that starts no token. -/
theorem wellFormedToken_other (htype : type = .string ∨ type = .error) (hword : isWordStart c = false)
    (hdigit : isDigit c = false)
    (herror : type = .error ↔ UnterminatedString (c :: (text ++ rest)) ∨
      StartsNoToken (c :: (text ++ rest))) : WellFormedToken type (c :: text) rest := by
  refine ⟨List.cons_ne_nil c text, fun h => ?_, fun h => ?_, fun h => ?_, fun h => ?_⟩
  · rcases h with rfl | h
    · rcases htype with htype | htype <;> cases htype
    · exact absurd h (not_isIdentifier_cons hword)
  · rcases h with rfl | rfl | h
    · rcases htype with htype | htype <;> cases htype
    · rcases htype with htype | htype <;> cases htype
    · exact absurd h (not_isNumber_cons hdigit)
  · rcases herror.mp h with h | h
    · exact .inl h
    · exact .inr (.inr h)
  · rcases h with h | h | h
    · exact herror.mpr (.inl h)
    · rw [h.head] at hdigit
      cases hdigit
    · exact herror.mpr (.inr h)

theorem Lexeme.ne_endOfFile {err : ErrorCode} (h : Lexeme type err word rest) : type ≠ .endOfFile := by
  cases h with
  | word h => exact keywordType_ne (by decide) (by decide) _
  | number hnumeral => exact fun h => by rcases hnumeral.type_cases with h' | h' <;> cases h.symm.trans h'
  | symbol hmem _ => exact (show ∀ s ∈ symbols, s.2 ≠ .endOfFile by decide) _ hmem
  | invalidNumber | string | unterminated | unrecognized => exact nofun

theorem Lexeme.wellFormedToken {err : ErrorCode} (h : Lexeme type err word rest) :
    WellFormedToken type word rest := by
  cases h with
  | word h => exact wellFormedToken_word h
  | number hnumeral h hstops => exact wellFormedToken_number hnumeral h hstops
  | invalidNumber h hne hword _ => exact wellFormedToken_invalidNumber h hne hword
  | symbol hmem _ => exact wellFormedToken_symbol hmem
  | @string s _ hs =>
      refine wellFormedToken_other (.inl rfl) (by decide) (by decide) ⟨nofun, fun h => ?_⟩
      rcases h with ⟨s', heq, hs'⟩ | h
      · rw [← (List.cons.inj heq).2] at hs'
        simp at hs'
      · exact absurd h.head (by decide)
  | unterminated hs =>
      refine wellFormedToken_other (.inr rfl) (by decide) (by decide) ⟨fun _ => ?_, fun _ => rfl⟩
      exact .inl ⟨_, rfl, by rwa [List.append_nil]⟩
  | unrecognized hc =>
      have hclasses := hc
      simp only [startsToken, Bool.or_eq_false_iff] at hclasses
      exact wellFormedToken_other (.inr rfl) hclasses.1.1.1 hclasses.1.1.2
        ⟨fun _ => .inr ⟨_, _, rfl, hc⟩, fun _ => rfl⟩

end Lexer

end CppLox
