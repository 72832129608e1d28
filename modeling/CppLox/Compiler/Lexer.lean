import CppLox.Compiler.Token

/-!
# Compiler — the lexer

`Lexer::const_token_iterator` (`src/compiler/lexer.cpp`).  The loops run on fuel; each iteration
consumes a byte of the source, so its length is enough.  `isdigit`, `isalpha` and `isalnum` are
those of the C locale.
-/

namespace CppLox

namespace Lexer

def isDigit (c : UInt8) : Bool := 48 ≤ c && c ≤ 57

def isAlpha (c : UInt8) : Bool := (65 ≤ c && c ≤ 90) || (97 ≤ c && c ≤ 122)

/-- The characters an identifier continues with. -/
def isWord (c : UInt8) : Bool := isAlpha c || isDigit c || c == 95

/-- The data members of `const_token_iterator`.  The line is an `int`; past the greatest one, where the
source has no defined behaviour, it wraps around. -/
structure TokenIterator where
  source : Bytes
  start : Nat
  current : Nat
  line : Int32
  currentTokenType : TokenType := .endOfFile
  err : ErrorCode := .noError
  cachedToken : Token := {}

namespace TokenIterator

def advance (it : TokenIterator) : TokenIterator := { it with current := it.current + 1 }

def isAtEnd (it : TokenIterator) : Bool := it.source.length ≤ it.current

def peek (it : TokenIterator) : UInt8 := it.source.getD it.current 0

def peekNext (it : TokenIterator) : UInt8 := it.source.getD (it.current + 1) 0

/-- `const_token_iterator::match`. -/
def «match» (it : TokenIterator) (ch : UInt8) : Bool × TokenIterator :=
  if it.isAtEnd then (false, it)
  else if it.source.getD it.current 0 ≠ ch then (false, it)
  else (true, it.advance)

/-- The loops of the lexer that advance while a condition on the next character holds. -/
def advanceWhile (p : TokenIterator → Bool) : Nat → TokenIterator → TokenIterator
  | 0, it => it
  | fuel + 1, it => if p it then advanceWhile p fuel it.advance else it

/-- `const_token_iterator::skip_whitespace`. -/
def skipWhitespace : Nat → TokenIterator → TokenIterator
  | 0, it => it
  | fuel + 1, it =>
    let ch := it.peek
    if ch = 32 ∨ ch = 9 ∨ ch = 13 then skipWhitespace fuel it.advance
    else if ch = 10 then skipWhitespace fuel { it.advance with line := it.line + 1 }
    else if ch = 47 ∧ it.peekNext = 47 then
      skipWhitespace fuel
        (advanceWhile (fun it => !it.isAtEnd && it.peek != 10) it.source.length it)
    else it

/-- The loop of `const_token_iterator::match_string`. -/
def scanString : Nat → TokenIterator → TokenIterator
  | 0, it => it
  | fuel + 1, it =>
    if it.peek ≠ 34 ∧ !it.isAtEnd then
      scanString fuel { it.advance with line := if it.peek = 10 then it.line + 1 else it.line }
    else it

/-- `const_token_iterator::match_string`. -/
def matchString (it : TokenIterator) : TokenType × TokenIterator :=
  let it := scanString it.source.length it
  if it.isAtEnd then (.error, { it with err := .unterminatedString })
  else (.string, it.advance)

/-- `const_token_iterator::match_number`. -/
def matchNumber (it : TokenIterator) : TokenType × TokenIterator :=
  let it := advanceWhile (fun it => isDigit it.peek) it.source.length it
  let isInt := it.peek ≠ 46
  let it := if isInt then it
    else advanceWhile (fun it => isDigit it.peek) it.source.length it.advance
  let isErr := isWord it.peek
  let it := advanceWhile (fun it => isWord it.peek) it.source.length it
  if isErr then (.error, { it with err := .invalidDecimalLiteral })
  else (if isInt then .numberInt else .numberReal, it)

def lexemeLength (it : TokenIterator) : Nat := it.current - it.start

/-- `const_token_iterator::check_keyword`. -/
def checkKeyword (it : TokenIterator) (idx length : Nat) (rest : Bytes) (type : TokenType) :
    TokenType :=
  if it.current - it.start = idx + length ∧
      (it.source.drop (it.start + idx)).take length = rest then type
  else .identifier

/-- The character `source[start + i]`. -/
def charAt (it : TokenIterator) (i : Nat) : Char := Char.ofNat (it.source.getD (it.start + i) 0).toNat

/-- `const_token_iterator::get_identifier_type`. -/
def getIdentifierType (it : TokenIterator) : TokenType :=
  match it.charAt 0 with
  | 'a' => it.checkKeyword 1 2 (ascii ['n', 'd']) .and
  | 'c' =>
    if 1 < it.lexemeLength then
      match it.charAt 1 with
      | 'a' => it.checkKeyword 2 2 (ascii ['s', 'e']) .case
      | 'l' => it.checkKeyword 2 3 (ascii ['a', 's', 's']) .class
      | 'o' =>
        if 3 < it.lexemeLength ∧ it.charAt 2 = 'n' then
          match it.charAt 3 with
          | 's' => it.checkKeyword 4 1 (ascii ['t']) .const
          | 't' => it.checkKeyword 4 4 (ascii ['i', 'n', 'u', 'e']) .continue
          | _ => .identifier
        else .identifier
      | _ => .identifier
    else .identifier
  | 'b' => it.checkKeyword 1 4 (ascii ['r', 'e', 'a', 'k']) .break
  | 'd' => it.checkKeyword 1 6 (ascii ['e', 'f', 'a', 'u', 'l', 't']) .default
  | 'e' =>
    if 1 < it.lexemeLength then
      match it.charAt 1 with
      | 'c' => it.checkKeyword 2 2 (ascii ['h', 'o']) .print
      | 'l' => it.checkKeyword 2 2 (ascii ['s', 'e']) .else
      | _ => .identifier
    else .identifier
  | 'f' =>
    if 1 < it.lexemeLength then
      match it.charAt 1 with
      | 'a' => it.checkKeyword 2 3 (ascii ['l', 's', 'e']) .false
      | 'o' => it.checkKeyword 2 1 (ascii ['r']) .for
      | 'u' => it.checkKeyword 2 1 (ascii ['n']) .fun
      | _ => .identifier
    else .identifier
  | 'i' => it.checkKeyword 1 1 (ascii ['f']) .if
  | 'n' =>
    if 1 < it.lexemeLength then
      match it.charAt 1 with
      | 'i' => it.checkKeyword 2 1 (ascii ['l']) .nil
      | 'o' => it.checkKeyword 2 1 (ascii ['t']) .not
      | _ => .identifier
    else .identifier
  | 'o' => it.checkKeyword 1 1 (ascii ['r']) .or
  | 'r' => it.checkKeyword 1 5 (ascii ['e', 't', 'u', 'r', 'n']) .return
  | 's' =>
    if 1 < it.lexemeLength then
      match it.charAt 1 with
      | 'w' => it.checkKeyword 2 4 (ascii ['i', 't', 'c', 'h']) .switch
      | 'u' => it.checkKeyword 2 3 (ascii ['p', 'e', 'r']) .super
      | _ => .identifier
    else .identifier
  | 't' =>
    if 1 < it.lexemeLength then
      match it.charAt 1 with
      | 'h' => it.checkKeyword 2 2 (ascii ['i', 's']) .this
      | 'r' => it.checkKeyword 2 2 (ascii ['u', 'e']) .true
      | _ => .identifier
    else .identifier
  | 'v' => it.checkKeyword 1 2 (ascii ['a', 'r']) .var
  | 'w' => it.checkKeyword 1 4 (ascii ['h', 'i', 'l', 'e']) .while
  | _ => .identifier

/-- `const_token_iterator::match_identifier`. -/
def matchIdentifier (it : TokenIterator) : TokenType × TokenIterator :=
  let it := advanceWhile (fun it => isWord it.peek) it.source.length it
  (it.getIdentifierType, it)

/-- A token of one character, or of two when the second is `ch`. -/
def orElse (it : TokenIterator) (ch : Char) (two one : TokenType) : TokenType × TokenIterator :=
  let (matched, it) := it.match ch.toNat.toUInt8
  (if matched then two else one, it)

/-- `const_token_iterator::scan_token`. -/
def scanToken (it : TokenIterator) : TokenType × TokenIterator :=
  let it := skipWhitespace (it.source.length + 1) it
  let it := { it with start := it.current }
  if it.isAtEnd then (.endOfFile, it)
  else
    let ch := it.peek
    let it := it.advance
    if isAlpha ch ∨ ch = 95 then it.matchIdentifier
    else if isDigit ch then it.matchNumber
    else
      match Char.ofNat ch.toNat with
      | ':' => (.colon, it)
      | '?' => it.orElse '.' .questionDot .questionMark
      | '(' => (.leftParen, it)
      | ')' => (.rightParen, it)
      | '{' => (.leftBrace, it)
      | '}' => (.rightBrace, it)
      | '[' => (.leftBracket, it)
      | ']' => (.rightBracket, it)
      | ';' => (.semicolon, it)
      | ',' => (.comma, it)
      | '.' => (.dot, it)
      | '-' => (.minus, it)
      | '+' => (.plus, it)
      | '/' => (.slash, it)
      | '*' => (.star, it)
      | '!' => it.orElse '=' .bangEqual .bang
      | '=' => it.orElse '=' .equalEqual .equal
      | '<' => it.orElse '=' .lessEqual .less
      | '>' => it.orElse '=' .greaterEqual .greater
      | '"' => it.matchString
      | _ => (.error, { it with err := .unrecognizedCharacter })

/-- `const_token_iterator::operator*`. -/
def token (it : TokenIterator) : Token :=
  if it.currentTokenType = .endOfFile then {} else it.cachedToken

/-- `const_token_iterator::operator++`. -/
def next (it : TokenIterator) : TokenIterator :=
  let it := { it with err := .noError }
  let it :=
    if it.isAtEnd then
      { it with
        currentTokenType := .endOfFile, start := it.source.length, current := it.source.length }
    else
      let (type, it) := { it with start := it.current }.scanToken
      { it with currentTokenType := type }
  { it with
    cachedToken :=
      { line := it.line
        lexeme := (it.source.drop it.start).take (it.current - it.start)
        tokenType := it.currentTokenType
        err := it.err } }

/-- `const_token_iterator::operator==`. -/
def equal (it other : TokenIterator) : Bool := it.start == other.start && it.current == other.current

/-- The tokens from an iterator up to the end of the file. -/
def tokensFrom : Nat → TokenIterator → List Token
  | 0, _ => []
  | fuel + 1, it =>
    if it.currentTokenType = .endOfFile then [] else it.token :: tokensFrom fuel it.next

end TokenIterator

/-- `Lexer::begin`. -/
def «begin» (source : Bytes) : TokenIterator :=
  TokenIterator.next { source, start := 0, current := 0, line := 1 }

/-- `Lexer::end`. -/
def «end» (source : Bytes) : TokenIterator :=
  { source, start := source.length, current := source.length, line := 1 }

/-- The tokens of a source before `END_OF_FILE`. -/
def tokens (source : Bytes) : List Token := (Lexer.begin source).tokensFrom (source.length + 1)

end Lexer

end CppLox
