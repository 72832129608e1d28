import CppLox.Compiler.Lexer

/-!
# Compiler — the parser

`Parser` (`include/parser.hpp`, `src/compiler/parser.cpp`): the tokens around the current one and
the state of error reporting.  Past the end the iterators stay at `END_OF_FILE`.
-/

namespace CppLox

/-- The iterators `previous_` and `current`, and the tokens from `next` on. -/
structure Tokens where
  previous : Token
  current : Token
  rest : List Token
  deriving Repr

/-- The data members of `Parser`; `errors` is what was sent to the reporter, with the token the
report is about. -/
structure Parser where
  tokens : Tokens
  hadError : Bool := false
  panicMode : Bool := false
  errors : List (Token × String) := []

/-- A lexeme in a message. -/
def Token.text (token : Token) : String :=
  String.ofList (token.lexeme.map fun b => Char.ofNat b.toNat)

namespace Parser

def peek (p : Parser) : Token := p.tokens.current

def previous (p : Parser) : Token := p.tokens.previous

/-- `Parser::report_error`. -/
def reportError (p : Parser) (message : String) : Parser :=
  if p.panicMode then p
  else { p with
    panicMode := true
    errors := p.errors ++ [(p.tokens.current, message)]
    hadError := true }

/-- `Parser::report_error_token`. -/
def reportErrorToken (p : Parser) (token : Token) : Parser :=
  match token.err with
  | .invalidDecimalLiteral => p.reportError ("Invalid decimal '" ++ token.text ++ "'")
  | .unrecognizedCharacter => p.reportError ("Invaild character '" ++ token.text ++ "'")
  | .unterminatedString => p.reportError ("Unterminated string '" ++ token.text ++ "'")
  | .noError => p

/-- The constructor, on the tokens of the source. -/
def init (tokens : List Token) : Parser :=
  let first := tokens.headD {}
  let p : Parser := { tokens := { previous := first, current := first, rest := tokens.tail } }
  if first.tokenType = .error then p.reportErrorToken first else p

/-- The loop of `Parser::advance`: tokens of type `ERROR` are reported and skipped. -/
def advanceFrom : List Token → Parser → Parser
  | [], p => { p with tokens := { p.tokens with current := {}, rest := [] } }
  | token :: rest, p =>
    let p := { p with tokens := { p.tokens with current := token, rest := rest } }
    if token.tokenType = .error then advanceFrom rest (p.reportErrorToken token) else p

/-- `Parser::advance`. -/
def advance (p : Parser) : Parser :=
  advanceFrom p.tokens.rest { p with tokens := { p.tokens with previous := p.tokens.current } }

/-- `Parser::check`. -/
def check (p : Parser) (expected : TokenType) : Bool := p.tokens.current.tokenType = expected

/-- `Parser::match`. -/
def «match» (p : Parser) (expected : TokenType) : Bool × Parser :=
  if p.check expected then (true, p.advance) else (false, p)

/-- `Parser::consume` with a message. -/
def consume (p : Parser) (expected : TokenType) (errorMessage : String) : Parser :=
  if p.check expected then p.advance else p.reportError ("Syntax Error: " ++ errorMessage)

/-- The tokens `synchronize` stops at. -/
def startsStatement : TokenType → Bool
  | .class | .fun | .var | .for | .if | .while | .print | .return => true
  | _ => false

/-- The loop of `Parser::synchronize`. -/
def synchronizeFrom : Nat → Parser → Parser
  | 0, p => p
  | fuel + 1, p =>
    if p.check .endOfFile then p
    else if p.previous.tokenType = .semicolon then p
    else if startsStatement p.peek.tokenType then p
    else synchronizeFrom fuel p.advance

/-- `Parser::synchronize`.  Each iteration consumes a token. -/
def synchronize (p : Parser) : Parser :=
  synchronizeFrom (p.tokens.rest.length + 1) { p with panicMode := false }

end Parser

end CppLox
