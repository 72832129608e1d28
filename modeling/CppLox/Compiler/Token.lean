import CppLox.Object.Value

/-!
# Compiler — tokens

`include/token.hpp` and `include/errcodes.hpp`.  A lexeme is the bytes of the slice of the source
it is taken from.
-/

namespace CppLox

/-- `TokenType`, in the order of the enumeration. -/
inductive TokenType where
  | leftParen | rightParen | leftBrace | rightBrace | leftBracket | rightBracket
  | comma | dot | minus | plus | semicolon | slash | star
  | bang | bangEqual | equal | equalEqual | greater | greaterEqual | less | lessEqual
  | identifier | string | numberInt | numberReal
  | and | «class» | const | «else» | false | «for» | «fun» | «if» | nil | not | or | print
  | «return» | super | this | true | var | while
  | error | endOfFile | colon | questionMark | questionDot
  | switch | case | default | «break» | «continue»
  deriving Repr, DecidableEq

/-- `ErrorCode`. -/
inductive ErrorCode where
  | noError
  | unterminatedString
  | unrecognizedCharacter
  | invalidDecimalLiteral
  deriving Repr, DecidableEq

/-- `Token`; the default is what the constructor `Token()` builds. -/
structure Token where
  tokenType : TokenType := .endOfFile
  line : Int32 := 1
  err : ErrorCode := .noError
  lexeme : Bytes := []
  deriving Repr, DecidableEq

instance : Inhabited Token := ⟨{}⟩

/-- The bytes of a text in ASCII. -/
def ascii (text : List Char) : Bytes := text.map fun c => c.toNat.toUInt8

end CppLox
