import SumomoLexer.Token
import SumomoLexer.Utf8

/-! # Rejections

A rejection says why a text is not sumomo, together with the position and the line mark at which the
reading stopped. The cause is kept as data; its wording and the kind of error it belongs to are
functions of it.
-/
namespace SumomoLexer
set_option autoImplicit false

inductive ErrorKind where
  | invalidInput
  | unexpectedChar
  | unexpectedEof
deriving DecidableEq, Repr

def ErrorKind.name : ErrorKind → String
  | .invalidInput => "InvalidInput"
  | .unexpectedChar => "UnexpectedChar"
  | .unexpectedEof => "UnexpectedEof"

inductive Cause where
  | undecodable (defect : Utf8.Defect)
  | missingExpression
  | strayCharacter (c : Char)
  /-- A close bracket begins with this numeral, and no bracket is to be closed here. -/
  | nothingToClose (c : Char)
  | unfinishedNumerals (kind : Token.Kind)
  /-- There is no numeral where a token of this kind has to begin. -/
  | missingNumerals (kind : Token.Kind) (found : Option Char)
  /-- A close bracket does not go on with the expected character. -/
  | wrongCharacter (expected : Char) (found : Option Char)
deriving DecidableEq, Repr

namespace Cause

def kind : Cause → ErrorKind
  | .undecodable _ => .invalidInput
  | .unfinishedNumerals _ => .unexpectedEof
  | _ => .unexpectedChar

def quote (c : Char) : String := "\"" ++ c.toString ++ "\""

/-- How a message names what stands at its position. -/
def naming : Option Char → String
  | some c => quote c
  | none => "end of input"

def message : Cause → String
  | .undecodable defect => "Source is not valid UTF-8: " ++ defect.message
  | .missingExpression => "Expected an expression but came " ++ naming none ++ "."
  | .strayCharacter c => "Unexpected char " ++ quote c ++ "."
  | .nothingToClose c => quote c ++ " starts a close bracket with nothing to close."
  | .unfinishedNumerals kind => "Reached the end of input while reading " ++ kind.name ++ "."
  | .missingNumerals kind found => "Expected " ++ kind.name ++ " but came " ++ naming found ++ "."
  | .wrongCharacter expected found =>
    "Expected " ++ quote expected ++ " but came " ++ naming found ++ "."

end Cause

structure Rejection where
  cause : Cause
  position : Nat
  line : LineMark
deriving DecidableEq, Repr

inductive Failure where
  | rejected (rejection : Rejection)
  | fault (fault : Fault)
deriving DecidableEq, Repr

end SumomoLexer
