import SumomoLexer.LineMark
import SumomoLexer.Span

/-! # Tokens

A token has a kind, the numerals it was read from where it has any, the range of characters it
covers and the line mark of its first character.
-/
namespace SumomoLexer
set_option autoImplicit false

inductive Token.Kind where
  | openBracket
  | closeBracket
  | numberLiteral
  /-- Numerals directly behind an open bracket. -/
  | operator
  /-- The end of a text of filler alone. -/
  | endMark
deriving DecidableEq, Repr

structure Token where
  kind : Token.Kind
  value : Option String
  line : LineMark
  range : Span
deriving DecidableEq, Repr

namespace Token

def Kind.name : Kind → String
  | .openBracket => "openbracket"
  | .closeBracket => "closebracket"
  | .numberLiteral => "numberliteral"
  | .operator => "operator"
  | .endMark => "eof"

def text (t : Token) : String :=
  match t.value with
  | some value => t.kind.name ++ " " ++ value
  | none => t.kind.name

theorem Kind.name_injective {k l : Kind} (h : k.name = l.name) : k = l := by
  cases k <;> cases l <;> first | rfl | exact absurd h (by decide)

end Token
end SumomoLexer
