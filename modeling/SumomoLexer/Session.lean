import SumomoLexer.Lex

/-! # Sessions

A session lexes one source after another and holds on to the tokens of the last one, if it could be
lexed. It starts out with no tokens. What it holds is forgotten before the next source is lexed, so
that a source that cannot be lexed leaves it with nothing.
-/
namespace SumomoLexer
set_option autoImplicit false

structure Session where
  tokens : List Token
deriving DecidableEq, Repr, Inhabited

namespace Session

def new : Session := default

inductive Request where
  /-- Puts a new session in the place of this one. -/
  | restart
  | lex (text : String)
  | lexBytes (bytes : List UInt8)
  | recall

def forget (s : Session) : Session := { s with tokens := [] }

def hold (s : Session) (result : Except Failure (List Token)) :
    Except Failure (List Token) × Session :=
  match result with
  | .ok tokens => (.ok tokens, { s with tokens })
  | .error e => (.error e, s)

def perform (s : Session) : Request → Except Failure (List Token) × Session
  | .restart => (.ok new.tokens, new)
  | .lex text => s.forget.hold (SumomoLexer.lex text)
  | .lexBytes bytes => s.forget.hold (SumomoLexer.lexBytes bytes)
  | .recall => (.ok s.tokens, s)

end Session
end SumomoLexer
