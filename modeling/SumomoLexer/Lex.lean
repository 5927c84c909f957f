import SumomoLexer.Scan.Program

/-! # Lexing

Lexing a text gives its tokens or a failure. A failure does not undo what was emitted before it, so a
lexing also shows the tokens that its scan emitted and the journal it kept. Bytes are decoded first;
the text before the first ill-formed piece is not lexed then, it only serves to locate that piece.

A lexing may count with bounded offsets, which ends in a fault for a text that the bound has no room
for. `lex` and `lexBytes` count without bound.
-/
namespace SumomoLexer
set_option autoImplicit false

structure Lexing where
  result : Except Failure (List Token)
  /-- The tokens emitted up to the end of the text or up to the failure. -/
  emitted : List Token
  journal : List Journal.Entry

def Lexing.ofScan : EStateM.Result Failure Scan Unit → Lexing
  | .ok () s => ⟨.ok s.tokens.toList, s.tokens.toList, s.journal.toList⟩
  | .error e s => ⟨.error e, s.tokens.toList, s.journal.toList⟩

def Lexing.ofText (bound : Offset.Bound) (text : String) : Lexing :=
  ofScan (Scan.program (Scan.ofText bound text))

/-- The rejection of bytes that are not UTF-8, where `readable` is the text before the defect. -/
def Rejection.ofDefect (readable : String) (defect : Utf8.Defect) : Rejection :=
  let position := readable.length
  ⟨.undecodable defect, position, LineMark.find readable position⟩

def Lexing.ofBytes (bound : Offset.Bound) (bytes : List UInt8) : Lexing :=
  match Utf8.decode bytes with
  | (text, none) => ofText bound text
  | (readable, some defect) => ⟨.error (.rejected (.ofDefect readable defect)), [], []⟩

def lex (text : String) : Except Failure (List Token) :=
  (Lexing.ofText Offset.unbounded text).result

def lexBytes (bytes : List UInt8) : Except Failure (List Token) :=
  (Lexing.ofBytes Offset.unbounded bytes).result

end SumomoLexer
