import SumomoLexer.Diagnostic
import SumomoLexer.Lex
import SumomoLexer.Options
import SumomoLexer.ReadFailure

/-! # The program

The program lexes one source. It prints its tokens, one per line, or describes the failure below the
journal; it prints nothing of a source that could not be lexed. Which entries of the journal are
shown is a matter of the options, and nothing else is.

What words mean as options, and what can be read under which name, is given from outside. The program
counts and draws without bound.
-/
namespace SumomoLexer.Program
set_option autoImplicit false

structure Outcome where
  exit : Nat
  stdout : String
  stderr : String
deriving DecidableEq, Repr

def success : Nat := 0

def failure : Nat := 1

def misuse : Nat := 2

/-- The line that is printed for a token: its text, and before that its line and column, counted
from 1, and its range if positions are asked for. -/
def tokenLine (positions : Bool) (t : Token) : Except Fault String :=
  if positions then
    (t.line.column t.range.start).map fun column =>
      s!"{t.line.number + 1}:{column + 1}\t{t.range.text}\t{t.text}\n"
  else .ok (t.text ++ "\n")

def shownJournal (o : Options) (journal : List Journal.Entry) : String :=
  if o.quiet then "" else String.join ((Journal.shown o.verbose journal).map (·.line))

def journal (bytes : List UInt8) (lexing : Lexing) : List Journal.Entry :=
  let done := match lexing.result with
    | .ok tokens => [Journal.Entry.lexed tokens.length]
    | .error _ => []
  [Journal.Entry.read bytes.length] ++ lexing.journal ++ done

def onSource (o : Options) (bytes : List UInt8) : Except Fault Outcome := do
  let lexing := Lexing.ofBytes Offset.unbounded bytes
  let notes := shownJournal o (journal bytes lexing)
  match lexing.result with
  | .ok tokens =>
    let lines ← tokens.mapM (tokenLine o.positions)
    .ok ⟨success, String.join lines, notes⟩
  | .error (.rejected r) =>
    let description ← r.diagnostic.drawIn Room.unbounded (Utf8.lossy bytes)
    .ok ⟨failure, "", notes ++ description ++ "\n"⟩
  | .error (.fault f) => .error f

def sourceName (o : Options) : String := if o.usesStdin then "source from stdin" else o.file

def onUnreadable (o : Options) (f : ReadFailure) : Outcome :=
  ⟨failure, "", "Error: Unable to read " ++ sourceName o ++ "\n\nCaused by:\n    " ++ f.text ++ "\n"⟩

def onRead (o : Options) : Except ReadFailure (List UInt8) → Except Fault Outcome
  | .ok bytes => onSource o bytes
  | .error f => .ok (onUnreadable o f)

/-- What a run is given. Words that are no options have their outcome already. -/
structure Invocation where
  words : List String
  parse : List String → Except Outcome Options
  stdin : Except ReadFailure (List UInt8)
  file : String → Except ReadFailure (List UInt8)

def Invocation.source (i : Invocation) (o : Options) : Except ReadFailure (List UInt8) :=
  if o.usesStdin then i.stdin else i.file o.file

def run (i : Invocation) : Except Fault Outcome :=
  match i.parse i.words with
  | .ok o => onRead o (i.source o)
  | .error outcome => .ok outcome

/-! ## The words of this command line -/

def onStop : Stop → Outcome
  | .help => ⟨success, Options.helpText, ""⟩
  | .usage error => ⟨misuse, "", "sumomo: " ++ error.message ++ "\n"⟩

def parse (words : List String) : Except Outcome Options := (Options.parse words).mapError onStop

end SumomoLexer.Program
