import SumomoLexer.Program

/-! # The command line program

This module only moves bytes: it reads the source that the options name, hands it to the program and
prints what the program leaves behind.
-/
namespace SumomoLexer.Main
set_option autoImplicit false

partial def readToEnd (input : IO.FS.Stream) (before : ByteArray) : IO ByteArray := do
  let chunk ← input.read 65536
  if chunk.isEmpty then return before
  readToEnd input (before ++ chunk)

/-- The failure that a system error stands for. Its number may come negated, as a 32-bit word. -/
def readFailure : IO.Error → ReadFailure
  | .alreadyExists _ number reason
  | .otherError number reason
  | .resourceBusy number reason
  | .resourceVanished number reason
  | .unsupportedOperation number reason
  | .hardwareFault number reason
  | .unsatisfiedConstraints number reason
  | .illegalOperation number reason
  | .protocolError number reason
  | .timeExpired number reason
  | .interrupted _ number reason
  | .noFileOrDirectory _ number reason
  | .invalidArgument _ number reason
  | .permissionDenied _ number reason
  | .resourceExhausted _ number reason
  | .inappropriateType _ number reason
  | .noSuchThing _ number reason => .ofNumber number.toInt32.toInt.natAbs reason
  | .unexpectedEof => .ofNumber 0 "unexpected end of file"
  | .userError reason => .ofNumber 0 reason

def readSource (o : Options) : IO (Except ReadFailure (List UInt8)) := do
  try
    let bytes ← if o.usesStdin then readToEnd (← IO.getStdin) ByteArray.empty
      else IO.FS.readBinFile o.file
    return .ok bytes.toList
  catch error => return .error (readFailure error)

def outcome (words : List String) : IO (Except Fault Program.Outcome) := do
  match Program.parse words with
  | .ok o => return Program.onRead o (← readSource o)
  | .error outcome => return .ok outcome

end SumomoLexer.Main

open SumomoLexer in
def main (words : List String) : IO UInt32 := do
  match ← Main.outcome words with
  | .ok result =>
    IO.print result.stdout
    IO.eprint result.stderr
    return result.exit.toUInt32
  | .error fault =>
    IO.eprintln (fault.message?.getD "no answer")
    return Program.failure.toUInt32
