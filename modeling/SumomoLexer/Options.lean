import SumomoLexer.Offset

/-! # Command line options

The command line names one file and may ask for a verbosity, for quiet, for positions or for help.
Options stand before or behind the file, short ones combine, and nothing is an option behind `--`.

A file or a verbosity given as a word of its own is only looked at once the next option or file, or
the end of the line, shows that it is complete. It stays pending until then, so that a word that is
no option at all, a second file or a value for an option that takes none is reported before it.
-/
namespace SumomoLexer
set_option autoImplicit false

structure Options where
  file : String
  verbose : Nat
  quiet : Bool
  positions : Bool
deriving DecidableEq, Repr

inductive UsageError where
  | missingFile
  | emptyFile
  | secondFile
  | unknownOption
  | repeatedOption
  | unwantedValue
  | missingVerbosity
  | badVerbosity
deriving DecidableEq, Repr

def UsageError.message : UsageError → String
  | .missingFile => "no source file is given"
  | .emptyFile => "the name of the source file is empty"
  | .secondFile => "more than one source file is given"
  | .unknownOption => "there is no such option"
  | .repeatedOption => "an option is given more than once"
  | .unwantedValue => "an option that takes no value has one"
  | .missingVerbosity => "the verbosity is missing"
  | .badVerbosity => "the verbosity is not a number below 2^64"

inductive Stop where
  | help
  | usage (error : UsageError)
deriving DecidableEq, Repr

namespace Options

def stdinName : String := "-"

def usesStdin (o : Options) : Bool := o.file == stdinName

def defaultVerbosity : Nat := 1

def helpText : String :=
  "A lexer for sumomo\n\n" ++
  "Usage: sumomo [OPTIONS] <FILE>\n\n" ++
  "Arguments:\n" ++
  "  <FILE>  Source file to lex, or `-` to read from stdin\n\n" ++
  "Options:\n" ++
  "  -v, --verbose <VERBOSE>  [default: 1]\n" ++
  "  -q, --quiet              \n" ++
  "  -p, --positions          Print the line, column and range of every token\n" ++
  "  -h, --help               Print help\n"

/-- Reads a number that fits into a word, with or without a plus sign. -/
def readNumber (text : String) : Option Nat :=
  let digits := match text.toList with
    | '+' :: rest => rest
    | all => all
  let value := digits.foldl (fun n c => n * 10 + (c.toNat - '0'.toNat)) 0
  if !digits.isEmpty && digits.all Char.isDigit && value < Offset.wordBound then some value else none

inductive Switch where
  | verbose
  | quiet
  | positions
  | help
deriving DecidableEq, Repr

namespace Switch

def name : Switch → String
  | verbose => "verbose"
  | quiet => "quiet"
  | positions => "positions"
  | help => "help"

def letter : Switch → Char
  | verbose => 'v'
  | quiet => 'q'
  | positions => 'p'
  | help => 'h'

def all : List Switch := [verbose, quiet, positions, help]

def ofName? (text : String) : Option Switch := all.find? fun s => s.name == text

def ofLetter? (c : Char) : Option Switch := all.find? fun s => s.letter == c

theorem ofName?_name (s : Switch) : ofName? s.name = some s := by
  cases s <;> rfl

theorem ofLetter?_letter (s : Switch) : ofLetter? s.letter = some s := by
  cases s <;> rfl

end Switch

/-- What has been met but not looked at yet. -/
inductive Pending where
  | nothing
  /-- The verbosity option, with its value once that has been met. -/
  | verbosity (value : Option String)
  | file (name : String)
deriving DecidableEq, Repr

structure Draft where
  file : Option String
  verbose : Option Nat
  quiet : Bool
  positions : Bool
  pending : Pending
deriving DecidableEq, Repr

namespace Draft

def empty : Draft := ⟨none, none, false, false, .nothing⟩

def setVerbosity (d : Draft) (value : String) : Except Stop Draft :=
  if d.verbose.isSome then .error (.usage .repeatedOption)
  else match readNumber value with
    | some n => .ok { d with verbose := some n }
    | none => .error (.usage .badVerbosity)

def settle (d : Draft) : Except Stop Draft :=
  let rest := { d with pending := .nothing }
  match d.pending with
  | .nothing => .ok rest
  | .verbosity none => .error (.usage .missingVerbosity)
  | .verbosity (some value) => rest.setVerbosity value
  | .file name => if name = "" then .error (.usage .emptyFile) else .ok { rest with file := name }

def hasFile (d : Draft) : Bool :=
  match d.pending with
  | .file _ => true
  | _ => d.file.isSome

def takeFile (d : Draft) (name : String) : Except Stop Draft :=
  if d.hasFile then .error (.usage .secondFile)
  else d.settle.map ({ · with pending := .file name })

/-- Takes a word that is no option: a verbosity if one is awaited, else a file. -/
def takeWord (d : Draft) (word : String) : Except Stop Draft :=
  match d.pending with
  | .verbosity none => .ok { d with pending := .verbosity word }
  | _ => d.takeFile word

/-- Turns on a switch that has no value of its own; the verbosity then awaits one. -/
def turnOn (d : Draft) (s : Switch) : Except Stop Draft := do
  let d ← d.settle
  match s with
  | .verbose => .ok { d with pending := .verbosity none }
  | .quiet => if d.quiet then .error (.usage .repeatedOption) else .ok { d with quiet := true }
  | .positions =>
    if d.positions then .error (.usage .repeatedOption) else .ok { d with positions := true }
  | .help => .error .help

def turnOnWith (d : Draft) (s : Switch) (value : String) : Except Stop Draft :=
  match s with
  | .verbose => do (← d.settle).setVerbosity value
  | _ => .error (.usage .unwantedValue)

def takeLong (d : Draft) (word : List Char) : Except Stop Draft :=
  match Switch.ofName? (String.ofList (word.takeWhile (· ≠ '='))) with
  | none => .error (.usage .unknownOption)
  | some s =>
    match word.dropWhile (· ≠ '=') with
    | [] => d.turnOn s
    | _ :: value => d.turnOnWith s (String.ofList value)

/-- Takes a group of short options, without its dash. The rest of the group is the value of the
verbosity, if there is a rest. -/
def takeShort (d : Draft) : List Char → Except Stop Draft
  | [] => .ok d
  | c :: rest =>
    match Switch.ofLetter? c with
    | none => .error (.usage .unknownOption)
    | some .verbose =>
      match rest with
      | [] => d.turnOn .verbose
      | '=' :: value => d.turnOnWith .verbose (String.ofList value)
      | value => d.turnOnWith .verbose (String.ofList value)
    | some s => do (← d.turnOn s).takeShort rest

def takeFiles (d : Draft) : List String → Except Stop Draft
  | [] => d.settle
  | word :: words => do (← d.takeFile word).takeFiles words

def takeAll (d : Draft) : List String → Except Stop Draft
  | [] => d.settle
  | word :: words =>
    match word.toList with
    | ['-', '-'] => d.takeFiles words
    | '-' :: '-' :: long => do (← d.takeLong long).takeAll words
    | '-' :: c :: short => do (← d.takeShort (c :: short)).takeAll words
    | _ => do (← d.takeWord word).takeAll words

def options? (d : Draft) : Except Stop Options :=
  match d.file with
  | some file => .ok ⟨file, d.verbose.getD defaultVerbosity, d.quiet, d.positions⟩
  | none => .error (.usage .missingFile)

end Draft

def parse (words : List String) : Except Stop Options := do
  (← Draft.empty.takeAll words).options?

end Options
end SumomoLexer
