import SumomoLexer.Token

/-! # The journal

A run keeps a journal of what it did. Each entry has a level; a journal is shown down to a level of
detail, and an entry is shown whenever all entries of its level are.
-/
namespace SumomoLexer.Journal
set_option autoImplicit false

inductive Level where
  | error
  | warn
  | info
  | debug
  | trace
deriving DecidableEq, Repr

def Level.name : Level → String
  | .error => "ERROR"
  | .warn => "WARN"
  | .info => "INFO"
  | .debug => "DEBUG"
  | .trace => "TRACE"

def Level.detail : Level → Nat
  | .error => 0
  | .warn => 1
  | .info => 2
  | .debug => 3
  | .trace => 4

inductive Entry where
  | read (bytes : Nat)
  | emitted (token : Token)
  | scanned (tokens characters lines : Nat)
  | lexed (tokens : Nat)
deriving DecidableEq, Repr

namespace Entry

def level : Entry → Level
  | .read _ => .debug
  | .emitted _ => .trace
  | .scanned .. => .debug
  | .lexed _ => .info

def text : Entry → String
  | .read bytes => s!"Read {bytes} bytes of source"
  | .emitted token => token.text ++ " at " ++ token.range.text
  | .scanned tokens characters lines =>
    s!"Lexed {tokens} tokens from {characters} characters over {lines} lines"
  | .lexed tokens => s!"Lexed {tokens} tokens"

def isShown (detail : Nat) (e : Entry) : Bool := e.level.detail ≤ detail

def line (e : Entry) : String := e.level.name ++ " - " ++ e.text ++ "\n"

end Entry

def shown (detail : Nat) (journal : List Entry) : List Entry := journal.filter (·.isShown detail)

theorem shown_sublist {detail more : Nat} (h : detail ≤ more) (journal : List Entry) :
    (shown detail journal).Sublist (shown more journal) := by
  have hs : shown detail journal = shown detail (shown more journal) := by
    unfold shown
    rw [List.filter_filter]
    refine List.filter_congr fun e _ => ?_
    rw [Bool.eq_iff_iff]
    simp only [Entry.isShown, Bool.and_eq_true, decide_eq_true_eq]
    omega
  rw [hs]
  exact List.filter_sublist

end SumomoLexer.Journal
