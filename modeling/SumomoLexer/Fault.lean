/-! # Faults

Some operations have no answer for some arguments: a sum of offsets past the largest offset, a step
back from the start, a range that runs backwards, a text that is longer than any text can be. A fault
names such an operation. It says nothing about the text being read; a text that is not sumomo is a
rejection, not a fault.
-/
namespace SumomoLexer
set_option autoImplicit false

inductive Fault where
  | sumOverflow
  | differenceOverflow
  | nothingToGiveBack
  | reversedSpan
  | outsideText
  | textTooLong
deriving DecidableEq, Repr

def Fault.message? : Fault → Option String
  | .sumOverflow => some "attempt to add with overflow"
  | .differenceOverflow => some "attempt to subtract with overflow"
  | .nothingToGiveBack => some "Unable to back up past the start of the input"
  | .reversedSpan => some "span must not end before it starts"
  | .outsideText => none
  | .textTooLong => none

namespace Fault

variable {α β : Type} {x : Except Fault α} {next : α → Except Fault β} {b : β} {f : Fault}

theorem bind_eq_ok_iff : (x >>= next) = .ok b ↔ ∃ a, x = .ok a ∧ next a = .ok b := by
  cases x <;> simp [bind, Except.bind]

theorem bind_eq_error_iff :
    (x >>= next) = .error f ↔ x = .error f ∨ ∃ a, x = .ok a ∧ next a = .error f := by
  cases x <;> simp [bind, Except.bind]

end Fault
end SumomoLexer
