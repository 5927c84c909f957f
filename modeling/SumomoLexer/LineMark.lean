import SumomoLexer.Offset
import SumomoLexer.Vocabulary

/-! # Lines and columns

A line mark says where a position lies in terms of lines: how many line terminators come before it,
and the offset of the last of them (0 if there is none). A line runs from just behind a terminator
up to the next one, so a carriage return followed by a line feed has an empty line between the two.

A mark can be kept up to date while reading (`past`) or found from a position alone (`find`). This
module does not say that the two agree.
-/
namespace SumomoLexer
open Vocabulary
set_option autoImplicit false

structure LineMark where
  number : Nat
  start : Nat
deriving DecidableEq, Repr

namespace LineMark

def first : LineMark := ⟨0, 0⟩

/-- The mark once the given characters, which begin at `offset`, have been passed. -/
def past (mark : LineMark) (offset : Nat) : List Char → LineMark
  | [] => mark
  | c :: cs => past (if isLineTerminator c then ⟨mark.number + 1, offset⟩ else mark) (offset + 1) cs

def terminators (text : List Char) : List Nat :=
  (text.zipIdx.filter fun entry => isLineTerminator entry.1).map (·.2)

/-- The mark at `position`; a position past the end has the mark of the end. -/
def find (text : String) (position : Nat) : LineMark :=
  let before := (terminators text.toList).filter (· < position)
  ⟨before.length, before.getLast?.getD 0⟩

/-- The number of characters between the start of the line and `position`. The terminator in front
of a line is not part of it. -/
def column (mark : LineMark) (position : Nat) : Except Fault Nat :=
  if mark.number = 0 then .ok position
  else (Offset.sub position mark.start).map (· - 1)

@[simp] theorem past_nil (mark : LineMark) (offset : Nat) : mark.past offset [] = mark := rfl

theorem past_append (mark : LineMark) (offset : Nat) (cs ds : List Char) :
    mark.past offset (cs ++ ds) = (mark.past offset cs).past (offset + cs.length) ds := by
  induction cs generalizing mark offset with
  | nil => rfl
  | cons c cs ih =>
    simp only [List.cons_append, past, ih, List.length_cons]
    rw [Nat.add_assoc, Nat.add_comm 1]

theorem column_eq_error_iff {mark : LineMark} {position : Nat} {f : Fault} :
    mark.column position = .error f ↔
      mark.number ≠ 0 ∧ position < mark.start ∧ f = .differenceOverflow := by
  by_cases h : mark.number = 0
  · simp [column, h]
  · by_cases hs : mark.start ≤ position
    · simp [column, h, Offset.sub, hs, Except.map, Nat.not_lt.mpr hs]
    · simp [column, h, Offset.sub, hs, Except.map, Nat.not_le.mp hs, eq_comm]

end LineMark

def lines (text : String) : List String :=
  (text.toList.splitOnP isLineTerminator).map String.ofList

theorem lines_ne_nil (text : String) : lines text ≠ [] := by
  simp [lines, List.splitOnP_ne_nil]

end SumomoLexer
