import SumomoLexer.Rejection
import SumomoLexer.Proofs.Lines

/-! # What a text in front does to places

A token or a rejection that comes from one text is found in a longer one when another text is put in
front: its positions move by the length of that text. Its line mark is counted on from there; on the
first line it takes the last terminator of the text in front, on a later line its own. Texts in front
add up, which is the law that everything nested rests on.
-/
namespace SumomoLexer
open Vocabulary
set_option autoImplicit false

def LineMark.after (mark : LineMark) (before : List Char) : LineMark where
  number := mark.number + (terminators before).length
  start := if 0 < mark.number then before.length + mark.start
    else (terminators before).getLast?.getD 0

def Span.after (s : Span) (length : Nat) : Span :=
  ⟨length + s.start, length + s.stop, Nat.add_le_add_left s.start_le_stop length⟩

def Token.after (t : Token) (before : List Char) : Token :=
  ⟨t.kind, t.value, t.line.after before, t.range.after before.length⟩

def Rejection.after (e : Rejection) (before : List Char) : Rejection :=
  ⟨e.cause, before.length + e.position, e.line.after before⟩

namespace LineMark

theorem first_after (before : List Char) : first.after before = first.past 0 before := by
  rw [past_eq]
  rfl

theorem past_after (mark : LineMark) (offset : Nat) (text before : List Char) :
    (mark.past offset text).after before =
      (mark.after before).past (before.length + offset) text := by
  induction text generalizing mark offset with
  | nil => rfl
  | cons c text ih =>
    rw [past, past, ih]
    split
    · congr 1
      simp only [after, Nat.succ_pos, if_true, Nat.add_right_comm]
    · rfl

theorem past_first_after (text before : List Char) :
    (first.past 0 text).after before = first.past 0 (before ++ text) := by
  rw [past_after, first_after, past_append, Nat.add_comm]

theorem terminators_length_append (before text : List Char) :
    (terminators (before ++ text)).length =
      (terminators text).length + (terminators before).length := by
  have numbers := congrArg LineMark.number (past_first_after text before)
  rw [← first_after, ← first_after] at numbers
  simpa only [after, first, Nat.zero_add] using numbers.symm

theorem after_append (mark : LineMark) (before text : List Char) :
    (mark.after text).after before = mark.after (before ++ text) := by
  by_cases later : 0 < mark.number
  · have still : 0 < mark.number + (terminators text).length := Nat.add_pos_left later _
    simp only [after, later, still, if_true, terminators_length_append, List.length_append,
      Nat.add_assoc]
  · -- Then the start of the mark does not count, as if it were that of the first line.
    have same (other : List Char) : mark.after other = first.after other := by
      simp only [after, first, Nat.eq_zero_of_not_pos later, Nat.lt_irrefl, if_false]
    rw [same, same, first_after, past_first_after, first_after]

end LineMark

theorem Token.after_append (t : Token) (before text : List Char) :
    (t.after text).after before = t.after (before ++ text) := by
  simp only [Token.after, Span.after, LineMark.after_append, List.length_append, Nat.add_assoc]

end SumomoLexer
