import SumomoLexer.LineMark

/-! # The two ways to a line mark

Keeping a mark up to date over the characters before a position gives the mark that is found from the
position alone. Both are read off the offsets of the terminators: their number, and the last of them.
-/
namespace SumomoLexer
open Vocabulary
set_option autoImplicit false

theorem getElem?_length_append {α : Type} (front back : List α) :
    (front ++ back)[front.length]? = back.head? := by
  rw [List.getElem?_append_right (Nat.le_refl _), Nat.sub_self, List.head?_eq_getElem?]

namespace LineMark

/-- The offsets of the terminators in a text that begins at `offset`. -/
def terminatorsFrom (offset : Nat) (text : List Char) : List Nat :=
  ((text.zipIdx offset).filter fun entry => isLineTerminator entry.1).map (·.2)

theorem terminatorsFrom_cons (offset : Nat) (c : Char) (text : List Char) :
    terminatorsFrom offset (c :: text) =
      if isLineTerminator c then offset :: terminatorsFrom (offset + 1) text
      else terminatorsFrom (offset + 1) text := by
  simp only [terminatorsFrom, List.zipIdx_cons, List.filter_cons]
  split <;> rfl

theorem past_eq (mark : LineMark) (offset : Nat) (text : List Char) :
    mark.past offset text = ⟨mark.number + (terminatorsFrom offset text).length,
      (terminatorsFrom offset text).getLast?.getD mark.start⟩ := by
  induction text generalizing mark offset with
  | nil => rfl
  | cons c text ih =>
    rw [past, ih, terminatorsFrom_cons]
    split
    · rw [List.length_cons, List.getLast?_cons, Option.getD_some, Nat.add_right_comm,
        Nat.add_assoc]
    · rfl

theorem filter_terminatorsFrom (offset position : Nat) (text : List Char) :
    (terminatorsFrom offset text).filter (· < position) =
      terminatorsFrom offset (text.take (position - offset)) := by
  induction text generalizing offset with
  | nil =>
    rw [List.take_nil]
    rfl
  | cons c text ih =>
    rw [terminatorsFrom_cons]
    by_cases before : offset < position
    · have count : position - offset = (position - (offset + 1)) + 1 := by omega
      rw [count, List.take_succ_cons, terminatorsFrom_cons, ← ih]
      split
      · rw [List.filter_cons_of_pos (by simpa using before)]
      · rfl
    · have none : position - offset = 0 := by omega
      have later : position - (offset + 1) = 0 := by omega
      have rest := ih (offset + 1)
      rw [later, List.take_zero] at rest
      rw [none, List.take_zero]
      split
      · rw [List.filter_cons_of_neg (by simpa using before), rest]
        rfl
      · rw [rest]
        rfl

/-- The mark once the characters before a position have been passed. -/
def before (text : List Char) (position : Nat) : LineMark := first.past 0 (text.take position)

theorem find_eq_before (text : String) (position : Nat) :
    find text position = before text.toList position := by
  have offsets : (terminators text.toList).filter (· < position) =
      terminatorsFrom 0 (text.toList.take position) := filter_terminatorsFrom 0 position text.toList
  rw [before, past_eq, find]
  simp only [offsets, first, Nat.zero_add]

theorem before_append {text : List Char} {position : Nat} (le : position ≤ text.length)
    (more : List Char) : before (text ++ more) position = before text position := by
  rw [before, List.take_append_of_le_length le]
  rfl

theorem before_snoc (text : List Char) (c : Char) :
    before (text ++ [c]) (text.length + 1) =
      (before text text.length).past text.length [c] := by
  have whole : (text ++ [c]).length = text.length + 1 := List.length_append
  rw [before, before, ← whole, List.take_length, List.take_length, past_append, Nat.zero_add]

theorem past_of_solid {text : List Char} (solid : ∀ c ∈ text, isLineTerminator c = false)
    (mark : LineMark) (offset : Nat) : mark.past offset text = mark := by
  induction text generalizing offset with
  | nil => rfl
  | cons c text ih =>
    simp only [past, solid c List.mem_cons_self, Bool.false_eq_true, if_false]
    exact ih (fun d hd => solid d (List.mem_cons_of_mem c hd)) (offset + 1)

theorem past_of_not_terminator {c : Char} (other : isLineTerminator c = false) (mark : LineMark)
    (offset : Nat) : mark.past offset [c] = mark := by
  simp only [past, other, Bool.false_eq_true, if_false]

end LineMark
end SumomoLexer
