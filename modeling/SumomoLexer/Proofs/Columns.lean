import Mathlib.Algebra.GroupWithZero.Nat
import Mathlib.Data.List.Induction
import SumomoLexer.Proofs.Lines

/-! # Where a position lies in its line

The characters in front of a position are whole lines with their terminators, and then the beginning of
the line that the position is in. How many lines there are gives the number of that line, and how long
its beginning is gives the column, so that the mark of a position finds the line and the place in it.
-/
namespace SumomoLexer
open Vocabulary
set_option autoImplicit false

/-- A text of whole lines, and what comes behind it of the line that follows. -/
structure InLine (earlier current : List Char) : Prop where
  ended : ∀ c ∈ earlier.getLast?, isLineTerminator c = true
  solid : ∀ c ∈ current, isLineTerminator c = false

variable {earlier current text : List Char}

theorem inLine_ended {c : Char} (ends : isLineTerminator c = true) (before : List Char) :
    InLine (before ++ [c]) [] := by
  constructor
  · intro d last
    rw [List.getLast?_concat] at last
    cases last
    exact ends
  · exact nofun

theorem exists_inLine (text : List Char) :
    ∃ earlier current, text = earlier ++ current ∧ InLine earlier current := by
  induction text using List.reverseRecOn with
  | nil => exact ⟨[], [], rfl, nofun, nofun⟩
  | append_singleton text c ih =>
    obtain ⟨earlier, current, rfl, inLine⟩ := ih
    cases ends : isLineTerminator c with
    | true => exact ⟨earlier ++ current ++ [c], [], (List.append_nil _).symm, inLine_ended ends _⟩
    | false =>
      refine ⟨earlier, current ++ [c], List.append_assoc _ _ _, inLine.ended, ?_⟩
      intro d member
      rcases List.mem_append.mp member with before | last
      · exact inLine.solid d before
      · rw [List.mem_singleton.mp last]
        exact ends

theorem InLine.earlier_cases (h : InLine earlier current) :
    earlier = [] ∨ ∃ whole last, earlier = whole ++ [last] ∧ isLineTerminator last = true := by
  rcases earlier.eq_nil_or_concat with none | ⟨whole, last, split⟩
  · exact .inl none
  · rw [List.concat_eq_append] at split
    subst split
    exact .inr ⟨whole, last, rfl, h.ended last (by simp)⟩

/-! ## Lines of a text -/

theorem length_splitOnP (text : List Char) :
    (text.splitOnP isLineTerminator).length = text.countP isLineTerminator + 1 := by
  induction text with
  | nil => rfl
  | cons c text ih =>
    rw [List.splitOnP_cons_eq_if_modifyHead, List.countP_cons]
    split
    · rw [List.length_cons, ih]
    · rw [List.length_modifyHead, ih, Nat.add_zero]

/-- Every line counts one more than its characters. For the last one there is no terminator. -/
theorem sum_splitOnP (text : List Char) :
    ((text.splitOnP isLineTerminator).map fun line => line.length + 1).sum = text.length + 1 := by
  induction text with
  | nil => rfl
  | cons c text ih =>
    rw [List.splitOnP_cons_eq_if_modifyHead, List.length_cons]
    split
    · rw [List.map_cons, List.sum_cons, ih, List.length_nil]
      omega
    · cases split : text.splitOnP isLineTerminator with
      | nil => exact absurd split (List.splitOnP_ne_nil _ _)
      | cons first others =>
        rw [split, List.map_cons, List.sum_cons] at ih
        rw [List.modifyHead_cons, List.map_cons, List.sum_cons, List.length_cons]
        omega

theorem head?_splitOnP (text : List Char) :
    (text.splitOnP isLineTerminator).head? =
      some (text.takeWhile fun c => !isLineTerminator c) := by
  induction text with
  | nil => rfl
  | cons c text ih =>
    rw [List.splitOnP_cons_eq_if_modifyHead, List.takeWhile_cons]
    cases isLineTerminator c with
    | true => rfl
    | false =>
      simp only [Bool.false_eq_true, if_false, List.head?_modifyHead, ih]
      rfl

theorem solid_of_mem_splitOnP {text line : List Char}
    (h : line ∈ text.splitOnP isLineTerminator) : ∀ c ∈ line, isLineTerminator c = false := by
  induction text generalizing line with
  | nil =>
    rw [List.splitOnP_nil, List.mem_singleton] at h
    rw [h]
    exact nofun
  | cons d text ih =>
    rw [List.splitOnP_cons_eq_if_modifyHead] at h
    split at h
    · rcases List.mem_cons.mp h with rfl | later
      · exact nofun
      · exact ih later
    · rename_i solid
      rw [Bool.not_eq_true] at solid
      cases split : text.splitOnP isLineTerminator with
      | nil => exact absurd split (List.splitOnP_ne_nil _ _)
      | cons first others =>
        rw [split, List.modifyHead_cons] at h
        rcases List.mem_cons.mp h with rfl | later
        · intro c member
          rcases List.mem_cons.mp member with rfl | inside
          · exact solid
          · exact ih (split ▸ List.mem_cons_self) c inside
        · exact ih (split ▸ List.mem_cons_of_mem _ later)

/-- The lines behind whole lines are those of the rest of the text. -/
theorem InLine.splitOnP_append (h : InLine earlier current) (rest : List Char) :
    ∃ whole, (earlier ++ rest).splitOnP isLineTerminator =
      whole ++ rest.splitOnP isLineTerminator ∧ whole.length = earlier.countP isLineTerminator ∧
        (whole.map fun line => line.length + 1).sum = earlier.length := by
  rcases h.earlier_cases with rfl | ⟨whole, last, rfl, ends⟩
  · exact ⟨[], rfl, rfl, rfl⟩
  · refine ⟨whole.splitOnP isLineTerminator, ?_, ?_, ?_⟩
    · rw [List.append_assoc, List.singleton_append, List.splitOnP_append_cons _ _ ends]
    · rw [length_splitOnP, List.countP_append, List.countP_singleton, if_pos ends]
    · rw [sum_splitOnP, List.length_append, List.length_singleton]

theorem InLine.getElem?_splitOnP (h : InLine earlier current) (more : List Char) :
    ((earlier ++ (current ++ more)).splitOnP isLineTerminator)[earlier.countP isLineTerminator]? =
      some (current ++ more.takeWhile fun c => !isLineTerminator c) := by
  obtain ⟨whole, split, count, -⟩ := h.splitOnP_append (current ++ more)
  have solid : ∀ c ∈ current, (!isLineTerminator c) = true := by
    intro c member
    rw [h.solid c member]
    rfl
  rw [split, ← count, getElem?_length_append, head?_splitOnP, List.takeWhile_append_of_pos solid]

/-! ## Marks and columns -/

namespace LineMark

theorem length_terminatorsFrom (offset : Nat) (text : List Char) :
    (terminatorsFrom offset text).length = text.countP isLineTerminator := by
  induction text generalizing offset with
  | nil => rfl
  | cons c text ih =>
    rw [terminatorsFrom_cons, List.countP_cons]
    split
    · rw [List.length_cons, ih]
    · rw [ih, Nat.add_zero]

theorem past_number (mark : LineMark) (offset : Nat) (text : List Char) :
    (mark.past offset text).number = mark.number + text.countP isLineTerminator := by
  rw [past_eq, length_terminatorsFrom]

theorem find_number (text : String) (position : Nat) :
    (find text position).number = (text.toList.take position).countP isLineTerminator := by
  rw [find_eq_before, before, past_number]
  exact Nat.zero_add _

theorem past_inLine (h : InLine earlier current) :
    first.past 0 (earlier ++ current) = ⟨earlier.countP isLineTerminator, earlier.length - 1⟩ := by
  rw [past_append, past_of_solid h.solid]
  rcases h.earlier_cases with rfl | ⟨whole, last, rfl, ends⟩
  · rfl
  · have number := past_number first 0 whole
    rw [past_append, past, past, if_pos ends, number, List.countP_append, List.countP_singleton,
      if_pos ends, List.length_append, List.length_singleton]
    simp only [first, Nat.zero_add, Nat.add_sub_cancel]

theorem column_inLine (h : InLine earlier current) :
    (first.past 0 (earlier ++ current)).column (earlier ++ current).length =
      .ok current.length := by
  rw [past_inLine h, column]
  rcases h.earlier_cases with rfl | ⟨whole, last, rfl, ends⟩
  · rfl
  · have inside : (whole ++ [last]).length - 1 ≤ (whole ++ [last] ++ current).length := by
      simp only [List.length_append, List.length_singleton]
      omega
    have later : (whole ++ [last]).countP isLineTerminator ≠ 0 := by
      rw [List.countP_append, List.countP_singleton, if_pos ends]
      exact Nat.succ_ne_zero _
    rw [if_neg later, Offset.sub, if_pos inside]
    refine congrArg Except.ok ?_
    simp only [List.length_append, List.length_singleton]
    omega

end LineMark

/-- A position is behind whole lines and the beginning of its own. They give its mark and its column. -/
theorem exists_line_start {position : Nat} (le : position ≤ text.length) :
    ∃ earlier current, text = earlier ++ (current ++ text.drop position) ∧
      InLine earlier current ∧ earlier.length + current.length = position ∧
        LineMark.before text position =
          ⟨earlier.countP isLineTerminator, earlier.length - 1⟩ ∧
        (LineMark.before text position).column position = .ok current.length := by
  obtain ⟨earlier, current, split, inLine⟩ := exists_inLine (text.take position)
  have place : (earlier ++ current).length = position := by
    rw [← split, List.length_take, Nat.min_eq_left le]
  refine ⟨earlier, current, ?_, inLine, ?_, ?_, ?_⟩
  · rw [← List.append_assoc, ← split, List.take_append_drop]
  · rw [← place, List.length_append]
  · rw [LineMark.before, split, LineMark.past_inLine inLine]
  · have column := LineMark.column_inLine inLine
    rw [place] at column
    rw [LineMark.before, split]
    exact column

/-- The start of a line mark need not be known where the column is. -/
theorem LineMark.find_start {text : String} {position column : Nat} (le : position ≤ text.length)
    (here : (find text position).column position = .ok column) :
    (find text position).start = position - column - 1 := by
  rw [find_eq_before] at here ⊢
  rw [← String.length_toList] at le
  obtain ⟨earlier, current, -, -, rfl, mark, same⟩ := exists_line_start le
  cases same.symm.trans here
  rw [mark, Nat.add_sub_cancel]

/-- The column of a position, and the line it is in: the characters in front of the column, then those
up to the next terminator. -/
theorem exists_column {position : Nat} (le : position ≤ text.length) : ∃ current : List Char,
    (LineMark.before text position).column position = .ok current.length ∧
      (text.splitOnP isLineTerminator)[(LineMark.before text position).number]? =
        some (current ++ (text.drop position).takeWhile fun c => !isLineTerminator c) := by
  obtain ⟨earlier, current, whole, inLine, -, mark, column⟩ := exists_line_start le
  refine ⟨current, column, ?_⟩
  have line := inLine.getElem?_splitOnP (text.drop position)
  rw [← whole] at line
  rw [mark]
  exact line

/-- The line with a given place in it: what stands there in the text also stands at the column, and a
place at a terminator or at the end is behind the last character of the line. -/
structure PointsTo (text line : String) (position column : Nat) : Prop where
  column_le : column ≤ line.length
  character : ∀ c, text.toList[position]? = some c → isLineTerminator c = false →
    line.toList[column]? = some c
  behind : (∀ c, text.toList[position]? = some c → isLineTerminator c = true) →
    column = line.length

theorem find_pointsTo {text : String} {position : Nat} (le : position ≤ text.length) :
    ∃ column line, (LineMark.find text position).column position = .ok column ∧
      (lines text)[(LineMark.find text position).number]? = some line ∧
        PointsTo text line position column := by
  rw [LineMark.find_eq_before, lines, List.getElem?_map]
  rw [← String.length_toList] at le
  obtain ⟨current, column, line⟩ := exists_column le
  have inside : current.length ≤
      (current ++ (text.toList.drop position).takeWhile fun c => !isLineTerminator c).length := by
    rw [List.length_append]
    exact Nat.le_add_right _ _
  have next : (current ++ (text.toList.drop position).takeWhile fun c =>
      !isLineTerminator c)[current.length]? =
        text.toList[position]?.filter fun c => !isLineTerminator c := by
    rw [getElem?_length_append, List.head?_takeWhile, List.head?_drop]
  refine ⟨_, _, column, by rw [line]; rfl, ?_⟩
  constructor
  · rw [String.length_ofList]
    exact inside
  · intro c here solid
    rw [String.toList_ofList, next, here, Option.filter_some, solid]
    rfl
  · intro ends
    rw [String.length_ofList]
    apply Nat.le_antisymm inside
    rw [← List.getElem?_eq_none_iff, next, Option.filter_eq_none_iff]
    intro c here solid
    rw [ends c here] at solid
    cases solid

end SumomoLexer
