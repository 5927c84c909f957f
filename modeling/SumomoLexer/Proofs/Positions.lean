import SumomoLexer.Proofs.Drawing

/-! # Positions and places in lines

A position up to the end of a text has a place, the number of its line and its column, and every place
that a line of the text offers is the place of exactly one position. The lines in front, each with its
terminator, and the column add up to the position. Behind the end all positions have the mark of the
end, so that only their columns tell them apart.
-/
namespace SumomoLexer
open Vocabulary
set_option autoImplicit false

structure PlacedAt (text : String) (position number column : Nat) : Prop where
  number_eq : (LineMark.find text position).number = number
  column_eq : (LineMark.find text position).column position = .ok column

/-- The number of characters in front of the line with this number, terminators included. -/
def lineStart (text : String) (number : Nat) : Nat :=
  (((lines text).take number).map fun line => line.length + 1).sum

variable {text : String} {line : String} {position number column : Nat}

theorem length_lines (text : String) :
    (lines text).length = text.toList.countP isLineTerminator + 1 := by
  rw [lines, List.length_map, length_splitOnP]

theorem lineStart_eq (text : String) (number : Nat) :
    lineStart text number =
      (((text.toList.splitOnP isLineTerminator).take number).map fun line => line.length + 1).sum := by
  rw [lineStart, lines, ← List.map_take, List.map_map]
  apply congrArg List.sum
  apply List.map_congr_left
  intro line _
  exact congrArg (· + 1) String.length_ofList

theorem InLine.lineStart_eq {earlier current rest : List Char} (h : InLine earlier current)
    (split : text.toList = earlier ++ rest) :
    lineStart text (earlier.countP isLineTerminator) = earlier.length := by
  obtain ⟨whole, lines, count, sum⟩ := h.splitOnP_append rest
  rw [SumomoLexer.lineStart_eq, split, lines, ← count, List.take_left, sum]

/-- A position is as far behind the start of its line as its column says. -/
theorem PlacedAt.position_eq (le : position ≤ text.length) (h : PlacedAt text position number column) :
    position = column + lineStart text number := by
  obtain ⟨number_eq, column_eq⟩ := h
  rw [LineMark.find_eq_before] at number_eq column_eq
  rw [← String.length_toList] at le
  obtain ⟨earlier, current, split, inLine, place, mark, here⟩ := exists_line_start le
  cases here.symm.trans column_eq
  rw [mark] at number_eq
  rw [← number_eq, inLine.lineStart_eq split, Nat.add_comm]
  exact place.symm

/-! ## Positions of places -/

/-- A text has the beginning of every line that its terminators make. -/
theorem exists_earlier {characters : List Char} {number : Nat}
    (le : number ≤ characters.countP isLineTerminator) :
    ∃ earlier rest, characters = earlier ++ rest ∧ InLine earlier [] ∧
      earlier.countP isLineTerminator = number := by
  induction number with
  | zero => exact ⟨[], characters, rfl, ⟨nofun, nofun⟩, rfl⟩
  | succ number ih =>
    obtain ⟨earlier, rest, rfl, -, count⟩ := ih (Nat.le_of_succ_le le)
    rw [List.countP_append, count] at le
    have more : ∃ c ∈ rest, isLineTerminator c = true := List.countP_pos_iff.mp (by omega)
    obtain ⟨c, found⟩ := Option.isSome_iff_exists.mp (List.find?_isSome.mpr more)
    obtain ⟨ends, solid, behind, rfl, none⟩ := List.find?_eq_some_iff_append.mp found
    refine ⟨earlier ++ solid ++ [c], behind, ?_, inLine_ended ends _, ?_⟩
    · simp only [List.append_assoc, List.singleton_append]
    · have nothing : solid.countP isLineTerminator = 0 := by
        apply List.countP_eq_zero.mpr
        simpa using none
      rw [List.countP_append, List.countP_append, count, nothing, List.countP_singleton, if_pos ends]

theorem exists_solid_front {rest : List Char} {column : Nat}
    (le : column ≤ (rest.takeWhile fun c => !isLineTerminator c).length) :
    ∃ current behind, rest = current ++ behind ∧ current.length = column ∧
      ∀ c ∈ current, isLineTerminator c = false := by
  have front : rest.take column = (rest.takeWhile fun c => !isLineTerminator c).take column := by
    rw [← List.take_append_of_le_length le, List.takeWhile_append_dropWhile]
  refine ⟨rest.take column, rest.drop column, (List.take_append_drop _ _).symm, ?_, ?_⟩
  · rw [front, List.length_take_of_le le]
  · intro c taken
    rw [front] at taken
    have solid := List.all_eq_true.mp List.all_takeWhile c (List.mem_of_mem_take taken)
    simpa using solid

theorem exists_placedAt (member : (lines text)[number]? = some line) (le : column ≤ line.length) :
    ∃ position ≤ text.length, PlacedAt text position number column := by
  have few : number ≤ text.toList.countP isLineTerminator := by
    have inside := (List.getElem?_eq_some_iff.mp member).1
    rw [length_lines] at inside
    exact Nat.le_of_lt_succ inside
  obtain ⟨earlier, rest, split, start, count⟩ := exists_earlier few
  have here := start.getElem?_splitOnP rest
  rw [List.nil_append, List.nil_append, ← split, count] at here
  rw [lines, List.getElem?_map, here] at member
  cases member
  rw [String.length_ofList] at le
  obtain ⟨current, behind, rfl, length, solid⟩ := exists_solid_front le
  have inLine : InLine earlier current := ⟨start.ended, solid⟩
  rw [← List.append_assoc] at split
  have place : LineMark.before text.toList (earlier ++ current).length =
      LineMark.first.past 0 (earlier ++ current) := by
    rw [LineMark.before, split, List.take_left]
  refine ⟨(earlier ++ current).length, ?_, ?_, ?_⟩
  · have length := congrArg List.length split
    rw [List.length_append, String.length_toList] at length
    exact Nat.le.intro length.symm
  · rw [LineMark.find_eq_before, place, LineMark.past_inLine inLine]
    exact count
  · rw [LineMark.find_eq_before, place, LineMark.column_inLine inLine, length]

theorem find_of_behind (behind : text.length < position) :
    LineMark.find text position = LineMark.find text text.length := by
  rw [← String.length_toList] at behind ⊢
  rw [LineMark.find_eq_before, LineMark.find_eq_before, LineMark.before, LineMark.before,
    List.take_length, List.take_of_length_le (Nat.le_of_lt behind)]

/-- Positions up to the end of a text and places in its lines correspond one to one. -/
theorem placedAt_bijection (text : String) :
    (∀ line ∈ lines text, OneLine line) ∧
    (lines text).length = text.toList.countP isLineTerminator + 1 ∧
    (∀ position ≤ text.length, ∃ number column line, PlacedAt text position number column ∧
      (lines text)[number]? = some line ∧ column ≤ line.length ∧
      position = column + lineStart text number) ∧
    (∀ number column line, (lines text)[number]? = some line → column ≤ line.length →
      ∃! position, position ≤ text.length ∧ PlacedAt text position number column) ∧
    ∀ position, text.length < position →
      LineMark.find text position = LineMark.find text text.length := by
  refine ⟨fun line => oneLine_of_mem_lines, length_lines text, ?_, ?_, fun position => find_of_behind⟩
  · intro position le
    obtain ⟨column, line, here, member, points⟩ := find_pointsTo le
    have placed : PlacedAt text position _ column := ⟨rfl, here⟩
    exact ⟨_, column, line, placed, member, points.column_le, placed.position_eq le⟩
  · intro number column line member le
    obtain ⟨position, inside, placed⟩ := exists_placedAt member le
    refine ⟨position, ⟨inside, placed⟩, ?_⟩
    rintro other ⟨also, same⟩
    rw [placed.position_eq inside, same.position_eq also]

/-- The empty line between the two terminators has one place, and the position of the second one. -/
theorem placedAt_bijection_of_empty_line :
    (∃! position, position ≤ 5 ∧ PlacedAt "す\r\nもの" position 1 0) ∧
      (∃ column, PlacedAt "す\r\nもの" 2 1 column ∧ 2 = column + lineStart "す\r\nもの" 1) ∧
      LineMark.find "す\r\nもの" 8 = LineMark.find "す\r\nもの" 5 := by
  obtain ⟨-, -, place, position, behind⟩ := placedAt_bijection "す\r\nもの"
  obtain ⟨number, column, line, placed, -, -, sum⟩ := place 2 (by decide)
  cases placed.number_eq
  exact ⟨position 1 0 "" (by decide +kernel) (by decide), ⟨column, placed, sum⟩, behind 8 (by decide)⟩

end SumomoLexer
