import SumomoLexer.Proofs.Completion
import SumomoLexer.Proofs.Columns
import SumomoLexer.Proofs.LineTracking
import SumomoLexer.Proofs.Tiling

/-! # What the journal of a text says

The journal of a text that lexes names its tokens one by one and then counts the tokens, the characters
and the lines; the lines counted are those that the text is split into. The journal of a text that is
rejected only names tokens, and these are in front of the position that it is rejected at.
-/
namespace SumomoLexer
open Vocabulary
set_option autoImplicit false

/-- An entry as it is kept, by its level and its words. -/
def Journal.Entry.record (e : Entry) : Level × String := (e.level, e.text)

/-- The records that name these tokens. -/
def tokenRecords (tokens : List Token) : List (Journal.Level × String) :=
  tokens.map fun t => (.trace, t.text ++ " at " ++ t.range.text)

def summaryRecord (tokens characters lines : Nat) : Journal.Level × String :=
  (.debug, s!"Lexed {tokens} tokens from {characters} characters over {lines} lines")

def records (text : String) : List (Journal.Level × String) :=
  (Lexing.ofText Offset.unbounded text).journal.map Journal.Entry.record

theorem map_record_emitted (tokens : List Token) :
    (tokens.map Journal.Entry.emitted).map Journal.Entry.record = tokenRecords tokens := by
  rw [List.map_map]
  rfl

variable {text : String}

/-- The line mark at the end counts the lines, since all terminators have been passed by then. -/
theorem lines_of_live (live : (Reading.read text.toList).finish.Live) :
    (Reading.read text.toList).finish.line.number + 1 = (lines text).length := by
  rw [Reading.finish_line live, LineMark.before, List.take_length, LineMark.past_number, lines,
    List.length_map, length_splitOnP]
  exact congrArg (· + 1) (Nat.zero_add _)

theorem records_of_accepted {tokens : List Token} (h : lex text = .ok tokens) :
    records text = tokenRecords tokens ++
      [summaryRecord tokens.length text.length (lines text).length] := by
  obtain ⟨live, rfl⟩ := lex_eq_ok_iff.mp h
  rw [records, Lexing.ofText_unbounded, Reading.lexing_of_live live, List.map_append,
    map_record_emitted, lines_of_live live, Reading.finish_position, Reading.read_position,
    String.length_toList]
  rfl

theorem records_of_rejected {e : Rejection} (h : lex text = .error (.rejected e)) :
    records text = tokenRecords (emitted text) ∧
      ∀ t ∈ emitted text, t.range.stop ≤ e.position ∧ t.kind ≠ .endMark := by
  obtain ⟨_, ⟨⟩, stopped⟩ := lex_eq_error_iff.mp h
  constructor
  · rw [records, Lexing.ofText_unbounded, Reading.lexing_of_stopped stopped, map_record_emitted,
      emitted_eq]
  · obtain ⟨done, body, split, tiling⟩ := Reading.finish_stopped_tiling stopped
    rw [emitted_eq]
    intro t member
    have within := congrArg List.length split
    rw [List.length_take, List.length_append] at within
    have inside := tiling.stop_le t member
    exact ⟨by omega, tiling.marks t member⟩

/-- What the journal of a text says is true, of all tokens and lines if the text lexes, and of the tokens
in front of a rejection if not. -/
theorem records_true (text : String) :
    (∀ tokens, lex text = .ok tokens → records text = tokenRecords tokens ++
      [summaryRecord tokens.length text.length (lines text).length]) ∧
    ∀ failure, lex text = .error failure → ∃ e, failure = .rejected e ∧
      records text = tokenRecords (emitted text) ∧
      ∀ t ∈ emitted text, t.range.stop ≤ e.position ∧ t.kind ≠ .endMark := by
  constructor
  · intro tokens accepted
    exact records_of_accepted accepted
  · intro failure rejected
    obtain ⟨e, rfl, -⟩ := lex_error_line rejected
    obtain ⟨named, before⟩ := records_of_rejected rejected
    exact ⟨e, rfl, named, before⟩

/-- Behind a literal there is a second line, and behind a bracket an operator gives a numeral back. -/
theorem records_true_of_give_back :
    records "も \n" = [(.trace, "numberliteral も at 0..1"),
      (.debug, "Lexed 1 tokens from 3 characters over 2 lines")] ∧
    ∃ e, lex "すももう" = .error (.rejected e) ∧ e.position = 2 ∧
      records "すももう" = [(.trace, "openbracket at 0..1"), (.trace, "operator も at 1..2")] ∧
      ∀ t ∈ emitted "すももう", t.range.stop ≤ 2 := by
  have accepted : lex "も \n" = .ok [⟨.numberLiteral, some "も", ⟨0, 0⟩, ⟨0, 1, by decide⟩⟩] := by
    decide +kernel
  have rejected : lex "すももう" =
      .error (.rejected ⟨.wrongCharacter 'の' (some 'も'), 2, ⟨0, 0⟩⟩) := by decide +kernel
  have whole := (records_true "も \n").1 _ accepted
  obtain ⟨e, same, named, before⟩ := (records_true "すももう").2 _ rejected
  cases same
  constructor
  · rw [whole]
    decide +kernel
  · refine ⟨_, rejected, rfl, ?_, fun t member => (before t member).1⟩
    rw [named]
    decide +kernel

end SumomoLexer
