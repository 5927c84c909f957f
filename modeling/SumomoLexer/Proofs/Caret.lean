import SumomoLexer.Proofs.Drawing
import SumomoLexer.Proofs.Undecodable

/-! # The caret

Whatever the bytes are, a rejection of them is drawn over their lenient text, and its caret stands
below the character that the rejection is about. For bytes that cannot be decoded that is the
replacement character of the first of them: up to there the lenient text is the text that the position
was counted in.
-/
namespace SumomoLexer
open Vocabulary
set_option autoImplicit false

variable {bytes : List UInt8} {failure : Failure}

/-- A place that the text has. An undecodable one is where the text has the replacement character. -/
structure PlacedIn (text : String) (e : Rejection) : Prop where
  position_le : e.position ≤ text.length
  line : e.line = LineMark.find text e.position
  number_lt : e.line.number < text.length
  replaced : e.cause.kind = .invalidInput → text.toList[e.position]? = some Utf8.replacement

theorem lex_error_placed {text : String} {e : Rejection} (h : lex text = .error (.rejected e)) :
    PlacedIn text e := by
  obtain ⟨_, ⟨⟩, le, line⟩ := lex_error_line h
  constructor
  · exact le
  · exact line
  · exact lex_error_number_lt h
  · intro undecodable
    exact absurd undecodable (lex_error_cause h).1.kind_ne

theorem BlamesBytes.placed {text : String} {more : List UInt8} {e : Rejection}
    (something : more ≠ []) (stuck : Utf8.Undecodable more) (h : BlamesBytes text more e) :
    PlacedIn (Utf8.lossy (Utf8.encode text ++ more)) e := by
  obtain ⟨first, rest, rfl⟩ := List.exists_cons_of_ne_nil something
  obtain ⟨n, truncated, illFormed, -⟩ := Utf8.piece_of_undecodable stuck
  have next : (Utf8.lossy (Utf8.encode text ++ first :: rest)).toList[text.length]? =
      some Utf8.replacement := by
    rw [Utf8.lossy_encode_append, String.toList_append, ← String.length_toList,
      getElem?_length_append]
    exact Utf8.lossy_of_illFormed illFormed
  have inside : text.length < (Utf8.lossy (Utf8.encode text ++ first :: rest)).length := by
    rw [← String.length_toList]
    exact (List.getElem?_eq_some_iff.mp next).1
  rw [← h.position] at next inside
  constructor
  · exact Nat.le_of_lt inside
  · rw [h.line, h.position, LineMark.find_eq_before, LineMark.find_eq_before,
      Utf8.lossy_encode_append, String.toList_append]
    exact (LineMark.before_append (Nat.le_of_eq String.length_toList.symm) _).symm
  · have number : e.line.number ≤ text.toList.length := by
      rw [h.line, LineMark.find_number, ← String.length_toList, List.take_length]
      exact List.countP_le_length
    rw [String.length_toList, ← h.position] at number
    exact Nat.lt_of_le_of_lt number inside
  · intro _
    exact next

theorem lexBytes_error_placed (h : lexBytes bytes = .error failure) :
    ∃ e, failure = .rejected e ∧ PlacedIn (Utf8.lossy bytes) e := by
  obtain ⟨text, more, rfl, stuck⟩ := Utf8.exists_undecodable bytes
  cases more with
  | nil =>
    rw [List.append_nil, lexBytes_encode] at h
    rw [List.append_nil, Utf8.lossy_encode]
    obtain ⟨e, rfl, -⟩ := lex_error_line h
    exact ⟨e, rfl, lex_error_placed h⟩
  | cons first rest =>
    obtain ⟨e, run, blames⟩ := lexBytes_encode_append (List.cons_ne_nil first rest) stuck text
    cases h.symm.trans run
    exact ⟨e, rfl, blames.placed (List.cons_ne_nil first rest) stuck⟩

/-- A rejection of bytes can be drawn over their lenient text, with the caret below the character at
its position, or behind the line if none of the line stands there. Lines are counted in a word when
they are drawn, and there are no more of them than bytes. -/
theorem lexBytes_error_drawn (addressable : Offset.Fits Offset.word bytes.length)
    (h : lexBytes bytes = .error failure) :
    ∃ e column line, failure = .rejected e ∧ e.diagnostic.column = .ok column ∧
      e.diagnostic.Draws (Utf8.lossy bytes)
        ("\n".intercalate (e.layout (lines (Utf8.lossy bytes)) column)) ∧
      (lines (Utf8.lossy bytes))[e.line.number]? = some line ∧
      PointsTo (Utf8.lossy bytes) line e.position column ∧
      (e.cause.kind = .invalidInput →
        (Utf8.lossy bytes).toList[e.position]? = some '\uFFFD') := by
  obtain ⟨e, rfl, placed⟩ := lexBytes_error_placed h
  obtain ⟨column, line, here, member, points⟩ := find_pointsTo placed.position_le
  rw [← placed.line] at here member
  have room : Offset.Fits Offset.word (e.line.number + 1) :=
    addressable.mono (Nat.le_trans placed.number_lt (Utf8.length_lossy_le bytes))
  exact ⟨e, column, line, rfl, here, draws_layout here room _, member, points, placed.replaced⟩

/-- A byte that no character begins with, behind す on the second line. -/
theorem lexBytes_error_drawn_of_second_line : ∃ e line,
    lexBytes [0x0A, 0xE3, 0x81, 0x99, 0xFF] = .error (.rejected e) ∧
      e.diagnostic.column = .ok 1 ∧ (lines "\nす\uFFFD")[e.line.number]? = some line ∧
      line.toList[1]? = some '\uFFFD' := by
  have run : lexBytes [0x0A, 0xE3, 0x81, 0x99, 0xFF] =
      .error (.rejected ⟨.undecodable ⟨4, 1, false⟩, 2, ⟨1, 0⟩⟩) := by decide +kernel
  have lenient : Utf8.lossy [0x0A, 0xE3, 0x81, 0x99, 0xFF] = "\nす\uFFFD" := by decide +kernel
  obtain ⟨e, column, line, same, here, -, member, points, replaced⟩ :=
    lexBytes_error_drawn (by decide) run
  rw [lenient] at member points replaced
  cases same
  cases here
  exact ⟨_, line, run, rfl, member, points.character _ (replaced rfl) (by decide)⟩

end SumomoLexer
