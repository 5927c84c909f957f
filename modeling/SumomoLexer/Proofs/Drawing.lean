import SumomoLexer.Diagnostic
import SumomoLexer.Proofs.Columns
import SumomoLexer.Proofs.LineTracking
import SumomoLexer.Proofs.Reading.Blame

/-! # Drawn rejections

A rejection is drawn as the name of its kind, its message and the lines of the text, with a caret line
behind the one it points into. These are meant to be the rows of what is shown. All of them are free of
line terminators except for the message: it quotes the character at its position as it is, so that a
quoted line feed breaks the message in two.
-/
namespace SumomoLexer
open Vocabulary
set_option autoImplicit false

/-! ## Rows -/

/-- The rows in which a text is shown. Other than its lines they end at line feeds only. -/
def rows (text : String) : List String := (text.toList.splitOn '\n').map String.ofList

def OneLine (text : String) : Prop := ∀ c ∈ text.toList, isLineTerminator c = false

instance (text : String) : Decidable (OneLine text) :=
  List.decidableBAll (isLineTerminator · = false) text.toList

variable {text message front back : String} {c : Char} {found : Option Char} {cause : Cause}

theorem OneLine.append (before : OneLine front) (behind : OneLine back) :
    OneLine (front ++ back) := by
  intro c member
  rw [String.toList_append, List.mem_append] at member
  rcases member with member | member
  · exact before c member
  · exact behind c member

theorem rows_of_not_mem (h : '\n' ∉ text.toList) : rows text = [text] := by
  rw [rows, List.splitOn_eq_singleton h, List.map_singleton, String.ofList_toList]

theorem OneLine.not_mem (h : OneLine text) : '\n' ∉ text.toList := by
  intro member
  exact Bool.noConfusion (h '\n' member)

theorem OneLine.rows_eq (h : OneLine text) : rows text = [text] := rows_of_not_mem h.not_mem

theorem rows_append_break (front back : String) :
    rows (front ++ "\n" ++ back) = rows front ++ rows back := by
  have split : (front ++ "\n" ++ back).toList = front.toList ++ '\n' :: back.toList := by
    rw [String.toList_append, String.toList_append, List.append_assoc]
    rfl
  rw [rows, split, List.splitOn_append_cons_self, List.map_append]
  rfl

theorem rows_intercalate {parts : List String} (something : parts ≠ []) :
    rows ("\n".intercalate parts) = parts.flatMap rows := by
  induction parts with
  | nil => exact absurd rfl something
  | cons part parts ih =>
    cases parts with
    | nil => rw [String.intercalate_singleton, List.flatMap_singleton]
    | cons next parts =>
      rw [String.intercalate_cons_cons, rows_append_break, ih (List.cons_ne_nil _ _)]
      exact List.flatMap_cons.symm

theorem flatMap_rows {parts : List String} (h : ∀ part ∈ parts, '\n' ∉ part.toList) :
    parts.flatMap rows = parts := by
  have alone : parts.flatMap rows = parts.flatMap fun part => [part] := by
    apply List.flatMap_congr
    intro part member
    exact rows_of_not_mem (h part member)
  rw [alone, List.flatMap_singleton']

theorem oneLine_of_mem_lines {line : String} (h : line ∈ lines text) : OneLine line := by
  obtain ⟨characters, member, rfl⟩ := List.mem_map.mp h
  rw [OneLine, String.toList_ofList]
  exact solid_of_mem_splitOnP member

/-! ## Messages -/

/-- The message contains what was found, if anything, and no line terminator besides. -/
def Quotes (message : String) (found : Option Char) : Prop :=
  ∃ front back, OneLine front ∧ OneLine back ∧
    message = front ++ found.elim "" Char.toString ++ back

theorem OneLine.quotes (h : OneLine message) : Quotes message none := by
  refine ⟨message, "", h, by decide, ?_⟩
  simp

theorem quotes_quote (c : Char) : Quotes (Cause.quote c) (some c) :=
  ⟨"\"", "\"", by decide, by decide, rfl⟩

theorem quotes_naming (found : Option Char) : Quotes (Cause.naming found) found := by
  cases found with
  | none => exact OneLine.quotes (by decide)
  | some c => exact quotes_quote c

theorem Quotes.between (h : Quotes message found) (before : OneLine front) (behind : OneLine back) :
    Quotes (front ++ message ++ back) found := by
  obtain ⟨inner, outer, opens, closes, rfl⟩ := h
  refine ⟨front ++ inner, outer ++ back, before.append opens, closes.append behind, ?_⟩
  simp only [String.append_assoc]

theorem oneLine_kind (kind : Token.Kind) : OneLine kind.name := by
  cases kind <;> decide

theorem oneLine_expected (h : c ∈ closeBracket) : OneLine (Cause.quote c) := by
  simp only [closeBracket, List.mem_cons, List.not_mem_nil, or_false] at h
  rcases h with rfl | rfl | rfl | rfl <;> decide

theorem Cause.OfText.quotes (h : cause.OfText) : Quotes cause.message cause.found := by
  cases cause with
  | undecodable defect => cases h
  | missingExpression => exact OneLine.quotes (by decide)
  | strayCharacter c => exact (quotes_quote c).between (by decide) (by decide)
  | nothingToClose c =>
    refine ⟨"\"", "\"" ++ " starts a close bracket with nothing to close.", ?_, ?_, ?_⟩
    · decide
    · decide
    · exact String.append_assoc
  | unfinishedNumerals kind =>
    apply OneLine.quotes
    apply OneLine.append
    · exact OneLine.append (by decide) (oneLine_kind kind)
    · decide
  | missingNumerals kind found =>
    refine (quotes_naming found).between ?_ (by decide)
    apply OneLine.append
    · exact OneLine.append (by decide) (oneLine_kind kind)
    · decide
  | wrongCharacter expected found =>
    refine (quotes_naming found).between ?_ (by decide)
    apply OneLine.append
    · exact OneLine.append (by decide) (oneLine_expected h)
    · decide

theorem Quotes.mem_iff (h : Quotes message found) (ends : isLineTerminator c = true) :
    c ∈ message.toList ↔ found = some c := by
  obtain ⟨front, back, opens, closes, rfl⟩ := h
  have before : c ∉ front.toList := by
    intro member
    rw [opens c member] at ends
    cases ends
  have behind : c ∉ back.toList := by
    intro member
    rw [closes c member] at ends
    cases ends
  rw [String.toList_append, String.toList_append, List.mem_append, List.mem_append,
    or_iff_right before, or_iff_left behind]
  cases found with
  | none => exact ⟨nofun, nofun⟩
  | some d =>
    change c ∈ (String.singleton d).toList ↔ some d = some c
    rw [String.toList_singleton, List.mem_singleton, Option.some_inj, eq_comm]

theorem Quotes.rows_eq (h : Quotes message found) (other : found ≠ some '\n') :
    rows message = [message] := by
  apply rows_of_not_mem
  intro member
  exact other ((h.mem_iff (by decide)).mp member)

theorem Quotes.length_rows (h : Quotes message found) :
    (rows message).length = if found = some '\n' then 2 else 1 := by
  split
  · rename_i broken
    subst broken
    obtain ⟨front, back, opens, closes, rfl⟩ := h
    change (rows (front ++ "\n" ++ back)).length = 2
    rw [rows_append_break, opens.rows_eq, closes.rows_eq]
    rfl
  · rename_i other
    rw [h.rows_eq other]
    rfl

theorem append_ne_empty (something : front ≠ "") (back : String) : front ++ back ≠ "" := by
  intro nothing
  exact something (String.append_eq_empty_iff.mp nothing).1

/-- A message begins with words, or with a quote. -/
theorem Cause.message_ne_empty (cause : Cause) : cause.message ≠ "" := by
  cases cause <;> dsimp only [message, quote] <;> repeat apply append_ne_empty
  all_goals decide

/-! ## Layout -/

/-- What a rejection shows of a text with these lines, part by part. -/
def Rejection.layout (e : Rejection) (lines : List String) (column : Nat) : List String :=
  [e.cause.kind.name, e.cause.message] ++ lines.take (e.line.number + 1) ++
    [String.ofList (List.replicate column '\u3000' ++ ['^'])] ++ lines.drop (e.line.number + 1)

variable {e : Rejection} {column : Nat}

theorem Rejection.length_layout (e : Rejection) (lines : List String) (column : Nat) :
    (e.layout lines column).length = lines.length + 3 := by
  simp only [layout, List.length_append, List.length_cons, List.length_nil, List.length_take,
    List.length_drop]
  omega

theorem draws_layout (here : e.diagnostic.column = .ok column)
    (counted : Offset.Fits Offset.word (e.line.number + 1)) (text : String) :
    e.diagnostic.Draws text ("\n".intercalate (e.layout (lines text) column)) := by
  have shown : (some e.cause.message).filter (· ≠ "") = some e.cause.message := by
    simp [e.cause.message_ne_empty]
  have layout : Diagnostic.drawing e.cause.kind.name (some e.cause.message) (lines text)
      (e.line.number + 1) (Diagnostic.caretLine column) =
        "\n".intercalate (e.layout (lines text) column) := by
    rw [Diagnostic.drawing, shown]
    rfl
  rw [← layout]
  intro room holds
  rw [Diagnostic.drawIn, here]
  apply Diagnostic.draw_eq_ok_iff.mpr
  refine ⟨holds _ ?_, (Offset.fits_word_iff _).mp counted, ?_, rfl⟩
  · exact Diagnostic.utf8ByteSize_le_drawing _ _ _ _ _
  · exact (holds _ (Nat.le_refl _)).of_grown

theorem oneLine_caret (column : Nat) :
    OneLine (String.ofList (List.replicate column '\u3000' ++ ['^'])) := by
  intro c member
  rw [String.toList_ofList, List.mem_append, List.mem_replicate, List.mem_singleton] at member
  rcases member with ⟨-, rfl⟩ | rfl <;> decide

/-- Kind, lines and caret have a row each, whatever is said between the kind and the lines. -/
theorem rows_frame {kind : String} {lines : List String} (kindRow : '\n' ∉ kind.toList)
    (lineRows : ∀ line ∈ lines, '\n' ∉ line.toList) (notes : List String) (shown column : Nat) :
    rows ("\n".intercalate ([kind] ++ notes ++ lines.take shown ++
        [String.ofList (List.replicate column '\u3000' ++ ['^'])] ++ lines.drop shown)) =
      [kind] ++ notes.flatMap rows ++ lines.take shown ++
        [String.ofList (List.replicate column '\u3000' ++ ['^'])] ++ lines.drop shown := by
  have before : (lines.take shown).flatMap rows = _ :=
    flatMap_rows fun line member => lineRows line (List.mem_of_mem_take member)
  have behind : (lines.drop shown).flatMap rows = _ :=
    flatMap_rows fun line member => lineRows line (List.mem_of_mem_drop member)
  rw [rows_intercalate (by simp)]
  simp only [List.flatMap_append, List.flatMap_singleton, before, behind, rows_of_not_mem kindRow,
    (oneLine_caret column).rows_eq]

/-- Each part of the layout has a row of its own, except for the message. -/
theorem rows_layout (text : String) (e : Rejection) (column : Nat) :
    rows ("\n".intercalate (e.layout (lines text) column)) =
      [e.cause.kind.name] ++ rows e.cause.message ++ (lines text).take (e.line.number + 1) ++
        [String.ofList (List.replicate column '\u3000' ++ ['^'])] ++
          (lines text).drop (e.line.number + 1) := by
  have kind : OneLine e.cause.kind.name := by cases e.cause.kind <;> decide
  have solid : ∀ line ∈ lines text, '\n' ∉ line.toList :=
    fun line member => (oneLine_of_mem_lines member).not_mem
  have frame := rows_frame kind.not_mem solid [e.cause.message] (e.line.number + 1) column
  rw [List.flatMap_singleton] at frame
  exact frame

theorem length_rows_layout (text : String) (e : Rejection) (column : Nat) :
    (rows ("\n".intercalate (e.layout (lines text) column))).length =
      (lines text).length + (rows e.cause.message).length + 2 := by
  rw [rows_layout]
  simp only [List.length_append, List.length_cons, List.length_nil, List.length_take,
    List.length_drop]
  omega

/-! ## Rejected texts -/

theorem lex_error_number_lt {text : String} (h : lex text = .error (.rejected e)) :
    e.line.number < text.length := by
  obtain ⟨_, ⟨⟩, -, line⟩ := lex_error_line h
  have number := LineMark.find_number text e.position
  rw [← line] at number
  have part : (text.toList.take e.position).countP isLineTerminator ≤
      text.toList.countP isLineTerminator := (List.take_sublist _ _).countP_le
  have whole : text.toList.countP isLineTerminator ≤ text.toList.length := List.countP_le_length
  -- A text of terminators alone is not rejected.
  have other : text.toList.countP isLineTerminator ≠ text.toList.length := by
    intro all
    have filler : ∀ c ∈ text.toList, isFiller c = true := by
      intro c member
      exact isFiller_of_isLineTerminator (List.countP_eq_length.mp all c member)
    have passed : Reading.read text.toList = _ := Reading.along_filler (.inl rfl) filler
    have lexed : lex text = .ok _ := lex_of_ready (by rw [passed]; rfl) (by rw [passed]; rfl)
    rw [lexed] at h
    cases h
  rw [← String.length_toList]
  omega

/-- A rejected text is shown as its layout, row by row, unless a line feed is what it is rejected at.
The message contains that character then, and is shown in two rows. -/
theorem lex_error_rows {text : String} {failure : Failure}
    (addressable : Offset.Fits Offset.word text.length) (h : lex text = .error failure) :
    ∃ e column shown, failure = .rejected e ∧ e.diagnostic.column = .ok column ∧
      e.diagnostic.Draws text shown ∧ e.line.number < (lines text).length ∧
      (rows shown = e.layout (lines text) column ↔ text.toList[e.position]? ≠ some '\n') ∧
      (rows shown).length =
        (lines text).length + (if text.toList[e.position]? = some '\n' then 4 else 3) ∧
      ∀ c, isLineTerminator c = true →
        (c ∈ e.cause.message.toList ↔ text.toList[e.position]? = some c) := by
  obtain ⟨e, rfl, le, mark⟩ := lex_error_line h
  obtain ⟨ofText, found⟩ := lex_error_cause h
  obtain ⟨column, line, here, member, -⟩ := find_pointsTo le
  rw [← mark] at here member
  have room : Offset.Fits Offset.word (e.line.number + 1) :=
    addressable.mono (lex_error_number_lt h)
  have quotes := ofText.quotes
  rw [found] at quotes
  refine ⟨e, column, _, rfl, here, draws_layout here room text, ?_, ?_, ?_, fun c ends =>
    quotes.mem_iff ends⟩
  · exact (List.getElem?_eq_some_iff.mp member).1
  · constructor
    · intro same broken
      have sizes := congrArg List.length same
      rw [length_rows_layout, e.length_layout, quotes.length_rows, if_pos broken] at sizes
      omega
    · intro other
      rw [rows_layout, quotes.rows_eq other]
      rfl
  · rw [length_rows_layout, quotes.length_rows]
    split <;> omega

/-- Behind すも the bracket is missing, and the line feed there is quoted. -/
theorem lex_error_rows_of_line_feed : ∃ e column shown,
    lex "すも\n" = .error (.rejected e) ∧ e.diagnostic.column = .ok column ∧
      e.diagnostic.Draws "すも\n" shown ∧ rows shown ≠ e.layout (lines "すも\n") column ∧
      (rows shown).length ≠ (lines "すも\n").length + 3 ∧ '\n' ∈ e.cause.message.toList := by
  have run : lex "すも\n" =
      .error (.rejected ⟨.wrongCharacter 'の' (some '\n'), 2, ⟨0, 0⟩⟩) := by decide +kernel
  have drawn : (Rejection.diagnostic ⟨.wrongCharacter 'の' (some '\n'), 2, ⟨0, 0⟩⟩).Draws "すも\n" _ :=
    draws_layout rfl (by decide) _
  refine ⟨_, 2, _, run, rfl, drawn, ?_, ?_, ?_⟩ <;> decide +kernel

/-- A blank in the same place is quoted as well, and breaks nothing. -/
theorem lex_error_rows_of_blank : ∃ e shown, lex "すも \n" = .error (.rejected e) ∧
    e.diagnostic.Draws "すも \n" shown ∧ (rows shown).length = 5 := by
  have run : lex "すも \n" =
      .error (.rejected ⟨.wrongCharacter 'の' (some ' '), 2, ⟨0, 0⟩⟩) := by decide +kernel
  have addressable : Offset.Fits Offset.word "すも \n".length := by decide
  obtain ⟨e, column, shown, same, -, drawn, -, -, length, -⟩ := lex_error_rows addressable run
  cases same
  exact ⟨_, shown, run, drawn, length⟩

end SumomoLexer
