import SumomoLexer.Proofs.Drawing

/-! # What diagnostics show

A diagnostic may come from anywhere, with any kind, message, lines and place. Its drawing has a row for
each of them, in their order, and one row more for the caret, which stands behind the line that it points
into, or behind all lines if there is no such line. Only a line number that has no successor, a
position in front of its own line, and a caret line or a drawing that there is no room for keep a
diagnostic from being drawn.
-/
namespace SumomoLexer
set_option autoImplicit false

/-- A message that is missing or empty is not shown. -/
def messageRows : Option String → List String
  | none => []
  | some message => if message = "" then [] else [message]

/-- The lines, with a caret line behind the first `min (number + 1) lines.length` of them. -/
def caretRows (lines : List String) (number column : Nat) : List String :=
  let shown := min (number + 1) lines.length
  lines.take shown ++ [String.ofList (List.replicate column '\u3000' ++ ['^'])] ++ lines.drop shown

/-- The kind, the message, and the lines with the caret line among them. -/
def drawnRows (kind : String) (message : Option String) (lines : List String)
    (number column : Nat) : List String :=
  [kind] ++ messageRows message ++ caretRows lines number column

/-- The bytes of these rows with a line feed between each two of them. -/
def rowsSize (parts : List String) : Nat :=
  (parts.map String.utf8ByteSize).sum + (parts.length - 1)

variable {room : Room} {kind text : String} {message : Option String} {lines : List String}
  {number column : Nat}

theorem messageRows_eq (message : Option String) :
    (message.filter (· ≠ "")).toList = messageRows message := by
  cases message with
  | none => rfl
  | some message =>
    by_cases empty : message = ""
    · simp [messageRows, empty]
    · simp [messageRows, empty]

theorem flatMap_messageRows (h : ∀ m ∈ message, '\n' ∉ m.toList) :
    (messageRows message).flatMap rows = messageRows message := by
  apply flatMap_rows
  intro part member
  cases message with
  | none => cases member
  | some message =>
    rw [messageRows] at member
    split at member
    · cases member
    · rw [List.mem_singleton.mp member]
      exact h message rfl

theorem caretRows_eq (lines : List String) (number column : Nat) :
    caretRows lines number column =
      lines.take (number + 1) ++ [String.ofList (List.replicate column '\u3000' ++ ['^'])] ++
        lines.drop (number + 1) := by
  rw [caretRows]
  by_cases inside : number + 1 ≤ lines.length
  · rw [Nat.min_eq_left inside]
  · have behind : lines.length ≤ number + 1 := Nat.le_of_not_le inside
    rw [Nat.min_eq_right behind, List.take_of_length_le behind, List.drop_of_length_le behind,
      List.take_length, List.drop_length]

theorem drawing_eq (kind : String) (message : Option String) (lines : List String)
    (number column : Nat) :
    Diagnostic.drawing kind message lines (number + 1) (Diagnostic.caretLine column) =
      "\n".intercalate (drawnRows kind message lines number column) := by
  rw [Diagnostic.drawing, drawnRows, caretRows_eq, messageRows_eq]
  simp only [List.append_assoc]
  rfl

theorem utf8ByteSize_intercalate (separator : String) {parts : List String}
    (something : parts ≠ []) :
    (separator.intercalate parts).utf8ByteSize =
      (parts.map String.utf8ByteSize).sum + (parts.length - 1) * separator.utf8ByteSize := by
  induction parts with
  | nil => exact absurd rfl something
  | cons first parts ih =>
    cases parts with
    | nil => simp
    | cons next parts =>
      have rest := ih (List.cons_ne_nil next parts)
      rw [String.intercalate_cons_cons, String.utf8ByteSize_append, String.utf8ByteSize_append,
        rest]
      simp only [List.map_cons, List.sum_cons, List.length_cons, Nat.add_sub_cancel, Nat.succ_mul]
      omega

theorem utf8ByteSize_drawing (kind : String) (message : Option String) (lines : List String)
    (number column : Nat) :
    (Diagnostic.drawing kind message lines (number + 1)
      (Diagnostic.caretLine column)).utf8ByteSize =
        rowsSize (drawnRows kind message lines number column) := by
  have feed : "\n".utf8ByteSize = 1 := by decide
  rw [drawing_eq, utf8ByteSize_intercalate "\n" (by simp [drawnRows]), feed, rowsSize,
    Nat.mul_one]

theorem rows_drawnRows (kindRow : '\n' ∉ kind.toList) (messageRow : ∀ m ∈ message, '\n' ∉ m.toList)
    (lineRows : ∀ line ∈ lines, '\n' ∉ line.toList) (number column : Nat) :
    rows ("\n".intercalate (drawnRows kind message lines number column)) =
      drawnRows kind message lines number column := by
  have frame := rows_frame kindRow lineRows (messageRows message) (number + 1) column
  rw [flatMap_messageRows messageRow] at frame
  rw [drawnRows, caretRows_eq]
  simp only [← List.append_assoc]
  exact frame

theorem size_caretLine (column : Nat) :
    (Diagnostic.caretLine column).utf8ByteSize = 3 * column + 1 := by
  have three : Diagnostic.padding.utf8Size = 3 := by decide
  rw [Diagnostic.utf8ByteSize_caretLine, three, Nat.mul_comm]

theorem exists_draw_rows (counted : number + 1 < Offset.wordBound)
    (kindRow : '\n' ∉ kind.toList) (messageRow : ∀ m ∈ message, '\n' ∉ m.toList)
    (lineRows : ∀ line ∈ lines, '\n' ∉ line.toList)
    (written : room.Holds (room.grown (3 * column + 1)))
    (holds : room.Holds (rowsSize (drawnRows kind message lines number column))) :
    ∃ shown, Diagnostic.draw room kind message lines number column = .ok shown ∧
      rows shown = drawnRows kind message lines number column := by
  rw [← size_caretLine] at written
  rw [← utf8ByteSize_drawing] at holds
  refine ⟨_, Diagnostic.draw_eq_ok_iff.mpr ⟨written, counted, holds, rfl⟩, ?_⟩
  rw [drawing_eq]
  exact rows_drawnRows kindRow messageRow lineRows number column

/-! ## Faults -/

theorem draw_faults_iff :
    (∃ f, Diagnostic.draw room kind message lines number column = .error f) ↔
      Offset.wordBound ≤ number + 1 ∨ ¬room.Holds (room.grown (3 * column + 1)) ∨
        ¬room.Holds (rowsSize (drawnRows kind message lines number column)) := by
  rw [← utf8ByteSize_drawing, ← size_caretLine]
  simp only [Diagnostic.draw_eq_error_iff]
  constructor
  · rintro ⟨_, ⟨crowded, -⟩ | ⟨-, ⟨past, -⟩ | ⟨-, whole, -⟩⟩⟩
    · exact .inr (.inl crowded)
    · exact .inl past
    · exact .inr (.inr whole)
  · intro outside
    by_cases written : room.Holds (room.grown (Diagnostic.caretLine column).utf8ByteSize)
    · by_cases past : Offset.wordBound ≤ number + 1
      · exact ⟨.sumOverflow, .inr ⟨written, .inl ⟨past, rfl⟩⟩⟩
      · have whole := (outside.resolve_left past).resolve_left (not_not_intro written)
        exact ⟨.textTooLong, .inr ⟨written, .inr ⟨Nat.lt_of_not_le past, whole, rfl⟩⟩⟩
    · exact ⟨.textTooLong, .inl ⟨written, rfl⟩⟩

/-- However far ahead texts are given room, a caret line with more bytes than any text is not drawn. -/
theorem draw_of_endless (signed : room.bound = Room.textBound)
    (endless : Nat.pow 2 63 ≤ 3 * column + 1) :
    Diagnostic.draw room kind message lines number column = .error .textTooLong := by
  refine Diagnostic.draw_eq_error_iff.mpr (.inl ⟨?_, rfl⟩)
  rw [size_caretLine, Room.not_holds_iff signed]
  exact Nat.le_trans endless (room.le_grown _)

/-- Which of the faults comes first does not matter, since the place is looked for before drawing. -/
theorem drawIn_faults_iff {d : Diagnostic} :
    (∃ f, d.drawIn room text = .error f) ↔
      Offset.wordBound ≤ d.line.number + 1 ∨ (d.line.number ≠ 0 ∧ d.position < d.line.start) ∨
        ∃ column, d.column = .ok column ∧
          (¬room.Holds (room.grown (3 * column + 1)) ∨ ¬room.Holds (rowsSize
            (drawnRows d.kind.name d.message (SumomoLexer.lines text) d.line.number column))) := by
  simp only [Diagnostic.drawIn_eq_error_iff]
  constructor
  · rintro ⟨f, ⟨later, before, -⟩ | ⟨column, here, fault⟩⟩
    · exact .inr (.inl ⟨later, before⟩)
    · rcases draw_faults_iff.mp ⟨f, fault⟩ with past | crowded
      · exact .inl past
      · exact .inr (.inr ⟨column, here, crowded⟩)
  · intro outside
    cases here : d.column with
    | error g =>
      obtain ⟨later, before, rfl⟩ := LineMark.column_eq_error_iff.mp here
      exact ⟨_, .inl ⟨later, before, rfl⟩⟩
    | ok column =>
      rcases outside with past | ⟨later, before⟩ | ⟨_, same, crowded⟩
      · obtain ⟨f, fault⟩ := draw_faults_iff.mpr (.inl past)
        exact ⟨f, .inr ⟨column, rfl, fault⟩⟩
      · exact ⟨.differenceOverflow, .inl ⟨later, before, rfl⟩⟩
      · cases here.symm.trans same
        obtain ⟨f, fault⟩ := draw_faults_iff.mpr (.inr crowded)
        exact ⟨f, .inr ⟨column, rfl, fault⟩⟩

/-- What can be drawn is shown row by row, with one row more for the caret, and what cannot is known from
the place and from the room that the caret line and the drawing would take. -/
theorem drawing_rows_and_faults (room : Room) (signed : room.bound = Room.textBound) :
    (∀ kind message lines number column, number < Offset.wordBound - 1 → '\n' ∉ kind.toList →
      (∀ m ∈ message, '\n' ∉ m.toList) → (∀ line ∈ lines, '\n' ∉ line.toList) →
      room.grown (3 * column + 1) < Nat.pow 2 63 →
      rowsSize (drawnRows kind message lines number column) < Nat.pow 2 63 →
      ∃ shown, Diagnostic.draw room kind message lines number column = .ok shown ∧
        rows shown = drawnRows kind message lines number column) ∧
    (∀ kind message lines number column, number < Offset.wordBound →
      ((∃ f, Diagnostic.draw room kind message lines number column = .error f) ↔
        number = Offset.wordBound - 1 ∨ Nat.pow 2 63 ≤ room.grown (3 * column + 1) ∨
          Nat.pow 2 63 ≤ rowsSize (drawnRows kind message lines number column))) ∧
    ∀ (d : Diagnostic) (text : String), d.line.number < Offset.wordBound →
      ((∃ f, d.drawIn room text = .error f) ↔
        d.line.number = Offset.wordBound - 1 ∨
          (d.line.number ≠ 0 ∧ d.position < d.line.start) ∨
          ∃ column, d.column = .ok column ∧ (Nat.pow 2 63 ≤ room.grown (3 * column + 1) ∨
            Nat.pow 2 63 ≤ rowsSize
              (drawnRows d.kind.name d.message (SumomoLexer.lines text) d.line.number column))) := by
  refine ⟨?_, ?_, ?_⟩
  · intro kind message lines number column below kindRow messageRow lineRows written whole
    rw [← Nat.not_le, ← Room.not_holds_iff signed, not_not] at written whole
    exact exists_draw_rows (by omega) kindRow messageRow lineRows written whole
  · intro kind message lines number column word
    have last : Offset.wordBound ≤ number + 1 ↔ number = Offset.wordBound - 1 := by omega
    rw [draw_faults_iff, Room.not_holds_iff signed, Room.not_holds_iff signed, last]
  · intro d text word
    have last : Offset.wordBound ≤ d.line.number + 1 ↔ d.line.number = Offset.wordBound - 1 := by
      omega
    simp only [drawIn_faults_iff, Room.not_holds_iff signed, last]

/-- A caret behind lines that end before it, no message, and a place in front of its own line. -/
theorem drawing_rows_and_faults_of_short_text : Room.doubling.bound = Room.textBound ∧
    (∃ shown, Diagnostic.draw Room.doubling "K" (some "") ["", "も"] 7 1 = .ok shown ∧
      rows shown = ["K", "", "も", "　^"]) ∧
    (∃ f, Diagnostic.draw Room.doubling "K" none [] (Offset.wordBound - 1) 0 = .error f) ∧
    ∃ f, (Diagnostic.mk .unexpectedChar none 2 ⟨1, 3⟩).drawIn Room.doubling "す" = .error f := by
  obtain ⟨shown, drawn, faults⟩ := drawing_rows_and_faults Room.doubling rfl
  obtain ⟨whole, run, parts⟩ := shown "K" (some "") ["", "も"] 7 1 (by decide) (by decide)
    (by simp) (by decide) (by decide) (by decide +kernel)
  refine ⟨rfl, ⟨whole, run, parts.trans (by decide)⟩, ?_, ?_⟩
  · exact (drawn "K" none [] (Offset.wordBound - 1) 0 (by decide)).mpr (.inl rfl)
  · exact (faults ⟨.unexpectedChar, none, 2, ⟨1, 3⟩⟩ "す" (by decide)).mpr (.inr (.inl (by decide)))

/-- A caret at the last column there is takes more padding than any text has bytes, on the first line as
on any other. -/
theorem drawing_rows_and_faults_of_endless_caret : 0 < Offset.wordBound - 1 ∧
    Diagnostic.draw Room.doubling "K" none ["x"] 0 (Offset.wordBound - 1) =
      .error .textTooLong ∧
    (Diagnostic.mk .unexpectedChar none (Offset.wordBound - 1) ⟨0, 0⟩).drawIn Room.doubling "x" =
      .error .textTooLong := by
  refine ⟨by decide, draw_of_endless rfl (by decide), ?_⟩
  refine Diagnostic.drawIn_eq_error_iff.mpr (.inr ⟨Offset.wordBound - 1, rfl, ?_⟩)
  exact draw_of_endless rfl (by decide)

end SumomoLexer
