import SumomoLexer.Rejection

/-! # Diagnostics

A diagnostic is an error as it is shown: the name of its kind, an optional message, and the place in
the text, drawn as a caret line below the line it points into. The place is not checked against the
text; a place that no text has can be a fault, and so can a drawing that there is no room for.
-/
namespace SumomoLexer
set_option autoImplicit false

/-- Where texts are written. A text has fewer bytes than `bound`, and so has the room that it is given on
the way if it is written one character after another: `grown size` for a text of `size` bytes. -/
structure Room where
  bound : Offset.Bound
  grown : Nat → Nat
  le_grown : ∀ size, size ≤ grown size

namespace Room

def unbounded : Room := ⟨Offset.unbounded, id, Nat.le_refl⟩

/-- The bytes of a text are counted in a word with a sign. -/
def textBound : Offset.Bound := some (Nat.pow 2 63)

/-- A text begins with room for a byte of each character and has it doubled whenever it needs more. For a
caret line, where all characters but the last take three bytes, that comes to four for each. -/
def doubling : Room := ⟨textBound, fun size => 4 * (size / 3 + 1), fun size => by omega⟩

def Holds (room : Room) (size : Nat) : Prop := Offset.Fits room.bound size

instance (room : Room) (size : Nat) : Decidable (room.Holds size) :=
  inferInstanceAs (Decidable (Offset.Fits room.bound size))

/-- The text, which is only made if there is room for this many bytes. -/
@[macro_inline]
def give (room : Room) (size : Nat) (text : String) : Except Fault String :=
  if room.Holds size then .ok text else .error .textTooLong

@[simp] theorem unbounded_holds (size : Nat) : unbounded.Holds size := Offset.fits_unbounded size

theorem Holds.of_grown {room : Room} {size : Nat} (h : room.Holds (room.grown size)) :
    room.Holds size := Offset.Fits.mono h (room.le_grown size)

theorem not_holds_iff {room : Room} (signed : room.bound = textBound) (size : Nat) :
    ¬room.Holds size ↔ Nat.pow 2 63 ≤ size := by
  simp [Holds, Offset.Fits, signed, textBound]

theorem give_eq_ok_iff {room : Room} {size : Nat} {text whole : String} :
    room.give size text = .ok whole ↔ room.Holds size ∧ whole = text := by
  by_cases h : room.Holds size <;> simp [give, h, eq_comm]

theorem give_eq_error_iff {room : Room} {size : Nat} {text : String} {f : Fault} :
    room.give size text = .error f ↔ ¬room.Holds size ∧ f = .textTooLong := by
  by_cases h : room.Holds size <;> simp [give, h, eq_comm]

end Room

structure Diagnostic where
  kind : ErrorKind
  message : Option String
  position : Nat
  line : LineMark
deriving DecidableEq, Repr

def Rejection.diagnostic (r : Rejection) : Diagnostic :=
  ⟨r.cause.kind, some r.cause.message, r.position, r.line⟩

namespace Diagnostic

/-- A space as wide as the characters of the vocabulary, so that the caret stands under its place. -/
def padding : Char := '\u3000'

def caretLine (column : Nat) : String := String.ofList (List.replicate column padding ++ ['^'])

/-- The caret line, written character after character. -/
def caret (room : Room) (column : Nat) : Except Fault String :=
  room.give (room.grown (column * padding.utf8Size + 1)) (caretLine column)

/-- The kind and the message, where there is one that is not empty, then the lines with a caret line
behind the first `shown` of them. -/
def drawing (kind : String) (message : Option String) (lines : List String) (shown : Nat)
    (caret : String) : String :=
  "\n".intercalate ([kind] ++ (message.filter (· ≠ "")).toList ++ lines.take shown ++ [caret] ++
    lines.drop shown)

/-- The drawing with a caret line behind line `number`, or behind the last line if there are fewer. -/
def draw (room : Room) (kind : String) (message : Option String) (lines : List String)
    (number column : Nat) : Except Fault String := do
  let caret ← caret room column
  let shown ← Offset.add number 1
  let whole := drawing kind message lines shown caret
  room.give whole.utf8ByteSize whole

def summary (d : Diagnostic) : String :=
  match d.message with
  | some message => d.kind.name ++ ": " ++ message
  | none => d.kind.name

def column (d : Diagnostic) : Except Fault Nat := d.line.column d.position

def drawIn (d : Diagnostic) (room : Room) (text : String) : Except Fault String :=
  match d.column with
  | .ok column => draw room d.kind.name d.message (lines text) d.line.number column
  | .error f => .error f

/-- In this text the diagnostic is drawn like this, wherever there is room to write as much. -/
def Draws (d : Diagnostic) (text shown : String) : Prop :=
  ∀ room : Room, (∀ size ≤ shown.utf8ByteSize, room.Holds (room.grown size)) →
    d.drawIn room text = .ok shown

theorem Draws.unbounded {d : Diagnostic} {text shown : String} (h : d.Draws text shown) :
    d.drawIn Room.unbounded text = .ok shown := h _ fun _ _ => Room.unbounded_holds _

variable {room : Room} {kind text : String} {message : Option String} {lines : List String}
  {number column shown : Nat} {f : Fault}

/-! ## Sizes -/

theorem utf8ByteSize_caretLine (column : Nat) :
    (caretLine column).utf8ByteSize = column * padding.utf8Size + 1 := by
  induction column with
  | zero => decide
  | succ column ih =>
    have longer : caretLine (column + 1) = String.singleton padding ++ caretLine column := by
      rw [caretLine, List.replicate_succ, List.cons_append, String.ofList_cons]
      rfl
    rw [longer, String.utf8ByteSize_append, String.utf8ByteSize_singleton, ih, Nat.succ_mul]
    omega

theorem utf8ByteSize_le_intercalate {part separator : String} {parts : List String}
    (member : part ∈ parts) : part.utf8ByteSize ≤ (separator.intercalate parts).utf8ByteSize := by
  induction parts with
  | nil => cases member
  | cons first parts ih =>
    cases parts with
    | nil =>
      obtain rfl := List.mem_singleton.mp member
      exact Nat.le_of_eq (by rw [String.intercalate_singleton])
    | cons next parts =>
      rw [String.intercalate_cons_cons, String.utf8ByteSize_append, String.utf8ByteSize_append]
      rcases List.mem_cons.mp member with rfl | later
      · omega
      · have rest := ih later
        omega

/-- A drawing is not shorter than its caret line. -/
theorem utf8ByteSize_le_drawing (kind : String) (message : Option String) (lines : List String)
    (shown : Nat) (caret : String) :
    caret.utf8ByteSize ≤ (drawing kind message lines shown caret).utf8ByteSize := by
  apply utf8ByteSize_le_intercalate
  simp

/-! ## What is drawn, and what is not -/

theorem caret_eq_give (room : Room) (column : Nat) :
    caret room column =
      room.give (room.grown (caretLine column).utf8ByteSize) (caretLine column) := by
  rw [caret, utf8ByteSize_caretLine]

theorem draw_eq_ok_iff {whole : String} :
    draw room kind message lines number column = .ok whole ↔
      room.Holds (room.grown (caretLine column).utf8ByteSize) ∧ number + 1 < Offset.wordBound ∧
        room.Holds whole.utf8ByteSize ∧
          whole = drawing kind message lines (number + 1) (caretLine column) := by
  rw [draw, caret_eq_give]
  simp only [Fault.bind_eq_ok_iff, Room.give_eq_ok_iff, Offset.add_eq_ok_iff]
  constructor
  · rintro ⟨_, ⟨written, rfl⟩, _, ⟨counted, rfl⟩, holds, rfl⟩
    exact ⟨written, counted, holds, rfl⟩
  · rintro ⟨written, counted, holds, rfl⟩
    exact ⟨_, ⟨written, rfl⟩, _, ⟨counted, rfl⟩, holds, rfl⟩

/-- The caret line is written first, then the lines are counted, and then all is put together. -/
theorem draw_eq_error_iff :
    draw room kind message lines number column = .error f ↔
      (¬room.Holds (room.grown (caretLine column).utf8ByteSize) ∧ f = .textTooLong) ∨
        (room.Holds (room.grown (caretLine column).utf8ByteSize) ∧
          ((Offset.wordBound ≤ number + 1 ∧ f = .sumOverflow) ∨
            (number + 1 < Offset.wordBound ∧
              ¬room.Holds
                (drawing kind message lines (number + 1) (caretLine column)).utf8ByteSize ∧
              f = .textTooLong))) := by
  rw [draw, caret_eq_give]
  simp only [Fault.bind_eq_error_iff, Room.give_eq_ok_iff, Room.give_eq_error_iff,
    Offset.add_eq_ok_iff, Offset.add_eq_error_iff]
  constructor
  · rintro (crowded | ⟨_, ⟨written, rfl⟩, past | ⟨_, ⟨counted, rfl⟩, whole⟩⟩)
    · exact .inl crowded
    · exact .inr ⟨written, .inl past⟩
    · exact .inr ⟨written, .inr ⟨counted, whole⟩⟩
  · rintro (crowded | ⟨written, past | ⟨counted, whole⟩⟩)
    · exact .inl crowded
    · exact .inr ⟨_, ⟨written, rfl⟩, .inl past⟩
    · exact .inr ⟨_, ⟨written, rfl⟩, .inr ⟨_, ⟨counted, rfl⟩, whole⟩⟩

theorem drawIn_eq_error_iff {d : Diagnostic} :
    d.drawIn room text = .error f ↔
      (d.line.number ≠ 0 ∧ d.position < d.line.start ∧ f = .differenceOverflow) ∨
        ∃ column, d.column = .ok column ∧
          draw room d.kind.name d.message (SumomoLexer.lines text) d.line.number column =
            .error f := by
  have outside := @LineMark.column_eq_error_iff d.line d.position f
  rw [← Diagnostic.column] at outside
  rw [← outside, drawIn]
  cases d.column with
  | ok column => simp
  | error g => simp

end Diagnostic
end SumomoLexer
