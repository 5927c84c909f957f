/-! # Decoding UTF-8

Bytes are cut into pieces from left to right. A piece is an encoded character, or the longest
beginning of one that the bytes at that place still allow (one byte if no character starts with it).
Text that is read leniently has a replacement character for every such ill-formed piece; text that
is read strictly ends at the first one, which is reported as a defect.

The ranges of `followers` are those of the well-formed byte sequences of the Unicode Standard. They
exclude overlong forms, surrogates and values past U+10FFFF by the second byte alone.
-/
namespace SumomoLexer.Utf8
set_option autoImplicit false

structure ByteRange where
  low : UInt8
  high : UInt8
deriving DecidableEq, Repr

def ByteRange.contains (r : ByteRange) (b : UInt8) : Bool := r.low ≤ b && b ≤ r.high

def tail : ByteRange := ⟨0x80, 0xBF⟩

/-- The ranges of the bytes that follow a first byte, or `none` if no character starts with it. -/
def followers (first : UInt8) : Option (List ByteRange) :=
  if first < 0x80 then some []
  else if first < 0xC2 then none
  else if first < 0xE0 then some [tail]
  else if first = 0xE0 then some [⟨0xA0, 0xBF⟩, tail]
  else if first = 0xED then some [⟨0x80, 0x9F⟩, tail]
  else if first < 0xF0 then some [tail, tail]
  else if first = 0xF0 then some [⟨0x90, 0xBF⟩, tail, tail]
  else if first < 0xF4 then some [tail, tail, tail]
  else if first = 0xF4 then some [⟨0x80, 0x8F⟩, tail, tail]
  else none

/-- How many of the bytes lie in the ranges, one by one, before the first that does not. -/
def matching : List ByteRange → List UInt8 → Nat
  | r :: rs, b :: bs => if r.contains b then matching rs bs + 1 else 0
  | _, _ => 0

/-- The character whose encoding has this first byte and these bytes behind it. -/
def assemble (first : UInt8) : List UInt8 → Char
  | [] => Char.ofNat first.toNat
  | following =>
    Char.ofNat (following.foldl (fun value b => value * 64 + b.toNat % 64)
      (first.toNat % Nat.pow 2 (6 - following.length)))

inductive Piece where
  | character (c : Char) (width : Nat)
  /-- A beginning of a character that goes no further, because the next byte does not fit or,
  if `truncated`, because there is none. -/
  | illFormed (width : Nat) (truncated : Bool)
deriving DecidableEq, Repr

def Piece.width : Piece → Nat
  | .character _ width => width
  | .illFormed width _ => width

/-- The piece that starts with `first`, where `rest` comes behind it. -/
def piece (first : UInt8) (rest : List UInt8) : Piece :=
  match followers first with
  | none => .illFormed 1 false
  | some ranges =>
    let count := matching ranges rest
    if count = ranges.length then .character (assemble first (rest.take count)) (count + 1)
    else .illFormed (count + 1) (count = rest.length)

def cut (done : Array Piece) : List UInt8 → Array Piece
  | [] => done
  | first :: rest =>
    cut (done.push (piece first rest)) (rest.drop ((piece first rest).width - 1))
termination_by bytes => bytes.length
decreasing_by
  simp only [List.length_drop, List.length_cons]
  omega

def pieces (bytes : List UInt8) : List Piece := (cut #[] bytes).toList

def Piece.character? : Piece → Option Char
  | .character c _ => some c
  | .illFormed _ _ => none

structure Defect where
  /-- The number of bytes before it. -/
  index : Nat
  width : Nat
  truncated : Bool
deriving DecidableEq, Repr

def Defect.message (d : Defect) : String :=
  if d.truncated then s!"incomplete utf-8 byte sequence from index {d.index}"
  else s!"invalid utf-8 sequence of {d.width} bytes from index {d.index}"

/-- The characters before the first ill-formed piece, and that piece if there is one. -/
def decode (bytes : List UInt8) : String × Option Defect :=
  let all := pieces bytes
  let readable := all.takeWhile (·.character?.isSome)
  let text := String.ofList (readable.filterMap (·.character?))
  match all.drop readable.length with
  | .illFormed width truncated :: _ =>
    (text, some ⟨readable.foldl (fun sum p => sum + p.width) 0, width, truncated⟩)
  | _ => (text, none)

def replacement : Char := '\uFFFD'

def lossy (bytes : List UInt8) : String :=
  String.ofList ((pieces bytes).map fun p => p.character?.getD replacement)

theorem matching_le_left (ranges : List ByteRange) (bytes : List UInt8) :
    matching ranges bytes ≤ ranges.length := by
  fun_induction matching ranges bytes <;> simp_all

theorem matching_le_right (ranges : List ByteRange) (bytes : List UInt8) :
    matching ranges bytes ≤ bytes.length := by
  fun_induction matching ranges bytes <;> simp_all

theorem piece_width_pos (first : UInt8) (rest : List UInt8) : 0 < (piece first rest).width := by
  unfold piece
  split
  · simp [Piece.width]
  · dsimp only
    split <;> simp [Piece.width]

theorem piece_width_le (first : UInt8) (rest : List UInt8) :
    (piece first rest).width ≤ (first :: rest).length := by
  unfold piece
  split
  · simp [Piece.width]
  · rename_i ranges _
    have h := matching_le_right ranges rest
    dsimp only
    split <;> simpa [Piece.width] using h

theorem cut_eq (done : Array Piece) (bytes : List UInt8) :
    cut done bytes = done ++ cut #[] bytes := by
  match bytes with
  | [] => simp [cut]
  | first :: rest =>
    have left := cut_eq (done.push (piece first rest)) (rest.drop ((piece first rest).width - 1))
    have right := cut_eq (Array.push #[] (piece first rest))
      (rest.drop ((piece first rest).width - 1))
    rw [cut, cut, left, right]
    simp
termination_by bytes.length
decreasing_by
  all_goals
    simp only [List.length_drop, List.length_cons]
    omega

@[simp] theorem pieces_nil : pieces [] = [] := by
  simp [pieces, cut]

theorem pieces_cons (first : UInt8) (rest : List UInt8) :
    pieces (first :: rest) =
      piece first rest :: pieces (rest.drop ((piece first rest).width - 1)) := by
  unfold pieces
  rw [cut, cut_eq]
  simp

end SumomoLexer.Utf8
