import SumomoLexer.Offset

/-! # Cursors

A cursor is a place in a text of characters, between its start and its end. It looks ahead without
moving, moves forward one character, one expected character or one run of characters, and can give
characters back one at a time. It counts its place with offsets that may have a bound. An operation
that has no answer is a fault and leaves no new cursor; `perform` then keeps the old one.
-/
namespace SumomoLexer
set_option autoImplicit false

structure Cursor where
  source : Array Char
  position : Nat
  bound : Offset.Bound
  position_le : position ≤ source.size
deriving DecidableEq, Repr

namespace Cursor

def ofArray (bound : Offset.Bound) (source : Array Char) : Cursor :=
  ⟨source, 0, bound, Nat.zero_le _⟩

def moveTo (c : Cursor) (position : Nat) (h : position ≤ c.source.size) : Cursor :=
  ⟨c.source, position, c.bound, h⟩

def length (c : Cursor) : Nat := c.source.size

def remaining (c : Cursor) : Nat := c.source.size - c.position

def next? (c : Cursor) : Option Char := c.source[c.position]?

/-- The character `n` places behind the next one. -/
def lookAhead (n : Nat) (c : Cursor) : Except Fault (Option Char) :=
  (Offset.addWithin c.bound c.position n).map (c.source[·]?)

def atEnd (c : Cursor) : Bool := c.next?.isNone

def advance (c : Cursor) (n : Nat) (h : c.position + n ≤ c.source.size) : Except Fault Cursor :=
  (Offset.addWithin c.bound c.position n).map fun _ => c.moveTo (c.position + n) h

def takeOne (c : Cursor) : Except Fault (Option Char × Cursor) :=
  if h : c.position < c.source.size then
    (c.advance 1 h).map (some c.source[c.position], ·)
  else .ok (none, c)

def giveBack (c : Cursor) : Except Fault (Unit × Cursor) :=
  if c.position = 0 then .error .nothingToGiveBack
  else .ok ((), c.moveTo (c.position - 1) (Nat.le_trans (Nat.sub_le _ _) c.position_le))

/-- Moves over the next character if it is `expected`; tells whether it was. -/
def takeIf (expected : Char) (c : Cursor) : Except Fault (Bool × Cursor) :=
  if h : c.position < c.source.size then
    if c.source[c.position] = expected then (c.advance 1 h).map (true, ·) else .ok (false, c)
  else .ok (false, c)

/-- The end of the run of characters with property `p` that begins at offset `i`. -/
def runEnd (p : Char → Bool) (source : Array Char) (i : Nat) : Nat :=
  if h : i < source.size then
    if p source[i] then runEnd p source (i + 1) else i
  else i
termination_by source.size - i

theorem le_runEnd (p : Char → Bool) (source : Array Char) (i : Nat) : i ≤ runEnd p source i := by
  fun_induction runEnd p source i with
  | case1 i h hp ih => omega
  | case2 i h hp => exact Nat.le_refl i
  | case3 i h => exact Nat.le_refl i

theorem runEnd_le (p : Char → Bool) (source : Array Char) (i : Nat) (hi : i ≤ source.size) :
    runEnd p source i ≤ source.size := by
  fun_induction runEnd p source i with
  | case1 i h hp ih => exact ih h
  | case2 i h hp => exact hi
  | case3 i h => exact hi

def runLength (p : Char → Bool) (c : Cursor) : Nat := runEnd p c.source c.position - c.position

theorem position_add_runLength_le (p : Char → Bool) (c : Cursor) :
    c.position + c.runLength p ≤ c.source.size := by
  have hle := le_runEnd p c.source c.position
  have hend := runEnd_le p c.source c.position c.position_le
  unfold runLength
  omega

/-- Moves over the run of characters with property `p`; tells how many there were. -/
def takeRun (p : Char → Bool) (c : Cursor) : Except Fault (Nat × Cursor) :=
  (c.advance (c.runLength p) (c.position_add_runLength_le p)).map (c.runLength p, ·)

def ahead (n : Nat) (c : Cursor) : List Char :=
  (c.source.extract c.position (c.position + n)).toList

theorem atEnd_iff (c : Cursor) : c.atEnd = true ↔ c.position = c.source.size := by
  have h := c.position_le
  simp only [atEnd, next?, Option.isNone_iff_eq_none, Array.getElem?_eq_none_iff]
  omega

theorem eq_moveTo_iff {c d : Cursor} {position : Nat} {h : position ≤ c.source.size} :
    d = c.moveTo position h ↔ d.source = c.source ∧ d.position = position ∧ d.bound = c.bound := by
  cases d
  simp [moveTo]

theorem advance_eq_ok_iff {c d : Cursor} {n : Nat} {h : c.position + n ≤ c.source.size} :
    c.advance n h = .ok d ↔
      Offset.Fits c.bound (c.position + n) ∧ d = c.moveTo (c.position + n) h := by
  by_cases fits : Offset.Fits c.bound (c.position + n) <;>
    simp [advance, Offset.addWithin, fits, Except.map, eq_comm]

theorem giveBack_eq_ok_iff {c d : Cursor} :
    c.giveBack = .ok ((), d) ↔
      c.position ≠ 0 ∧ d.source = c.source ∧ d.position = c.position - 1 ∧ d.bound = c.bound := by
  have back : c.position - 1 ≤ c.source.size := Nat.le_trans (Nat.sub_le _ _) c.position_le
  rw [← eq_moveTo_iff (h := back)]
  by_cases start : c.position = 0 <;> simp [giveBack, start, eq_comm]

theorem takeIf_eq_true_iff {expected : Char} {c d : Cursor} :
    c.takeIf expected = .ok (true, d) ↔
      c.next? = some expected ∧ Offset.Fits c.bound (c.position + 1) ∧
        d.source = c.source ∧ d.position = c.position + 1 ∧ d.bound = c.bound := by
  by_cases inside : c.position < c.source.size
  · rw [← eq_moveTo_iff (h := inside)]
    by_cases found : c.source[c.position] = expected
    · by_cases fits : Offset.Fits c.bound (c.position + 1) <;>
        simp [takeIf, next?, inside, found, fits, advance, Offset.addWithin, Except.map, eq_comm]
    · simp [takeIf, next?, inside, found]
  · simp [takeIf, next?, inside]

theorem takeIf_eq_false_iff {expected : Char} {c d : Cursor} :
    c.takeIf expected = .ok (false, d) ↔ c.next? ≠ some expected ∧ d = c := by
  rw [eq_comm (a := d)]
  by_cases inside : c.position < c.source.size
  · by_cases found : c.source[c.position] = expected
    · by_cases fits : Offset.Fits c.bound (c.position + 1) <;>
        simp [takeIf, next?, inside, found, fits, advance, Offset.addWithin, Except.map]
    · simp [takeIf, next?, inside, found]
  · simp [takeIf, next?, inside]

theorem takeRun_eq_ok_iff {p : Char → Bool} {c d : Cursor} {n : Nat} :
    c.takeRun p = .ok (n, d) ↔
      n = c.runLength p ∧ Offset.Fits c.bound (c.position + n) ∧
        d.source = c.source ∧ d.position = c.position + n ∧ d.bound = c.bound := by
  have bound := c.position_add_runLength_le p
  by_cases fits : Offset.Fits c.bound (c.position + c.runLength p)
  · simp only [takeRun, advance, Offset.addWithin, fits, ↓reduceIte, Except.map,
      Except.ok.injEq, Prod.mk.injEq]
    constructor
    · rintro ⟨rfl, rfl⟩
      exact ⟨rfl, fits, rfl, rfl, rfl⟩
    · rintro ⟨rfl, _, moved⟩
      exact ⟨rfl, (eq_moveTo_iff.mpr moved).symm⟩
  · simp only [takeRun, advance, Offset.addWithin, fits, ↓reduceIte, Except.map, reduceCtorEq,
      false_iff]
    rintro ⟨rfl, h, _⟩
    exact fits h

inductive Request where
  | takeOne
  | next?
  | lookAhead (n : Nat)
  | giveBack
  | takeIf (expected : Char)
  | takeRun (p : Char → Bool)
  | length
  | atEnd
  | source

inductive Answer where
  | nothing
  | character (c : Option Char)
  | truth (b : Bool)
  | count (n : Nat)
  | text (value : List Char)
deriving DecidableEq, Repr

def step (c : Cursor) : Request → Except Fault (Answer × Cursor)
  | .takeOne => c.takeOne.map fun r => (.character r.1, r.2)
  | .next? => .ok (.character c.next?, c)
  | .lookAhead n => (c.lookAhead n).map fun r => (.character r, c)
  | .giveBack => c.giveBack.map fun r => (.nothing, r.2)
  | .takeIf expected => (c.takeIf expected).map fun r => (.truth r.1, r.2)
  | .takeRun p => (c.takeRun p).map fun r => (.count r.1, r.2)
  | .length => .ok (.count c.length, c)
  | .atEnd => .ok (.truth c.atEnd, c)
  | .source => .ok (.text c.source.toList, c)

/-- Answers a request; after a fault the cursor is where it was. -/
def perform (c : Cursor) (request : Request) : Except Fault Answer × Cursor :=
  match c.step request with
  | .ok (answer, c') => (.ok answer, c')
  | .error f => (.error f, c)

end Cursor
end SumomoLexer
