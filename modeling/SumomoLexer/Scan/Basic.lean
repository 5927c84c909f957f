import SumomoLexer.Cursor
import SumomoLexer.Journal
import SumomoLexer.Rejection

/-! # The state of a scan

A scan holds a cursor into its text, the line mark of the cursor, the tokens emitted so far and the
journal. A step of a scan ends with a result or with a failure, and with a state in either case: the
tokens and the journal of a scan that fails stay visible.

Steps are classified by what a successful one does to the cursor. A step that `Advances` stays in
the same text and does not end behind where it began; one that `Consumes` ends further on.
-/
namespace SumomoLexer
open Vocabulary
set_option autoImplicit false

structure Scan where
  cursor : Cursor
  line : LineMark
  tokens : Array Token
  journal : Array Journal.Entry
deriving DecidableEq, Repr

abbrev ScanM := EStateM Failure Scan

namespace Scan

def ofText (bound : Offset.Bound) (text : String) : Scan :=
  ⟨Cursor.ofArray bound text.toList.toArray, LineMark.first, #[], #[]⟩

def remaining (s : Scan) : Nat := s.cursor.remaining

variable {α β : Type}

def checked (result : Except Fault α) : ScanM α := fun s =>
  match result with
  | .ok a => .ok a s
  | .error f => .error (.fault f) s

def move (operation : Cursor → Except Fault (α × Cursor)) : ScanM α := fun s =>
  match operation s.cursor with
  | .ok (a, cursor) => .ok a { s with cursor }
  | .error f => .error (.fault f) s

def reject (cause : Cause) : ScanM α := fun s =>
  .error (.rejected ⟨cause, s.cursor.position, s.line⟩) s

def position : ScanM Nat := fun s => .ok s.cursor.position s

def look : ScanM (Option Char) := fun s => .ok s.cursor.next? s

/-- Adds a token over the given range, with the line mark of the scan. -/
def emit (kind : Token.Kind) (value : Option String) (range : Span) : ScanM Unit := fun s =>
  let token : Token := ⟨kind, value, s.line, range⟩
  .ok () { s with tokens := s.tokens.push token, journal := s.journal.push (.emitted token) }

/-- Adds a token over everything from `start` up to the cursor. -/
def emitFrom (kind : Token.Kind) (value : Option String) (start : Nat) : ScanM Unit := do
  let range ← checked (Span.make start (← position))
  emit kind value range

/-- Passes filler and keeps the line mark up to date. -/
def passFiller : ScanM Unit := fun s =>
  match s.cursor.takeRun isFiller with
  | .ok (count, cursor) =>
    .ok () { s with cursor, line := s.line.past s.cursor.position (s.cursor.ahead count) }
  | .error f => .error (.fault f) s

/-! ## Steps in sequence -/

theorem bind_eq_ok_iff {m : ScanM α} {f : α → ScanM β} {s t : Scan} {b : β} :
    (m >>= f) s = .ok b t ↔ ∃ a r, m s = .ok a r ∧ f a r = .ok b t := by
  change EStateM.bind m f s = _ ↔ _
  unfold EStateM.bind
  cases m s with
  | ok a r =>
    constructor
    · exact fun h => ⟨a, r, rfl, h⟩
    · rintro ⟨_, _, e, h⟩
      cases e
      exact h
  | error e r => simp

theorem bind_eq_error_iff {m : ScanM α} {f : α → ScanM β} {s t : Scan} {e : Failure} :
    (m >>= f) s = .error e t ↔
      m s = .error e t ∨ ∃ a r, m s = .ok a r ∧ f a r = .error e t := by
  change EStateM.bind m f s = _ ↔ _
  unfold EStateM.bind
  cases m s with
  | ok a r =>
    constructor
    · exact fun h => .inr ⟨a, r, rfl, h⟩
    · rintro (h | ⟨_, _, e, h⟩)
      · cases h
      · cases e
        exact h
  | error e r => simp

theorem pure_eq_ok_iff {a b : α} {s t : Scan} :
    (pure a : ScanM α) s = .ok b t ↔ b = a ∧ t = s := by
  change EStateM.Result.ok a s = _ ↔ _
  simp [eq_comm]

theorem position_bind (f : Nat → ScanM β) (s : Scan) :
    (position >>= f) s = f s.cursor.position s := rfl

theorem look_bind (f : Option Char → ScanM β) (s : Scan) :
    (look >>= f) s = f s.cursor.next? s := rfl

theorem get_bind (f : Scan → ScanM β) (s : Scan) : (get >>= f) s = f s s := rfl

theorem checked_bind_eq_ok_iff {result : Except Fault α} {f : α → ScanM β} {s t : Scan} {b : β} :
    (checked result >>= f) s = .ok b t ↔ ∃ a, result = .ok a ∧ f a s = .ok b t := by
  cases result with
  | ok a =>
    change f a s = _ ↔ _
    simp
  | error e =>
    change EStateM.Result.error (Failure.fault e) s = _ ↔ _
    simp

theorem move_eq_ok_iff {operation : Cursor → Except Fault (α × Cursor)} {s t : Scan} {a : α} :
    move operation s = .ok a t ↔
      ∃ cursor, operation s.cursor = .ok (a, cursor) ∧ t = { s with cursor } := by
  unfold move
  split
  · rename_i b cursor h
    simp only [EStateM.Result.ok.injEq, h, Except.ok.injEq, Prod.mk.injEq]
    constructor
    · rintro ⟨rfl, rfl⟩
      exact ⟨cursor, ⟨rfl, rfl⟩, rfl⟩
    · rintro ⟨_, ⟨rfl, rfl⟩, rfl⟩
      exact ⟨rfl, rfl⟩
  · rename_i h
    simp [h]

theorem move_bind_eq_ok_iff {operation : Cursor → Except Fault (α × Cursor)} {f : α → ScanM β}
    {s t : Scan} {b : β} :
    (move operation >>= f) s = .ok b t ↔
      ∃ a cursor, operation s.cursor = .ok (a, cursor) ∧ f a { s with cursor } = .ok b t := by
  rw [bind_eq_ok_iff]
  constructor
  · rintro ⟨a, _, moved, run⟩
    obtain ⟨cursor, step, rfl⟩ := move_eq_ok_iff.mp moved
    exact ⟨a, cursor, step, run⟩
  · rintro ⟨a, cursor, moved, run⟩
    exact ⟨a, _, move_eq_ok_iff.mpr ⟨cursor, moved, rfl⟩, run⟩

/-! ## What steps do to the cursor -/

def Advances (m : ScanM α) : Prop :=
  ∀ ⦃s t a⦄, m s = .ok a t →
    t.cursor.source = s.cursor.source ∧ s.cursor.position ≤ t.cursor.position

def Consumes (m : ScanM α) : Prop :=
  ∀ ⦃s t a⦄, m s = .ok a t →
    t.cursor.source = s.cursor.source ∧ s.cursor.position < t.cursor.position

theorem remaining_lt {s t : Scan} (source : t.cursor.source = s.cursor.source)
    (further : s.cursor.position < t.cursor.position) : t.remaining < s.remaining := by
  have bound := t.cursor.position_le
  unfold remaining Cursor.remaining
  rw [source] at bound ⊢
  omega

theorem Consumes.remaining_lt {m : ScanM α} (h : Consumes m) {s t : Scan} {a : α}
    (run : m s = .ok a t) : t.remaining < s.remaining :=
  Scan.remaining_lt (h run).1 (h run).2

theorem Consumes.advances {m : ScanM α} (h : Consumes m) : Advances m :=
  fun _ _ _ run => ⟨(h run).1, Nat.le_of_lt (h run).2⟩

theorem Advances.bind {m : ScanM α} {f : α → ScanM β} (hm : Advances m)
    (hf : ∀ a, Advances (f a)) : Advances (m >>= f) := by
  intro s t b run
  obtain ⟨a, r, first, second⟩ := bind_eq_ok_iff.mp run
  exact ⟨(hf a second).1.trans (hm first).1, Nat.le_trans (hm first).2 (hf a second).2⟩

theorem Consumes.bind {m : ScanM α} {f : α → ScanM β} (hm : Consumes m)
    (hf : ∀ a, Advances (f a)) : Consumes (m >>= f) := by
  intro s t b run
  obtain ⟨a, r, first, second⟩ := bind_eq_ok_iff.mp run
  exact ⟨(hf a second).1.trans (hm first).1, Nat.lt_of_lt_of_le (hm first).2 (hf a second).2⟩

theorem Advances.bind_consumes {m : ScanM α} {f : α → ScanM β} (hm : Advances m)
    (hf : ∀ a, Consumes (f a)) : Consumes (m >>= f) := by
  intro s t b run
  obtain ⟨a, r, first, second⟩ := bind_eq_ok_iff.mp run
  exact ⟨(hf a second).1.trans (hm first).1, Nat.lt_of_le_of_lt (hm first).2 (hf a second).2⟩

theorem pure_advances (a : α) : Advances (pure a : ScanM α) := by
  intro s t b run
  obtain ⟨_, rfl⟩ := pure_eq_ok_iff.mp run
  exact ⟨rfl, Nat.le_refl _⟩

theorem reject_consumes (cause : Cause) : Consumes (reject cause : ScanM α) := by
  intro s t a run
  cases run

theorem checked_advances (result : Except Fault α) : Advances (checked result) := by
  intro s t a run
  cases result <;> cases run
  exact ⟨rfl, Nat.le_refl _⟩

theorem position_advances : Advances position := by
  intro s t a run
  cases run
  exact ⟨rfl, Nat.le_refl _⟩

theorem emit_advances (kind : Token.Kind) (value : Option String) (range : Span) :
    Advances (emit kind value range) := by
  intro s t a run
  cases run
  exact ⟨rfl, Nat.le_refl _⟩

theorem emitFrom_advances (kind : Token.Kind) (value : Option String) (start : Nat) :
    Advances (emitFrom kind value start) :=
  position_advances.bind fun _ => (checked_advances _).bind fun _ => emit_advances _ _ _

theorem passFiller_advances : Advances passFiller := by
  intro s t a run
  unfold passFiller at run
  split at run
  · rename_i count cursor h
    obtain ⟨_, _, hs, hp, _⟩ := Cursor.takeRun_eq_ok_iff.mp h
    cases run
    exact ⟨hs, by simp only [hp]; omega⟩
  · cases run

end Scan
end SumomoLexer
