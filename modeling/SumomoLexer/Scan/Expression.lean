import SumomoLexer.Scan.Basic

/-! # Scanning an expression

An expression is a run of numerals, or an open bracket, an operator, parameters that each begin with
a separator, and a close bracket. Filler may stand before and behind an expression, and nowhere else.

The first character of the close bracket is a numeral, so a run of numerals takes one character too
many if the rest of a close bracket comes next; it then gives that one back.

Nesting is counted, not recursed into: inside open brackets a scan takes turns, and a turn either
reads the start of a parameter or closes a bracket. Every turn that succeeds consumes something,
which is why `closing` ends.
-/
namespace SumomoLexer.Scan
open Vocabulary
set_option autoImplicit false

/-- Takes the numerals ahead, except for a last one that begins a close bracket. -/
def takeNumerals (kind : Token.Kind) : ScanM Unit := do
  let count ← move (Cursor.takeRun isNumeral)
  match ← look with
  | none => reject (.unfinishedNumerals kind)
  | some c => if c = closeMark ∧ 0 < count then move Cursor.giveBack else pure ()

/-- Reads a run of at least one numeral as a token of the given kind. -/
def numerals (kind : Token.Kind) : ScanM Unit := do
  let start ← position
  takeNumerals kind
  let stop ← position
  if stop = start then
    reject (.missingNumerals kind (← look))
  else
    let range ← checked (Span.make start stop)
    let value ← checked (range.slice (← get).cursor.source)
    emitFrom kind (some value) start

def require (expected : Char) : ScanM Unit := do
  if ← move (Cursor.takeIf expected) then pure ()
  else reject (.wrongCharacter expected (← look))

def openBracket : ScanM Unit := do
  let start ← position
  require Vocabulary.openBracket
  emitFrom .openBracket none start

def closeBracket : ScanM Unit := do
  let start ← position
  Vocabulary.closeBracket.forM require
  emitFrom .closeBracket none start

/-- Reads a number literal that begins with `first`, and the filler behind it. -/
def literal (first : Char) : ScanM Unit := do
  let second ← checked ((← get).cursor.lookAhead 1)
  if second = some closeMark then
    reject (.nothingToClose first)
  else
    numerals .numberLiteral
    passFiller

/-- Reads a number literal, or the part of a compound before its parameters; tells whether it was
the latter, which leaves a bracket open. Outside brackets the text may end instead. -/
def enter (nested : Bool) : ScanM Bool := do
  passFiller
  match ← look with
  | none =>
    if nested then
      reject .missingExpression
    else
      emit .endMark none (Span.empty (← position))
      pure false
  | some c =>
    if c = Vocabulary.openBracket then
      openBracket
      numerals .operator
      pure true
    else if isNumeral c then
      literal c
      pure false
    else
      reject (.strayCharacter c)

/-- What one turn did inside open brackets: it opened a further one for a compound, filled a parameter
with a literal or closed the innermost. -/
inductive Turn where
  | opened
  | filled
  | closed
deriving DecidableEq, Repr

/-- The number of open brackets after a turn, where all but the innermost were `outer` before. -/
def Turn.depth (outer : Nat) : Turn → Nat
  | opened => outer + 2
  | filled => outer + 1
  | closed => outer

def turn : ScanM Turn := do
  if ← move (Cursor.takeIf separator) then
    if ← enter true then pure .opened else pure .filled
  else
    closeBracket
    passFiller
    pure .closed

theorem takeNumerals_advances (kind : Token.Kind) : Advances (takeNumerals kind) := by
  intro s t a run
  obtain ⟨count, cursor, passed, run⟩ := move_bind_eq_ok_iff.mp run
  obtain ⟨_, _, source, place, _⟩ := Cursor.takeRun_eq_ok_iff.mp passed
  rw [look_bind] at run
  dsimp only at run
  cases ahead : cursor.next? with
  | none =>
    rw [ahead] at run
    cases run
  | some c =>
    rw [ahead] at run
    dsimp only at run
    split at run
    · rename_i give
      obtain ⟨back, moved, rfl⟩ := move_eq_ok_iff.mp run
      obtain ⟨_, backSource, backPlace, _⟩ := Cursor.giveBack_eq_ok_iff.mp moved
      exact ⟨backSource.trans source, by simp only [backPlace, place]; omega⟩
    · obtain ⟨_, rfl⟩ := pure_eq_ok_iff.mp run
      exact ⟨source, by simp only [place]; omega⟩

theorem numerals_consumes (kind : Token.Kind) : Consumes (numerals kind) := by
  intro s t a run
  unfold numerals at run
  rw [position_bind] at run
  obtain ⟨_, r, taken, run⟩ := bind_eq_ok_iff.mp run
  obtain ⟨source, further⟩ := takeNumerals_advances kind taken
  rw [position_bind] at run
  split at run
  · cases run
  · obtain ⟨range, _, run⟩ := checked_bind_eq_ok_iff.mp run
    rw [get_bind] at run
    obtain ⟨value, _, run⟩ := checked_bind_eq_ok_iff.mp run
    obtain ⟨lastSource, lastPlace⟩ := emitFrom_advances _ _ _ run
    exact ⟨lastSource.trans source, by omega⟩

theorem require_consumes (expected : Char) : Consumes (require expected) := by
  intro s t a run
  obtain ⟨found, cursor, recognised, run⟩ := move_bind_eq_ok_iff.mp run
  cases found with
  | true =>
    obtain ⟨_, _, source, place, _⟩ := Cursor.takeIf_eq_true_iff.mp recognised
    obtain ⟨_, rfl⟩ := pure_eq_ok_iff.mp run
    exact ⟨source, by simp only [place]; omega⟩
  | false => cases run

theorem openBracket_consumes : Consumes openBracket :=
  position_advances.bind_consumes fun _ => (require_consumes _).bind fun _ => emitFrom_advances _ _ _

theorem forM_advances {α : Type} {f : α → ScanM PUnit} (hf : ∀ a, Advances (f a)) (l : List α) :
    Advances (l.forM f) := by
  induction l with
  | nil => exact pure_advances _
  | cons a l ih => exact (hf a).bind fun _ => ih

theorem closeBracket_consumes : Consumes closeBracket := by
  have rest (c : Char) : Advances (require c) := (require_consumes c).advances
  refine position_advances.bind_consumes fun _ => Consumes.bind ?_ fun _ => emitFrom_advances _ _ _
  exact (require_consumes _).bind fun _ => forM_advances rest _

theorem literal_consumes (first : Char) : Consumes (literal first) := by
  intro s t a run
  unfold literal at run
  rw [get_bind] at run
  obtain ⟨second, _, run⟩ := checked_bind_eq_ok_iff.mp run
  split at run
  · cases run
  · exact ((numerals_consumes _).bind fun _ => passFiller_advances) run

theorem enter_progress {nested : Bool} {s t : Scan} {opened : Bool}
    (run : enter nested s = .ok opened t) :
    t.cursor.source = s.cursor.source ∧
      (s.cursor.position < t.cursor.position ∨
        nested = false ∧ opened = false ∧ s.cursor.position ≤ t.cursor.position ∧
          t.cursor.atEnd = true) := by
  obtain ⟨_, r, skipped, run⟩ := bind_eq_ok_iff.mp run
  obtain ⟨source, place⟩ := passFiller_advances skipped
  rw [look_bind] at run
  cases ahead : r.cursor.next? with
  | none =>
    rw [ahead] at run
    cases nested with
    | true => cases run
    | false =>
      cases run
      exact ⟨source, .inr ⟨rfl, rfl, place, by simp [Cursor.atEnd, ahead]⟩⟩
  | some c =>
    rw [ahead] at run
    have further : Consumes (do
        if c = Vocabulary.openBracket then
          openBracket
          numerals .operator
          pure true
        else if isNumeral c then
          literal c
          pure false
        else
          reject (.strayCharacter c)) := by
      split
      · exact openBracket_consumes.bind fun _ =>
          (numerals_consumes _).advances.bind fun _ => pure_advances _
      · split
        · exact (literal_consumes c).bind fun _ => pure_advances _
        · exact reject_consumes _
    obtain ⟨lastSource, lastPlace⟩ := further run
    exact ⟨lastSource.trans source, .inl (Nat.lt_of_le_of_lt place lastPlace)⟩

theorem turn_consumes : Consumes turn := by
  intro s t a run
  obtain ⟨found, cursor, recognised, run⟩ := move_bind_eq_ok_iff.mp run
  cases found with
  | true =>
    obtain ⟨_, _, source, place, _⟩ := Cursor.takeIf_eq_true_iff.mp recognised
    obtain ⟨opened, r, entered, run⟩ := bind_eq_ok_iff.mp run
    obtain ⟨enteredSource, further⟩ := enter_progress entered
    have kept : t = r := by
      cases opened <;> exact (pure_eq_ok_iff.mp run).2
    subst kept
    refine ⟨enteredSource.trans source, ?_⟩
    simp only [place] at further
    omega
  | false =>
    obtain ⟨_, rfl⟩ := Cursor.takeIf_eq_false_iff.mp recognised
    exact (closeBracket_consumes.bind fun _ => passFiller_advances.bind fun _ => pure_advances _) run

def closing (depth : Nat) : ScanM Unit := fun s =>
  match depth with
  | 0 => .ok () s
  | outer + 1 =>
    match _run : turn s with
    | .ok t s' => closing (t.depth outer) s'
    | .error e s' => .error e s'
termination_by s => s.remaining
decreasing_by exact turn_consumes.remaining_lt _run

theorem closing_zero : closing 0 = pure () := by
  funext s
  rw [closing]
  rfl

theorem closing_succ (outer : Nat) :
    closing (outer + 1) = turn >>= fun t => closing (t.depth outer) := by
  funext s
  rw [closing]
  change _ = EStateM.bind turn (fun t => closing (t.depth outer)) s
  unfold EStateM.bind
  split <;> simp_all

/-- Reads one expression, with the filler on both sides of it. Outside brackets (`nested` is false)
it may find the end of the text instead, which it marks with a token. -/
def expression (nested : Bool) : ScanM Unit := do
  if ← enter nested then closing 1 else pure ()

theorem closing_advances (depth : Nat) : Advances (closing depth) := by
  intro s t a run
  fun_induction closing depth s with
  | case1 s =>
    cases run
    exact ⟨rfl, Nat.le_refl _⟩
  | case2 s outer turned s' step ih =>
    obtain ⟨source, place⟩ := turn_consumes step
    obtain ⟨lastSource, lastPlace⟩ := ih run
    exact ⟨lastSource.trans source, by omega⟩
  | case3 s outer e s' step => cases run

theorem expression_progress {nested : Bool} {s t : Scan}
    (run : expression nested s = .ok () t) :
    t.cursor.source = s.cursor.source ∧
      (s.cursor.position < t.cursor.position ∨
        nested = false ∧ s.cursor.position ≤ t.cursor.position ∧ t.cursor.atEnd = true) := by
  obtain ⟨opened, r, entered, run⟩ := bind_eq_ok_iff.mp run
  obtain ⟨source, further⟩ := enter_progress entered
  cases opened with
  | true =>
    obtain ⟨lastSource, lastPlace⟩ := closing_advances 1 run
    exact ⟨lastSource.trans source, .inl (by simp at further; omega)⟩
  | false =>
    obtain ⟨_, rfl⟩ := pure_eq_ok_iff.mp run
    simpa using And.intro source further

end SumomoLexer.Scan
