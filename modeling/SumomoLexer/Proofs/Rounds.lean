import SumomoLexer.Proofs.Progress

/-! # Rounds

A compound can be read by descent: its parameters are read in a loop, each of them is an expression,
and that may be a compound again. A scan counts the open brackets instead and takes turns, which comes
to the same.

A round of the loop over parameters takes a separator and reads the expression behind it; a round of
the loop over a text reads one expression outside brackets. All rounds are counted here, those of the
compounds inside a compound among its own. Each of them takes a character that no other takes, and so
there are at most as many as characters ahead.
-/
namespace SumomoLexer
open Vocabulary
set_option autoImplicit false

namespace Scan

variable {α β : Type} {s r q t : Scan} {nested : Bool} {e : Failure} {n m : Nat}

/-! ## Descent -/

theorem bind_congr_of_ok {m : ScanM α} {f g : α → ScanM β}
    (same : ∀ a t, m s = .ok a t → f a t = g a t) : (m >>= f) s = (m >>= g) s := by
  change EStateM.bind m f s = EStateM.bind m g s
  unfold EStateM.bind
  cases run : m s with
  | ok a t => exact same a t run
  | error e t => rfl

/-- Closing some brackets and then some more closes them all. -/
theorem closing_add (inner outer : Nat) (s : Scan) :
    closing (inner + outer) s = (closing inner >>= fun _ => closing outer) s := by
  cases inner with
  | zero => rw [Nat.zero_add, closing_zero, pure_bind]
  | succ inner =>
    rw [Nat.add_right_comm, closing_succ, closing_succ, bind_assoc]
    apply bind_congr_of_ok
    intro turned r run
    have depth : turned.depth (inner + outer) = turned.depth inner + outer := by
      cases turned <;> simp only [Turn.depth] <;> omega
    rw [depth]
    exact closing_add (turned.depth inner) outer r
termination_by s.remaining
decreasing_by exact turn_consumes.remaining_lt run

theorem takeIf_passes {expected : Char} (run : move (Cursor.takeIf expected) s = .ok true t) :
    t.cursor.source = s.cursor.source ∧ t.cursor.position = s.cursor.position + 1 := by
  obtain ⟨d, taken, rfl⟩ := move_eq_ok_iff.mp run
  obtain ⟨-, -, source, place, -⟩ := Cursor.takeIf_eq_true_iff.mp taken
  exact ⟨source, place⟩

theorem takeIf_remaining_lt {expected : Char}
    (run : move (Cursor.takeIf expected) s = .ok true t) : t.remaining < s.remaining := by
  obtain ⟨source, place⟩ := takeIf_passes run
  exact remaining_lt source (by omega)

theorem expression_advances (nested : Bool) : Advances (expression nested) := by
  intro s t _ run
  obtain ⟨source, further | ⟨-, place, -⟩⟩ := expression_progress run
  · exact ⟨source, Nat.le_of_lt further⟩
  · exact ⟨source, place⟩

theorem Advances.remaining_le {m : ScanM α} (h : Advances m) {a : α} (run : m s = .ok a t) :
    t.remaining ≤ s.remaining := by
  obtain ⟨source, place⟩ := h run
  unfold remaining Cursor.remaining
  rw [source]
  exact Nat.sub_le_sub_left place _

theorem round_remaining_lt (found : move (Cursor.takeIf separator) s = .ok true r)
    (read : expression true r = .ok () q) : q.remaining < s.remaining :=
  Nat.lt_of_le_of_lt ((expression_advances true).remaining_le read) (takeIf_remaining_lt found)

/-- One round of the loop over parameters, with what comes behind it and what comes instead of it. -/
def round (again last : ScanM Unit) : ScanM Unit := do
  if ← move (Cursor.takeIf separator) then
    expression true
    again
  else last

theorem round_bind (again last more : ScanM Unit) :
    (round again last >>= fun _ => more) =
      round (again >>= fun _ => more) (last >>= fun _ => more) := by
  unfold round
  rw [bind_assoc]
  apply bind_congr
  intro found
  cases found with
  | true => exact bind_assoc _ _ _
  | false => rfl

/-- What comes behind a round starts further on. -/
theorem round_congr {again other : ScanM Unit} (last : ScanM Unit)
    (same : ∀ t, t.remaining < s.remaining → again t = other t) :
    round again last s = round other last s := by
  apply bind_congr_of_ok
  intro found r taken
  cases found with
  | true =>
    apply bind_congr_of_ok
    intro _ t read
    exact same t (round_remaining_lt taken read)
  | false => rfl

/-- The loop over parameters, each read by descent. -/
def parameters : ScanM Unit := fun s =>
  match _found : move (Cursor.takeIf separator) s with
  | .ok true r =>
    match _read : expression true r with
    | .ok () q => parameters q
    | .error e t => .error e t
  | .ok false t => .ok () t
  | .error e t => .error e t
termination_by s => s.remaining
decreasing_by exact round_remaining_lt _found _read

theorem parameters_eq : parameters = round parameters (pure ()) := by
  funext s
  rw [parameters]
  change _ = EStateM.bind (move (Cursor.takeIf separator)) _ s
  unfold EStateM.bind
  split
  · rename_i r found
    rw [found]
    change _ = EStateM.bind (expression true) (fun _ => parameters) r
    unfold EStateM.bind
    split <;> simp_all
  · rename_i found
    rw [found]
    rfl
  · rename_i found
    rw [found]

def closeCompound : ScanM Unit := do
  closeBracket
  passFiller

theorem closing_one : closing 1 = round (closing 1) closeCompound := by
  apply (closing_succ 0).trans
  unfold turn
  rw [bind_assoc]
  apply bind_congr
  intro found
  cases found with
  | true =>
    change (enter true >>= _) >>= _ = (enter true >>= _) >>= _
    rw [bind_assoc, bind_assoc]
    apply bind_congr
    intro opened
    cases opened with
    | true => exact funext (closing_add 1 1)
    | false => rfl
  | false =>
    change (closeBracket >>= fun _ => passFiller >>= fun _ => pure Turn.closed) >>= _ = closeCompound
    rw [bind_assoc]
    apply bind_congr
    intro _
    rw [bind_assoc]
    simp only [pure_bind, Turn.depth, closing_zero]
    exact bind_pure passFiller

/-- To close the innermost bracket is to read the parameters left and close the compound. -/
theorem closing_one_eq (s : Scan) : closing 1 s = (parameters >>= fun _ => closeCompound) s := by
  rw [closing_one, parameters_eq, round_bind, pure_bind]
  apply round_congr
  intro t _
  exact closing_one_eq t
termination_by s.remaining

theorem expression_eq (nested : Bool) : expression nested = (do
    if ← enter nested then
      parameters
      closeCompound
    else pure ()) := by
  unfold expression
  apply bind_congr
  intro opened
  cases opened with
  | true => exact funext closing_one_eq
  | false => rfl

/-! ## Counting rounds -/

/-- What is read by descent. -/
inductive Piece where
  | expression (nested : Bool)
  | parameters
deriving DecidableEq, Repr

def Piece.scan : Piece → ScanM Unit
  | .expression nested => Scan.expression nested
  | .parameters => Scan.parameters

theorem Piece.scan_expression (nested : Bool) : (Piece.expression nested).scan = (do
    if ← enter nested then
      Piece.parameters.scan
      closeCompound
    else pure ()) := expression_eq nested

theorem Piece.scan_parameters :
    Piece.parameters.scan = round Piece.parameters.scan (pure ()) := parameters_eq

/-- How reading a piece ends, and the number of rounds of all loops over parameters that it takes. -/
inductive Rounds : Piece → Scan → Nat → EStateM.Result Failure Scan Unit → Prop
  | refused {nested : Bool} {s t : Scan} {e : Failure} :
    enter nested s = .error e t → Rounds (.expression nested) s 0 (.error e t)
  | simple {nested : Bool} {s t : Scan} :
    enter nested s = .ok false t → Rounds (.expression nested) s 0 (.ok () t)
  | broken {nested : Bool} {s r t : Scan} {n : Nat} {e : Failure} :
    enter nested s = .ok true r → Rounds .parameters r n (.error e t) →
      Rounds (.expression nested) s n (.error e t)
  | compound {nested : Bool} {s r q : Scan} {n : Nat} :
    enter nested s = .ok true r → Rounds .parameters r n (.ok () q) →
      Rounds (.expression nested) s n (closeCompound q)
  | faulted {s t : Scan} {e : Failure} :
    move (Cursor.takeIf separator) s = .error e t → Rounds .parameters s 0 (.error e t)
  | done {s t : Scan} :
    move (Cursor.takeIf separator) s = .ok false t → Rounds .parameters s 0 (.ok () t)
  | last {s r t : Scan} {n : Nat} {e : Failure} :
    move (Cursor.takeIf separator) s = .ok true r → Rounds (.expression true) r n (.error e t) →
      Rounds .parameters s (n + 1) (.error e t)
  | next {s r q : Scan} {m n : Nat} {result : EStateM.Result Failure Scan Unit} :
    move (Cursor.takeIf separator) s = .ok true r → Rounds (.expression true) r m (.ok () q) →
      Rounds .parameters q n result → Rounds .parameters s (m + n + 1) result

/-- How the loop over a text ends, and the number of its rounds with those in the expressions. -/
inductive TextRounds : Scan → Nat → EStateM.Result Failure Scan Unit → Prop
  | done {s : Scan} : s.cursor.atEnd = true → TextRounds s 0 (.ok () s)
  | faulted {s t : Scan} {e : Failure} :
    ¬ s.cursor.atEnd = true → passFiller s = .error e t → TextRounds s 1 (.error e t)
  | last {s r t : Scan} {n : Nat} {e : Failure} :
    ¬ s.cursor.atEnd = true → passFiller s = .ok () r → Rounds (.expression false) r n (.error e t) →
      TextRounds s (n + 1) (.error e t)
  | next {s r q : Scan} {m n : Nat} {result : EStateM.Result Failure Scan Unit} :
    ¬ s.cursor.atEnd = true → passFiller s = .ok () r → Rounds (.expression false) r m (.ok () q) →
      TextRounds q n result → TextRounds s (m + n + 1) result

/-! ### Every run makes its rounds -/

theorem bind_of_error {m : ScanM α} {f : α → ScanM β} (run : m s = .error e t) :
    (m >>= f) s = .error e t :=
  bind_eq_error_iff.mpr (.inl run)

theorem enter_further (run : enter nested s = .ok true t) :
    t.cursor.source = s.cursor.source ∧ s.cursor.position < t.cursor.position := by
  obtain ⟨source, further | ⟨-, never, -⟩⟩ := enter_progress run
  · exact ⟨source, further⟩
  · cases never

theorem exists_rounds (piece : Piece) (s : Scan) : ∃ n, Rounds piece s n (piece.scan s) := by
  cases piece with
  | expression nested =>
    rw [Piece.scan_expression]
    cases entered : enter nested s with
    | error e t =>
      rw [bind_of_error entered]
      exact ⟨0, .refused entered⟩
    | ok opened r =>
      rw [bind_of_ok entered]
      cases opened with
      | false => exact ⟨0, .simple entered⟩
      | true =>
        obtain ⟨n, rounds⟩ := exists_rounds .parameters r
        rw [if_pos rfl]
        cases looped : Piece.parameters.scan r with
        | error e t =>
          rw [looped] at rounds
          rw [bind_of_error looped]
          exact ⟨n, .broken entered rounds⟩
        | ok _ q =>
          rw [looped] at rounds
          rw [bind_of_ok looped]
          exact ⟨n, .compound entered rounds⟩
  | parameters =>
    rw [Piece.scan_parameters]
    unfold round
    cases found : move (Cursor.takeIf separator) s with
    | error e t =>
      rw [bind_of_error found]
      exact ⟨0, .faulted found⟩
    | ok taken r =>
      rw [bind_of_ok found]
      cases taken with
      | false => exact ⟨0, .done found⟩
      | true =>
        obtain ⟨m, (within : Rounds _ _ _ (expression true r))⟩ := exists_rounds (.expression true) r
        rw [if_pos rfl]
        cases read : expression true r with
        | error e t =>
          rw [read] at within
          rw [bind_of_error read]
          exact ⟨m + 1, .last found within⟩
        | ok _ q =>
          rw [read] at within
          rw [bind_of_ok read]
          obtain ⟨n, rounds⟩ := exists_rounds .parameters q
          exact ⟨m + n + 1, .next found within rounds⟩
termination_by s.remaining
decreasing_by
  · exact remaining_lt (enter_further entered).1 (enter_further entered).2
  · exact takeIf_remaining_lt found
  · exact round_remaining_lt found read

theorem exists_textRounds (s : Scan) : ∃ n, TextRounds s n (expressions s) := by
  by_cases finished : s.cursor.atEnd = true
  · rw [expressions_of_finished finished]
    exact ⟨0, .done finished⟩
  · rw [expressions_of_unfinished finished]
    unfold outermost
    rw [bind_assoc]
    cases passed : passFiller s with
    | error e t =>
      rw [bind_of_error passed]
      exact ⟨1, .faulted finished passed⟩
    | ok _ r =>
      rw [bind_of_ok passed]
      obtain ⟨m, (within : Rounds _ _ _ (expression false r))⟩ := exists_rounds (.expression false) r
      cases read : expression false r with
      | error e t =>
        rw [read] at within
        rw [bind_of_error read]
        exact ⟨m + 1, .last finished passed within⟩
      | ok _ q =>
        rw [read] at within
        rw [bind_of_ok read]
        obtain ⟨n, rounds⟩ := exists_textRounds q
        exact ⟨m + n + 1, .next finished passed within rounds⟩
termination_by s.remaining
decreasing_by exact outermost_remaining_lt finished (bind_eq_ok_iff.mpr ⟨_, r, passed, read⟩)

/-! ### No other run is counted -/

variable {piece : Piece} {result : EStateM.Result Failure Scan Unit}

theorem Rounds.result_eq (rounds : Rounds piece s n result) : result = piece.scan s := by
  induction rounds with
  | refused entered => rw [Piece.scan_expression, bind_of_error entered]
  | simple entered =>
    rw [Piece.scan_expression, bind_of_ok entered]
    rfl
  | broken entered _ ih =>
    rw [Piece.scan_expression, bind_of_ok entered, if_pos rfl, bind_of_error ih.symm]
  | compound entered _ ih =>
    rw [Piece.scan_expression, bind_of_ok entered, if_pos rfl, bind_of_ok ih.symm]
  | faulted found =>
    rw [Piece.scan_parameters, round, bind_of_error found]
  | done found =>
    rw [Piece.scan_parameters, round, bind_of_ok found]
    rfl
  | last found _ ih =>
    rw [Piece.scan_parameters, round, bind_of_ok found, if_pos rfl]
    exact (bind_of_error ih.symm).symm
  | next found _ _ ih rest =>
    rw [Piece.scan_parameters, round, bind_of_ok found, if_pos rfl]
    exact rest.trans (bind_of_ok (f := fun _ => Piece.parameters.scan) ih.symm).symm

theorem TextRounds.result_eq (rounds : TextRounds s n result) : result = expressions s := by
  induction rounds with
  | done finished => rw [expressions_of_finished finished]
  | faulted unfinished passed =>
    rw [expressions_of_unfinished unfinished]
    exact (bind_of_error (bind_of_error passed)).symm
  | last unfinished passed within =>
    rw [expressions_of_unfinished unfinished]
    exact (bind_of_error ((bind_of_ok passed).trans within.result_eq.symm)).symm
  | next unfinished passed within _ ih =>
    have read : outermost _ = _ := (bind_of_ok passed).trans within.result_eq.symm
    rw [expressions_of_unfinished unfinished, bind_of_ok read]
    exact ih

/-! ### Every round takes a character -/

theorem closeCompound_onward : Onward closeCompound :=
  closeBracket_onward.bind fun _ => passFiller_onward

theorem Rounds.further (rounds : Rounds piece s n result) (placed : s.line.start ≤ s.cursor.position) :
    Extends s (final result) ∧ n + s.cursor.position ≤ (final result).cursor.position := by
  induction rounds with
  | @refused nested s t _ entered | @simple nested s t entered =>
    have after : Extends s t := (enter_onward nested).of_run (.refl placed) entered
    exact ⟨after, Nat.le_trans (Nat.le_of_eq (Nat.zero_add _)) after.position_le⟩
  | @broken nested s r t n e entered _ ih =>
    have after : Extends s r := (enter_onward nested).of_run (.refl placed) entered
    obtain ⟨within, far⟩ := ih after.placed
    have begun := (enter_further entered).2
    exact ⟨after.trans within, by omega⟩
  | @compound nested s r q n entered _ ih =>
    have after : Extends s r := (enter_onward nested).of_run (.refl placed) entered
    obtain ⟨(within : Extends r q), (far : n + _ ≤ q.cursor.position)⟩ := ih after.placed
    have begun := (enter_further entered).2
    have closed := closeCompound_onward (Extends.refl within.placed)
    have ended := closed.position_le
    exact ⟨(after.trans within).trans closed, by omega⟩
  | @faulted s t _ found | @done s t found =>
    have after : Extends s t := (takeIf_onward separator).of_run (.refl placed) found
    exact ⟨after, Nat.le_trans (Nat.le_of_eq (Nat.zero_add _)) after.position_le⟩
  | @last s r t n e found _ ih =>
    have after : Extends s r := (takeIf_onward separator).of_run (.refl placed) found
    have taken := (takeIf_passes found).2
    obtain ⟨within, far⟩ := ih after.placed
    exact ⟨after.trans within, by omega⟩
  | @next s r q m n result found _ _ ih rest =>
    have after : Extends s r := (takeIf_onward separator).of_run (.refl placed) found
    have taken := (takeIf_passes found).2
    obtain ⟨(within : Extends r q), (far : m + _ ≤ q.cursor.position)⟩ := ih after.placed
    obtain ⟨whole, farther⟩ := rest within.placed
    exact ⟨(after.trans within).trans whole, by omega⟩

/-- A compound takes an open bracket as well, so that its rounds leave a character over. -/
theorem Rounds.further_expression (rounds : Rounds (.expression nested) s n result)
    (placed : s.line.start ≤ s.cursor.position) (pos : 0 < n) :
    n + s.cursor.position < (final result).cursor.position := by
  cases rounds with
  | refused | simple => cases pos
  | @broken _ _ r t _ _ entered rounds =>
    have after : Extends s r := (enter_onward nested).of_run (.refl placed) entered
    have begun := (enter_further entered).2
    have far := (rounds.further after.placed).2
    omega
  | @compound _ _ r q _ entered rounds =>
    have after : Extends s r := (enter_onward nested).of_run (.refl placed) entered
    have begun := (enter_further entered).2
    obtain ⟨(within : Extends r q), (far : n + _ ≤ q.cursor.position)⟩ := rounds.further after.placed
    have ended := (closeCompound_onward (.refl within.placed)).position_le
    omega

theorem Extends.add_le_remaining (h : Extends s t) (far : n + s.cursor.position ≤ t.cursor.position) :
    n + t.remaining ≤ s.remaining := by
  have bound := t.cursor.position_le
  unfold remaining Cursor.remaining
  rw [h.source_eq] at bound ⊢
  omega

theorem Rounds.le_remaining (rounds : Rounds piece s n result)
    (placed : s.line.start ≤ s.cursor.position) : n ≤ s.remaining := by
  obtain ⟨whole, far⟩ := rounds.further placed
  exact Nat.le_of_add_right_le (whole.add_le_remaining far)

theorem remaining_pos (unfinished : ¬ s.cursor.atEnd = true) : 0 < s.remaining := by
  have bound := s.cursor.position_le
  rw [Cursor.atEnd_iff] at unfinished
  unfold remaining Cursor.remaining
  omega

theorem TextRounds.le_remaining (rounds : TextRounds s n result)
    (placed : s.line.start ≤ s.cursor.position) : n ≤ s.remaining := by
  induction rounds with
  | done => exact Nat.zero_le _
  | faulted unfinished => exact remaining_pos unfinished
  | @last s r t n e unfinished passed within =>
    have start : Extends s r := passFiller_onward.of_run (.refl placed) passed
    have whole : Extends r t := (within.further start.placed).1
    cases n with
    | zero => exact remaining_pos unfinished
    | succ n =>
      have far : _ < t.cursor.position := within.further_expression start.placed (Nat.succ_pos n)
      have begun := start.position_le
      exact Nat.le_of_add_right_le ((start.trans whole).add_le_remaining (by omega))
  | @next s r q m n result unfinished passed within _ ih =>
    have start : Extends s r := passFiller_onward.of_run (.refl placed) passed
    have whole : Extends r q := (within.further start.placed).1
    have rest := ih whole.placed
    cases m with
    -- No round was made in the expression, but it took a character or the text has ended.
    | zero =>
      have read : outermost s = _ := (bind_of_ok passed).trans within.result_eq.symm
      have fewer := outermost_remaining_lt unfinished read
      omega
    | succ m =>
      have far : _ < q.cursor.position := within.further_expression start.placed (Nat.succ_pos m)
      have begun := start.position_le
      have fewer := (start.trans whole).add_le_remaining (n := m + 1 + 1) (by omega)
      omega

/-- Where the line mark is not ahead of the cursor, an expression that is read leaves the scan further
on, at the end of the text or before a character of the vocabulary, or it finds the text at its end
and marks that. However it ends, the scan has not gone back, and tokens are only added. All loops come
to an end, with at most as many rounds in all as there are characters ahead. -/
theorem scanning_progresses {s : Scan} (placed : s.line.start ≤ s.cursor.position) :
    (∀ nested t, expression nested s = .ok () t →
      s.cursor.position < t.cursor.position ∧
          (t.cursor.atEnd = true ∨ ∃ c, t.cursor.next? = some c ∧ isMeaningful c = true) ∨
        nested = false ∧ (∀ c ∈ s.cursor.rest, isFiller c = true) ∧ t.cursor.atEnd = true ∧
          t.tokens = s.tokens.push ⟨.endMark, none, t.line, Span.empty t.cursor.position⟩) ∧
    (∀ nested, Extends s (final (expression nested s))) ∧
    (∀ piece : Piece, (∃ n, Rounds piece s n (piece.scan s)) ∧
      ∀ n result, Rounds piece s n result → result = piece.scan s ∧ n ≤ s.remaining) ∧
    (∃ n, TextRounds s n (expressions s)) ∧
      ∀ n result, TextRounds s n result → result = expressions s ∧ n ≤ s.remaining := by
  refine ⟨?_, fun nested => expression_onward nested (.refl placed), ?_, exists_textRounds s, ?_⟩
  · intro nested t run
    obtain ⟨further, clear⟩ | atEnd := expression_eq_ok run
    · exact .inl ⟨further, clear.meaningful⟩
    · exact .inr atEnd
  · intro piece
    refine ⟨exists_rounds piece s, ?_⟩
    intro n result rounds
    exact ⟨rounds.result_eq, rounds.le_remaining placed⟩
  · intro n result rounds
    exact ⟨rounds.result_eq, rounds.le_remaining placed⟩

/-- The numeral in front of the close mark is taken with the parameter and given back. -/
theorem scanning_progresses_of_give_back :
    let cursor : Cursor :=
      ⟨#['\n', 'す', 'の', '、', 'も', 'の', 'う', 'ち', '。'], 1, Offset.unbounded, by decide⟩
    let s : Scan := ⟨cursor, ⟨1, 0⟩, #[], #[]⟩
    s.line.start ≤ s.cursor.position ∧
      (∃ t, expression false s = .ok () t ∧ s.cursor.position < t.cursor.position ∧ Extends s t) ∧
      ∃ n ≤ 8, TextRounds s n (expressions s) := by
  intro cursor s
  have placed : s.line.start ≤ s.cursor.position := Nat.zero_le _
  have accepted : (expression false).run' s = some () := by decide +kernel
  have solid : ¬ ∀ c ∈ s.cursor.rest, isFiller c = true := by
    intro all
    have first : isFiller 'す' = true := all 'す' List.mem_cons_self
    exact absurd first (by decide)
  obtain ⟨further, onward, -, ⟨n, rounds⟩, bound⟩ := scanning_progresses placed
  refine ⟨placed, ?_, n, (bound n _ rounds).2, rounds⟩
  have extended := onward false
  cases run : expression false s with
  | error e t =>
    unfold EStateM.run' EStateM.run at accepted
    rw [run] at accepted
    cases accepted
  | ok _ t =>
    rw [run] at extended
    obtain ⟨later, -⟩ | ⟨-, gap, -⟩ := further false t run
    · exact ⟨t, rfl, later, extended⟩
    · exact absurd gap solid

end Scan
end SumomoLexer
