import Mathlib.Data.List.TakeWhile
import SumomoLexer.Proofs.Lines
import SumomoLexer.Proofs.Reading.OfScan

/-! # Every step makes progress

A step may look ahead and take numerals that it gives back again. Seen as a whole it never leaves a scan
behind where it began, whether it succeeds or fails: the cursor and the line mark do not go back, and
tokens are added at the end alone, none of them in front of the place where the step began.

An expression that is read leaves the scan further on, at the end of the text or before a character of
the vocabulary. Only outside brackets it may find nothing but filler, which ends the text; then it marks
the end.
-/
namespace SumomoLexer
open Vocabulary
set_option autoImplicit false

/-- The mark behind a text lies in it, or where it was before. -/
theorem LineMark.past_start (mark : LineMark) (offset : Nat) (text : List Char)
    (placed : mark.start ≤ offset) :
    mark.start ≤ (mark.past offset text).start ∧
      (mark.past offset text).start ≤ offset + text.length := by
  induction text generalizing mark offset with
  | nil => exact ⟨Nat.le_refl _, placed⟩
  | cons c text ih =>
    rw [past, List.length_cons]
    split
    · obtain ⟨later, inside⟩ := ih ⟨mark.number + 1, offset⟩ (offset + 1) (Nat.le_add_right offset 1)
      dsimp only at later
      omega
    · obtain ⟨later, inside⟩ := ih mark (offset + 1) (Nat.le_add_right_of_le placed)
      omega

theorem LineMark.past_number_le (mark : LineMark) (offset : Nat) (text : List Char) :
    mark.number ≤ (mark.past offset text).number := by
  rw [LineMark.past_eq]
  exact Nat.le_add_right _ _

namespace Scan

variable {α β : Type} {s r t : Scan} {m : ScanM α} {f : α → ScanM β}

/-- The scan that a step leaves, with a result or with a failure. -/
def final : EStateM.Result Failure Scan α → Scan
  | .ok _ t | .error _ t => t

/-- The scan `t` stands where `s` may have come to, and its line mark lies in the text passed. -/
structure Extends (s t : Scan) : Prop where
  source_eq : t.cursor.source = s.cursor.source
  position_le : s.cursor.position ≤ t.cursor.position
  number_le : s.line.number ≤ t.line.number
  start_le : s.line.start ≤ t.line.start
  placed : t.line.start ≤ t.cursor.position
  tokens_eq : ∃ more, t.tokens.toList = s.tokens.toList ++ more ∧
    ∀ token ∈ more, s.cursor.position ≤ token.range.start

theorem Extends.refl (placed : s.line.start ≤ s.cursor.position) : Extends s s :=
  ⟨rfl, Nat.le_refl _, Nat.le_refl _, Nat.le_refl _, placed, [], (List.append_nil _).symm, nofun⟩

theorem Extends.trans (first : Extends s r) (second : Extends r t) : Extends s t := by
  obtain ⟨more, tokens, behind⟩ := first.tokens_eq
  obtain ⟨further, whole, later⟩ := second.tokens_eq
  refine ⟨second.source_eq.trans first.source_eq, Nat.le_trans first.position_le second.position_le,
    Nat.le_trans first.number_le second.number_le, Nat.le_trans first.start_le second.start_le,
    second.placed, more ++ further, ?_, ?_⟩
  · rw [whole, tokens, List.append_assoc]
  · intro token member
    rcases List.mem_append.mp member with early | late
    · exact behind token early
    · exact Nat.le_trans first.position_le (later token late)

theorem Extends.moved (h : Extends s r) {cursor : Cursor} (source : cursor.source = r.cursor.source)
    (further : s.cursor.position ≤ cursor.position) (placed : r.line.start ≤ cursor.position) :
    Extends s { r with cursor } :=
  ⟨source.trans h.source_eq, further, h.number_le, h.start_le, placed, h.tokens_eq⟩

theorem Extends.push (h : Extends s r) {token : Token}
    (behind : s.cursor.position ≤ token.range.start) : Extends s (r.push token) := by
  obtain ⟨more, tokens, all⟩ := h.tokens_eq
  refine ⟨h.source_eq, h.position_le, h.number_le, h.start_le, h.placed, more ++ [token], ?_, ?_⟩
  · rw [Scan.push, Array.toList_push, tokens, List.append_assoc]
  · intro other member
    rcases List.mem_append.mp member with early | last
    · exact all other early
    · rw [List.mem_singleton.mp last]
      exact behind

/-! ## Steps -/

/-- However the step ends, what has been extended so far is extended further. -/
def Onward (m : ScanM α) : Prop := ∀ ⦃s r⦄, Extends s r → Extends s (final (m r))

theorem Onward.of_run (hm : Onward m) (h : Extends s r) {result : EStateM.Result Failure Scan α}
    (run : m r = result) : Extends s (final result) := by
  rw [← run]
  exact hm h

theorem Onward.then (hm : Onward m) (h : Extends s r)
    (last : ∀ a t, m r = .ok a t → Extends s t → Extends s (final (f a t))) :
    Extends s (final ((m >>= f) r)) := by
  change Extends s (final (EStateM.bind m f r))
  unfold EStateM.bind
  cases run : m r with
  | ok a t => exact last a t run (hm.of_run h run)
  | error e t => exact hm.of_run h run

theorem Onward.bind (hm : Onward m) (hf : ∀ a, Onward (f a)) : Onward (m >>= f) :=
  fun _ _ h => hm.then h fun a _ _ after => hf a after

theorem pure_onward (a : α) : Onward (pure a : ScanM α) := fun _ _ h => h

theorem reject_onward (cause : Cause) : Onward (reject cause : ScanM α) := fun _ _ h => h

theorem look_onward : Onward look := fun _ _ h => h

theorem checked_onward (result : Except Fault α) : Onward (checked result) := by
  intro s r h
  cases result <;> exact h

theorem Extends.checked (h : Extends s r) {result : Except Fault α}
    (last : ∀ a, result = .ok a → Extends s (final (f a r))) :
    Extends s (final ((checked result >>= f) r)) := by
  apply (checked_onward result).then h
  intro a t run _
  cases result with
  | error e => cases run
  | ok b =>
    cases run
    exact last a rfl

theorem Extends.emitFrom (h : Extends s r) {start : Nat} (behind : s.cursor.position ≤ start)
    (kind : Token.Kind) (value : Option String) :
    Extends s (final (emitFrom kind value start r)) := by
  change Extends s (final ((Scan.checked (Span.make start r.cursor.position) >>= emit kind value) r))
  apply h.checked
  intro range made
  apply h.push
  rwa [(Span.make_eq_ok_iff.mp made).1]

theorem move_onward {operation : Cursor → Except Fault (α × Cursor)}
    (forward : ∀ c a d, operation c = .ok (a, d) → d.source = c.source ∧ c.position ≤ d.position) :
    Onward (move operation) := by
  intro s r h
  unfold move
  split
  · rename_i a d moved
    obtain ⟨source, further⟩ := forward _ _ _ moved
    exact h.moved source (Nat.le_trans h.position_le further) (Nat.le_trans h.placed further)
  · exact h

theorem takeRun_onward (p : Char → Bool) : Onward (move (Cursor.takeRun p)) := by
  apply move_onward
  intro c n d run
  obtain ⟨-, -, source, place, -⟩ := Cursor.takeRun_eq_ok_iff.mp run
  exact ⟨source, by omega⟩

theorem takeIf_onward (expected : Char) : Onward (move (Cursor.takeIf expected)) := by
  apply move_onward
  intro c found d run
  cases found with
  | true =>
    obtain ⟨-, -, source, place, -⟩ := Cursor.takeIf_eq_true_iff.mp run
    exact ⟨source, by omega⟩
  | false =>
    obtain ⟨-, rfl⟩ := Cursor.takeIf_eq_false_iff.mp run
    exact ⟨rfl, Nat.le_refl _⟩

theorem passFiller_onward : Onward passFiller := by
  intro s r h
  unfold passFiller
  split
  · rename_i count d taken
    obtain ⟨rfl, -, source, place, -⟩ := Cursor.takeRun_eq_ok_iff.mp taken
    have length : (r.cursor.ahead (r.cursor.runLength isFiller)).length =
        r.cursor.runLength isFiller := by
      rw [Cursor.ahead_runLength, Cursor.runLength_eq]
    obtain ⟨later, inside⟩ := LineMark.past_start r.line r.cursor.position
      (r.cursor.ahead (r.cursor.runLength isFiller)) h.placed
    have number := LineMark.past_number_le r.line r.cursor.position
      (r.cursor.ahead (r.cursor.runLength isFiller))
    have further := h.position_le
    rw [length, ← place] at inside
    exact ⟨source.trans h.source_eq, by dsimp only [final]; omega, Nat.le_trans h.number_le number,
      Nat.le_trans h.start_le later, inside, h.tokens_eq⟩
  · exact h

/-! ## Numerals and brackets -/

/-- A numeral is given back only if the step has taken one, so that the whole step does not go back. -/
theorem takeNumerals_onward (kind : Token.Kind) : Onward (takeNumerals kind) := by
  intro s r h
  apply (takeRun_onward isNumeral).then h
  intro count t taken after
  obtain ⟨d, passed, rfl⟩ := move_eq_ok_iff.mp taken
  obtain ⟨-, -, -, place, -⟩ := Cursor.takeRun_eq_ok_iff.mp passed
  apply look_onward.then after
  rintro next _ ⟨⟩ -
  cases d.next? with
  | none => exact reject_onward _ after
  | some c =>
    dsimp only
    split
    · rename_i give
      unfold move
      split
      · rename_i e back
        obtain ⟨-, source, before, -⟩ := Cursor.giveBack_eq_ok_iff.mp back
        have still : r.cursor.position ≤ e.position := by
          rw [before, place]
          omega
        exact after.moved source (Nat.le_trans h.position_le still) (Nat.le_trans h.placed still)
      · exact after
    · exact pure_onward _ after

theorem numerals_onward (kind : Token.Kind) : Onward (numerals kind) := by
  intro s r h
  apply (takeNumerals_onward kind).then h
  intro _ q _ after
  change Extends s (final ((ite _ _ _ : ScanM Unit) q))
  split
  · exact look_onward.bind (fun _ => reject_onward _) after
  · apply after.checked
    intro range _
    change Extends s (final ((checked (range.slice q.cursor.source) >>= _) q))
    apply after.checked
    intro value _
    exact after.emitFrom h.position_le kind (some value)

theorem require_onward (expected : Char) : Onward (require expected) := by
  apply (takeIf_onward expected).bind
  intro found
  cases found with
  | true => exact pure_onward ()
  | false => exact look_onward.bind fun _ => reject_onward _

theorem forM_onward {f : α → ScanM PUnit} (hf : ∀ a, Onward (f a)) (l : List α) :
    Onward (l.forM f) := by
  induction l with
  | nil => exact pure_onward _
  | cons a l ih => exact (hf a).bind fun _ => ih

/-- A token over all that a step has passed begins where the step began. -/
theorem Onward.emitFrom (hm : Onward m) (kind : Token.Kind) :
    Onward (position >>= fun start => m >>= fun _ => Scan.emitFrom kind none start) :=
  fun _ _ h => hm.then h fun _ _ _ after => after.emitFrom h.position_le kind none

theorem openBracket_onward : Onward openBracket := (require_onward _).emitFrom .openBracket

theorem closeBracket_onward : Onward closeBracket :=
  (forM_onward require_onward Vocabulary.closeBracket).emitFrom .closeBracket

/-! ## Expressions -/

theorem literal_onward (first : Char) : Onward (literal first) := by
  intro s r h
  change Extends s (final ((checked (r.cursor.lookAhead 1) >>= _) r))
  apply h.checked
  intro second _
  split
  · exact reject_onward _ h
  · exact (numerals_onward .numberLiteral).bind (fun _ => passFiller_onward) h

theorem enter_onward (nested : Bool) : Onward (enter nested) := by
  apply passFiller_onward.bind
  intro _
  apply look_onward.bind
  intro next
  cases next with
  | none =>
    cases nested with
    | true => exact reject_onward .missingExpression
    | false => exact fun _ _ h => h.push h.position_le
  | some c =>
    dsimp only
    split
    · exact openBracket_onward.bind fun _ =>
        (numerals_onward .operator).bind fun _ => pure_onward true
    · split
      · exact (literal_onward c).bind fun _ => pure_onward false
      · exact reject_onward (.strayCharacter c)

theorem turn_onward : Onward turn := by
  apply (takeIf_onward separator).bind
  intro found
  cases found with
  | true =>
    apply (enter_onward true).bind
    intro opened
    cases opened with
    | true => exact pure_onward Turn.opened
    | false => exact pure_onward Turn.filled
  | false =>
    exact closeBracket_onward.bind fun _ =>
      passFiller_onward.bind fun _ => pure_onward Turn.closed

theorem Extends.closing {s r : Scan} (depth : Nat) (h : Extends s r) :
    Extends s (final (closing depth r)) := by
  cases depth with
  | zero =>
    rw [closing_zero]
    exact h
  | succ outer =>
    rw [closing_succ]
    apply turn_onward.then h
    intro turned q run after
    exact after.closing (turned.depth outer)
termination_by r.remaining
decreasing_by exact turn_consumes.remaining_lt run

theorem expression_onward (nested : Bool) : Onward (expression nested) := by
  apply (enter_onward nested).bind
  intro opened
  cases opened with
  | true => exact fun _ _ => Extends.closing 1
  | false => exact pure_onward ()

/-! ## What a success leaves ahead -/

theorem passFiller_eq_ok (run : passFiller s = .ok () t) :
    t.cursor.rest = s.cursor.rest.dropWhile isFiller ∧ t.tokens = s.tokens := by
  unfold passFiller at run
  split at run
  · rename_i count d taken
    cases run
    exact ⟨Cursor.rest_takeRun taken, rfl⟩
  · cases run

theorem passFiller_clear (run : passFiller s = .ok () t) : Clear t := by
  intro c first
  have stops := List.head?_dropWhile_not isFiller s.cursor.rest
  rw [← (passFiller_eq_ok run).1, Option.mem_def.mp first] at stops
  exact stops

theorem literal_clear {first : Char} (run : literal first s = .ok () t) : Clear t := by
  unfold literal at run
  rw [get_bind] at run
  obtain ⟨second, _, run⟩ := checked_bind_eq_ok_iff.mp run
  split at run
  · cases run
  · obtain ⟨_, r, _, passed⟩ := bind_eq_ok_iff.mp run
    exact passFiller_clear passed

/-- An expression begins further on, or outside brackets the rest of the text is filler. -/
theorem enter_eq_ok {nested opened : Bool} (run : enter nested s = .ok opened t) :
    s.cursor.position < t.cursor.position ∧ (opened = false → Clear t) ∨
      nested = false ∧ opened = false ∧ (∀ c ∈ s.cursor.rest, isFiller c = true) ∧
        t.cursor.atEnd = true ∧
          t.tokens = s.tokens.push ⟨.endMark, none, t.line, Span.empty t.cursor.position⟩ := by
  obtain ⟨_, r, passed, run⟩ := bind_eq_ok_iff.mp run
  obtain ⟨rest, tokens⟩ := passFiller_eq_ok passed
  have place := (passFiller_advances passed).2
  rw [look_bind] at run
  cases ahead : r.cursor.next? with
  | none =>
    rw [ahead] at run
    cases nested with
    | true => cases run
    | false =>
      have finished : r.cursor.atEnd = true := by simp [Cursor.atEnd, ahead]
      cases run
      refine .inr ⟨rfl, rfl, ?_, finished, congrArg (Array.push · _) tokens⟩
      rw [← List.dropWhile_eq_nil_iff, ← rest]
      exact (Cursor.atEnd_iff_rest_eq_nil r.cursor).mp finished
  | some c =>
    rw [ahead] at run
    dsimp only at run
    split at run
    · obtain ⟨_, q, bracket, run⟩ := bind_eq_ok_iff.mp run
      obtain ⟨_, p, named, run⟩ := bind_eq_ok_iff.mp run
      obtain ⟨rfl, rfl⟩ := pure_eq_ok_iff.mp run
      have further := (openBracket_consumes bracket).2
      have later := (numerals_consumes _ named).2
      refine .inl ⟨by omega, ?_⟩
      intro never
      cases never
    · split at run
      · obtain ⟨_, q, read, run⟩ := bind_eq_ok_iff.mp run
        obtain ⟨rfl, rfl⟩ := pure_eq_ok_iff.mp run
        exact .inl ⟨Nat.lt_of_le_of_lt place (literal_consumes c read).2, fun _ => literal_clear read⟩
      · cases run

theorem turn_clear (run : turn s = .ok .closed t) : Clear t := by
  obtain ⟨found, d, _, run⟩ := move_bind_eq_ok_iff.mp run
  cases found with
  | true =>
    obtain ⟨opened, r, _, run⟩ := bind_eq_ok_iff.mp run
    cases opened <;> cases run
  | false =>
    obtain ⟨_, q, _, run⟩ := bind_eq_ok_iff.mp run
    obtain ⟨_, p, passed, run⟩ := bind_eq_ok_iff.mp run
    obtain ⟨-, rfl⟩ := pure_eq_ok_iff.mp run
    exact passFiller_clear passed

/-- The last bracket is closed by a turn, so the filler behind it is passed. -/
theorem closing_clear {depth : Nat} (run : closing depth s = .ok () t)
    (outside : depth = 0 → Clear s) : Clear t := by
  fun_induction closing depth s with
  | case1 s =>
    cases run
    exact outside rfl
  | case2 s outer turned q step ih =>
    apply ih run
    intro closed
    cases turned with
    | opened => cases closed
    | filled => cases closed
    | closed => exact turn_clear step
  | case3 s outer e q step => cases run

theorem Clear.meaningful (clear : Clear s) :
    s.cursor.atEnd = true ∨ ∃ c, s.cursor.next? = some c ∧ isMeaningful c = true := by
  unfold Clear at clear
  rw [← Cursor.next?_eq_head?_rest] at clear
  cases next : s.cursor.next? with
  | none => exact .inl (by simp [Cursor.atEnd, next])
  | some c => exact .inr ⟨c, rfl, by simpa [isFiller] using clear c next⟩

/-- What an expression that is read leaves ahead. -/
theorem expression_eq_ok {nested : Bool} (run : expression nested s = .ok () t) :
    s.cursor.position < t.cursor.position ∧ Clear t ∨
      nested = false ∧ (∀ c ∈ s.cursor.rest, isFiller c = true) ∧ t.cursor.atEnd = true ∧
        t.tokens = s.tokens.push ⟨.endMark, none, t.line, Span.empty t.cursor.position⟩ := by
  obtain ⟨opened, r, entered, run⟩ := bind_eq_ok_iff.mp run
  cases opened with
  | true =>
    obtain ⟨further, -⟩ | ⟨-, never, -⟩ := enter_eq_ok entered
    · have later := (closing_advances 1 run).2
      exact .inl ⟨Nat.lt_of_lt_of_le further later, closing_clear run nofun⟩
    · cases never
  | false =>
    obtain ⟨-, rfl⟩ := pure_eq_ok_iff.mp run
    obtain ⟨further, clear⟩ | ⟨outermost, -, last⟩ := enter_eq_ok entered
    · exact .inl ⟨further, clear rfl⟩
    · exact .inr ⟨outermost, last⟩

end Scan
end SumomoLexer
