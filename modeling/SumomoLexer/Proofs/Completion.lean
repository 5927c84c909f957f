import SumomoLexer.Proofs.Language
import SumomoLexer.Proofs.Reading.Brackets
import SumomoLexer.Proofs.Reading.Stop

/-! # Completing a text

Any reading that nothing has stopped can be brought to an end: a missing word is put in, a close
bracket that has begun is finished, and every bracket that is still open is closed. So a rejection
points at the end of a beginning that lexes when the right text follows, and if the position lies
inside the text, what stands there and one character behind it cannot be made good by any text.
-/
namespace SumomoLexer
open Vocabulary Grammar
set_option autoImplicit false

namespace Reading

variable {r b : Reading} {depth outer : Nat} {L : List Lexeme} {kind : Token.Kind}
  {text more : List Char}

theorem outcome_append (r : Reading) (text more : List Char) :
    r.outcome (text ++ more) = (r.along text).outcome more := by
  rw [outcome, outcome, along_append]

/-- The text brings the reading to an end, and a run of numerals before it stays as it is. -/
structure Completes (r : Reading) (text : List Char) : Prop where
  live : (r.outcome text).Live
  tokens : ∀ b, r.Behind b → b.tokens <+: (r.outcome text).tokens

theorem completes_of_live (live : (r.outcome text).Live)
    (ends : ∀ kind taken, r.stage = .counting kind taken → taken ≠ [] → EndsRun text) :
    r.Completes text := by
  refine ⟨live, ?_⟩
  intro b behind
  cases behind with
  | self => exact outcome_keeps_tokens r text
  | @run kind taken stage something =>
    have same := along_endRun stage something (ends kind taken stage something)
    rw [outcome, same]
    exact outcome_keeps_tokens _ text

/-- A text that closes all open brackets; behind a run of numerals it ends the run. -/
def Closes (r : Reading) (text : List Char) : Prop := EndsRun text ∧ (r.outcome text).Live

theorem Closes.bracket (h : (r.along closeBracket).Closes text) :
    r.Closes (closeBracket ++ text) := by
  refine ⟨.bracket (by decide), ?_⟩
  rw [outcome_append]
  exact h.2

theorem At.exists_closes (h : r.At (.behind depth) depth L) : ∃ text, r.Closes text := by
  induction depth generalizing r L with
  | zero =>
    -- Nothing is open, but a run of numerals before the text still has to end.
    have blank : IsGap [' '] := isGap_nil.cons (by decide)
    refine ⟨[' '], .mark (by decide) (by decide), ?_⟩
    exact (At.along_gap h (.inl rfl) blank).finish_eq.1
  | succ outer ih =>
    have inside : r.Inside outer L := .inr h
    obtain ⟨text, closes⟩ := ih inside.along_closeBracket
    exact ⟨closeBracket ++ text, closes.bracket⟩

theorem Inside.exists_closes (h : r.Inside outer L) : ∃ text, r.Closes text := by
  obtain ⟨text, closes⟩ := h.along_closeBracket.exists_closes
  exact ⟨closeBracket ++ text, closes.bracket⟩

theorem At.exists_closes_run {taken : List Char} (h : r.At (.counting kind taken) depth L)
    (something : taken ≠ []) (inner : kind = .operator → 0 < depth) :
    ∃ text, r.Closes text := by
  have counting : r.At (.counting kind taken.reverse.reverse) depth L := by
    rw [List.reverse_reverse]
    exact h
  have ended := counting.endRun
  rw [List.reverse_reverse] at ended
  have closes : ∃ text, (r.endRun kind taken).Closes text := by
    unfold Stage.behindRun at ended
    split at ended
    · rename_i operator
      -- An operator has its own bracket open, so that a bracket can be closed behind it.
      obtain ⟨outer, rfl⟩ := Nat.exists_eq_succ_of_ne_zero (Nat.ne_of_gt (inner operator))
      have inside : (r.endRun kind taken).Inside outer _ := .inl ended
      exact inside.exists_closes
    · exact ended.exists_closes
  obtain ⟨text, ends, live⟩ := closes
  refine ⟨text, ends, ?_⟩
  rw [outcome, along_endRun h.stage_eq something ends]
  exact live

theorem At.along_closing {expected : Char} {further : List Char}
    (h : r.At (.closing expected further) (outer + 1) L) :
    (r.along (expected :: further)).At (.behind outer) outer (L ++ [(.closeBracket, none)]) := by
  induction further generalizing r expected with
  | nil => exact h.feed_closed
  | cons next further ih => exact ih h.feed_closing

theorem At.exists_word {stage : Stage} (h : r.At stage depth L)
    (missing : stage = .ready ∧ kind = .numberLiteral ∨ stage = .counting kind [])
    (inner : kind = .operator → 0 < depth) : ∃ text, (r.outcome text).Live := by
  have entered : (r.feed 'も').At (.counting kind ['も']) depth L := by
    rcases missing with ⟨rfl, rfl⟩ | rfl
    · rw [feed_of_ready h.stage_eq]
      exact ⟨rfl, h.depth_eq, h.lexemes_eq⟩
    · rw [feed_of_counting h.stage_eq]
      exact ⟨rfl, h.depth_eq, h.lexemes_eq⟩
  obtain ⟨text, -, live⟩ := entered.exists_closes_run (List.cons_ne_nil _ _) inner
  exact ⟨'も' :: text, live⟩

theorem Sound.exists_completes (sound : r.Sound) (live : r.Live) : ∃ text, r.Completes text := by
  have inner := sound.inner
  cases stage : r.stage with
  | ready =>
    have here : r.At .ready r.depth r.lexemes := ⟨stage, rfl, rfl⟩
    obtain ⟨text, live⟩ := here.exists_word (.inl ⟨rfl, rfl⟩) nofun
    exact ⟨text, completes_of_live live fun _ _ counting => nomatch stage.symm.trans counting⟩
  | counting kind taken =>
    rw [stage] at inner
    have here : r.At (.counting kind taken) r.depth r.lexemes := ⟨stage, rfl, rfl⟩
    cases taken with
    | nil =>
      obtain ⟨text, live⟩ := here.exists_word (.inr rfl) inner
      refine ⟨text, completes_of_live live ?_⟩
      intro _ _ counting something
      cases stage.symm.trans counting
      exact absurd rfl something
    | cons last taken =>
      obtain ⟨text, ends, live⟩ := here.exists_closes_run (List.cons_ne_nil _ _) inner
      exact ⟨text, completes_of_live live fun _ _ _ _ => ends⟩
  | named | settled =>
    rw [stage] at inner
    obtain ⟨outer, deep⟩ := Nat.exists_eq_succ_of_ne_zero (Nat.ne_of_gt (inner trivial))
    have inside : r.Inside outer r.lexemes := by
      first
        | exact .inl ⟨stage, deep, rfl⟩
        | exact .inr ⟨stage, deep, rfl⟩
    obtain ⟨text, ends, live⟩ := inside.exists_closes
    exact ⟨text, completes_of_live live fun _ _ _ _ => ends⟩
  | closing expected further =>
    rw [stage] at inner
    obtain ⟨outer, deep⟩ := Nat.exists_eq_succ_of_ne_zero (Nat.ne_of_gt (inner trivial))
    have here : r.At (.closing expected further) (outer + 1) r.lexemes := ⟨stage, deep, rfl⟩
    obtain ⟨text, -, live⟩ := here.along_closing.exists_closes
    rw [← outcome_append] at live
    exact ⟨_, completes_of_live live fun _ _ counting => nomatch stage.symm.trans counting⟩
  | stopped e => exact absurd stage (live e)

end Reading

/-! ## Rejected texts -/

/-- The first characters of a text. -/
def firstChars (text : String) (count : Nat) : String := String.ofList (text.toList.take count)

def lastChars (text : String) (count : Nat) : String := String.ofList (text.toList.drop count)

/-- What lexing a text emits, whether it succeeds or not. -/
def emitted (text : String) : List Token := (Lexing.ofText Offset.unbounded text).emitted

theorem emitted_eq (text : String) : emitted text = (Reading.read text.toList).finish.tokens := by
  rw [emitted, Lexing.ofText_unbounded, Reading.lexing_emitted]

theorem firstChars_length (text : String) : firstChars text text.length = text := by
  rw [firstChars, ← String.length_toList, List.take_length, String.ofList_toList]

theorem firstChars_append_lastChars (text : String) (count : Nat) :
    firstChars text count ++ lastChars text count = text := by
  rw [firstChars, lastChars, ← String.ofList_append, List.take_append_drop, String.ofList_toList]

theorem Reading.Completes.lex_eq_ok {start more : List Char}
    (h : (Reading.read start).Completes more) :
    lex (String.ofList start ++ String.ofList more) =
      .ok ((Reading.read start).outcome more).tokens := by
  rw [lex_eq_ok_iff, String.toList_append, String.toList_ofList, String.toList_ofList,
    Reading.read_append]
  exact ⟨h.live, rfl⟩

theorem exists_completion {text : String} {e : Rejection}
    (h : (Reading.read text.toList).finish.stage = .stopped e) :
    ∃ more tokens, lex (firstChars text e.position ++ more) = .ok tokens ∧
      emitted text <+: tokens := by
  obtain ⟨-, b, live, behind, same⟩ := Reading.finish_stopped h
  obtain ⟨more, completes⟩ := (Reading.read_sound _).exists_completes live
  refine ⟨String.ofList more, _, completes.lex_eq_ok, ?_⟩
  rw [emitted_eq, ← same]
  exact completes.tokens b behind

theorem lex_append_of_stopped {start : String} {e : Rejection}
    (h : (Reading.read start.toList).stage = .stopped e) (more : String) :
    lex (start ++ more) = .error (.rejected e) := by
  rw [lex_eq_error_iff, String.toList_append, Reading.read_append]
  exact ⟨e, rfl, (Reading.outcome_stoppedWith h more.toList).stage_eq⟩

theorem exists_lex_append_iff {start : String} :
    (∃ more tokens, lex (start ++ more) = .ok tokens) ↔ (Reading.read start.toList).Live := by
  constructor
  · rintro ⟨more, tokens, ok⟩ e stopped
    rw [lex_append_of_stopped stopped more] at ok
    cases ok
  · intro live
    obtain ⟨more, completes⟩ := (Reading.read_sound _).exists_completes live
    have ok := completes.lex_eq_ok
    rw [String.ofList_toList] at ok
    exact ⟨_, _, ok⟩

theorem rejected_inside {text : String} {e : Rejection}
    (h : (Reading.read text.toList).finish.stage = .stopped e) (inside : e.position < text.length)
    (more : String) :
    lex (firstChars text (min (e.position + 2) text.length) ++ more) = .error (.rejected e) := by
  apply lex_append_of_stopped
  have settled := Reading.finish_stopped_inside h (by rwa [String.length_toList])
  rw [List.take_eq_take_min, String.length_toList] at settled
  rw [firstChars, String.toList_ofList]
  exact settled

/-- What stands before the position of a rejection can be completed, what was emitted before it stays
emitted then, and it never closes more brackets than it opens. -/
theorem exists_completion_of_rejected {text : String} {failure : Failure}
    (h : lex text = .error failure) :
    ∃ e, failure = .rejected e ∧ e.position ≤ text.length ∧
      (∃ more tokens, lex (firstChars text e.position ++ more) = .ok tokens ∧
        emitted text <+: tokens) ∧
      (Lexing.ofText Offset.unbounded text).journal = (emitted text).map .emitted ∧
      (e.position = text.length → ∃ more tokens, lex (text ++ more) = .ok tokens ∧
        emitted text <+: tokens) ∧
      ∀ first, first <+: emitted text → (first.map Token.kind).count .closeBracket ≤
        (first.map Token.kind).count .openBracket := by
  obtain ⟨e, rfl, stopped⟩ := lex_eq_error_iff.mp h
  have completion := exists_completion stopped
  refine ⟨e, rfl, ?_, completion, ?_, ?_, ?_⟩
  · rw [← String.length_toList]
    exact (Reading.finish_stopped stopped).1
  · rw [emitted_eq, Lexing.ofText_unbounded, Reading.lexing_of_stopped stopped]
  · intro whole
    rw [whole, firstChars_length] at completion
    exact completion
  · rw [emitted_eq]
    exact (Reading.read_sound text.toList).finish_nested.prefixes

/-- The literal is emitted, the close bracket has nothing to close. -/
theorem exists_completion_of_stray_bracket :
    lex "も のうち。" = .error (.rejected ⟨.nothingToClose 'の', 2, ⟨0, 0⟩⟩) ∧
      ∃ more tokens, lex (firstChars "も のうち。" 2 ++ more) = .ok tokens ∧
        emitted "も のうち。" <+: tokens := by
  have rejected : lex "も のうち。" = .error (.rejected ⟨.nothingToClose 'の', 2, ⟨0, 0⟩⟩) := by
    decide +kernel
  refine ⟨rejected, ?_⟩
  obtain ⟨e, same, -, completion, -⟩ := exists_completion_of_rejected rejected
  cases same
  exact completion

/-- A rejection inside the text is that of every text with the same characters up to one behind its
position, so that a text can be completed if and only if it is rejected at its end. -/
theorem completable_iff_rejected_at_end {text : String} {failure : Failure}
    (h : lex text = .error failure) :
    ∃ e, failure = .rejected e ∧
      (e.position < text.length → ∀ more,
        lex (firstChars text (min (e.position + 2) text.length) ++ more) = .error failure) ∧
      ((∃ more tokens, lex (text ++ more) = .ok tokens) ↔ e.position = text.length) := by
  obtain ⟨e, rfl, stopped⟩ := lex_eq_error_iff.mp h
  refine ⟨e, rfl, rejected_inside stopped, ?_⟩
  have bound := (Reading.finish_stopped stopped).1
  rw [String.length_toList] at bound
  constructor
  · rintro ⟨more, tokens, ok⟩
    by_contra differs
    have inside : e.position < text.length := Nat.lt_of_le_of_ne bound differs
    have rejected := rejected_inside stopped inside
      (lastChars text (min (e.position + 2) text.length) ++ more)
    rw [← String.append_assoc, firstChars_append_lastChars, ok] at rejected
    cases rejected
  · intro whole
    obtain ⟨more, tokens, ok, -⟩ := exists_completion stopped
    rw [whole, firstChars_length] at ok
    exact ⟨more, tokens, ok⟩

/-- The close mark shows that the numeral before it is not an expression. -/
theorem completable_iff_rejected_at_end_of_give_back :
    lex "すも、もう。" = .error (.rejected ⟨.nothingToClose 'も', 3, ⟨0, 0⟩⟩) ∧
      (∀ more, lex (firstChars "すも、もう。" 5 ++ more) =
        .error (.rejected ⟨.nothingToClose 'も', 3, ⟨0, 0⟩⟩)) ∧
      ¬ ∃ more tokens, lex ("すも、もう。" ++ more) = .ok tokens := by
  have rejected : lex "すも、もう。" = .error (.rejected ⟨.nothingToClose 'も', 3, ⟨0, 0⟩⟩) := by
    decide +kernel
  refine ⟨rejected, ?_⟩
  obtain ⟨e, same, settled, completable⟩ := completable_iff_rejected_at_end rejected
  cases same
  exact ⟨settled (by decide), fun completed => absurd (completable.mp completed) (by decide)⟩

end SumomoLexer
