import SumomoLexer.Proofs.Displacement
import SumomoLexer.Proofs.LineTracking
import SumomoLexer.Proofs.Reading.Parallel
import SumomoLexer.Proofs.Tiling

/-! # One text behind another

Behind a text that lexes nothing is open, so that reading goes on as it would at the start. What comes
next is read as if it stood alone; only its place in the text is another one, and the end mark of a
part is not one of the whole.
-/
namespace SumomoLexer
open Vocabulary
set_option autoImplicit false

namespace Reading

/-- The second reading has this text in front of what the first one has read. -/
def Matching.after (before : List Char) : Matching where
  place p q := q = before.length + p
  line mark other := other = mark.after before
  cause := Eq
  same _ := rfl

variable {before : List Char} {base : List Token} {r q : Reading}

theorem Matching.Tokens.eq_after {t u : Token} (h : (Matching.after before).Tokens t u) :
    t.after before = u := by
  obtain ⟨kind, value, line, ⟨start, stop, le⟩⟩ := u
  obtain ⟨rfl, rfl, rfl, rfl, rfl⟩ := h
  rfl

theorem Matching.Rejections.eq_after {e f : Rejection}
    (h : (Matching.after before).Rejections e f) : e.after before = f := by
  obtain ⟨cause, position, line⟩ := f
  obtain ⟨rfl, rfl, rfl⟩ := h
  rfl

theorem Matching.Parallel.tokens_after (h : (Matching.after before).Parallel base r q) :
    q.tokens = base ++ r.tokens.map (·.after before) := by
  obtain ⟨more, tokens, alike⟩ := h.tokens
  have same : List.Forall₂ Eq (r.tokens.map (·.after before)) more := by
    rw [List.forall₂_map_left_iff]
    exact alike.imp fun t u tokens => tokens.eq_after
  rw [List.forall₂_eq_eq_eq] at same
  rw [tokens, same]

theorem Matching.Parallel.along_after (text : List Char)
    (h : (Matching.after before).Parallel base r q) (aligned : (Matching.after before).Aligned r q)
    (sound : r.Sound) :
    (Matching.after before).Parallel base (r.along text) (q.along text) ∧
      (Matching.after before).Aligned (r.along text) (q.along text) := by
  induction text generalizing r q with
  | nil => exact ⟨h, aligned⟩
  | cons c text ih =>
    have here : q.position = before.length + r.position := aligned.here
    have next : (Matching.after before).place (r.position + 1) (q.position + 1) :=
      congrArg (· + 1) here
    have step : (Matching.after before).Parallel base (r.feed c) (q.feed c) := by
      cases filler : isFiller c with
      | false => exact h.feed aligned next filler
      | true =>
        refine h.feed_filler sound aligned ⟨filler, filler, fun _ => rfl, fun _ => rfl⟩ ?_
        have line : q.line = r.line.after before := h.line
        change q.line.past q.position [c] = (r.line.past r.position [c]).after before
        rw [LineMark.past_after, line, here]
    exact ih step (aligned.feed next) (sound.step (step_feed r c))

theorem read_line {text : List Char} (live : (read text).Live) :
    (read text).line = LineMark.first.past 0 text := by
  have tracks := read_tracks text
  have line := tracks.line_eq live _ tracks.origin_le_length (Nat.le_refl _)
  rwa [LineMark.before, List.take_length] at line

theorem parallel_after (stage : (read before).stage = .ready) (top : (read before).depth = 0) :
    (Matching.after before).Parallel (read before).tokens start (read before) := by
  have runs : (Matching.after before).Stages start.stage (read before).stage := by
    rw [stage]
    exact .runs trivial
  refine ⟨runs, top, ?_, [], (List.append_nil _).symm, .nil⟩
  have line := read_line (live_of_stage stage trivial)
  rw [← LineMark.first_after] at line
  exact line

theorem aligned_after (before : List Char) : (Matching.after before).Aligned start (read before) :=
  .of_width_eq rfl (read_position before)

end Reading

def withoutEndMark (tokens : List Token) : List Token := tokens.filter (·.kind ≠ .endMark)

theorem withoutEndMark_finish {text : List Char} (stage : (Reading.read text).stage = .ready)
    (top : (Reading.read text).depth = 0) :
    withoutEndMark (Reading.read text).finish.tokens = (Reading.read text).tokens := by
  have tiling := (Reading.read_lays text).outside (Reading.read_position text) .self
    (.inr (.inl stage))
  rw [Reading.finish_of_ready stage top]
  split
  · rename_i alone
    simp only [Reading.emit, alone.1]
    rfl
  · exact List.filter_eq_self.mpr fun t member => decide_eq_true (tiling.marks t member)

/-- The tokens of two texts one behind the other. If there are none, all there is to say of the whole
is that it ends. -/
def joined (a b : String) (first second : List Token) : List Token :=
  let tokens := withoutEndMark first ++ (withoutEndMark second).map (·.after a.toList)
  if tokens = [] ∧ a ++ b ≠ "" then
    [⟨.endMark, none, LineMark.find (a ++ b) (a ++ b).length, Span.empty (a ++ b).length⟩]
  else tokens

theorem finish_tokens_eq_joined {a b : String} {first second : List Token}
    (stage : (Reading.read (a ++ b).toList).stage = .ready)
    (top : (Reading.read (a ++ b).toList).depth = 0)
    (tokens : (Reading.read (a ++ b).toList).tokens =
      withoutEndMark first ++ (withoutEndMark second).map (·.after a.toList)) :
    (Reading.read (a ++ b).toList).finish.tokens = joined a b first second := by
  have place := Reading.read_position (a ++ b).toList
  have nonempty : a ++ b ≠ "" ↔ 0 < (Reading.read (a ++ b).toList).position := by
    rw [place, List.length_pos_iff, ne_eq, ne_eq, String.toList_eq_nil_iff]
  have line := Reading.read_line (Reading.live_of_stage stage trivial)
  rw [Reading.finish_of_ready stage top, joined, ← tokens]
  simp only [nonempty]
  split
  · rename_i alone
    rw [LineMark.find_eq_before, LineMark.before, ← String.length_toList, List.take_length, ← line,
      ← place, Reading.emit, alone.1]
    rfl
  · rfl

/-- Behind a text that lexes, another one lexes if and only if it does alone, with the same tokens, or
else with the same rejection, in their new places. -/
theorem lex_append {a : String} {tokens : List Token} (accepted : lex a = .ok tokens) (b : String) :
    (∀ more, lex b = .ok more → lex (a ++ b) = .ok (joined a b tokens more)) ∧
      ∀ failure, lex b = .error failure → ∃ e, failure = .rejected e ∧
        lex (a ++ b) = .error (.rejected (e.after a.toList)) := by
  obtain ⟨live, rfl⟩ := lex_eq_ok_iff.mp accepted
  obtain ⟨stage, top⟩ := Reading.ready_of_live live
  have both := (Reading.parallel_after stage top).along_after b.toList
    (Reading.aligned_after a.toList) Reading.start_sound
  rw [← Reading.read_append, ← String.toList_append] at both
  change (Reading.Matching.after a.toList).Parallel _ (Reading.read b.toList) _ ∧
    (Reading.Matching.after a.toList).Aligned (Reading.read b.toList) _ at both
  obtain ⟨parallel, aligned⟩ := both
  rcases parallel.finish_cases aligned.here with
    ⟨ready, outside, stage', top'⟩ | ⟨e, f, stopped, stopped', rejections⟩
  · have alone := lex_of_ready ready outside
    refine ⟨fun more ok => ?_, fun failure error => ?_⟩
    · rw [alone] at ok
      cases ok
      rw [lex_of_ready stage' top']
      refine congrArg Except.ok (finish_tokens_eq_joined stage' top' ?_)
      rw [withoutEndMark_finish stage top, withoutEndMark_finish ready outside]
      exact parallel.tokens_after
    · rw [alone] at error
      cases error
  · have alone : lex b = .error (.rejected e) := lex_eq_error_iff.mpr ⟨e, rfl, stopped⟩
    refine ⟨fun more ok => ?_, fun failure error => ?_⟩
    · rw [alone] at ok
      cases ok
    · rw [alone] at error
      cases error
      refine ⟨e, rfl, ?_⟩
      rw [rejections.eq_after]
      exact lex_eq_error_iff.mpr ⟨f, rfl, stopped'⟩

/-- A text that lexes in front of one that does and of one that does not, both on a second line. -/
theorem lex_append_of_two_lines :
    lex ("も \n" ++ "の ") = .ok [
      ⟨.numberLiteral, some "も", ⟨0, 0⟩, ⟨0, 1, by decide⟩⟩,
      ⟨.numberLiteral, some "の", ⟨1, 2⟩, ⟨3, 4, by decide⟩⟩] ∧
    lex ("も \n" ++ "の\nう") = .error (.rejected ⟨.strayCharacter 'う', 5, ⟨2, 4⟩⟩) := by
  have front : lex "も \n" = .ok [⟨.numberLiteral, some "も", ⟨0, 0⟩, ⟨0, 1, by decide⟩⟩] := by
    decide +kernel
  have more : lex "の " = .ok [⟨.numberLiteral, some "の", ⟨0, 0⟩, ⟨0, 1, by decide⟩⟩] := by
    decide +kernel
  have stray : lex "の\nう" = .error (.rejected ⟨.strayCharacter 'う', 2, ⟨1, 1⟩⟩) := by
    decide +kernel
  refine ⟨(lex_append front "の ").1 _ more, ?_⟩
  obtain ⟨e, same, rejected⟩ := (lex_append front "の\nう").2 _ stray
  cases same
  exact rejected

end SumomoLexer
