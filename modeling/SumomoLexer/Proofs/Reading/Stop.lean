import SumomoLexer.Proofs.Reading.OfScan
import SumomoLexer.Proofs.Reading.Step

/-! # Where readings stop

A reading stops at the character its rejection names, or at the close mark behind it if the rejection
is about a numeral in front of one. Up to that position nothing had stopped it, and the tokens are
those it had there, perhaps with the run of numerals that ended there.
-/
namespace SumomoLexer
open Vocabulary
set_option autoImplicit false

namespace Reading

variable {r q b : Reading} {c : Char} {e : Rejection} {text : List Char}

theorem finish_of_stopped (h : r.stage = .stopped e) : r.finish = r := by
  simp only [finish, h]

theorem finish_of_ready (stage : r.stage = .ready) (top : r.depth = 0) :
    r.finish = if r.tokens = [] ∧ 0 < r.position then r.emit .endMark none r.position 0 else r := by
  simp only [finish, stage, top, Nat.lt_irrefl, if_false]

theorem finish_position (r : Reading) : r.finish.position = r.position := by
  unfold finish
  split
  · split
    · rfl
    · split <;> rfl
  all_goals rfl

/-- The end of a text adds no token but the end mark. -/
theorem finish_tokens_cases (r : Reading) : r.finish.tokens = r.tokens ∨
    ∃ line range, r.finish.tokens = r.tokens ++ [⟨.endMark, none, line, range⟩] := by
  unfold finish
  split
  · split
    · exact .inl rfl
    · split
      · exact .inr ⟨_, _, rfl⟩
      · exact .inl rfl
  all_goals exact .inl rfl

theorem ready_of_live (live : r.finish.Live) : r.stage = .ready ∧ r.depth = 0 := by
  cases stage : r.stage with
  | ready =>
    refine ⟨rfl, Nat.eq_zero_of_not_pos fun deep => ?_⟩
    simp only [finish, stage, deep, if_true] at live
    exact live _ rfl
  | counting | named | settled | closing =>
    simp only [finish, stage] at live
    exact absurd rfl (live _)
  | stopped e =>
    rw [finish_of_stopped stage] at live
    exact absurd stage (live e)

theorem read_snoc (text : List Char) (c : Char) : read (text ++ [c]) = (read text).feed c := by
  rw [read, along_append]
  rfl

theorem read_append (text more : List Char) : read (text ++ more) = (read text).along more :=
  along_append start text more

theorem Step.stopped_cases (step : r.Step c q) (live : r.Live) (h : q.stage = .stopped e) :
    (e.position = r.position ∧ ∃ b, r.Behind b ∧ b.tokens = q.tokens) ∨
      ∃ (kind : Token.Kind) (last : Char) (taken : List Char) (b : Reading),
        r.stage = .counting kind (last :: taken) ∧ (r.unread kind taken).Behind b ∧
          e.position = r.position - 1 ∧ b.tokens = q.tokens := by
  cases step with
  | numeral | literal | openBracket | separator | bracket | givenBack | closing => cases h
  | @filler b _ stage _ =>
    have stopped : b.stage = .stopped e := h
    rcases stage with stage | stage <;> rw [stage] at stopped <;> cases stopped
  | closed =>
    have stopped : Stage.behind (r.depth - 1) = .stopped e := h
    rcases behind_cases (r.depth - 1) with stage | stage <;> rw [stage] at stopped <;> cases stopped
  | stop cause _ behind =>
    cases h
    exact .inl ⟨rfl, _, behind, rfl⟩
  | stopBefore cause stage behind =>
    cases h
    exact .inr ⟨_, _, _, _, stage, behind, rfl, rfl⟩
  | dead stopped => exact absurd stopped (live _)

/-- Before its last numeral a run had the tokens that it has without it. -/
theorem Step.behind_of_unread {kind : Token.Kind} {last : Char} {taken : List Char}
    (step : r.Step c q) (h : q.stage = .counting kind (last :: taken))
    (behind : (q.unread kind taken).Behind b) :
    r.Live ∧ ∃ d, r.Behind d ∧ d.tokens = b.tokens := by
  cases step with
  | numeral stage numeral =>
    cases h
    refine ⟨live_of_stage stage trivial, ?_⟩
    cases behind with
    | self => exact ⟨r, .self, rfl⟩
    | run counting something =>
      cases counting
      exact ⟨_, .run stage something, rfl⟩
  | literal stage numeral =>
    cases h
    refine ⟨live_of_stage stage trivial, r, .self, ?_⟩
    cases behind with
    | self => rfl
    | run counting something =>
      cases counting
      exact absurd rfl something
  | @filler d _ stage _ =>
    have counting : d.stage = .counting kind (last :: taken) := h
    rcases stage with stage | stage <;> rw [stage] at counting <;> cases counting
  | openBracket | separator | bracket | givenBack | closing => cases h
  | closed =>
    have counting : Stage.behind (r.depth - 1) = .counting kind (last :: taken) := h
    rcases behind_cases (r.depth - 1) with behind | behind <;> rw [behind] at counting <;>
      cases counting
  | stop | stopBefore => cases h
  | dead stopped =>
    have counting : r.stage = .counting kind (last :: taken) := h
    rw [stopped] at counting
    cases counting

theorem exists_stop (h : (read text).stage = .stopped e) :
    ∃ before c after, text = before ++ c :: after ∧ (read before).Live ∧
      (read (before ++ [c])).StoppedWith e (read text).tokens := by
  induction text using List.reverseRecOn with
  | nil => cases h
  | append_singleton text c ih =>
    rcases (read text).live_or_stopped with live | ⟨f, stopped⟩
    · exact ⟨text, c, [], rfl, live, h, rfl⟩
    · rw [read_snoc, feed_of_stopped stopped] at h ⊢
      obtain ⟨before, d, after, split, live, stops⟩ := ih h
      exact ⟨before, d, after ++ [c], by rw [split, List.append_assoc]; rfl, live, stops⟩

/-- Up to its position a rejection leaves the text as it was, and one or two characters settle it. -/
theorem stopped_split (h : (read text).stage = .stopped e) :
    ∃ (before here after : List Char) (b : Reading), text = before ++ (here ++ after) ∧
      before.length = e.position ∧ (here.length = 1 ∨ here.length = 2) ∧
        (read (before ++ here)).stage = .stopped e ∧ (read before).Live ∧
          (read before).Behind b ∧ b.tokens = (read text).tokens := by
  obtain ⟨before, c, after, rfl, live, stopped, tokens⟩ := exists_stop h
  have place := read_position before
  have feeds := stopped
  rw [← tokens]
  rw [read_snoc] at feeds ⊢
  rcases (step_feed _ c).stopped_cases live feeds with
    ⟨at_, b, behind, same⟩ | ⟨kind, last, taken, b, stage, behind, back, same⟩
  · exact ⟨before, [c], after, b, rfl, place.symm.trans at_.symm, .inl rfl, stopped, live, behind,
      same⟩
  -- The run was entered before the last numeral, so that there is a reading before it.
  · rcases before.eq_nil_or_concat with rfl | ⟨earlier, d, split⟩
    · cases stage
    · rw [List.concat_eq_append] at split
      subst split
      rw [read_snoc] at stage behind
      obtain ⟨alive, a, begun, equal⟩ := (step_feed _ d).behind_of_unread stage behind
      have at_ : earlier.length = e.position := by
        rw [back, place, List.length_append, List.length_singleton]
        rfl
      refine ⟨earlier, [d, c], after, a, ?_, at_, .inr rfl, ?_, alive, begun, equal.trans same⟩
      · rw [List.append_assoc]
        rfl
      · rw [List.append_assoc] at stopped
        exact stopped

theorem finish_stopped_of_live (live : r.Live) (h : r.finish.stage = .stopped e) :
    e.position = r.position ∧ e.line = r.line ∧ r.finish.tokens = r.tokens := by
  cases stage : r.stage with
  | ready =>
    simp only [finish, stage] at h ⊢
    split at h
    · rename_i deep
      cases h
      rw [if_pos deep]
      exact ⟨rfl, rfl, rfl⟩
    · split at h <;> exact absurd (stage.symm.trans h) nofun
  | counting | named | settled | closing =>
    simp only [finish, stage] at h ⊢
    cases h
    exact ⟨rfl, rfl, rfl⟩
  | stopped f => exact absurd stage (live f)

/-- Up to the position of a rejection nothing had stopped the reading. -/
theorem finish_stopped (h : (read text).finish.stage = .stopped e) :
    e.position ≤ text.length ∧ ∃ b, (read (text.take e.position)).Live ∧
      (read (text.take e.position)).Behind b ∧ b.tokens = (read text).finish.tokens := by
  rcases (read text).live_or_stopped with live | ⟨f, stopped⟩
  · obtain ⟨here, -, same⟩ := finish_stopped_of_live live h
    rw [read_position] at here
    refine ⟨Nat.le_of_eq here, read text, ?_⟩
    rw [here, List.take_length, same]
    exact ⟨live, .self, rfl⟩
  · rw [finish_of_stopped stopped] at h ⊢
    obtain ⟨before, here, after, b, rfl, place, -, -, alive, behind, same⟩ := stopped_split h
    rw [← place, List.take_left]
    refine ⟨?_, b, alive, behind, same⟩
    rw [List.length_append]
    exact Nat.le_add_right _ _

/-- A rejection inside the text is settled by at most one character past its position. -/
theorem finish_stopped_inside (h : (read text).finish.stage = .stopped e)
    (inside : e.position < text.length) :
    (read (text.take (e.position + 2))).stage = .stopped e := by
  rcases (read text).live_or_stopped with live | ⟨f, stopped⟩
  · have place := (finish_stopped_of_live live h).1
    rw [read_position] at place
    omega
  · rw [finish_of_stopped stopped] at h
    obtain ⟨before, here, after, b, rfl, place, width, settled, -⟩ := stopped_split h
    have le : (before ++ here).length ≤ e.position + 2 := by
      rw [List.length_append, place]
      omega
    rw [← List.append_assoc, List.take_append, List.take_of_length_le le, read_append,
      along_of_stopped settled]
    exact settled

end Reading

theorem lex_of_ready {text : String} (stage : (Reading.read text.toList).stage = .ready)
    (top : (Reading.read text.toList).depth = 0) :
    lex text = .ok (Reading.read text.toList).finish.tokens := by
  refine lex_eq_ok_iff.mpr ⟨?_, rfl⟩
  rw [Reading.finish_of_ready stage top]
  split <;> exact Reading.live_of_stage stage trivial

end SumomoLexer
