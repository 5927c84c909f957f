import Mathlib.Data.List.Induction
import SumomoLexer.Proofs.Reading.Basic

/-! # What one character does to a reading

A character that does not go on a run of numerals ends it, and is then read as if the token had been
there before. `Step` lists everything a character can do, with the stage it needs; what holds of all
readings is proved from that list, one case at a time, and carried along a text by `read_induction`.
-/
namespace SumomoLexer
open Vocabulary
set_option autoImplicit false

namespace Reading

/-- The second reading is the first one, or what it is once the run of numerals has become a token. -/
inductive Behind (r : Reading) : Reading → Prop
  | self : Behind r r
  | run {kind : Token.Kind} {taken : List Char} :
    r.stage = .counting kind taken → taken ≠ [] → Behind r (r.endRun kind taken)

/-- The reading one numeral earlier, when the run had only `taken`. -/
def unread (r : Reading) (kind : Token.Kind) (taken : List Char) : Reading :=
  { r with stage := .counting kind taken, position := r.position - 1 }

inductive Step (r : Reading) (c : Char) : Reading → Prop
  | numeral {kind : Token.Kind} {taken : List Char} :
    r.stage = .counting kind taken → isNumeral c = true →
    Step r c { r with stage := .counting kind (c :: taken), position := r.position + 1 }
  | literal : r.stage = .ready → isNumeral c = true →
    Step r c { r with stage := .counting .numberLiteral [c], position := r.position + 1 }
  | filler {b : Reading} : r.Behind b → b.stage = .ready ∨ b.stage = .settled →
    isFiller c = true → Step r c ((b.pass c).moveTo (r.position + 1))
  | openBracket {b : Reading} : r.Behind b → b.stage = .ready → c = openBracket →
    Step r c ({ b with
      stage := .counting .operator [], depth := b.depth + 1, position := r.position + 1 }.emit
        .openBracket none r.position 1)
  | separator {b : Reading} : r.Behind b → b.stage = .named ∨ b.stage = .settled →
    c = separator → Step r c { b with stage := .ready, position := r.position + 1 }
  | bracket : r.stage = .named ∨ r.stage = .settled → c = 'の' →
    Step r c { r with stage := .closing closeMark ['ち', '。'], position := r.position + 1 }
  | givenBack {kind : Token.Kind} {taken : List Char} :
    r.stage = .counting kind ('の' :: taken) → taken ≠ [] →
    Stage.behindRun kind r.depth ≠ .ready → c = closeMark →
    Step r c { ((r.unread kind taken).endRun kind taken) with
      stage := .closing 'ち' ['。'], position := r.position + 1 }
  | closing {next : Char} {further : List Char} : r.stage = .closing c (next :: further) →
    Step r c { r with stage := .closing next further, position := r.position + 1 }
  | closed : r.stage = .closing c [] →
    Step r c ({ r with
      stage := .behind (r.depth - 1), depth := r.depth - 1, position := r.position + 1 }.emit
        .closeBracket none (r.position - 3) 4)
  | stop {b : Reading} (cause : Cause) : r.Live → r.Behind b →
    Step r c ((b.stop cause r.position).moveTo (r.position + 1))
  | stopBefore {b : Reading} {kind : Token.Kind} {last : Char} {taken : List Char}
    (cause : Cause) : r.stage = .counting kind (last :: taken) →
    (r.unread kind taken).Behind b →
    Step r c ((b.stop cause (r.position - 1)).moveTo (r.position + 1))
  | dead {e : Rejection} : r.stage = .stopped e → Step r c (r.moveTo (r.position + 1))

variable {r b : Reading}

def Stage.Runs : Stage → Prop
  | .stopped _ => False
  | _ => True

theorem live_of_stage {stage : Stage} (h : r.stage = stage) (runs : stage.Runs) : r.Live := by
  intro e stopped
  rw [← h, stopped] at runs
  exact runs

theorem Behind.position_eq (h : r.Behind b) : b.position = r.position := by
  cases h <;> rfl

theorem Behind.depth_eq (h : r.Behind b) : b.depth = r.depth := by
  cases h <;> rfl

theorem Behind.line_eq (h : r.Behind b) : b.line = r.line := by
  cases h <;> rfl

theorem Behind.live (h : r.Behind b) (goes : b.Live) : r.Live := by
  cases h with
  | self => exact goes
  | run stage => exact live_of_stage stage trivial

theorem Behind.keeps_tokens (h : r.Behind b) : r.tokens <+: b.tokens := by
  cases h with
  | self => exact List.prefix_rfl
  | run => exact List.prefix_append _ _

theorem step_link (live : r.Live) (behind : r.Behind b)
    (h : b.stage = .named ∨ b.stage = .settled) {c : Char}
    (self : c = 'の' → b = r) : Step r c ((b.link c).moveTo (r.position + 1)) := by
  unfold link
  split
  · rename_i separates
    exact .separator (b := b) behind h separates
  · split
    · rename_i begins
      obtain rfl := self begins
      exact .bracket h begins
    · rw [behind.position_eq]
      exact .stop _ live behind

theorem step_enter (live : r.Live) (behind : r.Behind b) (h : b.stage = .ready) {c : Char}
    (self : isNumeral c = true → b = r) : Step r c ((b.enter c).moveTo (r.position + 1)) := by
  unfold enter
  split
  · rename_i filler
    exact .filler behind (.inl h) filler
  · split
    · rename_i opens
      rw [behind.position_eq]
      exact .openBracket behind h opens
    · split
      · rename_i numeral
        obtain rfl := self numeral
        exact .literal h numeral
      · rw [behind.position_eq]
        exact .stop _ live behind

theorem step_close {expected : Char} {further : List Char}
    (h : r.stage = .closing expected further) (c : Char) :
    Step r c ((r.close expected further c).moveTo (r.position + 1)) := by
  unfold close
  split
  · rename_i goes
    subst goes
    cases further with
    | nil => exact .closed h
    | cons next further => exact .closing h
  · exact .stop _ (live_of_stage h trivial) .self

theorem step_endRun {kind : Token.Kind} {taken : List Char} (h : r.stage = .counting kind taken)
    (something : taken ≠ []) {c : Char} (other : isNumeral c = false) :
    Step r c (((r.endRun kind taken).go c).moveTo (r.position + 1)) := by
  have live : r.Live := live_of_stage h trivial
  have behind : r.Behind (r.endRun kind taken) := .run h something
  -- No numeral ends a run, so that neither a run nor a close bracket begins behind it.
  have never : isNumeral c = true → r.endRun kind taken = r := by
    rw [other]
    exact nofun
  have never_bracket : c = 'の' → r.endRun kind taken = r := by
    rintro rfl
    exact never (by decide)
  rcases behindRun_cases kind r.depth with stage | stage | stage
  · have named : (r.endRun kind taken).stage = .named := stage
    simp only [go, named]
    exact step_link live behind (.inl named) never_bracket
  · have ready : (r.endRun kind taken).stage = .ready := stage
    simp only [go, ready]
    exact step_enter live behind ready never
  · have settled : (r.endRun kind taken).stage = .settled := stage
    simp only [go, settled]
    split
    · rename_i filler
      exact .filler behind (.inr settled) filler
    · exact step_link live behind (.inr settled) never_bracket

theorem step_giveBack {kind : Token.Kind} {taken : List Char}
    (h : r.stage = .counting kind taken) :
    Step r closeMark ((r.giveBack kind taken).moveTo (r.position + 1)) := by
  cases taken with
  | nil => exact .stop _ (live_of_stage h trivial) .self
  | cons last taken =>
    unfold giveBack
    dsimp only
    split
    · exact .stopBefore (b := r.unread kind taken) _ h .self
    · rename_i something
      have behind : (r.unread kind taken).Behind ((r.unread kind taken).endRun kind taken) :=
        .run rfl something
      unfold shut
      split
      · exact .stopBefore _ h behind
      · rename_i inside
        split
        · rename_i begins
          subst begins
          exact .givenBack h something inside rfl
        · exact .stopBefore _ h behind

theorem step_feed (r : Reading) (c : Char) : Step r c (r.feed c) := by
  cases h : r.stage with
  | ready =>
    rw [feed_of_ready h]
    exact step_enter (live_of_stage h trivial) .self h fun _ => rfl
  | counting kind taken =>
    rw [feed_of_counting h]
    unfold count
    split
    · rename_i numeral
      exact .numeral h numeral
    · rename_i other
      rw [Bool.not_eq_true] at other
      split
      · rename_i mark
        rw [mark]
        exact step_giveBack h
      · split
        · exact .stop _ (live_of_stage h trivial) .self
        · rename_i something
          exact step_endRun h something other
  | named =>
    rw [feed_of_named h]
    exact step_link (live_of_stage h trivial) .self (.inl h) fun _ => rfl
  | settled =>
    simp only [feed, go, h]
    split
    · rename_i filler
      exact .filler .self (.inr h) filler
    · exact step_link (live_of_stage h trivial) .self (.inr h) fun _ => rfl
  | closing expected further =>
    rw [feed_of_closing h]
    exact step_close h c
  | stopped e =>
    rw [feed_of_stopped h]
    exact .dead h

/-- What holds at the start and is kept by every step holds of every reading. -/
theorem read_induction {P : List Char → Reading → Prop} (begins : P [] start)
    (step : ∀ (text : List Char) (r q : Reading) (c : Char),
      r = read text → P text r → Step r c q → P (text ++ [c]) q) (text : List Char) :
    P text (read text) := by
  induction text using List.reverseRecOn with
  | nil => exact begins
  | append_singleton text c ih =>
    have next : read (text ++ [c]) = (read text).feed c := by
      rw [read, along_append]
      rfl
    rw [next]
    exact step text _ _ c rfl ih (step_feed _ c)

/-! ## Tokens stay -/

theorem Step.keeps_tokens {q : Reading} {c : Char} (step : r.Step c q) :
    r.tokens <+: q.tokens := by
  cases step with
  | numeral | literal | bracket | closing | dead => exact List.prefix_rfl
  | filler behind => exact behind.keeps_tokens
  | separator behind => exact behind.keeps_tokens
  | openBracket behind => exact behind.keeps_tokens.trans (List.prefix_append _ _)
  | givenBack | closed => exact List.prefix_append _ _
  | stop cause live behind => exact behind.keeps_tokens
  | stopBefore cause stage behind => exact behind.keeps_tokens

theorem along_keeps_tokens (r : Reading) (text : List Char) :
    r.tokens <+: (r.along text).tokens := by
  induction text generalizing r with
  | nil => exact List.prefix_rfl
  | cons c text ih => exact (step_feed r c).keeps_tokens.trans (ih (r.feed c))

theorem finish_keeps_tokens (r : Reading) : r.tokens <+: r.finish.tokens := by
  unfold finish
  split
  · split
    · exact List.prefix_rfl
    · split
      · exact List.prefix_append _ _
      · exact List.prefix_rfl
  all_goals exact List.prefix_rfl

theorem outcome_keeps_tokens (r : Reading) (text : List Char) :
    r.tokens <+: (r.outcome text).tokens :=
  (along_keeps_tokens r text).trans (finish_keeps_tokens _)

end Reading
end SumomoLexer
