import Mathlib.Data.List.Forall2
import SumomoLexer.Proofs.Grammar
import SumomoLexer.Proofs.Reading.Brackets
import SumomoLexer.Proofs.Reading.Stop

/-! # Readings of different texts

Two readings are parallel if they are at the same stage with as many open brackets, and what the first
has emitted matches the last tokens of the second. How positions and line marks match is left to the
use, such as a text that is moved or one with other filler. Readings that are parallel stay so when
both read the same character, as long as the places match on which the character is, and when both
pass filler, which need not be the same.

To emit a token a reading needs more than the place where it is: it needs the one where the token
began. So the places are asked to match over the width of the token that is being read.
-/
namespace SumomoLexer
open Vocabulary
set_option autoImplicit false

namespace Reading

/-- How the places, line marks and causes of one reading go with those of another. -/
structure Matching where
  place : Nat → Nat → Prop
  line : LineMark → LineMark → Prop
  cause : Cause → Cause → Prop
  same : ∀ c, cause c c

namespace Matching

structure Tokens (m : Matching) (t u : Token) : Prop where
  kind_eq : u.kind = t.kind
  value_eq : u.value = t.value
  start : m.place t.range.start u.range.start
  stop : m.place t.range.stop u.range.stop
  line : m.line t.line u.line

structure Rejections (m : Matching) (e f : Rejection) : Prop where
  cause : m.cause e.cause f.cause
  position : m.place e.position f.position
  line : m.line e.line f.line

inductive Stages (m : Matching) : Stage → Stage → Prop
  | runs {stage : Stage} : stage.Runs → m.Stages stage stage
  | stopped {e f : Rejection} : m.Rejections e f → m.Stages (.stopped e) (.stopped f)

/-- The second reading may have had tokens before the first one began. -/
structure Parallel (m : Matching) (base : List Token) (r q : Reading) : Prop where
  stage : m.Stages r.stage q.stage
  depth_eq : q.depth = r.depth
  line : m.line r.line q.line
  tokens : ∃ more, q.tokens = base ++ more ∧ List.Forall₂ m.Tokens r.tokens more

end Matching

/-- The number of characters of the token that is being read. -/
def width (r : Reading) : Nat :=
  match r.stage with
  | .counting _ taken => taken.length
  | .closing _ further => 3 - further.length
  | _ => 0

structure Matching.Aligned (m : Matching) (r q : Reading) : Prop where
  width_le : r.width ≤ r.position
  width_le' : r.width ≤ q.position
  place : ∀ k ≤ r.width, m.place (r.position - k) (q.position - k)

variable {m : Matching} {base : List Token} {r q : Reading} {c d : Char} {kind : Token.Kind}
  {taken : List Char}

theorem Matching.Aligned.here (h : m.Aligned r q) : m.place r.position q.position :=
  h.place 0 (Nat.zero_le _)

theorem Matching.Aligned.of_width_eq (none : r.width = 0) (here : m.place r.position q.position) :
    m.Aligned r q := by
  refine ⟨?_, ?_, fun k le => ?_⟩
  · rw [none]
    exact Nat.zero_le _
  · rw [none]
    exact Nat.zero_le _
  · rw [none] at le
    rw [Nat.le_zero.mp le]
    exact here

theorem runs_of_outside {stage : Stage}
    (h : stage = .named ∨ stage = .ready ∨ stage = .settled) : stage.Runs := by
  rcases h with rfl | rfl | rfl <;> trivial

theorem width_of_outside (h : r.stage = .named ∨ r.stage = .ready ∨ r.stage = .settled) :
    r.width = 0 := by
  rcases h with h | h | h <;> rw [width, h]

theorem width_of_counting (h : r.stage = .counting kind taken) : r.width = taken.length := by
  rw [width, h]

theorem width_of_closing {expected : Char} {further : List Char}
    (h : r.stage = .closing expected further) : r.width = 3 - further.length := by
  rw [width, h]

theorem Step.width_le (step : r.Step c q) : q.width ≤ r.width + 1 := by
  cases step with
  | numeral stage =>
    rw [width_of_counting stage]
    exact Nat.le_refl _
  | literal => exact Nat.le_add_left _ _
  | @filler b _ stage =>
    have none : ((b.pass c).moveTo (r.position + 1)).width = 0 := width_of_outside (.inr stage)
    rw [none]
    exact Nat.zero_le _
  | openBracket => exact Nat.zero_le _
  | separator => exact Nat.zero_le _
  | bracket => exact Nat.le_add_left _ _
  | givenBack stage something =>
    have some := List.length_pos_iff.mpr something
    rw [width_of_counting stage, List.length_cons]
    change 2 ≤ _
    omega
  | @closing next further stage =>
    rw [width_of_closing stage, List.length_cons]
    change 3 - further.length ≤ _
    omega
  | closed =>
    refine Nat.le_trans (Nat.le_of_eq (width_of_outside (.inr ?_))) (Nat.zero_le _)
    exact behind_cases (r.depth - 1)
  | stop | stopBefore => exact Nat.zero_le _
  | dead => exact Nat.le_succ _

theorem feed_width_le (r : Reading) (c : Char) : (r.feed c).width ≤ r.width + 1 :=
  (step_feed r c).width_le

theorem Matching.Aligned.feed (h : m.Aligned r q)
    (next : m.place (r.position + 1) (q.position + 1)) :
    m.Aligned (r.feed c) (q.feed d) := by
  have wider := feed_width_le r c
  refine ⟨?_, ?_, ?_⟩
  · rw [feed_position]
    exact Nat.le_trans wider (Nat.succ_le_succ h.width_le)
  · rw [feed_position]
    exact Nat.le_trans wider (Nat.succ_le_succ h.width_le')
  · intro k le
    rw [feed_position, feed_position]
    cases k with
    | zero => exact next
    | succ k =>
      rw [Nat.add_sub_add_right, Nat.add_sub_add_right]
      exact h.place k (by omega)

namespace Matching.Parallel

variable (h : m.Parallel base r q)
include h

theorem stage_cases : q.stage = r.stage ∧ r.stage.Runs ∨
    ∃ e f, r.stage = .stopped e ∧ q.stage = .stopped f ∧ m.Rejections e f := by
  have stages := h.stage
  generalize r.stage = first at stages ⊢
  generalize q.stage = second at stages ⊢
  cases stages with
  | runs runs => exact .inl ⟨rfl, runs⟩
  | stopped rejections => exact .inr ⟨_, _, rfl, rfl, rejections⟩

theorem stage_eq {stage : Stage} (at_ : r.stage = stage) (runs : stage.Runs) :
    q.stage = stage := by
  rcases h.stage_cases with ⟨same, -⟩ | ⟨e, f, stopped, -⟩
  · rw [same, at_]
  · rw [← at_, stopped] at runs
    exact runs.elim

theorem stopped_of_stopped {e : Rejection} (stopped : r.stage = .stopped e) :
    ∃ f, q.stage = .stopped f ∧ m.Rejections e f := by
  rcases h.stage_cases with ⟨-, runs⟩ | ⟨d, f, first, second, rejections⟩
  · rw [stopped] at runs
    exact runs.elim
  · rw [stopped] at first
    cases first
    exact ⟨f, second, rejections⟩

theorem moveTo (position position' : Nat) :
    m.Parallel base (r.moveTo position) (q.moveTo position') :=
  ⟨h.stage, h.depth_eq, h.line, h.tokens⟩

/-- Both go on at this stage, inside as many brackets. -/
theorem goOn {stage : Stage} (runs : stage.Runs) (depth : Nat) :
    m.Parallel base { r with stage, depth } { q with stage, depth } :=
  ⟨.runs runs, rfl, h.line, h.tokens⟩

theorem emit {a b length : Nat} (start : m.place a b) (stop : m.place (a + length) (b + length))
    (kind : Token.Kind) (value : Option String) :
    m.Parallel base (r.emit kind value a length) (q.emit kind value b length) := by
  obtain ⟨more, tokens, alike⟩ := h.tokens
  let token : Token := ⟨kind, value, q.line, ⟨b, b + length, Nat.le_add_right b length⟩⟩
  refine ⟨h.stage, h.depth_eq, h.line, more ++ [token], ?_, ?_⟩
  · simp only [Reading.emit, tokens, List.append_assoc, token]
  · exact List.rel_append alike (.cons ⟨rfl, rfl, start, stop, h.line⟩ .nil)

theorem stop {x y : Cause} {a b : Nat} (cause : m.cause x y) (place : m.place a b) :
    m.Parallel base (r.stop x a) (q.stop y b) :=
  ⟨.stopped ⟨cause, place, h.line⟩, h.depth_eq, h.line, h.tokens⟩

theorem endRun (start : m.place (r.position - taken.length) (q.position - taken.length))
    (stop : m.place (r.position - taken.length + taken.length)
      (q.position - taken.length + taken.length)) (kind : Token.Kind) :
    m.Parallel base (r.endRun kind taken) (q.endRun kind taken) := by
  have runs := runs_of_outside (behindRun_cases kind r.depth)
  unfold Reading.endRun
  rw [h.depth_eq]
  exact (h.goOn runs r.depth).emit start stop _ _

/-! ### The same character -/

theorem enter (here : m.place r.position q.position)
    (next : m.place (r.position + 1) (q.position + 1)) (solid : isFiller c = false) :
    m.Parallel base (r.enter c) (q.enter c) := by
  simp only [Reading.enter, solid, Bool.false_eq_true, if_false]
  split
  · rw [h.depth_eq]
    have entered := h.goOn (show (Stage.counting .operator []).Runs from trivial) (r.depth + 1)
    exact entered.emit here next _ _
  · split
    · exact ⟨.runs trivial, h.depth_eq, h.line, h.tokens⟩
    · exact h.stop (m.same _) here

theorem link (here : m.place r.position q.position) : m.Parallel base (r.link c) (q.link c) := by
  unfold Reading.link
  split
  · exact ⟨.runs trivial, h.depth_eq, h.line, h.tokens⟩
  · split
    · exact ⟨.runs trivial, h.depth_eq, h.line, h.tokens⟩
    · exact h.stop (m.same _) here

theorem close {expected : Char} {further : List Char} (here : m.place r.position q.position)
    (start : further = [] → m.place (r.position - 3) (q.position - 3))
    (stop : further = [] → m.place (r.position - 3 + 4) (q.position - 3 + 4)) :
    m.Parallel base (r.close expected further c) (q.close expected further c) := by
  unfold Reading.close
  split
  · cases further with
    | nil =>
      have runs := runs_of_outside (.inr (behind_cases (r.depth - 1)))
      rw [h.depth_eq]
      exact (h.goOn runs (r.depth - 1)).emit (start rfl) (stop rfl) _ _
    | cons next further => exact ⟨.runs trivial, h.depth_eq, h.line, h.tokens⟩
  · exact h.stop (m.same _) here

theorem go (aligned : m.Aligned r q) (next : m.place (r.position + 1) (q.position + 1))
    (solid : isFiller c = false) : m.Parallel base (r.go c) (q.go c) := by
  rcases h.stage_cases with ⟨same, -⟩ | ⟨e, f, stopped, stopped', -⟩
  · cases stage : r.stage with
    | ready =>
      simp only [Reading.go, same, stage]
      exact h.enter aligned.here next solid
    | named =>
      simp only [Reading.go, same, stage]
      exact h.link aligned.here
    | settled =>
      simp only [Reading.go, same, stage, solid, Bool.false_eq_true, if_false]
      exact h.link aligned.here
    | closing expected further =>
      simp only [Reading.go, same, stage]
      have width := width_of_closing stage
      have le := aligned.width_le
      have le' := aligned.width_le'
      have begun : further = [] → r.width = 3 := by
        rintro rfl
        exact width
      have start (last : further = []) : m.place (r.position - 3) (q.position - 3) :=
        aligned.place 3 (Nat.le_of_eq (begun last).symm)
      refine h.close aligned.here start fun last => ?_
      have three := begun last
      rw [show r.position - 3 + 4 = r.position + 1 by omega,
        show q.position - 3 + 4 = q.position + 1 by omega]
      exact next
    | counting | stopped =>
      simp only [Reading.go, same, stage]
      exact h
  · simp only [Reading.go, stopped, stopped']
    exact h

theorem shut {last : Char} (here : m.place r.position q.position) (runs : r.stage.Runs) :
    m.Parallel base (r.shut last) (q.shut last) := by
  have same := h.stage_eq rfl runs
  unfold Reading.shut
  rw [same]
  split
  · exact h.stop (m.same _) here
  · split
    · exact ⟨.runs trivial, h.depth_eq, h.line, h.tokens⟩
    · exact h.stop (m.same _) here

theorem giveBack (aligned : m.Aligned r q) (stage : r.stage = .counting kind taken) :
    m.Parallel base (r.giveBack kind taken) (q.giveBack kind taken) := by
  have width := width_of_counting stage
  cases taken with
  | nil => exact h.stop (m.same _) aligned.here
  | cons last taken =>
    have le := aligned.width_le
    have le' := aligned.width_le'
    rw [width, List.length_cons] at le le'
    have back : m.place (r.position - 1) (q.position - 1) := by
      refine aligned.place 1 ?_
      rw [width]
      exact Nat.succ_le_succ (Nat.zero_le _)
    have moved := h.moveTo (r.position - 1) (q.position - 1)
    simp only [Reading.giveBack]
    split
    · exact moved.stop (m.same _) back
    · have start : m.place (r.position - 1 - taken.length) (q.position - 1 - taken.length) := by
        rw [Nat.sub_sub, Nat.sub_sub, Nat.add_comm 1]
        exact aligned.place _ (Nat.le_of_eq width.symm)
      have stop : m.place (r.position - 1 - taken.length + taken.length)
          (q.position - 1 - taken.length + taken.length) := by
        rw [Nat.sub_add_cancel (by omega), Nat.sub_add_cancel (by omega)]
        exact back
      have ended := moved.endRun start stop kind
      exact ended.shut back (runs_of_outside (behindRun_cases kind r.depth))

theorem endCount (aligned : m.Aligned r q) (stage : r.stage = .counting kind taken) :
    m.Parallel base (r.endRun kind taken) (q.endRun kind taken) := by
  have width := width_of_counting stage
  have le := aligned.width_le
  have le' := aligned.width_le'
  rw [width] at le le'
  refine h.endRun (aligned.place _ (Nat.le_of_eq width.symm)) ?_ kind
  rw [Nat.sub_add_cancel le, Nat.sub_add_cancel le']
  exact aligned.here

theorem count (aligned : m.Aligned r q) (next : m.place (r.position + 1) (q.position + 1))
    (solid : isFiller c = false) (stage : r.stage = .counting kind taken) :
    m.Parallel base (r.count kind taken c) (q.count kind taken c) := by
  unfold Reading.count
  split
  · exact ⟨.runs trivial, h.depth_eq, h.line, h.tokens⟩
  · split
    · exact h.giveBack aligned stage
    · split
      · exact h.stop (m.same _) aligned.here
      · have ended := h.endCount aligned stage
        have outside : (r.endRun kind taken).width = 0 :=
          width_of_outside (behindRun_cases kind r.depth)
        exact ended.go (.of_width_eq outside aligned.here) next solid

theorem feed (aligned : m.Aligned r q) (next : m.place (r.position + 1) (q.position + 1))
    (solid : isFiller c = false) : m.Parallel base (r.feed c) (q.feed c) := by
  cases stage : r.stage with
  | counting kind taken =>
    rw [feed_of_counting stage, feed_of_counting (h.stage_eq stage trivial)]
    exact (h.count aligned next solid stage).moveTo _ _
  | ready | named | settled | closing =>
    have same := h.stage_eq stage trivial
    have went := (h.go aligned next solid).moveTo (r.position + 1) (q.position + 1)
    simp only [Reading.feed, stage, same]
    exact went
  | stopped e =>
    obtain ⟨f, stopped, -⟩ := h.stopped_of_stopped stage
    rw [feed_of_stopped stage, feed_of_stopped stopped]
    exact h.moveTo _ _

end Matching.Parallel

/-! ### Filler -/

/-- Two characters of filler; a rejection may name the one or the other. -/
structure Matching.Fillers (m : Matching) (c d : Char) : Prop where
  left : isFiller c = true
  right : isFiller d = true
  wrong : ∀ expected, m.cause (.wrongCharacter expected (some c)) (.wrongCharacter expected (some d))
  missing : ∀ kind, m.cause (.missingNumerals kind (some c)) (.missingNumerals kind (some d))

theorem Sound.expected_solid (h : r.Sound) {expected : Char} {further : List Char}
    (stage : r.stage = .closing expected further) : isFiller expected = false := by
  have member := (h.bracket _ _ stage).subset List.mem_cons_self
  simp only [closeBracket, List.mem_cons, List.not_mem_nil, or_false] at member
  rcases member with rfl | rfl | rfl | rfl <;> decide

theorem link_filler (filler : isFiller c = true) :
    r.link c = r.stop (.wrongCharacter 'の' (some c)) r.position := by
  have separates : c ≠ separator := Grammar.ne_of_isFiller filler (by decide)
  have begins : c ≠ 'の' := Grammar.ne_of_isFiller filler (by decide)
  simp only [link, separates, begins, if_false]

theorem close_filler {expected : Char} {further : List Char} (filler : isFiller c = true)
    (solid : isFiller expected = false) :
    r.close expected further c = r.stop (.wrongCharacter expected (some c)) r.position := by
  simp only [close, Grammar.ne_of_isFiller filler solid, if_false]

theorem count_filler (filler : isFiller c = true) :
    r.count kind taken c = if taken = [] then r.stop (.missingNumerals kind (some c)) r.position
      else (r.endRun kind taken).go c := by
  have numeral := Grammar.isNumeral_of_isFiller filler
  have mark : c ≠ closeMark := Grammar.ne_of_isFiller filler (by decide)
  simp only [count, numeral, mark, Bool.false_eq_true, if_false]

theorem go_filler (h : r.stage = .ready ∨ r.stage = .settled) (filler : isFiller c = true) :
    r.go c = r.pass c := by
  rcases h with h | h <;> simp only [go, h, enter, filler, if_true]

namespace Matching.Parallel

variable (h : m.Parallel base r q)
include h

theorem pass (line : m.line (r.pass c).line (q.pass d).line) :
    m.Parallel base (r.pass c) (q.pass d) := ⟨h.stage, h.depth_eq, line, h.tokens⟩

theorem go_outside (here : m.place r.position q.position) (fillers : m.Fillers c d)
    (line : m.line (r.pass c).line (q.pass d).line)
    (stage : r.stage = .named ∨ r.stage = .ready ∨ r.stage = .settled) :
    m.Parallel base (r.go c) (q.go d) := by
  rcases stage with stage | outside
  · have same := h.stage_eq stage trivial
    simp only [Reading.go, stage, same, link_filler fillers.left, link_filler fillers.right]
    exact h.stop (fillers.wrong _) here
  · have outside' : q.stage = .ready ∨ q.stage = .settled :=
      outside.imp (h.stage_eq · trivial) (h.stage_eq · trivial)
    rw [go_filler outside fillers.left, go_filler outside' fillers.right]
    exact h.pass line

theorem feed_filler (sound : r.Sound) (aligned : m.Aligned r q) (fillers : m.Fillers c d)
    (line : m.line (r.pass c).line (q.pass d).line) :
    m.Parallel base (r.feed c) (q.feed d) := by
  cases stage : r.stage with
  | counting kind taken =>
    rw [feed_of_counting stage, feed_of_counting (h.stage_eq stage trivial),
      count_filler fillers.left, count_filler fillers.right]
    refine Parallel.moveTo ?_ _ _
    split
    · exact h.stop (fillers.missing kind) aligned.here
    · exact (h.endCount aligned stage).go_outside aligned.here fillers line
        (behindRun_cases kind r.depth)
  | closing expected further =>
    have solid := sound.expected_solid stage
    rw [feed_of_closing stage, feed_of_closing (h.stage_eq stage trivial),
      close_filler fillers.left solid, close_filler fillers.right solid]
    exact (h.stop (fillers.wrong _) aligned.here).moveTo _ _
  | ready | named | settled =>
    have same := h.stage_eq stage trivial
    have outside : r.stage = .named ∨ r.stage = .ready ∨ r.stage = .settled := by
      simp only [stage, reduceCtorEq, or_true, or_false]
    have went := h.go_outside aligned.here fillers line outside
    simp only [Reading.feed, stage, same]
    exact went.moveTo _ _
  | stopped e =>
    obtain ⟨f, stopped, -⟩ := h.stopped_of_stopped stage
    rw [feed_of_stopped stage, feed_of_stopped stopped]
    exact h.moveTo _ _

/-! ### The end of both texts -/

theorem finish_cases (here : m.place r.position q.position) :
    (r.stage = .ready ∧ r.depth = 0 ∧ q.stage = .ready ∧ q.depth = 0) ∨
      ∃ e f, r.finish.stage = .stopped e ∧ q.finish.stage = .stopped f ∧ m.Rejections e f := by
  have stops (cause : Cause) (first : r.finish = r.stop cause r.position)
      (second : q.finish = q.stop cause q.position) :
      ∃ e f, r.finish.stage = .stopped e ∧ q.finish.stage = .stopped f ∧ m.Rejections e f := by
    rw [first, second]
    exact ⟨_, _, rfl, rfl, m.same cause, here, h.line⟩
  cases stage : r.stage with
  | ready =>
    have same := h.stage_eq stage trivial
    by_cases deep : 0 < r.depth
    · have deep' : 0 < q.depth := by rwa [h.depth_eq]
      refine .inr (stops .missingExpression ?_ ?_)
      · simp only [finish, stage, deep, if_true]
      · simp only [finish, same, deep', if_true]
    · have top := Nat.eq_zero_of_not_pos deep
      exact .inl ⟨rfl, top, same, h.depth_eq.trans top⟩
  | counting kind taken =>
    have same := h.stage_eq stage trivial
    refine .inr (stops (.unfinishedNumerals kind) ?_ ?_)
    · simp only [finish, stage]
    · simp only [finish, same]
  | named | settled =>
    have same := h.stage_eq stage trivial
    refine .inr (stops (.wrongCharacter 'の' none) ?_ ?_)
    · simp only [finish, stage]
    · simp only [finish, same]
  | closing expected further =>
    have same := h.stage_eq stage trivial
    refine .inr (stops (.wrongCharacter expected none) ?_ ?_)
    · simp only [finish, stage]
    · simp only [finish, same]
  | stopped e =>
    obtain ⟨f, stopped, rejections⟩ := h.stopped_of_stopped stage
    refine .inr ⟨e, f, ?_, ?_, rejections⟩
    · rw [finish_of_stopped stage]
      exact stage
    · rw [finish_of_stopped stopped]
      exact stopped

end Matching.Parallel

/-- Both texts have an end mark, or neither has. -/
theorem Matching.Parallel.finish_tokens (h : m.Parallel [] r q)
    (here : m.place r.position q.position) (something : 0 < r.position ↔ 0 < q.position)
    (stage : r.stage = .ready) (top : r.depth = 0) (stage' : q.stage = .ready) (top' : q.depth = 0) :
    List.Forall₂ m.Tokens r.finish.tokens q.finish.tokens := by
  obtain ⟨more, tokens, alike⟩ := h.tokens
  rw [List.nil_append] at tokens
  have silent : r.tokens = [] ↔ q.tokens = [] := by
    rw [← List.length_eq_zero_iff, ← List.length_eq_zero_iff, tokens, alike.length_eq]
  rw [finish_of_ready stage top, finish_of_ready stage' top']
  by_cases alone : r.tokens = [] ∧ 0 < r.position
  · have alone' : q.tokens = [] ∧ 0 < q.position := ⟨silent.mp alone.1, something.mp alone.2⟩
    have stop : m.place (r.position + 0) (q.position + 0) := here
    obtain ⟨more, tokens, alike⟩ := (h.emit here stop .endMark none).tokens
    rw [if_pos alone, if_pos alone', tokens]
    exact alike
  · have alone' : ¬ (q.tokens = [] ∧ 0 < q.position) := by
      rwa [← silent, ← something]
    rw [if_neg alone, if_neg alone', tokens]
    exact alike

end Reading
end SumomoLexer
