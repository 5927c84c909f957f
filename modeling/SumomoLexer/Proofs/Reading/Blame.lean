import SumomoLexer.Proofs.Lines
import SumomoLexer.Proofs.Reading.Brackets
import SumomoLexer.Proofs.Tiling

/-! # What a rejection blames

A reading stops for one of a few reasons, each at its own stage: `Blames` lists those for which a
character stops it, `Lacks` those for which the end of the text does. A reason names the character that
stands at the position of the rejection, or the end if the position is there. A close mark is never
named itself where it takes a numeral away: the rejection is then about that numeral.
-/
namespace SumomoLexer
open Vocabulary
set_option autoImplicit false

/-- What a cause says to stand at the position of its rejection. -/
def Cause.found : Cause → Option Char
  | .strayCharacter c | .nothingToClose c => some c
  | .missingNumerals _ found | .wrongCharacter _ found => found
  | .undecodable _ | .missingExpression | .unfinishedNumerals _ => none

/-- Of a text only a close bracket can be expected to go on, and nothing of it is undecodable. -/
def Cause.OfText : Cause → Prop
  | .undecodable _ => False
  | .wrongCharacter expected _ => expected ∈ closeBracket
  | _ => True

theorem Cause.OfText.kind_ne {cause : Cause} (h : cause.OfText) : cause.kind ≠ .invalidInput := by
  cases cause with
  | undecodable defect => cases h
  | missingExpression | strayCharacter | nothingToClose | unfinishedNumerals | missingNumerals
  | wrongCharacter => exact nofun

namespace Reading

inductive Blames (r : Reading) (c : Char) : Rejection → Prop
  | stray {b : Reading} : r.Behind b → b.stage = .ready → isFiller c = false →
    Blames r c ⟨.strayCharacter c, r.position, r.line⟩
  | noNumeral {kind : Token.Kind} : r.stage = .counting kind [] → isNumeral c = false →
    Blames r c ⟨.missingNumerals kind (some c), r.position, r.line⟩
  | noBracket {b : Reading} : r.Behind b → b.stage = .named ∨ b.stage = .settled →
    c ≠ separator → c ≠ 'の' → Blames r c ⟨.wrongCharacter 'の' (some c), r.position, r.line⟩
  | brokenBracket {expected : Char} {further : List Char} : r.stage = .closing expected further →
    c ≠ expected → Blames r c ⟨.wrongCharacter expected (some c), r.position, r.line⟩
  | onlyNumeral {kind : Token.Kind} {last : Char} : r.stage = .counting kind [last] →
    c = closeMark → Blames r c ⟨if kind = .operator then .missingNumerals kind (some last)
      else .nothingToClose last, r.position - 1, r.line⟩
  | nothingOpen {kind : Token.Kind} {last : Char} {taken : List Char} :
    r.stage = .counting kind (last :: taken) → taken ≠ [] →
    Stage.behindRun kind r.depth = .ready → c = closeMark →
    Blames r c ⟨.nothingToClose last, r.position - 1, r.line⟩
  | wrongNumeral {kind : Token.Kind} {last : Char} {taken : List Char} :
    r.stage = .counting kind (last :: taken) → taken ≠ [] →
    Stage.behindRun kind r.depth ≠ .ready → last ≠ 'の' → c = closeMark →
    Blames r c ⟨.wrongCharacter 'の' (some last), r.position - 1, r.line⟩

inductive Lacks (r : Reading) : Rejection → Prop
  | expression : r.stage = .ready → 0 < r.depth → Lacks r ⟨.missingExpression, r.position, r.line⟩
  | endOfRun {kind : Token.Kind} {taken : List Char} : r.stage = .counting kind taken →
    Lacks r ⟨.unfinishedNumerals kind, r.position, r.line⟩
  | bracket : r.stage = .named ∨ r.stage = .settled →
    Lacks r ⟨.wrongCharacter 'の' none, r.position, r.line⟩
  | restOfBracket {expected : Char} {further : List Char} : r.stage = .closing expected further →
    Lacks r ⟨.wrongCharacter expected none, r.position, r.line⟩

variable {r b : Reading} {c : Char} {e : Rejection} {text : List Char}

theorem blames_enter (behind : r.Behind b) (stage : b.stage = .ready)
    (h : (b.enter c).stage = .stopped e) : r.Blames c e := by
  unfold enter at h
  split at h
  · have stopped : b.stage = .stopped e := h
    rw [stage] at stopped
    cases stopped
  · rename_i solid
    rw [Bool.not_eq_true] at solid
    split at h
    · cases h
    · split at h
      · cases h
      · cases h
        rw [behind.position_eq, behind.line_eq]
        exact .stray behind stage solid

theorem blames_link (behind : r.Behind b) (stage : b.stage = .named ∨ b.stage = .settled)
    (h : (b.link c).stage = .stopped e) : r.Blames c e := by
  unfold link at h
  split at h
  · cases h
  · rename_i other
    split at h
    · cases h
    · rename_i different
      cases h
      rw [behind.position_eq, behind.line_eq]
      exact .noBracket behind stage other different

theorem blames_close {expected : Char} {further : List Char}
    (stage : r.stage = .closing expected further)
    (h : (r.close expected further c).stage = .stopped e) : r.Blames c e := by
  unfold close at h
  split at h
  · cases further with
    | nil =>
      have stopped : Stage.behind (r.depth - 1) = .stopped e := h
      rcases behind_cases (r.depth - 1) with outside | outside <;> rw [outside] at stopped <;>
        cases stopped
    | cons next further => cases h
  · rename_i other
    cases h
    exact .brokenBracket stage other

theorem blames_go (behind : r.Behind b)
    (outside : b.stage = .named ∨ b.stage = .ready ∨ b.stage = .settled)
    (h : (b.go c).stage = .stopped e) : r.Blames c e := by
  rcases outside with stage | stage | stage
  · simp only [go, stage] at h
    exact blames_link behind (.inl stage) h
  · simp only [go, stage] at h
    exact blames_enter behind stage h
  · simp only [go, stage] at h
    split at h
    · have stopped : b.stage = .stopped e := h
      rw [stage] at stopped
      cases stopped
    · exact blames_link behind (.inr stage) h

theorem blames_giveBack {kind : Token.Kind} {taken : List Char}
    (stage : r.stage = .counting kind taken)
    (h : (r.giveBack kind taken).stage = .stopped e) : r.Blames closeMark e := by
  cases taken with
  | nil =>
    cases h
    exact .noNumeral stage (by decide)
  | cons last taken =>
    unfold giveBack at h
    dsimp only at h
    split at h
    · rename_i alone
      subst alone
      cases h
      exact .onlyNumeral stage rfl
    · rename_i something
      unfold shut at h
      split at h
      · rename_i ready
        cases h
        exact .nothingOpen stage something ready rfl
      · rename_i inside
        split at h
        · cases h
        · rename_i other
          cases h
          exact .wrongNumeral stage something inside other rfl

theorem feed_blames (live : r.Live) (h : (r.feed c).stage = .stopped e) : r.Blames c e := by
  cases stage : r.stage with
  | ready =>
    rw [feed_of_ready stage] at h
    exact blames_enter .self stage h
  | named =>
    rw [feed_of_named stage] at h
    exact blames_link .self (.inl stage) h
  | settled =>
    rw [feed_eq_go (.inr (.inr stage))] at h
    exact blames_go .self (.inr (.inr stage)) h
  | closing expected further =>
    rw [feed_of_closing stage] at h
    exact blames_close stage h
  | stopped f => exact absurd stage (live f)
  | counting kind taken =>
    rw [feed_of_counting stage] at h
    have after : (r.count kind taken c).stage = .stopped e := h
    unfold count at after
    split at after
    · cases after
    · rename_i other
      rw [Bool.not_eq_true] at other
      split at after
      · rename_i mark
        rw [mark]
        exact blames_giveBack stage after
      · split at after
        · rename_i nothing
          subst nothing
          cases after
          exact .noNumeral stage other
        · rename_i something
          exact blames_go (.run stage something) (behindRun_cases kind r.depth) after

theorem finish_lacks (live : r.Live) (h : r.finish.stage = .stopped e) : r.Lacks e := by
  cases stage : r.stage with
  | ready =>
    simp only [finish, stage] at h
    split at h
    · rename_i deep
      cases h
      exact .expression stage deep
    · split at h <;> exact absurd (stage.symm.trans h) nofun
  | counting kind taken =>
    simp only [finish, stage] at h
    cases h
    exact .endOfRun stage
  | named =>
    simp only [finish, stage] at h
    cases h
    exact .bracket (.inl stage)
  | settled =>
    simp only [finish, stage] at h
    cases h
    exact .bracket (.inr stage)
  | closing expected further =>
    simp only [finish, stage] at h
    cases h
    exact .restOfBracket stage
  | stopped f => exact absurd stage (live f)

/-! ## What is named is what stands there -/

theorem Blames.found_eq (h : (read text).Blames c e) (after : List Char) :
    e.cause.found = (text ++ c :: after)[e.position]? := by
  have here := read_position text
  have named : (text ++ c :: after)[(read text).position]? = some c := by
    rw [here, getElem?_length_append]
    rfl
  have before {kind : Token.Kind} {last : Char} {taken : List Char}
      (stage : (read text).stage = .counting kind (last :: taken)) :
      (text ++ c :: after)[(read text).position - 1]? = some last := by
    obtain ⟨front, split, -, -⟩ := (read_lays text).unread here stage
    have place : (read text).position - 1 = front.length := by
      rw [here, split, List.length_append, List.length_singleton, Nat.add_sub_cancel]
    rw [place, split, List.append_assoc, getElem?_length_append]
    rfl
  cases h with
  | stray | noNumeral | noBracket | brokenBracket => exact named.symm
  | @onlyNumeral kind last stage =>
    rw [before stage]
    dsimp only
    split <;> rfl
  | nothingOpen stage => exact (before stage).symm
  | wrongNumeral stage => exact (before stage).symm

theorem Lacks.found_eq (h : (read text).Lacks e) : e.cause.found = text[e.position]? := by
  have nothing : text[(read text).position]? = none := by
    rw [read_position]
    exact List.getElem?_eq_none (Nat.le_refl _)
  cases h <;> exact nothing.symm

/-- A text is stopped by one of its characters or by its end. -/
theorem finish_stopped_cases (h : (read text).finish.stage = .stopped e) :
    (∃ before c after, text = before ++ c :: after ∧ (read before).Blames c e) ∨
      (read text).Lacks e := by
  rcases (read text).live_or_stopped with live | ⟨f, stopped⟩
  · exact .inr (finish_lacks live h)
  · rw [finish_of_stopped stopped] at h
    obtain ⟨before, c, after, split, alive, stops⟩ := exists_stop h
    have stage := stops.stage_eq
    rw [read_snoc] at stage
    exact .inl ⟨before, c, after, split, feed_blames alive stage⟩

theorem Blames.kind_eq (h : r.Blames c e) : e.cause.kind = .unexpectedChar := by
  cases h with
  | stray | noNumeral | noBracket | brokenBracket | nothingOpen | wrongNumeral => rfl
  | onlyNumeral =>
    dsimp only
    split <;> rfl

theorem Blames.ofText (h : r.Blames c e) (sound : r.Sound) : e.cause.OfText := by
  cases h with
  | stray | noNumeral | nothingOpen => trivial
  | noBracket | wrongNumeral => exact List.mem_cons_self
  | brokenBracket stage => exact (sound.bracket _ _ stage).subset List.mem_cons_self
  | onlyNumeral =>
    dsimp only
    split <;> trivial

theorem Lacks.ofText (h : r.Lacks e) (sound : r.Sound) : e.cause.OfText := by
  cases h with
  | expression | endOfRun => trivial
  | bracket => exact List.mem_cons_self
  | restOfBracket stage => exact (sound.bracket _ _ stage).subset List.mem_cons_self

end Reading

theorem lex_error_cause {text : String} {e : Rejection} (h : lex text = .error (.rejected e)) :
    e.cause.OfText ∧ e.cause.found = text.toList[e.position]? := by
  obtain ⟨_, ⟨⟩, stopped⟩ := lex_eq_error_iff.mp h
  rcases Reading.finish_stopped_cases stopped with ⟨before, c, after, split, blames⟩ | lacks
  · rw [split]
    exact ⟨blames.ofText (Reading.read_sound before), blames.found_eq after⟩
  · exact ⟨lacks.ofText (Reading.read_sound _), lacks.found_eq⟩

end SumomoLexer
