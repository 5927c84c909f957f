import SumomoLexer.Proofs.OpenRuns

/-! # What messages say

A message may name what stands at the position of its rejection, and what was expected there. The
first is so because the reading stopped at that character or, where it gave a numeral back, one behind
it. For the second the expected character is put in place of what is there: a reading that waits for a
close bracket goes on with the character it waits for, and a run of numerals goes on with a `の`, which
begins a close bracket if the close mark follows. What nothing has stopped can be completed.
-/
namespace SumomoLexer
open Vocabulary
set_option autoImplicit false

/-! ## The expected character goes on -/

namespace Reading

variable {r b : Reading} {c expected : Char} {e : Rejection} {found : Option Char}
  {text : List Char}

theorem live_feed_bracket (behind : r.Behind b) (stage : b.stage = .named ∨ b.stage = .settled) :
    (r.feed 'の').Live := by
  cases behind with
  | self =>
    have links : r.Links ['の'] :=
      stage.imp_right fun settled => ⟨settled, head_solid [] (by decide)⟩
    rw [links.feed_eq]
    exact live_of_stage rfl trivial
  | run counting =>
    rw [feed_of_counting counting]
    exact live_of_stage rfl trivial

theorem live_feed_closing {further : List Char} (stage : r.stage = .closing expected further) :
    (r.feed expected).Live := by
  cases further with
  | nil =>
    rw [feed_closing_last stage]
    rcases behind_cases (r.depth - 1) with outside | outside <;>
      exact live_of_stage outside trivial
  | cons next further =>
    rw [feed_closing_next stage]
    exact live_of_stage rfl trivial

/-- A run of two numerals or more was there one character before, without the last of them. -/
theorem counting_before {front : List Char} {kind : Token.Kind} {last : Char} {taken : List Char}
    (stage : (read (front ++ [c])).stage = .counting kind (last :: taken))
    (something : taken ≠ []) : (read front).stage = .counting kind taken := by
  rw [read_snoc] at stage
  rcases (step_feed _ c).counting_cases stage with
    ⟨-, ⟨more, counting, same⟩ | ⟨-, alone⟩⟩ | ⟨-, nothing, -⟩
  · cases same
    exact counting
  · cases alone
    exact absurd rfl something
  · cases nothing

theorem take_position (text : List Char) : text.take (read text).position = text := by
  rw [read_position, List.take_length]

theorem Blames.position_le (h : r.Blames c e) : e.position ≤ r.position := by
  cases h with
  | stray | noNumeral | noBracket | brokenBracket => exact Nat.le_refl _
  | onlyNumeral | nothingOpen | wrongNumeral => exact Nat.sub_le _ _

theorem Blames.live_expected (h : (read text).Blames c e)
    (cause : e.cause = .wrongCharacter expected found) :
    (read (text.take e.position ++ [expected])).Live := by
  cases h with
  | stray | noNumeral | nothingOpen => cases cause
  | onlyNumeral =>
    dsimp only at cause
    split at cause <;> cases cause
  | noBracket behind stage =>
    cases cause
    rw [take_position, read_snoc]
    exact live_feed_bracket behind stage
  | brokenBracket stage =>
    cases cause
    rw [take_position, read_snoc]
    exact live_feed_closing stage
  | wrongNumeral stage something =>
    cases cause
    rcases text.eq_nil_or_concat with rfl | ⟨front, d, split⟩
    · cases stage
    · rw [List.concat_eq_append] at split
      subst split
      have place : (read (front ++ [d])).position - 1 = front.length := by
        rw [read_position, List.length_append, List.length_singleton, Nat.add_sub_cancel]
      dsimp only
      rw [place, List.take_left, read_snoc, feed_of_counting (counting_before stage something)]
      exact live_of_stage rfl trivial

theorem Lacks.live_expected (h : (read text).Lacks e)
    (cause : e.cause = .wrongCharacter expected found) :
    (read (text.take e.position ++ [expected])).Live := by
  cases h with
  | expression | endOfRun => cases cause
  | bracket stage =>
    cases cause
    rw [take_position, read_snoc]
    exact live_feed_bracket .self stage
  | restOfBracket stage =>
    cases cause
    rw [take_position, read_snoc]
    exact live_feed_closing stage

/-- With the expected character at its position nothing stops the text. -/
theorem live_expected (h : (read text).finish.stage = .stopped e)
    (cause : e.cause = .wrongCharacter expected found) :
    (read (text.take e.position ++ [expected])).Live := by
  rcases finish_stopped_cases h with ⟨before, c, after, rfl, blames⟩ | lacks
  · have le := blames.position_le
    rw [read_position] at le
    rw [List.take_append_of_le_length le]
    exact blames.live_expected cause
  · exact lacks.live_expected cause

end Reading

theorem exists_lex_expected {text : String} {e : Rejection} {expected : Char} {found : Option Char}
    (h : lex text = .error (.rejected e)) (cause : e.cause = .wrongCharacter expected found) :
    ∃ more tokens, lex (firstChars text e.position ++ expected.toString ++ more) = .ok tokens := by
  obtain ⟨_, ⟨⟩, stopped⟩ := lex_eq_error_iff.mp h
  apply exists_lex_append_iff.mpr
  have characters : (firstChars text e.position ++ expected.toString).toList =
      text.toList.take e.position ++ [expected] := by
    rw [String.toList_append, firstChars, String.toList_ofList]
    exact congrArg (_ ++ ·) (String.toList_singleton expected)
  rw [characters]
  exact Reading.live_expected stopped cause

/-! ## The words of a message -/

namespace Cause

variable {cause : Cause} {c expected : Char} {found : Option Char}

theorem quote_between (front back : String) (c : Char) :
    front ++ quote c ++ back = front ++ "\"" ++ c.toString ++ ("\"" ++ back) := by
  simp only [quote, String.append_assoc]

theorem message_strayCharacter (c : Char) :
    (strayCharacter c).message = "Unexpected char \"" ++ c.toString ++ "\"." :=
  quote_between "Unexpected char " "." c

theorem message_nothingToClose (c : Char) : (nothingToClose c).message =
    "\"" ++ c.toString ++ "\" starts a close bracket with nothing to close." :=
  String.append_assoc

theorem message_wrongCharacter (expected : Char) (found : Option Char) :
    (wrongCharacter expected found).message =
      "Expected \"" ++ expected.toString ++ "\" but came " ++ (naming found ++ ".") :=
  calc (wrongCharacter expected found).message
    _ = "Expected " ++ quote expected ++ " but came " ++ (naming found ++ ".") :=
        String.append_assoc
    _ = "Expected \"" ++ expected.toString ++ "\" but came " ++ (naming found ++ ".") :=
        congrArg (· ++ _) (quote_between "Expected " " but came " expected)

theorem came_quote (front : String) (c : Char) :
    front ++ " but came " ++ naming (some c) ++ "." =
      front ++ " " ++ "but came \"" ++ c.toString ++ "\"." := by
  have words : front ++ " but came " ++ "\"" = front ++ " " ++ "but came \"" := by
    simp only [String.append_assoc]
    rfl
  rw [naming, quote_between, words]
  rfl

theorem came_end (front : String) :
    front ++ " but came " ++ naming none ++ "." = front ++ " " ++ "but came end of input." := by
  simp only [String.append_assoc]
  rfl

theorem message_of_found (kind : cause.kind = .unexpectedChar) (here : cause.found = some c) :
    cause.message = "Unexpected char \"" ++ c.toString ++ "\"." ∨
      cause.message = "\"" ++ c.toString ++ "\" starts a close bracket with nothing to close." ∨
        ∃ front, cause.message = front ++ "but came \"" ++ c.toString ++ "\"." := by
  cases cause with
  | undecodable | unfinishedNumerals => cases kind
  | missingExpression => cases here
  | strayCharacter d =>
    cases here
    exact .inl (message_strayCharacter c)
  | nothingToClose d =>
    cases here
    exact .inr (.inl (message_nothingToClose c))
  | missingNumerals kind found =>
    cases here
    exact .inr (.inr ⟨_, came_quote _ c⟩)
  | wrongCharacter expected found =>
    cases here
    exact .inr (.inr ⟨_, came_quote _ c⟩)

theorem message_of_end (kind : cause.kind = .unexpectedChar) (here : cause.found = none) :
    ∃ front, cause.message = front ++ "but came end of input." := by
  cases cause with
  | undecodable | unfinishedNumerals => cases kind
  | strayCharacter | nothingToClose => cases here
  | missingExpression => exact ⟨_, came_end "Expected an expression"⟩
  | missingNumerals kind found =>
    cases here
    exact ⟨_, came_end _⟩
  | wrongCharacter expected found =>
    cases here
    exact ⟨_, came_end _⟩

/-- The words that a message begins with, as far as they tell its cause. -/
def opening : Cause → String
  | .undecodable _ => "Source is not valid UTF-8: "
  | .missingExpression => "Expected an expression but came "
  | .strayCharacter _ => "Unexpected char "
  | .nothingToClose _ => "\""
  | .unfinishedNumerals _ => "Reached the end of input while reading "
  | .missingNumerals kind _ => "Expected " ++ kind.name
  | .wrongCharacter _ _ => "Expected \""

theorem message_eq_opening (cause : Cause) : ∃ back, cause.message = cause.opening ++ back := by
  cases cause with
  | undecodable => exact ⟨_, rfl⟩
  | missingExpression | strayCharacter | unfinishedNumerals => exact ⟨_, String.append_assoc⟩
  | nothingToClose c => exact ⟨_, (message_nothingToClose c).trans String.append_assoc⟩
  | missingNumerals => exact ⟨_, String.append_assoc.trans String.append_assoc⟩
  | wrongCharacter expected found =>
    have reads := message_wrongCharacter expected found
    exact ⟨_, reads.trans (String.append_assoc.trans String.append_assoc)⟩

/-- No other message begins as one does that expects a character. -/
theorem wrongCharacter_of_opening {back : String} (h : cause.message = "Expected \"" ++ back) :
    ∃ expected found, cause = .wrongCharacter expected found := by
  obtain ⟨other, same⟩ := cause.message_eq_opening
  have begins : "Expected \"".toList <+: cause.message.toList := by
    rw [h, String.toList_append]
    exact List.prefix_append _ _
  have opens : cause.opening.toList <+: cause.message.toList := by
    rw [same, String.toList_append]
    exact List.prefix_append _ _
  have agree := List.prefix_or_prefix_of_prefix begins opens
  cases cause with
  | wrongCharacter expected found => exact ⟨expected, found, rfl⟩
  | missingNumerals kind =>
    dsimp only [opening] at agree
    cases kind <;> exact absurd agree (by decide)
  | undecodable | missingExpression | strayCharacter | nothingToClose | unfinishedNumerals =>
    dsimp only [opening] at agree
    exact absurd agree (by decide)

theorem eq_of_append_eq {front back other : String} {c d : Char}
    (h : front ++ (c.toString ++ back) = front ++ (d.toString ++ other)) : c = d := by
  have characters := congrArg String.toList h
  simp only [String.toList_append, Char.toString, String.toList_singleton, List.append_cancel_left_eq,
    List.singleton_append, List.cons.injEq] at characters
  exact characters.1

theorem eq_wrongCharacter {rest : String}
    (h : cause.message = "Expected \"" ++ expected.toString ++ "\" but came " ++ rest) :
    ∃ found, cause = .wrongCharacter expected found := by
  have begins := h.trans (String.append_assoc.trans String.append_assoc)
  obtain ⟨c, found, rfl⟩ := wrongCharacter_of_opening begins
  rw [message_wrongCharacter] at h
  simp only [String.append_assoc] at h
  obtain rfl := eq_of_append_eq h
  exact ⟨found, rfl⟩

end Cause

/-! ## Messages in their place -/

/-- What a message says of the text at a position is so. -/
structure TrueAt (text : String) (position : Nat) (message : String) : Prop where
  position_le : position ≤ text.length
  inside : ∀ c, text.toList[position]? = some c →
    message = "Unexpected char \"" ++ c.toString ++ "\"." ∨
      message = "\"" ++ c.toString ++ "\" starts a close bracket with nothing to close." ∨
        ∃ front, message = front ++ "but came \"" ++ c.toString ++ "\"."
  atEnd : position = text.length → ∃ front, message = front ++ "but came end of input."
  expected : ∀ (c : Char) (rest : String),
    message = "Expected \"" ++ c.toString ++ "\" but came " ++ rest →
      ∃ more tokens, lex (firstChars text position ++ c.toString ++ more) = .ok tokens

theorem lex_error_message_true {text : String} {e : Rejection}
    (h : lex text = .error (.rejected e)) (kind : e.cause.kind = .unexpectedChar) :
    TrueAt text e.position e.cause.message where
  position_le := by
    obtain ⟨_, ⟨⟩, stopped⟩ := lex_eq_error_iff.mp h
    rw [← String.length_toList]
    exact (Reading.finish_stopped stopped).1
  inside c here := Cause.message_of_found kind ((lex_error_cause h).2.trans here)
  atEnd whole := by
    apply Cause.message_of_end kind
    rw [(lex_error_cause h).2, whole, ← String.length_toList]
    exact List.getElem?_eq_none (Nat.le_refl _)
  expected c rest reads := by
    obtain ⟨found, cause⟩ := Cause.eq_wrongCharacter reads
    exact exists_lex_expected h cause

/-- The close mark gives the second numeral back, which the message then names. A `の` in its place
would have begun the close bracket. -/
theorem lex_error_message_true_of_give_back :
    lex "すももう" = .error (.rejected ⟨.wrongCharacter 'の' (some 'も'), 2, ⟨0, 0⟩⟩) ∧
      (Cause.wrongCharacter 'の' (some 'も')).message = "Expected \"の\" but came \"も\"." ∧
        ∃ more tokens, lex (firstChars "すももう" 2 ++ "の" ++ more) = .ok tokens := by
  have rejected : lex "すももう" =
      .error (.rejected ⟨.wrongCharacter 'の' (some 'も'), 2, ⟨0, 0⟩⟩) := by decide +kernel
  have reads : (Cause.wrongCharacter 'の' (some 'も')).message =
      "Expected \"" ++ Char.toString 'の' ++ "\" but came " ++ "\"も\"." := by decide
  constructor
  · exact rejected
  · constructor
    · exact reads
    · exact (lex_error_message_true rejected rfl).expected 'の' _ reads

end SumomoLexer
