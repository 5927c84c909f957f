import SumomoLexer.Proofs.Completion
import SumomoLexer.Proofs.Reading.Blame

/-! # Runs of numerals at the end

A run of numerals ends only before another character, so that a text that ends in one is not over. What
such a text is does not follow from its last characters: behind a parameter and a gap a numeral begins
a close bracket, and behind a number literal more numerals belong to it. What counts is whether an
expression may begin in front of the run, or in front of the bracket that the run is the operator of.
-/
namespace SumomoLexer
open Vocabulary Grammar
set_option autoImplicit false

/-- Behind this text an expression may begin: with an open bracket there it can be completed. -/
def MayBegin (text : String) : Prop := ∃ more tokens, lex (text ++ "す" ++ more) = .ok tokens

/-- An expression as far as its first run of numerals, which nothing has ended yet. -/
inductive OpenRun : List Char → Prop
  | literal {word : List Char} : IsWord word → OpenRun word
  | operator {numerals : List Char} : (∀ c ∈ numerals, isNumeral c = true) →
    OpenRun (openBracket :: numerals)

theorem OpenRun.snoc {run : List Char} {c : Char} (h : OpenRun run) (numeral : isNumeral c = true) :
    OpenRun (run ++ [c]) := by
  have all {word : List Char} (numerals : ∀ d ∈ word, isNumeral d = true) :
      ∀ d ∈ word ++ [c], isNumeral d = true :=
    List.forall_mem_append.mpr ⟨numerals, List.forall_mem_singleton.mpr numeral⟩
  cases h with
  | literal word => exact .literal ⟨List.append_ne_nil_of_right_ne_nil _ nofun, all word.2⟩
  | operator numerals => exact .operator (all numerals)

namespace Reading

variable {r b q : Reading} {c : Char} {text front run : List Char}

/-! ## Where an expression may begin -/

theorem Step.counting_cases {kind : Token.Kind} {taken : List Char} (step : r.Step c q)
    (h : q.stage = .counting kind taken) :
    (isNumeral c = true ∧ ((∃ more, r.stage = .counting kind more ∧ taken = c :: more) ∨
      r.stage = .ready ∧ taken = [c])) ∨
      c = Vocabulary.openBracket ∧ taken = [] ∧ ∃ b, r.Behind b ∧ b.stage = .ready := by
  have outside {stage : Stage} (between : stage = .named ∨ stage = .ready ∨ stage = .settled)
      (counting : stage = .counting kind taken) : False := (not_within between).1 _ _ counting
  cases step with
  | numeral stage numeral =>
    cases h
    exact .inl ⟨numeral, .inl ⟨_, stage, rfl⟩⟩
  | literal stage numeral =>
    cases h
    exact .inl ⟨numeral, .inr ⟨stage, rfl⟩⟩
  | openBracket behind stage opens =>
    cases h
    exact .inr ⟨opens, rfl, _, behind, stage⟩
  | filler _ stage _ => exact (outside (.inr stage) h).elim
  | closed => exact (outside (.inr (behind_cases _)) h).elim
  | separator | bracket | givenBack | closing | stop | stopBefore => cases h
  | dead stopped => exact nomatch stopped.symm.trans h

theorem feed_openBracket_of_behind (behind : r.Behind b) (stage : b.stage = .ready) :
    (r.feed openBracket).stage = .counting .operator [] := by
  have same : r.feed openBracket = b.feed openBracket := by
    cases behind with
    | self => rfl
    | run counting something =>
      have ends : EndsRun [openBracket] := .mark (by decide) (by decide)
      exact along_endRun counting something ends
  rw [same, feed_openBracket stage]
  rfl

theorem Step.opens (step : r.Step Vocabulary.openBracket q) (sound : r.Sound) (live : q.Live) :
    ∃ b, r.Behind b ∧ b.stage = .ready := by
  cases step with
  | openBracket behind stage => exact ⟨_, behind, stage⟩
  | numeral _ numeral | literal _ numeral => exact absurd numeral (by decide)
  | filler _ _ filler => exact absurd filler (by decide)
  | separator _ _ other | bracket _ other | givenBack _ _ _ other =>
    exact absurd other (by decide)
  | closing stage | closed stage =>
    have expected := (sound.bracket _ _ stage).subset List.mem_cons_self
    exact absurd expected (by decide)
  | stop | stopBefore => exact absurd rfl (live _)
  | dead stopped => exact absurd stopped (live _)

/-- An open bracket is read where an expression may begin, and stops the reading everywhere else. -/
theorem Sound.live_feed_openBracket_iff (sound : r.Sound) :
    (r.feed openBracket).Live ↔ ∃ b, r.Behind b ∧ b.stage = .ready := by
  constructor
  · exact (step_feed r openBracket).opens sound
  · rintro ⟨b, behind, stage⟩
    exact live_of_stage (feed_openBracket_of_behind behind stage) trivial

/-! ## Texts that end in a run -/

/-- The text ends in an open run, and an expression may begin in front of it. -/
def EndsOpen (text : List Char) : Prop :=
  ∃ front run, text = front ++ run ∧ (read (front ++ [openBracket])).Live ∧ OpenRun run

theorem live_read_openBracket (behind : (read text).Behind b) (stage : b.stage = .ready) :
    (read (text ++ [openBracket])).Live := by
  rw [read_snoc, (read_sound text).live_feed_openBracket_iff]
  exact ⟨b, behind, stage⟩

theorem endsOpen_of_counting (text : List Char) (counting : ∃ kind taken,
    (read text).stage = .counting kind taken) : EndsOpen text := by
  revert counting
  apply read_induction (P := fun text r => (∃ kind taken, r.stage = .counting kind taken) →
    EndsOpen text)
  · rintro ⟨kind, taken, ⟨⟩⟩
  · rintro text _ q c rfl ih step ⟨kind, taken, stage⟩
    rcases step.counting_cases stage with
      ⟨numeral, ⟨more, counting, -⟩ | ⟨ready, -⟩⟩ | ⟨rfl, -, b, behind, ready⟩
    · obtain ⟨front, run, rfl, live, openRun⟩ := ih ⟨kind, more, counting⟩
      exact ⟨front, run ++ [c], List.append_assoc _ _ _, live, openRun.snoc numeral⟩
    · exact ⟨text, [c], rfl, live_read_openBracket .self ready,
        .literal ⟨List.cons_ne_nil _ _, List.forall_mem_singleton.mpr numeral⟩⟩
    · exact ⟨text, [openBracket], rfl, live_read_openBracket behind ready, .operator nofun⟩

theorem along_word_counting (behind : r.Behind b) (stage : b.stage = .ready) {word : List Char}
    (isWord : IsWord word) : ∃ kind taken, (r.along word).stage = .counting kind taken := by
  cases behind with
  | self =>
    obtain ⟨c, rest, rfl⟩ := List.exists_cons_of_ne_nil isWord.1
    rw [along_cons, feed_numeral stage isWord.head_isNumeral, ← along_cons,
      along_numerals rfl isWord.2]
    exact ⟨_, _, rfl⟩
  | run counting =>
    -- The numerals go on the run that is there.
    rw [along_numerals counting isWord.2]
    exact ⟨_, _, rfl⟩

theorem EndsOpen.counting (h : EndsOpen text) :
    ∃ kind taken, (read text).stage = .counting kind taken := by
  obtain ⟨front, run, rfl, live, openRun⟩ := h
  rw [read_snoc, (read_sound front).live_feed_openBracket_iff] at live
  obtain ⟨b, behind, stage⟩ := live
  rw [read_append]
  cases openRun with
  | literal isWord => exact along_word_counting behind stage isWord
  | operator numerals =>
    rw [along_cons, along_numerals (feed_openBracket_of_behind behind stage) numerals]
    exact ⟨_, _, rfl⟩

theorem Lacks.kind_cases {e : Rejection} (h : r.Lacks e) :
    (∃ kind taken, r.stage = .counting kind taken) ∧ e.cause.kind = .unexpectedEof ∧
        e.position = r.position ∨
      e.cause.kind = .unexpectedChar := by
  cases h with
  | endOfRun stage => exact .inl ⟨⟨_, _, stage⟩, rfl, rfl⟩
  | expression | bracket | restOfBracket => exact .inr rfl

end Reading

theorem mayBegin_iff {front : String} :
    MayBegin front ↔ (Reading.read (front.toList ++ [openBracket])).Live := by
  have text : (front ++ "す").toList = front.toList ++ [openBracket] := String.toList_append
  rw [← text]
  exact exists_lex_append_iff

theorem endsOpen_iff {text : String} : Reading.EndsOpen text.toList ↔
    ∃ front run, text = front ++ run ∧ MayBegin front ∧ OpenRun run.toList := by
  constructor
  · rintro ⟨front, run, split, live, openRun⟩
    refine ⟨String.ofList front, String.ofList run, ?_, ?_, ?_⟩
    · rw [← String.toList_inj, split, ← String.ofList_append, String.toList_ofList]
    · rw [mayBegin_iff, String.toList_ofList]
      exact live
    · rw [String.toList_ofList]
      exact openRun
  · rintro ⟨front, run, rfl, mayBegin, openRun⟩
    exact ⟨front.toList, run.toList, String.toList_append, mayBegin_iff.mp mayBegin, openRun⟩

/-- Either the end of the text cut a run of numerals off, or it is a character that is wrong, which
the end may be as well. -/
theorem lex_error_kind {text : String} {e : Rejection} (h : lex text = .error (.rejected e)) :
    Reading.EndsOpen text.toList ∧ e.cause.kind = .unexpectedEof ∧ e.position = text.length ∨
      e.cause.kind = .unexpectedChar := by
  obtain ⟨_, ⟨⟩, stopped⟩ := lex_eq_error_iff.mp h
  rcases Reading.finish_stopped_cases stopped with ⟨_, _, _, _, blames⟩ | lacks
  · exact .inr blames.kind_eq
  · refine lacks.kind_cases.imp_left ?_
    rintro ⟨counting, kind, place⟩
    rw [Reading.read_position, String.length_toList] at place
    exact ⟨Reading.endsOpen_of_counting _ counting, kind, place⟩

theorem Reading.EndsOpen.lex_eq_error {text : String} (h : Reading.EndsOpen text.toList) :
    ∃ e, lex text = .error (.rejected e) ∧ e.cause.kind = .unexpectedEof := by
  obtain ⟨kind, taken, stage⟩ := h.counting
  let r := Reading.read text.toList
  let e : Rejection := ⟨.unfinishedNumerals kind, r.position, r.line⟩
  have stopped : r.finish.stage = .stopped e := by
    simp only [r, Reading.finish, stage]
    rfl
  exact ⟨e, lex_eq_error_iff.mpr ⟨e, rfl, stopped⟩, rfl⟩

/-- The end of a text is unexpected exactly if it cuts a run of numerals off, behind a text where an
expression may begin; it is the position of the rejection then. For every other rejected text it is a
character that is unexpected, also where there is none. -/
theorem lex_unexpectedEof_iff (text : String) :
    ((∃ e, lex text = .error (.rejected e) ∧ e.cause.kind = .unexpectedEof) ↔
      ∃ front run, text = front ++ run ∧ MayBegin front ∧ OpenRun run.toList) ∧
    ∀ failure, lex text = .error failure → ∃ e, failure = .rejected e ∧
      (e.cause.kind = .unexpectedEof ∧ e.position = text.length ∨
        e.cause.kind = .unexpectedChar) := by
  rw [← endsOpen_iff]
  refine ⟨⟨?_, Reading.EndsOpen.lex_eq_error⟩, ?_⟩
  · rintro ⟨e, rejected, kind⟩
    rcases lex_error_kind rejected with ⟨ends, -⟩ | other
    · exact ends
    · cases kind.symm.trans other
  · intro failure rejected
    obtain ⟨e, rfl, -⟩ := lex_eq_error_iff.mp rejected
    exact ⟨e, rfl, (lex_error_kind rejected).imp_left And.right⟩

/-- Two texts that end in the same numeral, which begins a close bracket in the first of them. -/
theorem lex_unexpectedEof_iff_of_last_numeral :
    (lex "すも、も の" = .error (.rejected ⟨.wrongCharacter 'う' none, 6, ⟨0, 0⟩⟩) ∧
      ¬ ∃ front run, "すも、も の" = front ++ run ∧ MayBegin front ∧ OpenRun run.toList) ∧
    ∃ e, lex "もすの" = .error (.rejected e) ∧ e.cause.kind = .unexpectedEof ∧
      e.position = "もすの".length := by
  have bracket : lex "すも、も の" =
      .error (.rejected ⟨.wrongCharacter 'う' none, 6, ⟨0, 0⟩⟩) := by decide +kernel
  have completed : lex ("も" ++ "す" ++ "ののうち。") = .ok [
      ⟨.numberLiteral, some "も", ⟨0, 0⟩, ⟨0, 1, by decide⟩⟩,
      ⟨.openBracket, none, ⟨0, 0⟩, ⟨1, 2, by decide⟩⟩,
      ⟨.operator, some "の", ⟨0, 0⟩, ⟨2, 3, by decide⟩⟩,
      ⟨.closeBracket, none, ⟨0, 0⟩, ⟨3, 7, by decide⟩⟩] := by decide +kernel
  have numerals : ∀ c ∈ ['の'], isNumeral c = true := List.forall_mem_singleton.mpr (by decide)
  have openRun : OpenRun "すの".toList := .operator numerals
  refine ⟨⟨bracket, ?_⟩, ?_⟩
  · intro ends
    obtain ⟨e, rejected, kind⟩ := (lex_unexpectedEof_iff "すも、も の").1.mpr ends
    cases bracket.symm.trans rejected
    cases kind
  · obtain ⟨e, rejected, kind⟩ := (lex_unexpectedEof_iff "もすの").1.mpr
      ⟨"も", "すの", by decide, ⟨_, _, completed⟩, openRun⟩
    obtain ⟨_, ⟨⟩, ⟨-, place⟩ | other⟩ := (lex_unexpectedEof_iff "もすの").2 _ rejected
    · exact ⟨e, rejected, kind, place⟩
    · cases kind.symm.trans other

end SumomoLexer
