import SumomoLexer.Proofs.Grammar
import SumomoLexer.Proofs.Reading.OfScan

/-! # The language of the lexer

What lexes is what the grammar derives, and the tokens say what the derivation says. A derived text
is read by induction on its derivation. For the converse a reading that is not stopped is taken apart
from left to right: the text ahead of it has an expression, or parameters and a close bracket, as a
first part, and the reading behind that part has less text ahead.
-/
namespace SumomoLexer
open Vocabulary Grammar
set_option autoImplicit false

namespace Reading

def lexemes (r : Reading) : List Lexeme := r.tokens.map Token.lexeme

/-- Where a reading stands, apart from its place in the text. -/
structure At (r : Reading) (stage : Stage) (depth : Nat) (lexemes : List Lexeme) : Prop where
  stage_eq : r.stage = stage
  depth_eq : r.depth = depth
  lexemes_eq : r.lexemes = lexemes

def Inside (r : Reading) (outer : Nat) (lexemes : List Lexeme) : Prop :=
  r.At .named (outer + 1) lexemes ∨ r.At .settled (outer + 1) lexemes

variable {r : Reading} {stage : Stage} {depth outer : Nat} {L K : List Lexeme}
  {kind : Token.Kind} {text word gap : List Char}

theorem At.along_gap (h : r.At stage depth L) (passes : stage = .ready ∨ stage = .settled)
    (filler : IsGap gap) : (r.along gap).At stage depth L := by
  rw [along_filler (by rw [h.stage_eq]; exact passes) filler]
  exact ⟨h.stage_eq, h.depth_eq, h.lexemes_eq⟩

theorem At.endRun (h : r.At (.counting kind word.reverse) depth L) :
    (r.endRun kind word.reverse).At (.behindRun kind depth) depth
      (L ++ [(kind, some (String.ofList word))]) := by
  refine ⟨?_, h.depth_eq, ?_⟩
  · rw [← h.depth_eq]
    rfl
  · rw [← h.lexemes_eq]
    simp only [lexemes, Reading.endRun, emit, List.map_append, List.map_cons, List.map_nil,
      Token.lexeme, List.reverse_reverse]

theorem At.along_word (h : r.At (.counting kind []) depth L) (isWord : IsWord word)
    (ends : EndsRun text) : ∃ q : Reading, r.along (word ++ text) = q.along text ∧
      q.At (.behindRun kind depth) depth (L ++ [(kind, some (String.ofList word))]) := by
  have counted := along_numerals h.stage_eq isWord.2
  rw [List.append_nil] at counted
  have taken : (r.along word).At (.counting kind word.reverse) depth L := by
    rw [counted]
    exact ⟨rfl, h.depth_eq, h.lexemes_eq⟩
  refine ⟨(r.along word).endRun kind word.reverse, ?_, taken.endRun⟩
  rw [along_append, along_endRun taken.stage_eq (List.reverse_ne_nil_iff.mpr isWord.1) ends]

theorem At.feed_openBracket (h : r.At .ready depth L) :
    (r.feed openBracket).At (.counting .operator []) (depth + 1) (L ++ [(.openBracket, none)]) := by
  rw [Reading.feed_openBracket h.stage_eq]
  refine ⟨rfl, congrArg (· + 1) h.depth_eq, ?_⟩
  rw [← h.lexemes_eq]
  simp only [lexemes, emit, List.map_append, List.map_cons, List.map_nil, Token.lexeme]

theorem Inside.links (h : r.Inside outer L) (text : List Char)
    (solid : ∀ c ∈ text.head?, isFiller c = false) : r.Links text := by
  rcases h with named | settled
  · exact .inl named.stage_eq
  · exact .inr ⟨settled.stage_eq, solid⟩

theorem Inside.depth_eq (h : r.Inside outer L) : r.depth = outer + 1 :=
  h.elim At.depth_eq At.depth_eq

theorem Inside.lexemes_eq (h : r.Inside outer L) : r.lexemes = L :=
  h.elim At.lexemes_eq At.lexemes_eq

theorem Inside.feed_separator (h : r.Inside outer L) :
    (r.feed separator).At .ready (outer + 1) L := by
  rw [(h.links _ (head_solid [] (by decide))).feed_separator]
  exact ⟨rfl, h.depth_eq, h.lexemes_eq⟩

theorem At.feed_closing {expected next : Char} {further : List Char}
    (h : r.At (.closing expected (next :: further)) depth L) :
    (r.feed expected).At (.closing next further) depth L := by
  rw [feed_closing_next h.stage_eq]
  exact ⟨rfl, h.depth_eq, h.lexemes_eq⟩

theorem At.feed_closed {expected : Char} (h : r.At (.closing expected []) (outer + 1) L) :
    (r.feed expected).At (.behind outer) outer (L ++ [(.closeBracket, none)]) := by
  rw [feed_closing_last h.stage_eq]
  refine ⟨?_, ?_, ?_⟩
  · simp only [emit, h.depth_eq, Nat.add_sub_cancel]
  · simp only [emit, h.depth_eq, Nat.add_sub_cancel]
  · rw [← h.lexemes_eq]
    simp only [lexemes, emit, List.map_append, List.map_cons, List.map_nil, Token.lexeme]

theorem Inside.feed_bracket (h : r.Inside outer L) :
    (r.feed 'の').At (.closing 'う' ['ち', '。']) (outer + 1) L := by
  rw [(h.links _ (head_solid [] (by decide))).feed_eq]
  exact ⟨rfl, h.depth_eq, h.lexemes_eq⟩

theorem Inside.along_closeBracket (h : r.Inside outer L) :
    (r.along closeBracket).At (.behind outer) outer (L ++ [(.closeBracket, none)]) :=
  h.feed_bracket.feed_closing.feed_closing.feed_closed

end Reading

/-! ## Derived texts are read -/

namespace Grammar

variable {text inner gap : List Char} {K : List Lexeme}

theorem IsGap.endsRun (filler : IsGap gap) (ends : Reading.EndsRun text) :
    Reading.EndsRun (gap ++ text) := by
  cases gap with
  | nil => exact ends
  | cons c gap =>
    have first := filler c List.mem_cons_self
    exact .mark (isNumeral_of_isFiller first) (ne_of_isFiller first (by decide))

theorem Derives.endsRun (h : Derives .parameters inner K) (ends : Reading.EndsRun text) :
    Reading.EndsRun (inner ++ text) := by
  cases h with
  | nothing => exact ends
  | parameter => exact .mark (by decide) (by decide)

/-- What reading a phrase in front of any text comes to. -/
def Phrase.Reads : Phrase → List Char → List Lexeme → Prop
  | .expression, text, K => ∀ (r : Reading) (depth : Nat) (L : List Lexeme) (after : List Char),
    r.At .ready depth L → (IsWord text → Reading.EndsRun after) →
      ∃ q : Reading, r.along (text ++ after) = q.along after ∧ q.At (.behind depth) depth (L ++ K)
  | .parameters, text, K => ∀ (r : Reading) (outer : Nat) (L : List Lexeme) (after : List Char),
    r.Inside outer L → Reading.EndsRun after →
      ∃ q : Reading, r.along (text ++ after) = q.along after ∧ q.Inside outer (L ++ K)

theorem Derives.reads {phrase : Phrase} (h : Derives phrase text K) : phrase.Reads text K := by
  induction h with
  | @literal word isWord =>
    intro r depth L after ready ends
    obtain ⟨c, rest, rfl⟩ := List.exists_cons_of_ne_nil isWord.1
    have entered : ({ r with stage := .counting .numberLiteral [] } : Reading).At
        (.counting .numberLiteral []) depth L := ⟨rfl, ready.depth_eq, ready.lexemes_eq⟩
    obtain ⟨q, same, at_⟩ := entered.along_word isWord (ends isWord)
    refine ⟨q, ?_, at_⟩
    rw [← same, List.cons_append, Reading.along_cons, Reading.along_cons,
      Reading.feed_numeral ready.stage_eq isWord.head_isNumeral]
  | @compound word inner K isWord parameters ih =>
    intro r depth L after ready _
    have bracket : Reading.EndsRun (closeBracket ++ after) := .bracket (by decide)
    have ends : Reading.EndsRun (inner ++ (closeBracket ++ after)) := parameters.endsRun bracket
    obtain ⟨q, named, at_⟩ := ready.feed_openBracket.along_word isWord ends
    obtain ⟨p, inside, within⟩ := ih q depth _ (closeBracket ++ after) (.inl at_) bracket
    refine ⟨p.along closeBracket, ?_, ?_⟩
    · rw [List.cons_append, Reading.along_cons, List.append_assoc, List.append_assoc, named, inside,
        Reading.along_append]
    · simpa only [List.append_assoc, List.cons_append, List.nil_append] using within.along_closeBracket
  | nothing =>
    intro r outer L after inside _
    exact ⟨r, rfl, by rw [List.append_nil]; exact inside⟩
  | @parameter before text behind inner first K gap _ space others expression parameters =>
    intro r outer L after inside ends
    have ready := inside.feed_separator.along_gap (.inl rfl) gap
    have next : Reading.EndsRun (behind ++ (inner ++ after)) :=
      space.endsRun (others.endsRun ends)
    obtain ⟨q, same, settled⟩ := expression _ (outer + 1) L _ ready fun _ => next
    have further := settled.along_gap (.inr rfl) space
    obtain ⟨p, rest, within⟩ := parameters _ outer _ after (.inr further) ends
    refine ⟨p, ?_, by rw [← List.append_assoc]; exact within⟩
    rw [← rest, ← Reading.along_append, ← same, ← Reading.along_append]
    simp only [List.cons_append, List.append_assoc, Reading.along_cons]

end Grammar

/-! ## What is read was derived -/

namespace Reading

variable {r : Reading} {depth outer : Nat} {L : List Lexeme} {kind : Token.Kind} {text : List Char}

theorem not_live_of_stopped {e : Rejection} (h : r.stage = .stopped e) (text : List Char) :
    ¬ (r.outcome text).Live := fun live => live e (outcome_stoppedWith h text).stage_eq

/-- A run of numerals that is not stopped has a word ahead, and something behind it. -/
theorem At.word_of_live (h : r.At (.counting kind []) depth L) (live : (r.outcome text).Live) :
    ∃ word rest, text = word ++ rest ∧ IsWord word ∧ EndsRun rest := by
  have split : text = text.takeWhile isNumeral ++ text.dropWhile isNumeral :=
    List.takeWhile_append_dropWhile.symm
  have numerals : ∀ c ∈ text.takeWhile isNumeral, isNumeral c = true :=
    List.all_eq_true.mp List.all_takeWhile
  have stops := List.head?_dropWhile_not isNumeral text
  revert split numerals stops
  generalize text.takeWhile isNumeral = run
  generalize text.dropWhile isNumeral = rest
  rintro rfl numerals stops
  cases rest with
  | nil =>
    rw [List.append_nil, outcome, along_numerals h.stage_eq numerals] at live
    exact (live _ rfl).elim
  | cons c rest =>
    have other : isNumeral c = false := stops
    have nonempty : run ≠ [] := by
      rintro rfl
      rw [List.nil_append, outcome_cons, feed_missing h.stage_eq other] at live
      exact not_live_of_stopped rfl rest live
    by_cases mark : c = closeMark
    · subst mark
      obtain ⟨word, last, rfl⟩ : ∃ word last, run = word ++ [last] :=
        ⟨run.dropLast, run.getLast nonempty, (List.dropLast_append_getLast nonempty).symm⟩
      have numeral : isNumeral last = true :=
        numerals last (List.mem_append_right _ List.mem_cons_self)
      refine ⟨word, last :: closeMark :: rest, by rw [List.append_assoc]; rfl, ⟨?_, ?_⟩,
        .bracket numeral⟩
      · rintro rfl
        rw [List.nil_append, List.singleton_append, outcome_cons, outcome_cons,
          feed_missing_closeMark h.stage_eq numeral] at live
        exact not_live_of_stopped rfl rest live
      · exact fun d hd => numerals d (List.mem_append_left _ hd)
    · exact ⟨run, c :: rest, rfl, ⟨nonempty, numerals⟩, .mark other mark⟩

theorem At.closed_of_live {expected : Char} {further : List Char}
    (h : r.At (.closing expected further) (outer + 1) L) (live : (r.outcome text).Live) :
    ∃ rest, text = expected :: (further ++ rest) ∧ ∃ q : Reading,
      r.outcome text = q.outcome rest ∧ q.At (.behind outer) outer (L ++ [(.closeBracket, none)]) := by
  have found : text.head? = some expected := by
    by_contra other
    exact live _ (outcome_closing_of_other h.stage_eq other).stage_eq
  obtain ⟨text, rfl⟩ := List.head?_eq_some_iff.mp found
  induction further generalizing r expected text with
  | nil => exact ⟨text, rfl, r.feed expected, rfl, h.feed_closed⟩
  | cons next further ih =>
    have goes := h.feed_closing
    have found : text.head? = some next := by
      by_contra other
      exact live _ (outcome_closing_of_other goes.stage_eq other).stage_eq
    obtain ⟨text, rfl⟩ := List.head?_eq_some_iff.mp found
    obtain ⟨rest, split, q, same, at_⟩ := ih goes _ live found
    exact ⟨rest, by rw [split]; rfl, q, same, at_⟩

theorem At.begins_of_live {c : Char} (h : r.At .ready depth L)
    (live : (r.outcome (c :: text)).Live) :
    isFiller c = true ∨ c = openBracket ∨ isNumeral c = true := by
  by_contra nothing
  simp only [not_or] at nothing
  obtain ⟨filler, bracket, numeral⟩ := nothing
  rw [outcome_cons, feed_of_ready h.stage_eq] at live
  simp only [enter, filler, bracket, numeral, if_false] at live
  exact not_live_of_stopped rfl text live

theorem At.literal_of_live {c : Char} (h : r.At .ready depth L) (numeral : isNumeral c = true)
    (live : (r.outcome (c :: text)).Live) :
    ∃ word rest, c :: text = word ++ rest ∧ IsWord word ∧ EndsRun rest ∧ ∃ q : Reading,
      r.outcome (c :: text) = q.outcome rest ∧
        q.At (.behind depth) depth (L ++ [(.numberLiteral, some (String.ofList word))]) := by
  have entered : ({ r with stage := .counting .numberLiteral [] } : Reading).At
      (.counting .numberLiteral []) depth L := ⟨rfl, h.depth_eq, h.lexemes_eq⟩
  have same : r.outcome (c :: text) =
      ({ r with stage := .counting .numberLiteral [] } : Reading).outcome (c :: text) := by
    rw [outcome_cons, outcome_cons, feed_numeral h.stage_eq numeral]
  rw [same] at live ⊢
  obtain ⟨word, rest, split, isWord, ends⟩ := entered.word_of_live live
  obtain ⟨q, rests, at_⟩ := entered.along_word isWord ends
  refine ⟨word, rest, split, isWord, ends, q, ?_, at_⟩
  rw [split, outcome, rests]
  rfl

theorem At.operator_of_live (h : r.At .ready depth L)
    (live : (r.outcome (openBracket :: text)).Live) :
    ∃ word rest, text = word ++ rest ∧ IsWord word ∧ ∃ q : Reading,
      r.outcome (openBracket :: text) = q.outcome rest ∧ q.At .named (depth + 1)
        (L ++ [(.openBracket, none)] ++ [(.operator, some (String.ofList word))]) := by
  obtain ⟨word, rest, rfl, isWord, ends⟩ := h.feed_openBracket.word_of_live live
  obtain ⟨q, named, within⟩ := h.feed_openBracket.along_word isWord ends
  refine ⟨word, rest, rfl, isWord, q, ?_, within⟩
  rw [outcome_cons, outcome, named]
  rfl

theorem Inside.goes_of_live (h : r.Inside outer L) (live : (r.outcome text).Live) :
    text.head? = some separator ∨ text.head? = some 'の' ∨
      r.stage ≠ .named ∧ ∃ c rest, text = c :: rest ∧ isFiller c = true ∧
        (r.feed c).Inside outer L := by
  by_contra nothing
  simp only [not_or] at nothing
  obtain ⟨noSeparator, noBracket, solid⟩ := nothing
  have links : r.Links text := by
    rcases h with named | settled
    · exact .inl named.stage_eq
    · refine .inr ⟨settled.stage_eq, ?_⟩
      intro c hc
      obtain ⟨rest, rfl⟩ := List.head?_eq_some_iff.mp hc
      rw [← Bool.not_eq_true]
      intro filler
      have passed := settled.along_gap (.inr rfl) (isGap_nil.cons filler)
      exact solid ⟨by rw [settled.stage_eq]; nofun, c, rest, rfl, filler, .inr passed⟩
  exact live _ (links.outcome_of_other noSeparator noBracket).stage_eq

mutual
/-- The text ahead has an expression as a first part, if it is not filler outside of brackets. -/
theorem At.expression_of_live {r : Reading} {depth : Nat} {L : List Lexeme} {text : List Char}
    (h : r.At .ready depth L) (live : (r.outcome text).Live) :
    IsGap text ∧ depth = 0 ∨ ∃ (gap phrase rest : List Char) (K : List Lexeme) (q : Reading),
      text = gap ++ (phrase ++ rest) ∧ IsGap gap ∧ Derives .expression phrase K ∧
        (IsWord phrase → EndsRun rest) ∧ r.outcome text = q.outcome rest ∧
          q.At (.behind depth) depth (L ++ K) := by
  cases text with
  | nil =>
    refine .inl ⟨isGap_nil, Nat.eq_zero_of_not_pos fun deep => ?_⟩
    refine live ⟨.missingExpression, r.position, r.line⟩ ?_
    rw [← h.depth_eq] at deep
    simp only [outcome, along_nil, finish, h.stage_eq, deep, if_true, stop]
  | cons c text =>
    rcases h.begins_of_live live with filler | rfl | numeral
    · have passed : (r.feed c).At .ready depth L :=
        h.along_gap (.inl rfl) (isGap_nil.cons filler)
      rcases passed.expression_of_live live with ⟨gap, top⟩ | ⟨gap, phrase, rest, K, q, split, h⟩
      · exact .inl ⟨gap.cons filler, top⟩
      · obtain ⟨isGap, after⟩ := h
        exact .inr ⟨c :: gap, phrase, rest, K, q, by rw [split]; rfl, isGap.cons filler, after⟩
    · obtain ⟨word, behind, rfl, isWord, p, same, within⟩ := h.operator_of_live live
      rw [same] at live ⊢
      have inside : p.Inside depth _ := .inl within
      obtain ⟨gap, inner, rest, K, q, split, _, direct, derives, rests, at_⟩ :=
        inside.parameters_of_live live
      obtain rfl := direct within.stage_eq
      rw [List.nil_append] at split
      refine .inr ⟨[], _, rest, _, q, ?_, isGap_nil, .compound isWord derives, ?_, rests, ?_⟩
      · rw [split]
        simp only [List.nil_append, List.cons_append, List.append_assoc]
      · intro impossible
        exact absurd impossible.head_isNumeral (by decide)
      · simpa only [List.append_assoc, List.cons_append, List.nil_append] using at_
    · obtain ⟨word, rest, split, isWord, ends, q, same, at_⟩ := h.literal_of_live numeral live
      exact .inr ⟨[], word, rest, _, q, split, isGap_nil, .literal isWord, fun _ => ends, same, at_⟩
termination_by text.length

theorem Inside.parameters_of_live {r : Reading} {outer : Nat} {L : List Lexeme} {text : List Char}
    (h : r.Inside outer L) (live : (r.outcome text).Live) :
    ∃ (gap inner rest : List Char) (K : List Lexeme) (q : Reading),
      text = gap ++ (inner ++ (closeBracket ++ rest)) ∧ IsGap gap ∧ (r.stage = .named → gap = []) ∧
        Derives .parameters inner K ∧ r.outcome text = q.outcome rest ∧
          q.At (.behind outer) outer (L ++ (K ++ [(.closeBracket, none)])) := by
  rcases h.goes_of_live live with found | found | ⟨elsewhere, c, tail, rfl, filler, inside⟩
  · obtain ⟨text, rfl⟩ := List.head?_eq_some_iff.mp found
    rcases h.feed_separator.expression_of_live live with
      ⟨_, impossible⟩ | ⟨before, phrase, behind, K, p, rfl, gap, derives, _, same, settled⟩
    · cases impossible
    · have further : p.Inside outer _ := .inr settled
      rw [outcome_cons, same] at live ⊢
      obtain ⟨after, inner, rest, M, q, split, space, _, others, rests, at_⟩ :=
        further.parameters_of_live live
      refine ⟨[], _, rest, _, q, ?_, isGap_nil, fun _ => rfl,
        .parameter gap derives space others, rests, ?_⟩
      · rw [split]
        simp only [List.nil_append, List.cons_append, List.append_assoc]
      · simpa only [List.append_assoc] using at_
  · obtain ⟨text, rfl⟩ := List.head?_eq_some_iff.mp found
    obtain ⟨rest, rfl, q, rests, at_⟩ := h.feed_bracket.closed_of_live live
    exact ⟨[], [], rest, [], q, rfl, isGap_nil, fun _ => rfl, .nothing, rests, at_⟩
  · obtain ⟨gap, inner, rest, K, q, split, isGap, _, after⟩ := inside.parameters_of_live live
    refine ⟨c :: gap, inner, rest, K, q, by rw [split]; rfl, isGap.cons filler, ?_, after⟩
    exact fun named => absurd named elsewhere
termination_by text.length
end

end Reading

/-! ## Whole texts -/

namespace Grammar

theorem Derives.endsRun_of_not_word {text : List Char} {K : List Lexeme}
    (h : Derives .expression text K) (compound : ¬ IsWord text) (rest : List Char) :
    Reading.EndsRun (text ++ rest) := by
  rcases h.expression_cases with word | ⟨inner, rfl, _⟩
  · exact absurd word compound
  · exact .mark (by decide) (by decide)

theorem IsWord.not_endsRun {word text : List Char} (h : IsWord word)
    (ends : Reading.EndsRun text) : ¬ Reading.EndsRun (word ++ text) := by
  obtain ⟨c, word, rfl⟩ := List.exists_cons_of_ne_nil h.1
  intro impossible
  cases word with
  | nil =>
    rw [List.singleton_append] at impossible
    cases impossible with
    | mark other => exact absurd h.head_isNumeral (Bool.eq_false_iff.mp other)
    | bracket =>
      cases ends with
      | mark _ unmarked => exact unmarked rfl
      | bracket numeral => exact absurd numeral (by decide)
  | cons d word =>
    have second : isNumeral d = true := h.2 d (List.mem_cons_of_mem c List.mem_cons_self)
    cases impossible with
    | mark other => exact absurd h.head_isNumeral (Bool.eq_false_iff.mp other)
    | bracket => exact absurd second (by decide)

/-- Behind an item that is a word comes what ends a run of numerals. -/
theorem Item.endsRun {item : Item} {items : List Item}
    (apart : (item :: items).IsChain Item.Apart)
    (finished : Finished ((item :: items).flatMap Item.source)) (word : IsWord item.text) :
    Reading.EndsRun (item.gap ++ items.flatMap Item.source) := by
  by_cases empty : item.gap = []
  · cases items with
    | nil =>
      rw [List.flatMap_singleton, Item.source, empty, List.append_nil] at finished
      exact absurd finished word.not_finished
    | cons next items =>
      have different : ¬ IsWord next.text := fun other =>
        (List.isChain_cons_cons.mp apart).1 word other empty
      rw [empty, List.nil_append, List.flatMap_cons, Item.source, List.append_assoc]
      exact next.derives.endsRun_of_not_word different _
  · obtain ⟨c, gap, h⟩ := List.exists_cons_of_ne_nil empty
    have filler := item.isGap c (by rw [h]; exact List.mem_cons_self)
    rw [h]
    exact .mark (isNumeral_of_isFiller filler) (ne_of_isFiller filler (by decide))

variable {item : Item} {items : List Item}

theorem Item.isChain_cons (apart : items.IsChain Item.Apart)
    (finished : Finished (items.flatMap Item.source))
    (ends : IsWord item.text → Reading.EndsRun (item.gap ++ items.flatMap Item.source)) :
    (item :: items).IsChain Item.Apart := by
  cases items with
  | nil => exact .singleton item
  | cons next items =>
    refine List.isChain_cons_cons.mpr ⟨fun word other empty => ?_, apart⟩
    have before := ends word
    rw [empty, List.nil_append, List.flatMap_cons, Item.source, List.append_assoc] at before
    exact other.not_endsRun (Item.endsRun apart finished other) before

theorem Item.finished_cons (finished : Finished (items.flatMap Item.source))
    (ends : IsWord item.text → Reading.EndsRun (item.gap ++ items.flatMap Item.source)) :
    Finished ((item :: items).flatMap Item.source) := by
  have later : Finished (item.gap ++ items.flatMap Item.source) :=
    finished.append fun _ => item.isGap.finished
  rw [List.flatMap_cons, Item.source, List.append_assoc]
  refine later.append fun empty => ?_
  rcases item.derives.expression_cases with word | ⟨_, _, closed⟩
  · have impossible := ends word
    rw [empty] at impossible
    cases impossible
  · exact closed

end Grammar

namespace Reading

variable {r : Reading} {L : List Lexeme}

theorem At.along_items (h : r.At .ready 0 L) (items : List Item)
    (apart : items.IsChain Item.Apart) (finished : Finished (items.flatMap Item.source)) :
    (r.along (items.flatMap Item.source)).At .ready 0 (L ++ items.flatMap Item.lexemes) := by
  induction items generalizing r L with
  | nil =>
    rw [List.flatMap_nil, List.flatMap_nil, List.append_nil]
    exact h
  | cons item items ih =>
    obtain ⟨q, same, at_⟩ := item.derives.reads r 0 L _ h (Item.endsRun apart finished)
    have gone := at_.along_gap (.inl rfl) item.isGap
    rw [List.flatMap_cons] at finished
    have rest := ih gone apart.of_cons finished.of_append
    rw [List.flatMap_cons, List.flatMap_cons, Item.source, List.append_assoc, same, along_append,
      ← List.append_assoc]
    exact rest

theorem At.items_of_live {r : Reading} {L : List Lexeme} {text : List Char}
    (h : r.At .ready 0 L) (live : (r.outcome text).Live) :
    ∃ (gap : List Char) (items : List Item), text = gap ++ items.flatMap Item.source ∧
      IsGap gap ∧ items.IsChain Item.Apart ∧ Finished (items.flatMap Item.source) := by
  rcases h.expression_of_live live with
    ⟨filler, _⟩ | ⟨gap, phrase, rest, K, q, rfl, filler, derives, ends, same, at_⟩
  · exact ⟨text, [], (List.append_nil text).symm, filler, .nil, fun _ hc => nomatch hc⟩
  · rw [same] at live
    have nonempty : 0 < phrase.length := by
      rcases derives.expression_cases with word | ⟨inner, rfl, _⟩
      · exact List.length_pos_iff.mpr word.1
      · exact Nat.succ_pos _
    have shorter : rest.length < (gap ++ (phrase ++ rest)).length := by
      rw [List.length_append, List.length_append]
      omega
    obtain ⟨space, items, split, isGap, apart, finished⟩ := at_.items_of_live live
    let item : Item := ⟨phrase, space, K, derives, isGap⟩
    rw [split] at ends
    refine ⟨gap, item :: items, ?_, filler, Item.isChain_cons apart finished ends,
      Item.finished_cons finished ends⟩
    rw [List.flatMap_cons, Item.source, List.append_assoc, ← split]
termination_by text.length

theorem At.live (h : r.At .ready 0 L) : r.Live := by
  intro e stopped
  rw [h.stage_eq] at stopped
  cases stopped

theorem At.finish_eq (h : r.At .ready 0 L) : r.finish.Live ∧
    r.finish.lexemes = if L = [] ∧ 0 < r.position then [(.endMark, none)] else L := by
  have tokens : r.tokens = [] ↔ L = [] := by
    rw [← h.lexemes_eq, lexemes, List.map_eq_nil_iff]
  have closed : r.finish =
      if L = [] ∧ 0 < r.position then r.emit .endMark none r.position 0 else r := by
    simp only [finish, h.stage_eq, h.depth_eq, tokens, Nat.lt_irrefl, if_false]
  rw [closed]
  split
  · rename_i alone
    refine ⟨h.live, ?_⟩
    simp only [lexemes, emit, tokens.mpr alone.1, List.nil_append, List.map_cons, List.map_nil,
      Token.lexeme]
  · exact ⟨h.live, h.lexemes_eq⟩

end Reading

theorem lex_lexemes_iff {text : String} {K : List Lexeme} :
    (∃ tokens, lex text = .ok tokens ∧ tokens.map Token.lexeme = K) ↔
      (Reading.read text.toList).finish.Live ∧
        (Reading.read text.toList).finish.lexemes = K := by
  simp only [lex_eq_ok_iff]
  constructor
  · rintro ⟨tokens, ⟨live, rfl⟩, said⟩
    exact ⟨live, said⟩
  · rintro ⟨live, said⟩
    exact ⟨_, ⟨live, rfl⟩, said⟩

namespace Reading

theorem start_at : start.At .ready 0 [] := ⟨rfl, rfl, rfl⟩

theorem read_at {gap : List Char} {items : List Item} (filler : IsGap gap)
    (apart : items.IsChain Item.Apart) (finished : Finished (items.flatMap Item.source)) :
    (read (gap ++ items.flatMap Item.source)).At .ready 0 (items.flatMap Item.lexemes) := by
  rw [read, along_append]
  exact (start_at.along_gap (.inl rfl) filler).along_items items apart finished

end Reading

theorem Grammar.lexemes_ne_nil {items : List Item} (some : items ≠ []) :
    items.flatMap Item.lexemes ≠ [] := by
  obtain ⟨item, rest, rfl⟩ := List.exists_cons_of_ne_nil some
  rw [List.flatMap_cons]
  exact fun h => item.derives.lexemes_ne_nil (List.append_eq_nil_iff.mp h).1

theorem length_toList_pos {text : String} (nonempty : text ≠ "") : 0 < text.toList.length := by
  rw [List.length_pos_iff, ne_eq, String.toList_eq_nil_iff]
  exact nonempty

/-- A text without characters gives no tokens, one of filler the end mark, and any other text
lexes if and only if it is a sentence; its tokens then say what the sentence says. -/
theorem lex_eq_ok_iff_sentence (text : String) (K : List Lexeme) :
    (∃ tokens, lex text = .ok tokens ∧ tokens.map Token.lexeme = K) ↔
      text = "" ∧ K = [] ∨
        text ≠ "" ∧ IsGap text.toList ∧ K = [(.endMark, none)] ∨
        Sentence text.toList K := by
  rw [lex_lexemes_iff]
  have place := Reading.read_position text.toList
  constructor
  · rintro ⟨live, rfl⟩
    obtain ⟨gap, items, split, filler, apart, finished⟩ := Reading.start_at.items_of_live live
    have reached := Reading.read_at filler apart finished
    rw [← split] at reached
    rw [reached.finish_eq.2, place]
    cases items with
    | nil =>
      rw [List.flatMap_nil, List.append_nil] at split
      by_cases empty : text = ""
      · subst empty
        exact .inl ⟨rfl, rfl⟩
      · rw [List.flatMap_nil, if_pos ⟨rfl, length_toList_pos empty⟩]
        exact .inr (.inl ⟨empty, by rw [split]; exact filler, rfl⟩)
    | cons item items =>
      have some := lexemes_ne_nil (List.cons_ne_nil item items)
      rw [if_neg fun h => some h.1]
      refine .inr (.inr ⟨gap, item :: items, filler, List.cons_ne_nil item items, apart, split, ?_, rfl⟩)
      rw [split]
      exact finished.append fun _ => filler.finished
  · rintro (⟨rfl, rfl⟩ | ⟨nonempty, filler, rfl⟩ |
      ⟨gap, items, filler, some, apart, split, finished, rfl⟩)
    · exact Reading.start_at.finish_eq
    · have reached := Reading.start_at.along_gap (.inl rfl) filler
      have given := reached.finish_eq
      rw [← Reading.read, place, if_pos ⟨rfl, length_toList_pos nonempty⟩] at given
      exact given
    · rw [split] at finished
      have reached := Reading.read_at filler apart finished.of_append
      rw [← split] at reached
      have given := reached.finish_eq
      rw [if_neg fun h => lexemes_ne_nil some h.1] at given
      exact given

end SumomoLexer
