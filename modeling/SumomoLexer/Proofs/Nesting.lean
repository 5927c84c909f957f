import Mathlib.Data.List.Infix
import SumomoLexer.Proofs.Displacement
import SumomoLexer.Proofs.Language
import SumomoLexer.Proofs.LineTracking

/-! # Expressions inside of brackets

What a phrase of the grammar gives does not depend on what stands before it, nor on how many brackets
are open, except that its tokens are put in their place. This is an induction on the derivation, with
the text before the phrase as the place. So an expression that lexes alone gives the same tokens as a
parameter, although a run of numerals in it may be cut by another character there.
-/
namespace SumomoLexer
open Vocabulary Grammar
set_option autoImplicit false

/-- A token as it is at the start of a text. -/
def Token.own (kind : Token.Kind) (value : Option String) (length : Nat) : Token :=
  ⟨kind, value, .first, ⟨0, length, Nat.zero_le length⟩⟩

namespace Reading

/-- The reading that has come to the end of this text with these tokens. -/
def standing (text : List Char) (stage : Stage) (depth : Nat) (tokens : List Token) : Reading :=
  ⟨stage, depth, text.length, LineMark.first.past 0 text, tokens⟩

variable {text word gap more : List Char} {stage : Stage} {depth outer : Nat} {L T : List Token}
  {kind : Token.Kind}

theorem line_append (before : List Char) {text : List Char}
    (solid : ∀ c ∈ text, isLineTerminator c = false) :
    LineMark.first.past 0 (before ++ text) = LineMark.first.past 0 before := by
  rw [LineMark.past_append, LineMark.past_of_solid solid]

theorem standing_emit (text : List Char) (stage : Stage) (depth : Nat) (L : List Token)
    (kind : Token.Kind) (value : Option String) (length : Nat) :
    (standing text stage depth L).emit kind value text.length length =
      standing text stage depth (L ++ [(Token.own kind value length).after text]) := by
  simp only [emit, standing, Token.own, Token.after, Span.after, LineMark.first_after, Nat.add_zero]

theorem standing_gap (passes : stage = .ready ∨ stage = .settled) (filler : IsGap gap) :
    (standing text stage depth L).along gap = standing (text ++ gap) stage depth L := by
  rw [along_filler passes filler]
  simp only [standing, List.length_append, LineMark.past_append, Nat.zero_add]

theorem standing_feed {c : Char} (solid : isLineTerminator c = false) :
    standing (text ++ [c]) stage depth L =
      { standing text stage depth L with position := text.length + 1 } := by
  simp only [standing, List.length_append, List.length_singleton,
    line_append text (List.forall_mem_singleton.mpr solid)]

theorem standing_word (isWord : IsWord word) (ends : EndsRun more) :
    (standing text (.counting kind []) depth L).along (word ++ more) =
      (standing (text ++ word) (.behindRun kind depth) depth
        (L ++ [(Token.own kind (some (String.ofList word)) word.length).after text])).along more := by
  have solid : ∀ c ∈ word, isLineTerminator c = false := fun c hc =>
    not_terminator_of_numeral (isWord.2 c hc)
  have counted : (standing text (.counting kind []) depth L).along word =
      standing (text ++ word) (.counting kind word.reverse) depth L := by
    rw [along_numerals rfl isWord.2]
    simp only [standing, List.append_nil, List.length_append, line_append text solid]
  have ended : (standing (text ++ word) (.counting kind word.reverse) depth L).endRun kind
      word.reverse = standing (text ++ word) (.behindRun kind depth) depth
        (L ++ [(Token.own kind (some (String.ofList word)) word.length).after text]) := by
    simp only [endRun, emit, standing, Token.own, Token.after, Span.after, LineMark.first_after,
      List.reverse_reverse, List.length_reverse, List.length_append, Nat.add_sub_cancel,
      Nat.add_zero, line_append text solid]
  rw [along_append, counted, along_endRun rfl (List.reverse_ne_nil_iff.mpr isWord.1) ends, ended]

theorem standing_openBracket :
    (standing text .ready depth L).feed openBracket =
      standing (text ++ [openBracket]) (.counting .operator []) (depth + 1)
        (L ++ [(Token.own .openBracket none 1).after text]) := by
  rw [standing_feed (by decide), ← standing_emit, feed_openBracket rfl]
  rfl

theorem standing_separator (inside : stage = .named ∨ stage = .settled) :
    (standing text stage depth L).feed separator = standing (text ++ [separator]) .ready depth L := by
  have links : (standing text stage depth L).Links [separator] :=
    inside.imp_right fun settled => ⟨settled, head_solid [] (by decide)⟩
  rw [standing_feed (by decide), links.feed_separator]
  rfl

theorem standing_closeBracket (inside : stage = .named ∨ stage = .settled) :
    (standing text stage (outer + 1) L).along closeBracket =
      standing (text ++ closeBracket) (.behind outer) outer
        (L ++ [(Token.own .closeBracket none 4).after text]) := by
  have links : (standing text stage (outer + 1) L).Links ['の'] :=
    inside.imp_right fun settled => ⟨settled, head_solid [] (by decide)⟩
  have solid : ∀ c ∈ closeBracket, isLineTerminator c = false := fun c => not_terminator_of_bracket
  have line := line_append text solid
  rw [closeBracket] at line ⊢
  simp only [along_cons, along_nil]
  rw [links.feed_eq]
  simp only [link, standing, line, moveTo, feed, go, close, closeMark, emit, Token.own, Token.after,
    Span.after, LineMark.first_after, List.length_append, Nat.add_zero]
  rfl

end Reading

/-! ## Phrases in their place -/

namespace Grammar

open Reading

/-- Whatever stands before it, reading the phrase gives these tokens in their place. -/
def Phrase.Yields : Phrase → List Char → List Token → Prop
  | .expression, text, T => ∀ (before : List Char) (depth : Nat) (L : List Token) (more : List Char),
    (IsWord text → EndsRun more) →
      (standing before .ready depth L).along (text ++ more) =
        (standing (before ++ text) (.behind depth) depth (L ++ T.map (·.after before))).along more
  | .parameters, text, T => ∀ (before : List Char) (stage : Stage) (outer : Nat) (L : List Token)
    (more : List Char), stage = .named ∨ stage = .settled → EndsRun more →
      ∃ last, (last = .named ∨ last = .settled) ∧
        (standing before stage (outer + 1) L).along (text ++ more) =
          (standing (before ++ text) last (outer + 1) (L ++ T.map (·.after before))).along more

variable {phrase : Phrase} {text word inner : List Char} {K : List Lexeme} {T U : List Token}

theorem yields_literal (isWord : IsWord word) : Phrase.Yields .expression word
    [.own .numberLiteral (some (String.ofList word)) word.length] := by
  intro before depth L more ends
  obtain ⟨c, rest, rfl⟩ := List.exists_cons_of_ne_nil isWord.1
  have entered : (standing before .ready depth L).along (c :: rest ++ more) =
      (standing before (.counting .numberLiteral []) depth L).along (c :: rest ++ more) := by
    rw [List.cons_append, along_cons, along_cons, feed_numeral rfl isWord.head_isNumeral]
    rfl
  rw [entered, standing_word isWord (ends isWord)]
  rfl

theorem yields_compound (isWord : IsWord word) (parameters : Derives .parameters inner K)
    (yields : Phrase.Yields .parameters inner T) :
    Phrase.Yields .expression (openBracket :: (word ++ (inner ++ closeBracket)))
      (.own .openBracket none 1 ::
        (Token.own .operator (some (String.ofList word)) word.length).after [openBracket] ::
          (T.map (·.after (openBracket :: word)) ++
            [(Token.own .closeBracket none 4).after (openBracket :: (word ++ inner))])) := by
  intro before depth L more _
  have bracket : EndsRun (closeBracket ++ more) := .bracket (by decide)
  have ends : EndsRun (inner ++ (closeBracket ++ more)) := parameters.endsRun bracket
  obtain ⟨last, inside, read⟩ := yields (before ++ [openBracket] ++ word) .named depth _ _ (.inl rfl)
    bracket
  rw [List.cons_append, along_cons, standing_openBracket, List.append_assoc, List.append_assoc,
    standing_word isWord ends]
  change (standing _ .named (depth + 1) _).along _ = _
  rw [read, along_append, standing_closeBracket inside]
  simp only [List.map_cons, List.map_append, List.map_map, List.map_nil, List.append_assoc,
    List.cons_append, List.nil_append, Token.after_append, Function.comp_def]

theorem yields_nothing : Phrase.Yields .parameters [] [] := by
  intro before stage outer L more inside _
  refine ⟨stage, inside, ?_⟩
  simp only [List.append_nil, List.map_nil, List.nil_append]

theorem yields_parameter {front behind : List Char} (gap : IsGap front) (space : IsGap behind)
    (others : Derives .parameters inner K) (first : Phrase.Yields .expression text T)
    (yields : Phrase.Yields .parameters inner U) :
    Phrase.Yields .parameters (separator :: (front ++ (text ++ (behind ++ inner))))
      (T.map (·.after (separator :: front)) ++
        U.map (·.after (separator :: (front ++ (text ++ behind))))) := by
  intro before stage outer L more inside ends
  have next : EndsRun (behind ++ (inner ++ more)) := space.endsRun (others.endsRun ends)
  obtain ⟨last, within, read⟩ := yields (before ++ [separator] ++ front ++ text ++ behind) .settled
    outer (L ++ T.map (·.after (before ++ [separator] ++ front))) more (.inr rfl) ends
  refine ⟨last, within, ?_⟩
  calc (standing before stage (outer + 1) L).along
        (separator :: (front ++ (text ++ (behind ++ inner))) ++ more)
    _ = (standing (before ++ [separator] ++ front) .ready (outer + 1) L).along
          (text ++ (behind ++ (inner ++ more))) := by
        rw [List.cons_append, along_cons, standing_separator inside, List.append_assoc, along_append,
          standing_gap (.inl rfl) gap]
        simp only [List.append_assoc]
    _ = (standing (before ++ [separator] ++ front ++ text ++ behind) .settled (outer + 1)
          (L ++ T.map (·.after (before ++ [separator] ++ front)))).along (inner ++ more) := by
        rw [first _ _ _ _ fun _ => next, along_append]
        exact congrArg (·.along (inner ++ more)) (standing_gap (.inr rfl) space)
    _ = _ := by
        rw [read]
        simp only [List.map_append, List.map_map, List.append_assoc, List.cons_append,
          List.nil_append, Token.after_append, Function.comp_def]

theorem Derives.exists_yields (h : Derives phrase text K) : ∃ T, phrase.Yields text T := by
  induction h with
  | literal isWord => exact ⟨_, yields_literal isWord⟩
  | compound isWord parameters ih =>
    obtain ⟨T, yields⟩ := ih
    exact ⟨_, yields_compound isWord parameters yields⟩
  | nothing => exact ⟨[], yields_nothing⟩
  | parameter gap _ space others ih ih' =>
    obtain ⟨T, first⟩ := ih
    obtain ⟨U, yields⟩ := ih'
    exact ⟨_, yields_parameter gap space others first yields⟩

theorem Derives.balanced (h : Derives phrase text K) :
    (K.map Prod.fst).count .openBracket = (K.map Prod.fst).count .closeBracket := by
  induction h with
  | literal => rfl
  | compound _ _ ih =>
    simp only [List.map_cons, List.map_append, List.map_nil, List.count_cons, List.count_append,
      List.count_nil, ih]
    rfl
  | nothing => rfl
  | parameter _ _ _ _ ih ih' =>
    rw [List.map_append, List.count_append, List.count_append, ih, ih']

theorem Derives.last_solid (h : Derives .expression text K) :
    ∃ front c, text = front ++ [c] ∧ isFiller c = false := by
  cases h with
  | literal isWord =>
    have split := List.dropLast_append_getLast isWord.1
    exact ⟨text.dropLast, text.getLast isWord.1, split.symm,
      isFiller_of_isNumeral (isWord.2 _ (List.getLast_mem isWord.1))⟩
  | @compound word inner lexemes isWord parameters =>
    refine ⟨openBracket :: (word ++ (inner ++ ['の', 'う', 'ち'])), '。', ?_, by decide⟩
    simp only [closeBracket, List.cons_append, List.append_assoc, List.nil_append]

end Grammar

/-! ## Parameters -/

/-- The tokens of one expression outside of brackets: brackets are closed for the first time, or
there are none, when the last token is reached. -/
structure SingleExpression (tokens : List Token) : Prop where
  nonempty : tokens ≠ []
  unmarked : ∀ t ∈ tokens, t.kind ≠ .endMark
  closes : ∀ first, first <+: tokens → first ≠ [] →
    ((first.map Token.kind).count .openBracket = (first.map Token.kind).count .closeBracket ↔
      first = tokens)

instance (tokens : List Token) : Decidable (SingleExpression tokens) :=
  decidable_of_iff (tokens ≠ [] ∧ (∀ t ∈ tokens, t.kind ≠ .endMark) ∧
    ∀ first ∈ tokens.inits, first ≠ [] →
      ((first.map Token.kind).count .openBracket = (first.map Token.kind).count .closeBracket ↔
        first = tokens))
    ⟨fun ⟨nonempty, unmarked, closes⟩ =>
      ⟨nonempty, unmarked, fun first h => closes first ((List.mem_inits first tokens).mpr h)⟩,
    fun ⟨nonempty, unmarked, closes⟩ =>
      ⟨nonempty, unmarked, fun first h => closes first ((List.mem_inits first tokens).mp h)⟩⟩

/-- A text that lexes as one expression once something ends it. -/
structure Parameter where
  text : String
  tokens : List Token
  lexes : lex (text ++ " ") = .ok tokens
  single : SingleExpression tokens

theorem SingleExpression.eq_of_prefix {tokens : List Token} (h : SingleExpression tokens)
    {text : List Char} {first rest : List Lexeme} (derives : Derives .expression text first)
    (split : tokens.map Token.lexeme = first ++ rest) : rest = [] := by
  obtain ⟨front, back, rfl, said, remains⟩ := List.map_eq_append_iff.mp split
  have nonempty : front ≠ [] := by
    rintro rfl
    exact derives.lexemes_ne_nil said.symm
  have kinds : (front.map Token.kind) = first.map Prod.fst := by
    rw [← said, List.map_map]
    rfl
  have whole := (h.closes front (List.prefix_append _ _) nonempty).mp
    (by rw [kinds]; exact derives.balanced)
  rw [← remains, List.self_eq_append_right.mp whole]
  rfl

namespace Parameter

variable (p : Parameter)

theorem read_tokens : (Reading.read (p.text ++ " ").toList).stage = .ready ∧
    (Reading.read (p.text ++ " ").toList).tokens = p.tokens := by
  obtain ⟨live, same⟩ := lex_eq_ok_iff.mp p.lexes
  obtain ⟨stage, top⟩ := Reading.ready_of_live live
  refine ⟨stage, ?_⟩
  rw [Reading.finish_of_ready stage top] at same
  split at same
  · have unmarked := p.single.unmarked
    rw [← same] at unmarked
    exact absurd rfl (unmarked _ (List.mem_append_right _ List.mem_cons_self))
  · exact same

/-- Alone, a parameter is an expression between two gaps. -/
theorem exists_derives : ∃ gap phrase space K, p.text.toList = gap ++ (phrase ++ space) ∧
    IsGap gap ∧ IsGap space ∧ Derives .expression phrase K := by
  obtain ⟨live, -⟩ := lex_eq_ok_iff.mp p.lexes
  obtain ⟨gap, items, split, filler, apart, finished⟩ := Reading.start_at.items_of_live live
  have reached := Reading.read_at filler apart finished
  rw [← split] at reached
  have said := reached.lexemes_eq
  rw [Reading.lexemes, p.read_tokens.2] at said
  cases items with
  | nil => exact absurd (List.map_eq_nil_iff.mp said) p.single.nonempty
  | cons item items =>
    rw [List.flatMap_cons] at said
    have none := p.single.eq_of_prefix item.derives said
    have alone : items = [] := by
      by_contra some
      exact lexemes_ne_nil some none
    subst alone
    rw [List.flatMap_singleton, Item.source, String.toList_append] at split
    obtain ⟨front, c, phrase, solid⟩ := item.derives.last_solid
    -- The blank behind the parameter is the end of the second gap.
    rcases List.eq_nil_or_concat item.gap with empty | ⟨space, d, cut⟩
    · rw [empty, List.append_nil, phrase, ← List.append_assoc] at split
      cases (List.append_inj' split rfl).2
      exact absurd solid (by decide)
    · rw [cut, List.concat_eq_append, ← List.append_assoc, ← List.append_assoc] at split
      have isGap := item.isGap
      rw [cut, List.concat_eq_append] at isGap
      refine ⟨gap, item.text, space, item.lexemes, ?_, filler, ?_, item.derives⟩
      · rw [(List.append_inj' split rfl).1, List.append_assoc]
      · exact fun e he => isGap e (List.mem_append_left _ he)

theorem exists_yields : ∃ gap phrase space T, p.text.toList = gap ++ (phrase ++ space) ∧
    IsGap gap ∧ IsGap space ∧ Phrase.Yields .expression phrase T ∧
      p.tokens = T.map (·.after gap) := by
  obtain ⟨gap, phrase, space, K, split, filler, isGap, derives⟩ := p.exists_derives
  obtain ⟨T, yields⟩ := derives.exists_yields
  refine ⟨gap, phrase, space, T, split, filler, isGap, yields, ?_⟩
  have blank : IsGap [' '] := isGap_nil.cons (by decide)
  have behind : IsGap (space ++ [' ']) := fun c hc => (List.mem_append.mp hc).elim (isGap c) (blank c)
  have ends : Reading.EndsRun (space ++ [' ']) :=
    isGap.endsRun (.mark (by decide) (by decide))
  have read : Reading.read (p.text ++ " ").toList =
      Reading.standing (gap ++ phrase ++ (space ++ [' '])) .ready 0 (T.map (·.after gap)) := by
    calc Reading.read (p.text ++ " ").toList
      _ = (Reading.standing [] .ready 0 []).along (gap ++ (phrase ++ (space ++ [' ']))) := by
          rw [String.toList_append, split, List.append_assoc, List.append_assoc]
          rfl
      _ = (Reading.standing gap .ready 0 []).along (phrase ++ (space ++ [' '])) := by
          rw [Reading.along_append, Reading.standing_gap (.inl rfl) filler, List.nil_append]
      _ = (Reading.standing (gap ++ phrase) .ready 0 (T.map (·.after gap))).along
            (space ++ [' ']) := yields gap 0 [] _ fun _ => ends
      _ = _ := Reading.standing_gap (.inl rfl) behind
  rw [← p.read_tokens.2, read]
  rfl

/-- Inside of brackets a parameter gives the tokens that it gives alone, in their place. -/
theorem along (before : List Char) (outer : Nat) (L : List Token) {more : List Char}
    (ends : Reading.EndsRun more) :
    (Reading.standing before .ready (outer + 1) L).along (p.text.toList ++ more) =
      (Reading.standing (before ++ p.text.toList) .settled (outer + 1)
        (L ++ p.tokens.map (·.after before))).along more := by
  obtain ⟨gap, phrase, space, T, split, filler, isGap, yields, tokens⟩ := p.exists_yields
  have next : Reading.EndsRun (space ++ more) := isGap.endsRun ends
  have placed : p.tokens.map (·.after before) = T.map (·.after (before ++ gap)) := by
    rw [tokens, List.map_map]
    exact List.map_congr_left fun t _ => t.after_append before gap
  rw [split, placed]
  calc (Reading.standing before .ready (outer + 1) L).along (gap ++ (phrase ++ space) ++ more)
    _ = (Reading.standing (before ++ gap) .ready (outer + 1) L).along
          (phrase ++ (space ++ more)) := by
        rw [List.append_assoc, List.append_assoc, Reading.along_append,
          Reading.standing_gap (.inl rfl) filler]
    _ = (Reading.standing (before ++ gap ++ phrase) .settled (outer + 1)
          (L ++ T.map (·.after (before ++ gap)))).along (space ++ more) :=
        yields _ (outer + 1) L _ fun _ => next
    _ = _ := by
        rw [Reading.along_append, Reading.standing_gap (.inr rfl) isGap]
        simp only [List.append_assoc]

end Parameter

def parameterText (parameters : List Parameter) : List Char :=
  parameters.flatMap fun p => separator :: p.text.toList

/-- The tokens of parameters that stand behind `before`, each moved there by all that is in front. -/
def parameterTokens (before : List Char) : List Parameter → List Token
  | [] => []
  | p :: rest => p.tokens.map (·.after (before ++ [separator])) ++
      parameterTokens (before ++ separator :: p.text.toList) rest

theorem parameterText_endsRun (parameters : List Parameter) {more : List Char}
    (ends : Reading.EndsRun more) : Reading.EndsRun (parameterText parameters ++ more) := by
  cases parameters with
  | nil => exact ends
  | cons p rest => exact .mark (by decide) (by decide)

theorem Reading.standing_parameters (parameters : List Parameter) (before : List Char)
    {stage : Reading.Stage} (outer : Nat) (L : List Token) {more : List Char}
    (inside : stage = .named ∨ stage = .settled) (ends : Reading.EndsRun more) :
    ∃ last, (last = .named ∨ last = .settled) ∧
      (Reading.standing before stage (outer + 1) L).along (parameterText parameters ++ more) =
        (Reading.standing (before ++ parameterText parameters) last (outer + 1)
          (L ++ parameterTokens before parameters)).along more := by
  induction parameters generalizing before stage L with
  | nil =>
    refine ⟨stage, inside, ?_⟩
    simp only [parameterText, parameterTokens, List.flatMap_nil, List.nil_append, List.append_nil]
  | cons p rest ih =>
    have next := parameterText_endsRun rest ends
    obtain ⟨last, within, read⟩ := ih (before ++ separator :: p.text.toList)
      (L ++ p.tokens.map (·.after (before ++ [separator]))) (.inr rfl)
    refine ⟨last, within, ?_⟩
    calc (Reading.standing before stage (outer + 1) L).along (parameterText (p :: rest) ++ more)
      _ = (Reading.standing (before ++ [separator]) .ready (outer + 1) L).along
            (p.text.toList ++ (parameterText rest ++ more)) := by
          rw [parameterText, List.flatMap_cons, List.cons_append, List.cons_append,
            Reading.along_cons, Reading.standing_separator inside, List.append_assoc, parameterText]
      _ = (Reading.standing (before ++ separator :: p.text.toList) .settled (outer + 1)
            (L ++ p.tokens.map (·.after (before ++ [separator])))).along
              (parameterText rest ++ more) := by
          rw [p.along _ outer L next, List.append_assoc]
          rfl
      _ = _ := by
          rw [read]
          simp only [parameterText, parameterTokens, List.flatMap_cons, List.append_assoc]

/-! ## Compounds -/

def compound (word : String) (parameters : List Parameter) : String :=
  String.ofList (openBracket :: (word.toList ++ (parameterText parameters ++ closeBracket)))

def compoundTokens (word : String) (parameters : List Parameter) : List Token :=
  let stop := (compound word parameters).length
  ⟨.openBracket, none, ⟨0, 0⟩, ⟨0, 1, Nat.zero_le 1⟩⟩ ::
    ⟨.operator, some word, ⟨0, 0⟩, ⟨1, 1 + word.length, Nat.le_add_right 1 word.length⟩⟩ ::
      (parameterTokens (openBracket :: word.toList) parameters ++
        [⟨.closeBracket, none, LineMark.find (compound word parameters) (stop - 4),
          ⟨stop - 4, stop, Nat.sub_le stop 4⟩⟩])

theorem compound_toList (word : String) (parameters : List Parameter) :
    (compound word parameters).toList =
      openBracket :: word.toList ++ parameterText parameters ++ closeBracket := by
  simp only [compound, String.toList_ofList, List.cons_append, List.append_assoc]

theorem closeToken_eq {before : List Char} {text : String}
    (split : text.toList = before ++ closeBracket) :
    (Token.own .closeBracket none 4).after before =
      ⟨.closeBracket, none, LineMark.find text (text.length - 4),
        ⟨text.length - 4, text.length, Nat.sub_le _ 4⟩⟩ := by
  have length : text.length = before.length + 4 := by
    rw [← String.length_toList, split, List.length_append]
    rfl
  have place : text.length - 4 = before.length := by rw [length, Nat.add_sub_cancel]
  have line : LineMark.find text (text.length - 4) = LineMark.first.after before := by
    rw [LineMark.find_eq_before, split, place, LineMark.before, List.take_left, LineMark.first_after]
  rw [line]
  simp only [Token.after, Token.own, Span.after, place, ← length, Nat.add_zero]

theorem Reading.read_compound {word : String} (isWord : IsWord word.toList)
    (parameters : List Parameter) :
    read (compound word parameters).toList =
      standing (compound word parameters).toList .ready 0 (compoundTokens word parameters) := by
  have bracket : EndsRun closeBracket := .bracket (by decide)
  have ends := parameterText_endsRun parameters bracket
  let opened : List Token := [(Token.own .openBracket none 1).after []]
  let named : List Token := opened ++
    [(Token.own .operator (some (String.ofList word.toList)) word.toList.length).after [openBracket]]
  obtain ⟨last, inside, filled⟩ := standing_parameters parameters (openBracket :: word.toList) 0 named
    (.inl rfl) bracket
  have start_eq : standing [] .ready 0 [] = start := rfl
  calc read (compound word parameters).toList
    _ = (standing [openBracket] (.counting .operator []) 1 opened).along
          (word.toList ++ (parameterText parameters ++ closeBracket)) := by
        rw [compound, String.toList_ofList, read, along_cons, ← start_eq, standing_openBracket]
        rfl
    _ = (standing (openBracket :: word.toList) .named 1 named).along
          (parameterText parameters ++ closeBracket) := standing_word isWord ends
    _ = (standing (openBracket :: word.toList ++ parameterText parameters) last 1
          (named ++ parameterTokens (openBracket :: word.toList) parameters)).along closeBracket :=
        filled
    _ = standing (compound word parameters).toList .ready 0 (compoundTokens word parameters) := by
        rw [standing_closeBracket inside, closeToken_eq (compound_toList word parameters),
          compound_toList]
        simp only [named, opened, String.ofList_toList, String.length_toList]
        rfl

/-- A compound of any operator and any parameters lexes. Its parameters give the tokens that each of
them gives alone, moved to where it stands. -/
theorem lex_compound {word : String} (isWord : IsWord word.toList) (parameters : List Parameter) :
    lex (compound word parameters) = .ok (compoundTokens word parameters) := by
  have read := Reading.read_compound isWord parameters
  rw [lex_of_ready (by rw [read]; rfl) (by rw [read]; rfl), read,
    Reading.finish_of_ready rfl rfl, if_neg fun empty => List.cons_ne_nil _ _ empty.1]
  rfl

/-- A parameter on a line of its own, and a literal that is cut only by the close bracket. -/
theorem lex_compound_of_two_parameters :
    IsWord "もの".toList ∧ lex "すもの、\nすもののうち。、ののうち。" = .ok [
      ⟨.openBracket, none, ⟨0, 0⟩, ⟨0, 1, by decide⟩⟩,
      ⟨.operator, some "もの", ⟨0, 0⟩, ⟨1, 3, by decide⟩⟩,
      ⟨.openBracket, none, ⟨1, 4⟩, ⟨5, 6, by decide⟩⟩,
      ⟨.operator, some "もの", ⟨1, 4⟩, ⟨6, 8, by decide⟩⟩,
      ⟨.closeBracket, none, ⟨1, 4⟩, ⟨8, 12, by decide⟩⟩,
      ⟨.numberLiteral, some "の", ⟨1, 4⟩, ⟨13, 14, by decide⟩⟩,
      ⟨.closeBracket, none, ⟨1, 4⟩, ⟨14, 18, by decide⟩⟩] := by
  have isWord : IsWord "もの".toList :=
    ⟨by decide, List.all_eq_true.mp (show "もの".toList.all isNumeral = true by decide)⟩
  let inner : Parameter := {
    text := "\nすもののうち。"
    tokens := [
      ⟨.openBracket, none, ⟨1, 0⟩, ⟨1, 2, by decide⟩⟩,
      ⟨.operator, some "もの", ⟨1, 0⟩, ⟨2, 4, by decide⟩⟩,
      ⟨.closeBracket, none, ⟨1, 0⟩, ⟨4, 8, by decide⟩⟩]
    lexes := by decide +kernel
    single := by decide +kernel }
  let literal : Parameter := {
    text := "の"
    tokens := [⟨.numberLiteral, some "の", ⟨0, 0⟩, ⟨0, 1, by decide⟩⟩]
    lexes := by decide +kernel
    single := by decide +kernel }
  have lexes := lex_compound isWord [inner, literal]
  have text : compound "もの" [inner, literal] = "すもの、\nすもののうち。、ののうち。" := by
    decide +kernel
  rw [← text, lexes]
  refine ⟨isWord, congrArg Except.ok ?_⟩
  decide +kernel

end SumomoLexer
