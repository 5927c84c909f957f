import Mathlib.Data.List.Chain
import SumomoLexer.Token
import SumomoLexer.Vocabulary

/-! # The grammar of sumomo

A word is a run of numerals and a gap is a run of filler, possibly an empty one. An expression is a
word, or an open bracket, a word, parameters and a close bracket; each parameter is a separator and
an expression with a gap on both sides. Nothing else may stand inside brackets: there is no gap in
front of the operator, and none behind it before the first separator or the close bracket.

Deriving a text also says which lexemes it stands for. The grammar does not look ahead; where a word
in front of a close bracket ends is settled by the text as a whole.
-/
namespace SumomoLexer
open Vocabulary
set_option autoImplicit false

/-- What a token says apart from its place. -/
abbrev Lexeme := Token.Kind × Option String

def Token.lexeme (t : Token) : Lexeme := (t.kind, t.value)

namespace Grammar

def IsWord (text : List Char) : Prop := text ≠ [] ∧ ∀ c ∈ text, isNumeral c = true

def IsGap (text : List Char) : Prop := ∀ c ∈ text, isFiller c = true

def Finished (text : List Char) : Prop := ∀ c ∈ text.getLast?, isNumeral c = false

inductive Phrase where
  | expression
  | parameters
deriving DecidableEq, Repr

inductive Derives : Phrase → List Char → List Lexeme → Prop
  | literal {word : List Char} : IsWord word →
    Derives .expression word [(.numberLiteral, some (String.ofList word))]
  | compound {word inner : List Char} {lexemes : List Lexeme} : IsWord word →
    Derives .parameters inner lexemes →
    Derives .expression (openBracket :: (word ++ (inner ++ closeBracket)))
      ((.openBracket, none) :: (.operator, some (String.ofList word)) ::
        (lexemes ++ [(.closeBracket, none)]))
  | nothing : Derives .parameters [] []
  | parameter {before text behind inner : List Char} {first lexemes : List Lexeme} :
    IsGap before → Derives .expression text first → IsGap behind →
    Derives .parameters inner lexemes →
    Derives .parameters (separator :: (before ++ (text ++ (behind ++ inner)))) (first ++ lexemes)

/-- An expression outside of brackets, with the gap behind it. -/
structure Item where
  text : List Char
  gap : List Char
  lexemes : List Lexeme
  derives : Derives .expression text lexemes
  isGap : IsGap gap

def Item.source (i : Item) : List Char := i.text ++ i.gap

def Item.Apart (i j : Item) : Prop := IsWord i.text → IsWord j.text → i.gap ≠ []

/-- The text consists of one expression or more and says these lexemes. -/
def Sentence (text : List Char) (lexemes : List Lexeme) : Prop :=
  ∃ (gap : List Char) (items : List Item), IsGap gap ∧ items ≠ [] ∧ items.IsChain Item.Apart ∧
    text = gap ++ items.flatMap Item.source ∧ Finished text ∧
    lexemes = items.flatMap Item.lexemes

theorem isGap_nil : IsGap [] := fun _ h => absurd h List.not_mem_nil

theorem IsGap.cons {c : Char} {text : List Char} (first : isFiller c = true) (h : IsGap text) :
    IsGap (c :: text) := by
  intro d hd
  rcases List.mem_cons.mp hd with rfl | hd
  · exact first
  · exact h d hd

theorem isFiller_of_isNumeral {c : Char} (h : isNumeral c = true) : isFiller c = false := by
  simp [isFiller, isMeaningful, h]

theorem isNumeral_of_isFiller {c : Char} (h : isFiller c = true) : isNumeral c = false := by
  cases numeral : isNumeral c with
  | false => rfl
  | true =>
    rw [isFiller_of_isNumeral numeral] at h
    cases h

theorem ne_of_isFiller {c d : Char} (h : isFiller c = true) (meaningful : isFiller d = false) :
    c ≠ d := by
  rintro rfl
  rw [h] at meaningful
  cases meaningful

theorem IsGap.finished {gap : List Char} (filler : IsGap gap) : Finished gap :=
  fun c hc => isNumeral_of_isFiller (filler c (List.mem_of_getLast? hc))

theorem Finished.append {text more : List Char} (h : Finished more)
    (alone : more = [] → Finished text) : Finished (text ++ more) := by
  cases more with
  | nil =>
    rw [List.append_nil]
    exact alone rfl
  | cons c more =>
    rw [Finished, List.getLast?_append_of_ne_nil text (List.cons_ne_nil c more)]
    exact h

theorem Finished.of_append {text more : List Char} (h : Finished (text ++ more)) :
    Finished more :=
  fun c hc => h c (List.mem_getLast?_append_of_mem_getLast? hc)

theorem IsWord.not_finished {word : List Char} (h : IsWord word) : ¬ Finished word := by
  intro finished
  have last := List.getLast?_eq_some_getLast h.1
  have numeral := h.2 _ (List.getLast_mem h.1)
  rw [finished _ last] at numeral
  cases numeral

theorem IsWord.head_isNumeral {c : Char} {text : List Char} (h : IsWord (c :: text)) :
    isNumeral c = true := h.2 c List.mem_cons_self

theorem Derives.expression_cases {text : List Char} {lexemes : List Lexeme}
    (h : Derives .expression text lexemes) :
    IsWord text ∨ ∃ inner, text = openBracket :: inner ∧ Finished text := by
  cases h with
  | literal word => exact .inl word
  | @compound word inner lexemes isWord parameters =>
    have bracket : Finished closeBracket := by
      intro c hc
      cases hc
      decide
    refine .inr ⟨_, rfl, ?_⟩
    rw [← List.cons_append, ← List.append_assoc]
    exact bracket.append fun impossible => nomatch impossible

theorem Derives.lexemes_ne_nil {text : List Char} {lexemes : List Lexeme}
    (h : Derives .expression text lexemes) : lexemes ≠ [] := by
  cases h <;> exact List.cons_ne_nil _ _

end Grammar
end SumomoLexer
