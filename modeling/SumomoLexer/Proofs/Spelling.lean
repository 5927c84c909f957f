import SumomoLexer.Proofs.Language

/-! # Spelling tokens out

The tokens of a text do not say where its separators are, nor hold the characters of a bracket. Both
come back from the depth alone: an expression inside of brackets has a separator in front of it, and
one outside has none. So the tokens give all the characters of their text but the filler. This is an
induction on the derivation. The depth at which a phrase stands decides about its first character and
is the same again behind it, which is what puts the parts of a phrase together.
-/
namespace SumomoLexer
open Vocabulary Grammar
set_option autoImplicit false

namespace Lexeme

def spelling : Lexeme → List Char
  | (.openBracket, _) => [openBracket]
  | (.closeBracket, _) => closeBracket
  | (.operator, value) | (.numberLiteral, value) => (value.getD "").toList
  | (.endMark, _) => []

def BeginsExpression (l : Lexeme) : Prop := l.1 = .openBracket ∨ l.1 = .numberLiteral

instance (l : Lexeme) : Decidable l.BeginsExpression :=
  inferInstanceAs (Decidable (l.1 = .openBracket ∨ l.1 = .numberLiteral))

/-- The number of brackets that are open behind a lexeme. -/
def depthBehind (depth : Nat) (l : Lexeme) : Nat :=
  match l.1 with
  | .openBracket => depth + 1
  | .closeBracket => depth - 1
  | .operator | .numberLiteral | .endMark => depth

/-- A lexeme with the separator in front of it that its depth asks for. -/
def spellingAt (depth : Nat) (l : Lexeme) : List Char :=
  if l.BeginsExpression ∧ 0 < depth then separator :: l.spelling else l.spelling

end Lexeme

/-- What lexemes spell behind so many open brackets. -/
def spelled : Nat → List Lexeme → List Char
  | _, [] => []
  | depth, l :: rest => l.spellingAt depth ++ spelled (l.depthBehind depth) rest

def depthBehind (depth : Nat) (K : List Lexeme) : Nat := K.foldl Lexeme.depthBehind depth

variable {phrase : Phrase} {text word gap : List Char} {K L : List Lexeme} {depth outer : Nat}

theorem spelled_append (depth : Nat) (K L : List Lexeme) :
    spelled depth (K ++ L) = spelled depth K ++ spelled (depthBehind depth K) L := by
  induction K generalizing depth with
  | nil => rfl
  | cons l K ih =>
    rw [List.cons_append, spelled, ih, ← List.append_assoc, ← spelled]
    rfl

theorem depthBehind_append (depth : Nat) (K L : List Lexeme) :
    depthBehind depth (K ++ L) = depthBehind (depthBehind depth K) L := List.foldl_append

namespace Grammar

theorem IsGap.filter_isMeaningful (h : IsGap gap) : gap.filter isMeaningful = [] := by
  apply List.filter_eq_nil_iff.mpr
  intro c hc meaningful
  have filler := h c hc
  rw [isFiller, meaningful] at filler
  cases filler

theorem IsWord.filter_isMeaningful (h : IsWord word) : word.filter isMeaningful = word := by
  apply List.filter_eq_self.mpr
  intro c hc
  rw [isMeaningful, h.2 c hc]
  rfl

/-- A phrase leaves as many brackets open as there were in front of it. -/
theorem Derives.depthBehind (h : Derives phrase text K) (depth : Nat) :
    depthBehind depth K = depth := by
  induction h generalizing depth with
  | literal => rfl
  | @compound word inner K _ _ ih =>
    change SumomoLexer.depthBehind (depth + 1) (K ++ [(.closeBracket, none)]) = depth
    rw [depthBehind_append, ih]
    rfl
  | nothing => rfl
  | parameter _ _ _ _ first others => rw [depthBehind_append, first, others]

/-- What the lexemes of a phrase spell, as far as it is settled by the place of the phrase. -/
def Phrase.Spells : Phrase → List Char → List Lexeme → Prop
  | .expression, text, K => spelled 0 K = text.filter isMeaningful ∧
      ∀ outer, spelled (outer + 1) K = separator :: text.filter isMeaningful
  | .parameters, text, K => ∀ outer, spelled (outer + 1) K = text.filter isMeaningful

theorem spells_literal (isWord : IsWord word) :
    Phrase.Spells .expression word [(.numberLiteral, some (String.ofList word))] := by
  have alone : (String.ofList word).toList ++ [] = word.filter isMeaningful := by
    rw [isWord.filter_isMeaningful, List.append_nil, String.toList_ofList]
  constructor
  · exact alone
  · intro outer
    exact congrArg (separator :: ·) alone

theorem spells_compound {inner : List Char} (isWord : IsWord word)
    (parameters : Derives .parameters inner K) (spells : Phrase.Spells .parameters inner K) :
    Phrase.Spells .expression (openBracket :: (word ++ (inner ++ closeBracket)))
      ((.openBracket, none) :: (.operator, some (String.ofList word)) ::
        (K ++ [(.closeBracket, none)])) := by
  -- inside of the brackets the depth in front of them no longer matters
  have inside (depth : Nat) : spelled (depth + 1) ((.operator, some (String.ofList word)) ::
      (K ++ [(.closeBracket, none)])) = (word ++ (inner ++ closeBracket)).filter isMeaningful := by
    rw [spelled, List.filter_append, List.filter_append, isWord.filter_isMeaningful]
    change (String.ofList word).toList ++ spelled (depth + 1) (K ++ [(.closeBracket, none)]) = _
    rw [String.toList_ofList, spelled_append, spells, parameters.depthBehind]
    rfl
  constructor
  · exact congrArg (openBracket :: ·) (inside 0)
  · intro outer
    exact congrArg (separator :: openBracket :: ·) (inside (outer + 1))

theorem spells_parameter {before behind inner : List Char} (gap : IsGap before)
    (expression : Derives .expression text K) (space : IsGap behind)
    (first : Phrase.Spells .expression text K) (others : Phrase.Spells .parameters inner L) :
    Phrase.Spells .parameters (separator :: (before ++ (text ++ (behind ++ inner)))) (K ++ L) := by
  intro outer
  rw [spelled_append, expression.depthBehind, first.2, others]
  simp only [List.filter_cons_of_pos (show isMeaningful separator = true by decide),
    List.filter_append, gap.filter_isMeaningful, space.filter_isMeaningful, List.nil_append,
    List.cons_append]

theorem Derives.spells (h : Derives phrase text K) : phrase.Spells text K := by
  induction h with
  | literal isWord => exact spells_literal isWord
  | compound isWord parameters ih => exact spells_compound isWord parameters ih
  | nothing => exact fun _ => rfl
  | parameter gap expression space _ first others =>
    exact spells_parameter gap expression space first others

theorem Item.spelled_flatMap (items : List Item) :
    spelled 0 (items.flatMap Item.lexemes) =
      (items.flatMap Item.source).filter isMeaningful := by
  induction items with
  | nil => rfl
  | cons item items ih =>
    rw [List.flatMap_cons, List.flatMap_cons, spelled_append, item.derives.depthBehind, ih,
      item.derives.spells.1, Item.source, List.filter_append, List.filter_append,
      item.isGap.filter_isMeaningful, List.append_nil]

end Grammar

/-- A reading between expressions spells out what was read, and so does its end. -/
theorem Reading.At.spelled_finish {r : Reading} (h : r.At .ready 0 L) :
    spelled 0 r.finish.lexemes = spelled 0 L := by
  rw [h.finish_eq.2]
  split
  · rename_i alone
    rw [alone.1]
    rfl
  · rfl

theorem lex_spelled {text : String} {tokens : List Token} (h : lex text = .ok tokens) :
    text.toList.filter isMeaningful = spelled 0 (tokens.map Token.lexeme) := by
  obtain ⟨live, same⟩ := lex_lexemes_iff.mp ⟨tokens, h, rfl⟩
  obtain ⟨gap, items, split, filler, apart, finished⟩ := Reading.start_at.items_of_live live
  have reached := Reading.read_at filler apart finished
  rw [← split] at reached
  rw [← same, reached.spelled_finish, Item.spelled_flatMap, split, List.filter_append,
    filler.filter_isMeaningful, List.nil_append]

/-- The tokens of a text give its meaningful characters, so texts with the same kinds and values have
the same meaningful characters in the same order. -/
theorem lex_loses_only_filler {text : String} {tokens : List Token} (h : lex text = .ok tokens) :
    text.toList.filter isMeaningful = spelled 0 (tokens.map Token.lexeme) ∧
      ∀ (other : String) (others : List Token), lex other = .ok others →
        others.map Token.lexeme = tokens.map Token.lexeme →
          other.toList.filter isMeaningful = text.toList.filter isMeaningful := by
  have whole := lex_spelled h
  constructor
  · exact whole
  · intro other others accepted same
    rw [lex_spelled accepted, same, whole]

/-- In the second text the parameter leaves a numeral to the close bracket, in the first it does not;
both spell the same. -/
theorem lex_loses_only_filler_of_give_back : ∃ tokens others,
    lex "もあすのの、 もaのうち。" = .ok tokens ∧ lex "も\nすのの、ものうち。" = .ok others ∧
      others.map Token.lexeme = tokens.map Token.lexeme ∧
        "もあすのの、 もaのうち。".toList.filter isMeaningful =
          spelled 0 (tokens.map Token.lexeme) ∧
        "も\nすのの、ものうち。".toList.filter isMeaningful =
          "もあすのの、 もaのうち。".toList.filter isMeaningful := by
  have accepted : lex "もあすのの、 もaのうち。" = .ok [
      ⟨.numberLiteral, some "も", ⟨0, 0⟩, ⟨0, 1, by decide⟩⟩,
      ⟨.openBracket, none, ⟨0, 0⟩, ⟨2, 3, by decide⟩⟩,
      ⟨.operator, some "のの", ⟨0, 0⟩, ⟨3, 5, by decide⟩⟩,
      ⟨.numberLiteral, some "も", ⟨0, 0⟩, ⟨7, 8, by decide⟩⟩,
      ⟨.closeBracket, none, ⟨0, 0⟩, ⟨9, 13, by decide⟩⟩] := by decide +kernel
  have other : lex "も\nすのの、ものうち。" = .ok [
      ⟨.numberLiteral, some "も", ⟨0, 0⟩, ⟨0, 1, by decide⟩⟩,
      ⟨.openBracket, none, ⟨1, 1⟩, ⟨2, 3, by decide⟩⟩,
      ⟨.operator, some "のの", ⟨1, 1⟩, ⟨3, 5, by decide⟩⟩,
      ⟨.numberLiteral, some "も", ⟨1, 1⟩, ⟨6, 7, by decide⟩⟩,
      ⟨.closeBracket, none, ⟨1, 1⟩, ⟨7, 11, by decide⟩⟩] := by decide +kernel
  have whole := lex_loses_only_filler accepted
  exact ⟨_, _, accepted, other, rfl, whole.1, whole.2 _ _ other rfl⟩

end SumomoLexer
