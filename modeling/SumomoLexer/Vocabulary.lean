/-! # The vocabulary of sumomo

Sumomo gives meaning to seven characters: an open bracket, a separator, two numerals and the four
characters of the close bracket, the first of which is a numeral as well. Everything else is
filler, line terminators included. This module only classifies single characters; which sequences
of them make tokens is settled by the scan.
-/
namespace SumomoLexer.Vocabulary
set_option autoImplicit false

def openBracket : Char := 'す'

def separator : Char := '、'

def closeBracket : List Char := ['の', 'う', 'ち', '。']

/-- The character that turns a `の` before it into the start of a close bracket. -/
def closeMark : Char := 'う'

def isNumeral (c : Char) : Bool := c == 'も' || c == 'の'

def isMeaningful (c : Char) : Bool :=
  isNumeral c || c == openBracket || c == separator || closeBracket.contains c

def isFiller (c : Char) : Bool := !isMeaningful c

def isLineTerminator (c : Char) : Bool :=
  c == '\n' || c == '\r' || c == '\u2028' || c == '\u2029'

theorem isNumeral_iff (c : Char) : isNumeral c = true ↔ c = 'も' ∨ c = 'の' := by
  simp [isNumeral]

theorem isMeaningful_iff (c : Char) :
    isMeaningful c = true ↔ c ∈ ['す', 'も', 'の', '、', 'う', 'ち', '。'] := by
  simp only [isMeaningful, isNumeral, openBracket, separator, closeBracket, List.contains_cons,
    List.contains_nil, Bool.or_false, Bool.or_eq_true, beq_iff_eq, List.mem_cons,
    List.not_mem_nil, or_false]
  constructor
  · rintro ((((h | h) | h) | h) | h | h | h | h) <;> simp [h]
  · rintro (h | h | h | h | h | h | h) <;> simp [h]

theorem isLineTerminator_iff (c : Char) :
    isLineTerminator c = true ↔ c ∈ ['\n', '\r', '\u2028', '\u2029'] := by
  simp [isLineTerminator, or_assoc]

theorem isFiller_of_isLineTerminator {c : Char} (h : isLineTerminator c = true) :
    isFiller c = true := by
  rw [isLineTerminator_iff] at h
  simp only [List.mem_cons, List.not_mem_nil, or_false] at h
  rcases h with rfl | rfl | rfl | rfl <;> decide

end SumomoLexer.Vocabulary
