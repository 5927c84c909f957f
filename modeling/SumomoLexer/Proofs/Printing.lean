import SumomoLexer.Program
import SumomoLexer.Proofs.Faultless
import SumomoLexer.Proofs.Tiling

/-! # Printed tokens

A token is printed as one row. Its kind ends at the first space and its numbers at the first character
that is no digit, so that the row can be read back: it gives the kind and the value of the token, and
with positions also its line number, its column and its range. Where its line starts is not printed;
that it can be had from the column is a matter of the text that the token comes from.
-/
namespace SumomoLexer
open Vocabulary Grammar
set_option autoImplicit false

variable {front other back rest mark row : String} {c : Char} {t u : Token} {positions : Bool}

/-! ## Reading up to a mark -/

theorem eq_of_append_mark {more : List Char} (begins : mark.toList = c :: more)
    (before : c ∉ front.toList) (also : c ∉ other.toList)
    (h : front ++ (mark ++ back) = other ++ (mark ++ rest)) : front = other ∧ back = rest := by
  have characters := congrArg String.toList h
  simp only [String.toList_append, begins, List.cons_append] at characters
  have parts := congrArg (List.splitOn c) characters
  rw [List.splitOn_append_cons_self_of_not_mem before,
    List.splitOn_append_cons_self_of_not_mem also] at parts
  have same : front = other := String.toList_inj.mp (List.cons.inj parts).1
  subst same
  exact ⟨rfl, (String.append_right_inj mark).mp ((String.append_right_inj front).mp h)⟩

theorem isDigit_of_mem_repr {n : Nat} (h : c ∈ n.repr.toList) : c.isDigit = true := by
  rw [Nat.toList_repr] at h
  exact Nat.isDigit_of_mem_toDigits (by decide) (by decide) h

theorem eq_of_repr_append_mark {m n : Nat} {more : List Char} (begins : mark.toList = c :: more)
    (ends : c.isDigit = false) (h : m.repr ++ (mark ++ back) = n.repr ++ (mark ++ rest)) :
    m = n ∧ back = rest := by
  have outside (k : Nat) : c ∉ k.repr.toList := by
    intro member
    rw [isDigit_of_mem_repr member] at ends
    cases ends
  obtain ⟨same, behind⟩ := eq_of_append_mark begins (outside m) (outside n) h
  have numbers := congrArg (fun digits => Nat.ofDigitChars 10 digits.toList 0) same
  simp only [Nat.toList_repr, Nat.ofDigitChars_ten_toDigits] at numbers
  exact ⟨numbers, behind⟩

theorem oneLine_repr (n : Nat) : OneLine n.repr := by
  intro c member
  have digit := isDigit_of_mem_repr member
  rw [← Bool.not_eq_true, isLineTerminator_iff]
  intro ends
  simp only [List.mem_cons, List.not_mem_nil, or_false] at ends
  rcases ends with rfl | rfl | rfl | rfl <;> cases digit

/-! ## Tokens -/

theorem Span.eq_of_bounds {s r : Span} (start : s.start = r.start) (stop : s.stop = r.stop) :
    s = r := by
  cases s
  cases r
  cases start
  cases stop
  rfl

theorem Span.oneLine_text (s : Span) : OneLine s.text :=
  ((oneLine_repr s.start).append (by decide)).append (oneLine_repr s.stop)

namespace Token

theorem Kind.name_solid (k : Kind) : ' ' ∉ k.name.toList := by
  cases k <;> decide

theorem lexeme_eq_of_text_eq (h : t.text = u.text) : t.lexeme = u.lexeme := by
  obtain ⟨kind, value, _, _⟩ := t
  obtain ⟨other, also, _, _⟩ := u
  have space : " ".toList = [' '] := by decide
  cases value with
  | none =>
    cases also with
    | none =>
      have names : kind.name = other.name := h
      rw [lexeme, lexeme, Kind.name_injective names]
    | some word =>
      have names : kind.name = other.name ++ " " ++ word := h
      have member : ' ' ∈ kind.name.toList := by
        rw [names]
        simp [space]
      exact absurd member kind.name_solid
  | some value =>
    cases also with
    | none =>
      have names : kind.name ++ " " ++ value = other.name := h
      have member : ' ' ∈ other.name.toList := by
        rw [← names]
        simp [space]
      exact absurd member other.name_solid
    | some word =>
      have words : kind.name ++ " " ++ value = other.name ++ " " ++ word := h
      rw [String.append_assoc, String.append_assoc] at words
      obtain ⟨names, rfl⟩ := eq_of_append_mark space kind.name_solid other.name_solid words
      rw [lexeme, lexeme, Kind.name_injective names]

def placedRow (t : Token) (column : Nat) : String :=
  s!"{t.line.number + 1}:{column + 1}\t{t.range.text}\t{t.text}"

/-- The row that is printed for a token, without the line feed at its end. -/
def PrintedAs (t : Token) : Bool → String → Prop
  | false, row => row = t.text
  | true, row => ∃ column, t.line.column t.range.start = .ok column ∧ row = t.placedRow column

theorem PrintedAs.tokenLine_eq (h : t.PrintedAs positions row) :
    Program.tokenLine positions t = .ok (row ++ "\n") := by
  cases positions with
  | false =>
    cases h
    rfl
  | true =>
    obtain ⟨column, here, rfl⟩ := h
    rw [Program.tokenLine, if_pos rfl, here]
    rfl

theorem exists_printedAs (here : ∃ column, t.line.column t.range.start = .ok column)
    (positions : Bool) : ∃ row, t.PrintedAs positions row := by
  cases positions with
  | false => exact ⟨_, rfl⟩
  | true =>
    obtain ⟨column, here⟩ := here
    exact ⟨_, column, here, rfl⟩

theorem placedRow_eq (t : Token) (column : Nat) : t.placedRow column =
    (t.line.number + 1).repr ++ (":" ++ ((column + 1).repr ++ ("\t" ++ (t.range.start.repr ++
      (".." ++ (t.range.stop.repr ++ ("\t" ++ t.text))))))) := by
  change (t.line.number + 1).repr ++ ":" ++ (column + 1).repr ++ "\t" ++
    (t.range.start.repr ++ ".." ++ t.range.stop.repr) ++ "\t" ++ t.text = _
  simp only [String.append_assoc]

theorem placedRow_injective {m n : Nat} (h : t.placedRow m = u.placedRow n) :
    t.line.number = u.line.number ∧ m = n ∧ t.range = u.range ∧ t.lexeme = u.lexeme := by
  have colon : ":".toList = [':'] := by decide
  have tab : "\t".toList = ['\t'] := by decide
  have dots : "..".toList = ['.', '.'] := by decide
  rw [placedRow_eq, placedRow_eq] at h
  obtain ⟨number, h⟩ := eq_of_repr_append_mark colon (by decide) h
  obtain ⟨column, h⟩ := eq_of_repr_append_mark tab (by decide) h
  obtain ⟨start, h⟩ := eq_of_repr_append_mark dots (by decide) h
  obtain ⟨stop, text⟩ := eq_of_repr_append_mark tab (by decide) h
  exact ⟨Nat.succ.inj number, Nat.succ.inj column, Span.eq_of_bounds start stop,
    lexeme_eq_of_text_eq text⟩

/-! ## Rows -/

theorem Spells.oneLine {body : List Char} (h : t.Spells body) : OneLine t.text := by
  obtain ⟨kind, value, line, range⟩ := t
  have named (word : List Char) (isWord : IsWord word) (same : value = some (String.ofList word)) :
      OneLine (Token.text ⟨kind, value, line, range⟩) := by
    subst same
    refine ((oneLine_kind kind).append (by decide)).append ?_
    intro c member
    rw [String.toList_ofList] at member
    exact Reading.not_terminator_of_numeral (isWord.2 c member)
  have alone (same : value = none) : OneLine (Token.text ⟨kind, value, line, range⟩) := by
    subst same
    exact oneLine_kind kind
  cases kind with
  | openBracket | closeBracket | endMark => exact alone h.2
  | operator | numberLiteral => exact named body h.1 h.2

theorem PrintedAs.oneLine (h : t.PrintedAs positions row) (text : OneLine t.text) : OneLine row := by
  cases positions with
  | false =>
    cases h
    exact text
  | true =>
    obtain ⟨column, -, rfl⟩ := h
    have colon : OneLine ":" := by decide
    have tab : OneLine "\t" := by decide
    have numbers := ((oneLine_repr (t.line.number + 1)).append colon).append (oneLine_repr (column + 1))
    exact (((numbers.append tab).append t.range.oneLine_text).append tab).append text

end Token

/-! ## Lists of tokens -/

/-- Each of the tokens is printed as the row in its place. -/
def Prints (positions : Bool) (tokens : List Token) (printed : List String) : Prop :=
  List.Forall₂ (fun t row => t.PrintedAs positions row ∧ OneLine row) tokens printed

def sheet (printed : List String) : String := String.join (printed.map (· ++ "\n"))

theorem rows_sheet {printed : List String} (h : ∀ row ∈ printed, OneLine row) :
    rows (sheet printed) = printed ++ [""] := by
  induction printed with
  | nil => rfl
  | cons row printed ih =>
    have first : OneLine row := h row List.mem_cons_self
    rw [sheet, List.map_cons, String.join_cons, rows_append_break, first.rows_eq]
    exact congrArg (row :: ·) (ih fun other member => h other (List.mem_cons_of_mem row member))

theorem exists_forall₂ {α β : Type} {R : α → β → Prop} {l : List α} (h : ∀ a ∈ l, ∃ b, R a b) :
    ∃ m, List.Forall₂ R l m := by
  induction l with
  | nil => exact ⟨[], .nil⟩
  | cons a l ih =>
    obtain ⟨b, first⟩ := h a List.mem_cons_self
    obtain ⟨m, others⟩ := ih fun c member => h c (List.mem_cons_of_mem a member)
    exact ⟨b :: m, .cons first others⟩

theorem map_eq_of_forall₂ {α β γ : Type} {R : α → β → Prop} {f : α → γ} {l m : List α} {n : List β}
    (agree : ∀ a ∈ l, ∀ b ∈ m, ∀ c, R a c → R b c → f a = f b) (first : List.Forall₂ R l n)
    (second : List.Forall₂ R m n) : l.map f = m.map f := by
  induction first generalizing m with
  | nil =>
    cases second
    rfl
  | @cons a c l n here more ih =>
    cases second with
    | @cons b _ m _ there others =>
      have heads := agree a List.mem_cons_self b List.mem_cons_self c here there
      have tails := ih (fun d member e also =>
        agree d (List.mem_cons_of_mem a member) e (List.mem_cons_of_mem b also)) others
      rw [List.map_cons, List.map_cons, heads, tails]

variable {text : String} {tokens others : List Token} {printed : List String}

namespace Prints

theorem oneLine (h : Prints positions tokens printed) : ∀ row ∈ printed, OneLine row := by
  induction h with
  | nil => exact nofun
  | cons first _ ih => exact List.forall_mem_cons.mpr ⟨first.2, ih⟩

theorem mapM_tokenLine (h : Prints positions tokens printed) :
    tokens.mapM (Program.tokenLine positions) = .ok (printed.map (· ++ "\n")) := by
  induction h with
  | nil => rfl
  | cons first _ ih =>
    rw [List.mapM_cons, first.1.tokenLine_eq, ih]
    rfl

theorem sheet_eq {more : List String} (h : Prints positions tokens printed)
    (also : Prints positions tokens more) : sheet printed = sheet more :=
  congrArg String.join (Except.ok.inj (h.mapM_tokenLine.symm.trans also.mapM_tokenLine))

/-- The rows of a sheet are all that the tokens are printed as. -/
theorem printed_eq {more : List String} (h : Prints positions tokens printed)
    (also : Prints positions others more) (same : sheet printed = sheet more) : printed = more := by
  have shown := congrArg rows same
  rw [rows_sheet h.oneLine, rows_sheet also.oneLine] at shown
  exact List.append_cancel_right shown

theorem lexemes_eq (h : Prints positions tokens printed) (also : Prints positions others printed) :
    tokens.map Token.lexeme = others.map Token.lexeme := by
  refine map_eq_of_forall₂ ?_ h also
  rintro t - u - row ⟨first, -⟩ ⟨second, -⟩
  cases positions with
  | false => exact Token.lexeme_eq_of_text_eq (first.symm.trans second)
  | true =>
    obtain ⟨column, -, rfl⟩ := first
    obtain ⟨_, -, same⟩ := second
    exact (Token.placedRow_injective same).2.2.2

/-- In the text of a token the start of its line is where its column begins to count. -/
theorem tokens_eq {more : String} (h : Prints true tokens printed) (also : Prints true others printed)
    (accepted : lex text = .ok tokens) (second : lex more = .ok others) : tokens = others := by
  rw [← List.map_id tokens, ← List.map_id others]
  refine map_eq_of_forall₂ ?_ h also
  rintro t inside u within row ⟨⟨column, here, rfl⟩, -⟩ ⟨⟨other, there, same⟩, -⟩
  obtain ⟨number, rfl, range, lexeme⟩ := Token.placedRow_injective same
  rw [lex_token_line accepted inside] at here
  rw [lex_token_line second within] at there
  have start : t.line.start = u.line.start := by
    rw [lex_token_line accepted inside, lex_token_line second within,
      LineMark.find_start (lex_token_start_le accepted inside) here,
      LineMark.find_start (lex_token_start_le second within) there, range]
  obtain ⟨kind, value, ⟨_, _⟩, _⟩ := t
  obtain ⟨_, _, ⟨_, _⟩, _⟩ := u
  cases number
  cases start
  cases range
  cases lexeme
  rfl

end Prints

theorem lex_token_oneLine (accepted : lex text = .ok tokens) (member : t ∈ tokens) :
    OneLine t.text := by
  obtain ⟨-, rfl⟩ := lex_eq_ok_iff.mp accepted
  obtain ⟨body, spells⟩ := Reading.finish_spells member
  exact spells.oneLine

theorem exists_prints (accepted : lex text = .ok tokens) (positions : Bool) :
    ∃ printed, Prints positions tokens printed := by
  apply exists_forall₂
  intro t member
  obtain ⟨row, prints⟩ := Token.exists_printedAs (lex_token_column accepted member) positions
  exact ⟨row, prints, prints.oneLine (lex_token_oneLine accepted member)⟩

end SumomoLexer
