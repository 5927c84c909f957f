import SumomoLexer.Lex

/-! # Readings

A reading is a scan as it stands between two characters. It takes the characters one by one, never
looks ahead and never gives one back: a run of numerals becomes a token only when the character behind
it is read, which also shows whether the last numeral begins a close bracket. What is read later can
therefore not undo what was emitted, and the reading of a longer text continues that of a shorter one.

Where a reading is ready, an expression may begin. It is named behind an operator and settled behind a
parameter, where a separator or a close bracket has to come, and closing inside a close bracket, which
has to go on with the characters that the stage shows.

That scans and readings agree is the subject of a module of its own.
-/
namespace SumomoLexer
open Vocabulary
set_option autoImplicit false

inductive Reading.Stage where
  | ready
  /-- A run of numerals is being read; those taken so far come last first. -/
  | counting (kind : Token.Kind) (taken : List Char)
  | named
  | settled
  | closing (expected : Char) (further : List Char)
  | stopped (rejection : Rejection)
deriving DecidableEq, Repr

structure Reading where
  stage : Reading.Stage
  /-- The number of open brackets. -/
  depth : Nat
  position : Nat
  line : LineMark
  tokens : List Token
deriving DecidableEq, Repr

namespace Reading

def start : Reading := ⟨.ready, 0, 0, LineMark.first, []⟩

def moveTo (r : Reading) (position : Nat) : Reading := { r with position }

def stop (r : Reading) (cause : Cause) (position : Nat) : Reading :=
  { r with stage := .stopped ⟨cause, position, r.line⟩ }

def emit (r : Reading) (kind : Token.Kind) (value : Option String) (start length : Nat) : Reading :=
  let range : Span := ⟨start, start + length, Nat.le_add_right start length⟩
  { r with tokens := r.tokens ++ [⟨kind, value, r.line, range⟩] }

def Stage.behind (depth : Nat) : Stage := if depth = 0 then .ready else .settled

def Stage.behindRun (kind : Token.Kind) (depth : Nat) : Stage :=
  if kind = .operator then .named else .behind depth

def pass (r : Reading) (c : Char) : Reading := { r with line := r.line.past r.position [c] }

/-! ## One character

`enter` reads a character where an expression may begin, `link` one where a separator or a close
bracket has to come, `close` one inside a close bracket and `count` one in or behind a run of numerals.
A close mark behind a run takes the last numeral for its bracket.
-/

def enter (r : Reading) (c : Char) : Reading :=
  if isFiller c then r.pass c
  else if c = openBracket then
    { r with stage := .counting .operator [], depth := r.depth + 1 }.emit .openBracket none r.position 1
  else if isNumeral c then { r with stage := .counting .numberLiteral [c] }
  else r.stop (.strayCharacter c) r.position

def link (r : Reading) (c : Char) : Reading :=
  if c = separator then { r with stage := .ready }
  else if c = 'の' then { r with stage := .closing closeMark ['ち', '。'] }
  else r.stop (.wrongCharacter 'の' (some c)) r.position

def close (r : Reading) (expected : Char) (further : List Char) (c : Char) : Reading :=
  if c = expected then
    match further with
    | [] =>
      { r with stage := .behind (r.depth - 1), depth := r.depth - 1 }.emit .closeBracket none
        (r.position - 3) 4
    | next :: further => { r with stage := .closing next further }
  else r.stop (.wrongCharacter expected (some c)) r.position

def go (r : Reading) (c : Char) : Reading :=
  match r.stage with
  | .ready => r.enter c
  | .named => r.link c
  | .settled => if isFiller c then r.pass c else r.link c
  | .closing expected further => r.close expected further c
  | .counting _ _ | .stopped _ => r

/-- Ends a run of numerals directly before the position. -/
def endRun (r : Reading) (kind : Token.Kind) (taken : List Char) : Reading :=
  { r with stage := .behindRun kind r.depth }.emit kind (some (String.ofList taken.reverse))
    (r.position - taken.length) taken.length

/-- Reads the close mark, where `last` is the numeral before it that no run has taken. -/
def shut (r : Reading) (last : Char) : Reading :=
  if r.stage = .ready then r.stop (.nothingToClose last) r.position
  else if last = 'の' then { r with stage := .closing 'ち' ['。'] }
  else r.stop (.wrongCharacter 'の' (some last)) r.position

def giveBack (r : Reading) (kind : Token.Kind) : List Char → Reading
  | [] => r.stop (.missingNumerals kind (some closeMark)) r.position
  | last :: taken =>
    let before := r.moveTo (r.position - 1)
    if taken = [] then
      before.stop (if kind = .operator then .missingNumerals kind (some last)
        else .nothingToClose last) before.position
    else (before.endRun kind taken).shut last

def count (r : Reading) (kind : Token.Kind) (taken : List Char) (c : Char) : Reading :=
  if isNumeral c then { r with stage := .counting kind (c :: taken) }
  else if c = closeMark then r.giveBack kind taken
  else if taken = [] then r.stop (.missingNumerals kind (some c)) r.position
  else (r.endRun kind taken).go c

def feed (r : Reading) (c : Char) : Reading :=
  let after := match r.stage with
    | .counting kind taken => r.count kind taken c
    | _ => r.go c
  after.moveTo (r.position + 1)

def along (r : Reading) (text : List Char) : Reading := text.foldl feed r

def read (text : List Char) : Reading := start.along text

def finish (r : Reading) : Reading :=
  match r.stage with
  | .ready =>
    if 0 < r.depth then r.stop .missingExpression r.position
    else if r.tokens = [] ∧ 0 < r.position then r.emit .endMark none r.position 0
    else r
  | .counting kind _ => r.stop (.unfinishedNumerals kind) r.position
  | .named | .settled => r.stop (.wrongCharacter 'の' none) r.position
  | .closing expected _ => r.stop (.wrongCharacter expected none) r.position
  | .stopped _ => r

/-- What a text gives that ends where the reading is. -/
def lexing (r : Reading) : Lexing :=
  let done := r.finish
  let notes := done.tokens.map Journal.Entry.emitted
  match done.stage with
  | .stopped rejection => ⟨.error (.rejected rejection), done.tokens, notes⟩
  | _ => ⟨.ok done.tokens, done.tokens,
      notes ++ [.scanned done.tokens.length done.position (done.line.number + 1)]⟩

/-- What a reading ends with if the rest of the text is `text`. -/
def outcome (r : Reading) (text : List Char) : Reading := (r.along text).finish

/-! ## Reading on -/

@[simp] theorem along_nil (r : Reading) : r.along [] = r := rfl

@[simp] theorem along_cons (r : Reading) (c : Char) (text : List Char) :
    r.along (c :: text) = (r.feed c).along text := rfl

theorem along_append (r : Reading) (text more : List Char) :
    r.along (text ++ more) = (r.along text).along more := by
  simp [along]

@[simp] theorem feed_position (r : Reading) (c : Char) : (r.feed c).position = r.position + 1 := rfl

theorem along_position (r : Reading) (text : List Char) :
    (r.along text).position = r.position + text.length := by
  induction text generalizing r with
  | nil => rfl
  | cons c text ih =>
    rw [along_cons, ih, feed_position, List.length_cons]
    omega

theorem read_position (text : List Char) : (read text).position = text.length := by
  rw [read, along_position]
  exact Nat.zero_add _

theorem feed_of_counting {r : Reading} {kind : Token.Kind} {taken : List Char}
    (h : r.stage = .counting kind taken) (c : Char) :
    r.feed c = (r.count kind taken c).moveTo (r.position + 1) := by
  simp only [feed, h]

theorem feed_of_ready {r : Reading} (h : r.stage = .ready) (c : Char) :
    r.feed c = (r.enter c).moveTo (r.position + 1) := by
  simp only [feed, go, h]

theorem feed_of_named {r : Reading} (h : r.stage = .named) (c : Char) :
    r.feed c = (r.link c).moveTo (r.position + 1) := by
  simp only [feed, go, h]

theorem feed_of_settled {r : Reading} (h : r.stage = .settled) {c : Char}
    (solid : isFiller c = false) : r.feed c = (r.link c).moveTo (r.position + 1) := by
  simp [feed, go, h, solid]

theorem feed_of_closing {r : Reading} {expected : Char} {further : List Char}
    (h : r.stage = .closing expected further) (c : Char) :
    r.feed c = (r.close expected further c).moveTo (r.position + 1) := by
  simp only [feed, go, h]

/-! ## Stopped readings -/

theorem feed_of_stopped {r : Reading} {e : Rejection} (h : r.stage = .stopped e) (c : Char) :
    r.feed c = r.moveTo (r.position + 1) := by
  simp only [feed, go, h]

theorem along_of_stopped {r : Reading} {e : Rejection} (h : r.stage = .stopped e)
    (text : List Char) : r.along text = r.moveTo (r.position + text.length) := by
  induction text generalizing r with
  | nil => rfl
  | cons c text ih =>
    have stays : (r.moveTo (r.position + 1)).stage = .stopped e := h
    rw [along_cons, feed_of_stopped h, ih stays, List.length_cons]
    simp only [moveTo, mk.injEq, true_and, and_true]
    omega

theorem outcome_of_stopped {r : Reading} {e : Rejection} (h : r.stage = .stopped e)
    (text : List Char) : r.outcome text = r.moveTo (r.position + text.length) := by
  rw [outcome, along_of_stopped h]
  simp only [finish, moveTo, h]

def Live (r : Reading) : Prop := ∀ e, r.stage ≠ .stopped e

theorem live_or_stopped (r : Reading) : r.Live ∨ ∃ e, r.stage = .stopped e := by
  rcases Classical.em (∃ e, r.stage = .stopped e) with stopped | live
  · exact .inr stopped
  · exact .inl fun e h => live ⟨e, h⟩

/-- The reading was stopped for this reason, having emitted these tokens. -/
structure StoppedWith (r : Reading) (e : Rejection) (tokens : List Token) : Prop where
  stage_eq : r.stage = .stopped e
  tokens_eq : r.tokens = tokens

theorem outcome_stoppedWith {r : Reading} {e : Rejection} (h : r.stage = .stopped e)
    (text : List Char) : (r.outcome text).StoppedWith e r.tokens := by
  rw [outcome_of_stopped h]
  exact ⟨h, rfl⟩

theorem outcome_cons (r : Reading) (c : Char) (text : List Char) :
    r.outcome (c :: text) = (r.feed c).outcome text := rfl

/-! ## What a reading gives -/

theorem lexing_of_live {r : Reading} (h : r.finish.Live) :
    r.lexing = ⟨.ok r.finish.tokens, r.finish.tokens, r.finish.tokens.map .emitted ++
      [.scanned r.finish.tokens.length r.finish.position (r.finish.line.number + 1)]⟩ := by
  unfold lexing
  dsimp only
  split
  · rename_i e stopped
    exact absurd stopped (h e)
  · rfl

theorem lexing_of_stopped {r : Reading} {e : Rejection} (h : r.finish.stage = .stopped e) :
    r.lexing = ⟨.error (.rejected e), r.finish.tokens, r.finish.tokens.map .emitted⟩ := by
  unfold lexing
  dsimp only
  rw [h]

theorem lexing_result_eq_ok_iff {r : Reading} {tokens : List Token} :
    r.lexing.result = .ok tokens ↔ r.finish.Live ∧ r.finish.tokens = tokens := by
  rcases r.finish.live_or_stopped with live | ⟨e, stopped⟩
  · simp [lexing_of_live live, live]
  · have dead : ¬ r.finish.Live := fun live => live e stopped
    simp [lexing_of_stopped stopped, dead]

theorem lexing_result_eq_error_iff {r : Reading} {e : Failure} :
    r.lexing.result = .error e ↔ ∃ rejection, e = .rejected rejection ∧
      r.finish.stage = .stopped rejection := by
  rcases r.finish.live_or_stopped with live | ⟨rejection, stopped⟩
  · simp [lexing_of_live live, live _]
  · simp [lexing_of_stopped stopped, stopped, eq_comm]

theorem lexing_emitted (r : Reading) : r.lexing.emitted = r.finish.tokens := by
  rcases r.finish.live_or_stopped with live | ⟨rejection, stopped⟩
  · rw [lexing_of_live live]
  · rw [lexing_of_stopped stopped]

/-! ## Filler -/

theorem feed_filler {r : Reading} (h : r.stage = .ready ∨ r.stage = .settled) {c : Char}
    (filler : isFiller c = true) :
    r.feed c = (r.pass c).moveTo (r.position + 1) := by
  rcases h with h | h <;> simp [feed, go, h, enter, filler]

theorem along_filler {r : Reading} (h : r.stage = .ready ∨ r.stage = .settled) {gap : List Char}
    (filler : ∀ c ∈ gap, isFiller c = true) :
    r.along gap = { r with
      position := r.position + gap.length, line := r.line.past r.position gap } := by
  induction gap generalizing r with
  | nil => rfl
  | cons c gap ih =>
    have moved : ((r.pass c).moveTo (r.position + 1)).stage = .ready ∨
        ((r.pass c).moveTo (r.position + 1)).stage = .settled := h
    rw [along_cons, feed_filler h (filler c List.mem_cons_self),
      ih moved fun d hd => filler d (List.mem_cons_of_mem c hd)]
    simp only [pass, moveTo, List.length_cons, mk.injEq, true_and, and_true]
    exact ⟨by omega, (LineMark.past_append r.line r.position [c] gap).symm⟩

/-! ## Runs of numerals -/

theorem along_numerals {r : Reading} {kind : Token.Kind} {taken : List Char}
    (h : r.stage = .counting kind taken) {word : List Char}
    (numerals : ∀ c ∈ word, isNumeral c = true) :
    r.along word = { r with
      stage := .counting kind (word.reverse ++ taken), position := r.position + word.length } := by
  induction word generalizing r taken with
  | nil =>
    rw [along_nil, List.reverse_nil, List.nil_append, ← h]
    rfl
  | cons c word ih =>
    have first : r.feed c = { r with
        stage := .counting kind (c :: taken), position := r.position + 1 } := by
      rw [feed_of_counting h]
      simp [count, numerals c List.mem_cons_self, moveTo]
    rw [along_cons, first, ih rfl fun d hd => numerals d (List.mem_cons_of_mem c hd)]
    simp only [List.reverse_cons, List.append_assoc, List.singleton_append, List.length_cons,
      mk.injEq, true_and, and_true]
    omega

/-- A run of numerals that has at least one ends before this text. -/
inductive EndsRun : List Char → Prop
  | mark {c : Char} {text : List Char} :
    isNumeral c = false → c ≠ closeMark → EndsRun (c :: text)
  | bracket {c : Char} {text : List Char} : isNumeral c = true → EndsRun (c :: closeMark :: text)

theorem behind_cases (depth : Nat) :
    Stage.behind depth = .ready ∨ Stage.behind depth = .settled := by
  unfold Stage.behind
  split
  · exact .inl rfl
  · exact .inr rfl

theorem behindRun_cases (kind : Token.Kind) (depth : Nat) :
    Stage.behindRun kind depth = .named ∨ Stage.behindRun kind depth = .ready ∨
      Stage.behindRun kind depth = .settled := by
  unfold Stage.behindRun
  split
  · exact .inl rfl
  · exact .inr (behind_cases depth)

theorem feed_eq_go {r : Reading} (h : r.stage = .named ∨ r.stage = .ready ∨ r.stage = .settled)
    (c : Char) : r.feed c = (r.go c).moveTo (r.position + 1) := by
  rcases h with h | h | h <;> simp only [feed, h]

/-- A numeral and the close mark read one by one, where no run of numerals has been entered. -/
theorem feed_closeMark {r : Reading}
    (h : r.stage = .named ∨ r.stage = .ready ∨ r.stage = .settled) {c : Char}
    (numeral : isNumeral c = true) :
    (r.feed c).feed closeMark = (r.shut c).moveTo (r.position + 2) := by
  rcases (isNumeral_iff c).mp numeral with rfl | rfl <;> rcases h with h | h | h <;>
    simp [feed, go, h, moveTo, link, stop, shut, enter, count, giveBack, close, isFiller,
      isMeaningful, isNumeral, closeMark, openBracket, separator]

theorem feed_missing {r : Reading} {kind : Token.Kind} (h : r.stage = .counting kind [])
    {c : Char} (other : isNumeral c = false) :
    r.feed c =
      (r.stop (.missingNumerals kind (some c)) r.position).moveTo (r.position + 1) := by
  rw [feed_of_counting h]
  by_cases mark : c = closeMark
  · subst mark
    simp only [count, other, giveBack, Bool.false_eq_true, if_false, if_true]
  · simp only [count, other, mark, Bool.false_eq_true, if_false, if_true]

theorem feed_missing_closeMark {r : Reading} {kind : Token.Kind}
    (h : r.stage = .counting kind []) {c : Char} (numeral : isNumeral c = true) :
    (r.feed c).feed closeMark = (r.stop (if kind = .operator then .missingNumerals kind (some c)
      else .nothingToClose c) r.position).moveTo (r.position + 2) := by
  have entered : r.feed c = { r with
      stage := .counting kind [c], position := r.position + 1 } := by
    rw [feed_of_counting h]
    simp only [count, numeral, if_true, moveTo]
  have mark : isNumeral closeMark = false := by decide
  rw [entered, feed_of_counting rfl]
  simp only [count, mark, giveBack, Bool.false_eq_true, if_false, if_true, moveTo, stop,
    Nat.add_sub_cancel]

theorem feed_numeral {r : Reading} (h : r.stage = .ready) {c : Char}
    (numeral : isNumeral c = true) :
    r.feed c = { r with stage := .counting .numberLiteral [] }.feed c := by
  have solid : isFiller c = false := by simp [isFiller, isMeaningful, numeral]
  have different : c ≠ openBracket := by
    rintro rfl
    revert numeral
    decide
  rw [feed_of_ready h, feed_of_counting rfl]
  simp only [enter, count, solid, different, numeral, Bool.false_eq_true, if_false, if_true]

/-- Behind a run of numerals a text is read as if the token had been emitted before it. -/
theorem along_endRun {r : Reading} {kind : Token.Kind} {taken : List Char}
    (h : r.stage = .counting kind taken) (something : taken ≠ []) {text : List Char}
    (ends : EndsRun text) : r.along text = (r.endRun kind taken).along text := by
  have behind : (r.endRun kind taken).stage = .named ∨ (r.endRun kind taken).stage = .ready ∨
      (r.endRun kind taken).stage = .settled := behindRun_cases kind r.depth
  cases ends with
  | @mark c text other unmarked =>
    rw [along_cons, along_cons, feed_eq_go behind, feed_of_counting h]
    simp only [count, other, unmarked, something, Bool.false_eq_true, if_false]
    rfl
  | @bracket c text numeral =>
    have entered : (r.feed c).stage = .counting kind (c :: taken) := by
      rw [feed_of_counting h]
      simp only [count, numeral, if_true, moveTo]
    have mark : isNumeral closeMark = false := by decide
    simp only [along_cons]
    rw [feed_closeMark behind numeral, feed_of_counting entered]
    simp only [count, mark, giveBack, something, Bool.false_eq_true, if_false, if_true]
    rw [feed_of_counting h]
    simp only [count, numeral, if_true]
    rfl

/-! ## Brackets -/

def Links (r : Reading) (text : List Char) : Prop :=
  r.stage = .named ∨ r.stage = .settled ∧ ∀ c ∈ text.head?, isFiller c = false

theorem head_solid {c : Char} (text : List Char) (solid : isFiller c = false) :
    ∀ d ∈ (c :: text).head?, isFiller d = false := by
  intro d hd
  cases hd
  exact solid

theorem Links.feed_eq {r : Reading} {c : Char} {text : List Char} (h : r.Links (c :: text)) :
    r.feed c = (r.link c).moveTo (r.position + 1) := by
  rcases h with named | ⟨settled, solid⟩
  · exact feed_of_named named c
  · exact feed_of_settled settled (solid c rfl)

theorem Links.feed_separator {r : Reading} {text : List Char} (h : r.Links (separator :: text)) :
    r.feed separator = { r with stage := .ready, position := r.position + 1 } := by
  rw [h.feed_eq]
  simp only [link, if_true, moveTo]

theorem Links.outcome_of_other {r : Reading} {text : List Char} (h : r.Links text)
    (noSeparator : text.head? ≠ some separator) (noBracket : text.head? ≠ some 'の') :
    (r.outcome text).StoppedWith ⟨.wrongCharacter 'の' text.head?, r.position, r.line⟩ r.tokens := by
  cases text with
  | nil => rcases h with h | ⟨h, _⟩ <;> exact ⟨by simp [outcome, finish, h, stop], by
      simp [outcome, finish, h, stop]⟩
  | cons c text =>
    simp only [List.head?_cons, ne_eq, Option.some.injEq] at noSeparator noBracket
    rw [outcome_cons, h.feed_eq]
    simp only [link, noSeparator, noBracket, if_false]
    exact outcome_stoppedWith rfl text

theorem outcome_closing_of_other {r : Reading} {expected : Char} {further text : List Char}
    (h : r.stage = .closing expected further) (other : text.head? ≠ some expected) :
    (r.outcome text).StoppedWith ⟨.wrongCharacter expected text.head?, r.position, r.line⟩
      r.tokens := by
  cases text with
  | nil => exact ⟨by simp [outcome, finish, h, stop], by simp [outcome, finish, h, stop]⟩
  | cons c text =>
    simp only [List.head?_cons, ne_eq, Option.some.injEq] at other
    rw [outcome_cons, feed_of_closing h]
    simp only [close, other, if_false]
    exact outcome_stoppedWith rfl text

theorem feed_closing_next {r : Reading} {expected next : Char} {further : List Char}
    (h : r.stage = .closing expected (next :: further)) :
    r.feed expected = { r with stage := .closing next further, position := r.position + 1 } := by
  rw [feed_of_closing h]
  simp only [close, if_true, moveTo]

theorem feed_closing_last {r : Reading} {expected : Char} (h : r.stage = .closing expected []) :
    r.feed expected = ({ r with
      stage := .behind (r.depth - 1), depth := r.depth - 1, position := r.position + 1 }.emit
        .closeBracket none (r.position - 3) 4) := by
  rw [feed_of_closing h]
  simp only [close, if_true, moveTo, emit]

theorem feed_openBracket {r : Reading} (h : r.stage = .ready) :
    r.feed openBracket = ({ r with
      stage := .counting .operator [], depth := r.depth + 1, position := r.position + 1 }.emit
        .openBracket none r.position 1) := by
  have solid : isFiller openBracket = false := by decide
  rw [feed_of_ready h]
  simp only [enter, solid, Bool.false_eq_true, if_false, if_true, moveTo, emit]

end Reading
end SumomoLexer
