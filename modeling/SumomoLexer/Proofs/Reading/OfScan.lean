import SumomoLexer.Cursor.Rest
import SumomoLexer.Proofs.Reading.Basic

/-! # Scans are readings

A scan looks ahead, runs past the end of a word and steps back; a reading does none of that. Each
step of a scan is compared with the reading of the text ahead of it: if the step succeeds, the
reading that stands where it ends has the same outcome, and if it fails, the outcome is its rejection.
No step faults as long as the offsets have room for the text.
-/
namespace SumomoLexer
open Vocabulary
set_option autoImplicit false

/-! ## Cursors with room for their text -/

namespace Cursor

variable {c : Cursor} (room : Offset.Fits c.bound c.source.size)
include room

theorem takeRun_of_room (p : Char → Bool) :
    ∃ word d, c.takeRun p = .ok (word.length, d) ∧ c.rest = word ++ d.rest ∧
      (∀ a ∈ word, p a = true) ∧ (∀ a ∈ d.rest.head?, p a = false) ∧
      d.source = c.source ∧ d.bound = c.bound ∧ d.position = c.position + word.length := by
  have inside := c.position_add_runLength_le p
  have run : c.takeRun p = .ok (c.runLength p, c.moveTo (c.position + c.runLength p) inside) :=
    takeRun_eq_ok_iff.mpr ⟨rfl, room.mono inside, rfl, rfl, rfl⟩
  have after := rest_takeRun run
  refine ⟨c.rest.takeWhile p, c.moveTo (c.position + c.runLength p) inside, ?_, ?_, ?_, ?_,
    rfl, rfl, ?_⟩
  · rw [← runLength_eq]
    exact run
  · rw [after, List.takeWhile_append_dropWhile]
  · exact List.all_eq_true.mp List.all_takeWhile
  · intro a ha
    have stops := List.head?_dropWhile_not p c.rest
    rw [← after, Option.mem_def.mp ha] at stops
    exact stops
  · rw [← runLength_eq]
    rfl

theorem takeIf_of_found {expected : Char} {text : List Char} (found : c.rest = expected :: text) :
    ∃ d, c.takeIf expected = .ok (true, d) ∧ d.source = c.source ∧ d.bound = c.bound ∧
      d.position = c.position + 1 ∧ d.rest = text := by
  have next : c.next? = some expected := by rw [next?_eq_head?_rest, found, List.head?_cons]
  have length := length_rest c
  rw [found, List.length_cons, remaining] at length
  have inside : c.position + 1 ≤ c.source.size := by omega
  refine ⟨c.moveTo (c.position + 1) inside, takeIf_eq_true_iff.mpr
    ⟨next, room.mono inside, rfl, rfl, rfl⟩, rfl, rfl, rfl, ?_⟩
  rw [rest_moveTo_add, found, List.drop_one, List.tail_cons]

omit room in
theorem takeIf_of_other {expected : Char} (other : c.rest.head? ≠ some expected) :
    c.takeIf expected = .ok (false, c) :=
  takeIf_eq_false_iff.mpr ⟨by rwa [next?_eq_head?_rest], rfl⟩

theorem lookAhead_of_rest {first : Char} {text : List Char} (found : c.rest = first :: text) :
    c.lookAhead 1 = .ok text.head? := by
  have length := length_rest c
  rw [found, List.length_cons, remaining] at length
  refine lookAhead_eq_ok_iff.mpr ⟨room.mono (by omega), ?_⟩
  rw [found, List.getElem?_cons_succ, ← List.head?_eq_getElem?]

omit room in
theorem giveBack_of_passed {c d : Cursor} {word : List Char} {last : Char}
    (source : d.source = c.source) (position : d.position = c.position + (word.length + 1))
    (passed : c.rest = word ++ last :: d.rest) :
    ∃ e, d.giveBack = .ok ((), e) ∧ e.source = c.source ∧ e.bound = d.bound ∧
      e.position = c.position + word.length ∧ e.rest = last :: d.rest := by
  have le := d.position_le
  refine ⟨d.moveTo (d.position - 1) (by omega), giveBack_eq_ok_iff.mpr
    ⟨by omega, rfl, rfl, rfl⟩, source, rfl, by simp only [moveTo]; omega, ?_⟩
  calc
    d.source.toList.drop (d.position - 1) = c.rest.drop word.length := by
      rw [rest, List.drop_drop, source, position]
      rfl
    _ = last :: d.rest := by rw [passed, List.drop_left]

end Cursor

namespace Scan

/-- The reading that stands where the scan stands. -/
def reading (s : Scan) (stage : Reading.Stage) (depth : Nat) : Reading :=
  ⟨stage, depth, s.cursor.position, s.line, s.tokens.toList⟩

/-- What every step of a scan keeps. -/
structure Regular (size : Nat) (s : Scan) : Prop where
  size_eq : s.cursor.source.size = size
  room : Offset.Fits s.cursor.bound s.cursor.source.size
  journal_eq : s.journal.toList = s.tokens.toList.map .emitted

def Clear (s : Scan) : Prop := ∀ c ∈ s.cursor.rest.head?, isFiller c = false

variable {α β : Type} {size : Nat}

/-- The reading `r` of the text ahead has the outcome of the step, or of a reading from which
`post` says where it stands after the step. -/
def Follows (size : Nat) (r : Reading) (m : ScanM α) (s : Scan)
    (post : α → Scan → Reading → Prop) : Prop :=
  match m s with
  | .ok a t => Regular size t ∧
      ∃ q, r.outcome s.cursor.rest = q.outcome t.cursor.rest ∧ post a t q
  | .error e t => Regular size t ∧
      ∃ rejection, e = .rejected rejection ∧
        (r.outcome s.cursor.rest).StoppedWith rejection t.tokens.toList

variable {r q : Reading} {s t : Scan} {m : ScanM α} {f : α → ScanM β}
  {post : α → Scan → Reading → Prop} {last : β → Scan → Reading → Prop}

theorem Follows.of_ok {a : α} (run : m s = .ok a t) (regular : Regular size t)
    (same : r.outcome s.cursor.rest = q.outcome t.cursor.rest) (after : post a t q) :
    Follows size r m s post := by
  rw [Follows]
  rw [run]
  exact ⟨regular, q, same, after⟩

theorem Follows.of_error {rejection : Rejection} (run : m s = .error (.rejected rejection) t)
    (regular : Regular size t)
    (stopped : (r.outcome s.cursor.rest).StoppedWith rejection t.tokens.toList) :
    Follows size r m s post := by
  rw [Follows]
  rw [run]
  exact ⟨regular, rejection, rfl, stopped⟩

theorem Follows.bind (first : Follows size r m s post)
    (second : ∀ a t q, m s = .ok a t → Regular size t → post a t q → Follows size q (f a) t last) :
    Follows size r (m >>= f) s last := by
  rw [Follows] at first ⊢
  change match EStateM.bind m f s with
    | .ok a t => _
    | .error e t => _
  rw [EStateM.bind]
  cases run : m s with
  | ok a t =>
    rw [run] at first
    obtain ⟨regular, q, same, after⟩ := first
    have next := second a t q run regular after
    rw [Follows] at next
    rw [same]
    exact next
  | error e t =>
    rw [run] at first
    exact first

theorem Follows.mono {wider : α → Scan → Reading → Prop} (h : Follows size r m s post)
    (weaker : ∀ a t q, post a t q → wider a t q) : Follows size r m s wider := by
  rw [Follows] at h ⊢
  cases run : m s with
  | ok a t =>
    rw [run] at h
    obtain ⟨regular, q, same, after⟩ := h
    exact ⟨regular, q, same, weaker a t q after⟩
  | error e t =>
    rw [run] at h
    exact h

theorem Follows.congr (same : r.outcome s.cursor.rest = q.outcome s.cursor.rest)
    (h : Follows size q m s post) : Follows size r m s post := by
  rw [Follows] at h ⊢
  rw [same]
  exact h

theorem follows_pure {a : α} (regular : Regular size s) (after : post a s r) :
    Follows size r (pure a) s post :=
  Follows.of_ok rfl regular rfl after

theorem follows_position {g : Nat → ScanM β} (h : Follows size r (g s.cursor.position) s last) :
    Follows size r (position >>= g) s last := h

theorem follows_look {g : Option Char → ScanM β}
    (h : Follows size r (g s.cursor.rest.head?) s last) : Follows size r (look >>= g) s last := by
  rw [← Cursor.next?_eq_head?_rest] at h
  exact h

theorem follows_get {g : Scan → ScanM β} (h : Follows size r (g s) s last) :
    Follows size r (get >>= g) s last := h

theorem follows_checked {result : Except Fault α} {a : α} (found : result = .ok a)
    (h : Follows size r (f a) s last) : Follows size r (checked result >>= f) s last := by
  subst found
  exact h

theorem follows_reject {cause : Cause} (regular : Regular size s)
    (stopped : (r.outcome s.cursor.rest).StoppedWith ⟨cause, s.cursor.position, s.line⟩
      s.tokens.toList) :
    Follows size r (reject cause) s post :=
  Follows.of_error rfl regular stopped

theorem Regular.of_cursor (regular : Regular size s) {cursor : Cursor} {line : LineMark}
    (source : cursor.source = s.cursor.source) (bound : cursor.bound = s.cursor.bound) :
    Regular size { s with cursor, line } :=
  ⟨by rw [← regular.size_eq, ← source], by
    change Offset.Fits cursor.bound cursor.source.size
    rw [source, bound]
    exact regular.room, regular.journal_eq⟩

def push (s : Scan) (token : Token) : Scan :=
  { s with tokens := s.tokens.push token, journal := s.journal.push (.emitted token) }

theorem Regular.push (regular : Regular size s) (token : Token) : Regular size (s.push token) :=
  ⟨regular.size_eq, regular.room, by
    simp only [Scan.push, Array.toList_push, List.map_append, List.map_cons, List.map_nil,
      regular.journal_eq]⟩

theorem push_tokens_ne (s : Scan) (token : Token) : (s.push token).tokens ≠ #[] :=
  Array.push_ne_empty

theorem reading_push {start length : Nat} (reaches : start + length = s.cursor.position)
    (kind : Token.Kind) (value : Option String) (stage : Reading.Stage) (depth : Nat) :
    (s.push ⟨kind, value, s.line, ⟨start, s.cursor.position, by omega⟩⟩).reading stage depth =
      (s.reading stage depth).emit kind value start length := by
  simp [reading, Scan.push, Reading.emit, reaches]

theorem bind_of_ok {a : α} (run : m s = .ok a t) : (m >>= f) s = f a t := by
  change EStateM.bind m f s = _
  rw [EStateM.bind]
  rw [run]

theorem move_of_ok {operation : Cursor → Except Fault (α × Cursor)} {a : α} {cursor : Cursor}
    (h : operation s.cursor = .ok (a, cursor)) : move operation s = .ok a { s with cursor } :=
  move_eq_ok_iff.mpr ⟨cursor, h, rfl⟩

theorem emitFrom_of_le {start : Nat} (le : start ≤ s.cursor.position) (kind : Token.Kind)
    (value : Option String) :
    emitFrom kind value start s =
      .ok () (s.push ⟨kind, value, s.line, ⟨start, s.cursor.position, le⟩⟩) := by
  rw [emitFrom]
  rw [position_bind, bind_of_ok (a := ⟨start, s.cursor.position, le⟩) (t := s)]
  · rfl
  · simp only [checked, Span.make, le, dif_pos]

/-! ## Filler -/

theorem passFiller_follows (regular : Regular size s) {stage : Reading.Stage}
    (passes : stage = .ready ∨ stage = .settled) (depth : Nat) :
    Follows size (s.reading stage depth) passFiller s fun _ t q =>
      q = t.reading stage depth ∧ Clear t ∧ t.tokens = s.tokens ∧
        ∃ gap, (∀ c ∈ gap, isFiller c = true) ∧ s.cursor.rest = gap ++ t.cursor.rest := by
  obtain ⟨gap, d, run, split, filler, clear, source, bound, position⟩ :=
    Cursor.takeRun_of_room regular.room isFiller
  have ahead : s.cursor.ahead gap.length = gap := by
    rw [Cursor.ahead_eq, split, List.take_left]
  have passed : passFiller s = .ok () { s with
      cursor := d, line := s.line.past s.cursor.position gap } := by
    simp only [passFiller, run, ahead]
  refine Follows.of_ok passed (regular.of_cursor source bound) ?_ ⟨rfl, clear, rfl, gap, filler, split⟩
  rw [split, Reading.outcome, Reading.along_append, Reading.along_filler passes filler]
  simp only [reading, Reading.outcome, position]

/-! ## Runs of numerals -/

/-- From `s` to `t` a word of numerals was taken, and no more than that. -/
structure Taken (s t : Scan) (word : List Char) : Prop where
  numerals : ∀ c ∈ word, isNumeral c = true
  rest_eq : s.cursor.rest = word ++ t.cursor.rest
  source_eq : t.cursor.source = s.cursor.source
  position_eq : t.cursor.position = s.cursor.position + word.length
  tokens_eq : t.tokens = s.tokens
  ends : Reading.EndsRun t.cursor.rest ∨ word = [] ∧ t.cursor.rest.head? = some closeMark

theorem Taken.outcome_eq {word : List Char} (taken : Taken s t word) (line : t.line = s.line)
    (kind : Token.Kind) (depth : Nat) :
    (s.reading (.counting kind []) depth).outcome s.cursor.rest =
      (t.reading (.counting kind word.reverse) depth).outcome t.cursor.rest := by
  have counting : (s.reading (.counting kind []) depth).stage = .counting kind [] := rfl
  rw [taken.rest_eq, Reading.outcome, Reading.along_append,
    Reading.along_numerals counting taken.numerals]
  simp only [reading, Reading.outcome, List.append_nil, taken.position_eq, taken.tokens_eq, line]

/-- The run stays as it is: it is empty, or what comes behind it is not the close mark. -/
theorem Taken.whole {run text : List Char} {c : Char} {d : Cursor}
    (numerals : ∀ a ∈ run, isNumeral a = true) (split : s.cursor.rest = run ++ d.rest)
    (source : d.source = s.cursor.source) (position : d.position = s.cursor.position + run.length)
    (ahead : d.rest = c :: text) (other : isNumeral c = false)
    (kept : ¬ (c = closeMark ∧ 0 < run.length)) : Taken s { s with cursor := d } run := by
  refine ⟨numerals, split, source, position, rfl, ?_⟩
  rw [ahead]
  by_cases mark : c = closeMark
  · have none : ¬ 0 < run.length := fun some => kept ⟨mark, some⟩
    exact .inr ⟨List.length_eq_zero_iff.mp (by omega), by rw [mark]; rfl⟩
  · exact .inl (.mark other mark)

/-- The last numeral of the run is given back to the close mark behind it. -/
theorem Taken.exists_shorter {run text : List Char} {d : Cursor}
    (numerals : ∀ a ∈ run, isNumeral a = true) (split : s.cursor.rest = run ++ d.rest)
    (source : d.source = s.cursor.source) (position : d.position = s.cursor.position + run.length)
    (ahead : d.rest = closeMark :: text) (something : 0 < run.length) :
    ∃ word e, d.giveBack = .ok ((), e) ∧ e.bound = d.bound ∧
      Taken s { s with cursor := e } word := by
  obtain ⟨word, last, rfl⟩ : ∃ word last, run = word ++ [last] := by
    rcases List.eq_nil_or_concat run with rfl | ⟨word, last, rfl⟩
    · exact absurd something (Nat.lt_irrefl 0)
    · exact ⟨word, last, List.concat_eq_append⟩
  rw [List.append_assoc, List.singleton_append] at split
  rw [List.length_append, List.length_singleton] at position
  obtain ⟨e, back, backSource, backBound, backPosition, backRest⟩ :=
    Cursor.giveBack_of_passed source position split
  refine ⟨word, e, back, backBound, ?_, by rw [split, backRest], backSource, backPosition, rfl, ?_⟩
  · exact fun a ha => numerals a (List.mem_append_left _ ha)
  · rw [backRest, ahead]
    exact .inl (.bracket (numerals last (List.mem_append_right _ List.mem_cons_self)))

theorem outcome_unfinished {run : List Char} (split : s.cursor.rest = run)
    (numerals : ∀ a ∈ run, isNumeral a = true) (kind : Token.Kind) (depth : Nat) :
    ((s.reading (.counting kind []) depth).outcome s.cursor.rest).StoppedWith
      ⟨.unfinishedNumerals kind, s.cursor.position + run.length, s.line⟩ s.tokens.toList := by
  rw [split, Reading.outcome, Reading.along_numerals rfl numerals]
  exact ⟨rfl, rfl⟩

theorem takeNumerals_of_end {kind : Token.Kind} {count : Nat} {d : Cursor}
    (moved : s.cursor.takeRun isNumeral = .ok (count, d)) (ahead : d.rest = []) :
    takeNumerals kind s = reject (.unfinishedNumerals kind) { s with cursor := d } := by
  rw [takeNumerals]
  rw [bind_of_ok (move_of_ok moved), look_bind, Cursor.next?_eq_head?_rest, ahead]
  rfl

theorem takeNumerals_of_next {kind : Token.Kind} {count : Nat} {d : Cursor} {c : Char}
    {text : List Char} (moved : s.cursor.takeRun isNumeral = .ok (count, d))
    (ahead : d.rest = c :: text) :
    takeNumerals kind s = (if c = closeMark ∧ 0 < count then move Cursor.giveBack else pure ())
      { s with cursor := d } := by
  rw [takeNumerals]
  rw [bind_of_ok (move_of_ok moved), look_bind, Cursor.next?_eq_head?_rest, ahead]
  rfl

theorem takeNumerals_follows (regular : Regular size s) (kind : Token.Kind) (depth : Nat) :
    Follows size (s.reading (.counting kind []) depth) (takeNumerals kind) s fun _ t q =>
      ∃ word, q = t.reading (.counting kind word.reverse) depth ∧ Taken s t word := by
  obtain ⟨run, d, moved, split, numerals, stops, source, bound, position⟩ :=
    Cursor.takeRun_of_room regular.room isNumeral
  have after : Regular size { s with cursor := d } := regular.of_cursor source bound
  cases ahead : d.rest with
  | nil =>
    rw [ahead, List.append_nil] at split
    refine Follows.of_error (takeNumerals_of_end moved ahead) after ?_
    rw [position]
    exact outcome_unfinished split numerals kind depth
  | cons c text =>
    have other : isNumeral c = false := stops c (by rw [ahead]; rfl)
    have step : takeNumerals kind s = _ := takeNumerals_of_next moved ahead
    split at step
    · rename_i marked
      obtain ⟨rfl, something⟩ := marked
      obtain ⟨word, e, back, backBound, taken⟩ :=
        Taken.exists_shorter numerals split source position ahead something
      exact Follows.of_ok (step.trans (move_of_ok back))
        (regular.of_cursor taken.source_eq (backBound.trans bound))
        (taken.outcome_eq rfl kind depth) ⟨word, rfl, taken⟩
    · rename_i kept
      have taken := Taken.whole numerals split source position ahead other kept
      exact Follows.of_ok step after (taken.outcome_eq rfl kind depth) ⟨run, rfl, taken⟩

/-- A token of this kind needs no numeral here, or finds one. -/
def Sure (kind : Token.Kind) (text : List Char) : Prop :=
  kind = .operator ∨ ∃ c rest, text = c :: rest ∧ isNumeral c = true ∧ rest.head? ≠ some closeMark

theorem Taken.missing (taken : Taken s t []) :
    ∃ c text, t.cursor.rest = c :: text ∧
      (isNumeral c = false ∨ isNumeral c = true ∧ text.head? = some closeMark) := by
  rcases taken.ends with ends | ⟨_, mark⟩
  · cases h : t.cursor.rest with
    | nil =>
      rw [h] at ends
      cases ends
    | cons c text =>
      rw [h] at ends
      cases ends with
      | mark other => exact ⟨c, text, rfl, .inl other⟩
      | bracket numeral => exact ⟨c, _, rfl, .inr ⟨numeral, rfl⟩⟩
  · obtain ⟨text, h⟩ := List.head?_eq_some_iff.mp mark
    exact ⟨closeMark, text, h, .inl (by decide)⟩

theorem Taken.missing_operator (taken : Taken s t []) {kind : Token.Kind}
    (sure : Sure kind s.cursor.rest) : kind = .operator := by
  rcases sure with operator | ⟨c, rest, ahead, numeral, unmarked⟩
  · exact operator
  · obtain ⟨d, text, found, missing⟩ := taken.missing
    rw [taken.rest_eq, List.nil_append, found] at ahead
    cases ahead
    rcases missing with other | ⟨_, marked⟩
    · rw [numeral] at other
      cases other
    · exact absurd marked unmarked

theorem outcome_missing {c : Char} {text : List Char} (ahead : s.cursor.rest = c :: text)
    (missing : isNumeral c = false ∨ isNumeral c = true ∧ text.head? = some closeMark)
    (depth : Nat) :
    ((s.reading (.counting .operator []) depth).outcome s.cursor.rest).StoppedWith
      ⟨.missingNumerals .operator s.cursor.rest.head?, s.cursor.position, s.line⟩
      s.tokens.toList := by
  rw [ahead, List.head?_cons]
  rcases missing with other | ⟨numeral, marked⟩
  · rw [Reading.outcome_cons, Reading.feed_missing rfl other]
    exact Reading.outcome_stoppedWith rfl text
  · obtain ⟨text, rfl⟩ := List.head?_eq_some_iff.mp marked
    rw [Reading.outcome_cons, Reading.outcome_cons, Reading.feed_missing_closeMark rfl numeral]
    exact Reading.outcome_stoppedWith rfl text

theorem Taken.slice_eq {word : List Char} (taken : Taken s t word)
    (le : s.cursor.position ≤ t.cursor.position) :
    Span.slice ⟨s.cursor.position, t.cursor.position, le⟩ t.cursor.source =
      .ok (String.ofList word) := by
  refine Span.slice_eq_ok_iff.mpr ⟨t.cursor.position_le, congrArg String.ofList ?_⟩
  have ahead := s.cursor.ahead_eq word.length
  rw [taken.rest_eq, List.take_left, Cursor.ahead, ← taken.position_eq, ← taken.source_eq] at ahead
  exact ahead.symm

theorem numerals_follows (regular : Regular size s) (kind : Token.Kind) (depth : Nat)
    (sure : Sure kind s.cursor.rest) :
    Follows size (s.reading (.counting kind []) depth) (numerals kind) s fun _ t q =>
      q = t.reading (.behindRun kind depth) depth ∧ t.tokens ≠ #[] := by
  rw [numerals]
  apply follows_position
  refine (takeNumerals_follows regular kind depth).bind ?_
  rintro _ t q - regular ⟨word, rfl, taken⟩
  apply follows_position
  have reaches := taken.position_eq
  have le : s.cursor.position ≤ t.cursor.position := by omega
  by_cases empty : word = []
  · subst empty
    have stays : t.cursor.position = s.cursor.position := reaches
    rw [if_pos stays]
    apply follows_look
    obtain rfl := taken.missing_operator sure
    obtain ⟨c, text, ahead, missing⟩ := taken.missing
    exact follows_reject regular (outcome_missing ahead missing depth)
  · have something : 0 < word.length := List.length_pos_iff.mpr empty
    rw [if_neg (by omega)]
    apply follows_checked (a := ⟨s.cursor.position, t.cursor.position, le⟩)
    · exact Span.make_eq_ok_iff.mpr ⟨rfl, rfl⟩
    apply follows_get
    apply follows_checked (taken.slice_eq le)
    refine Follows.of_ok (emitFrom_of_le le kind _) (regular.push _) ?_ ⟨rfl, push_tokens_ne t _⟩
    have ends : Reading.EndsRun t.cursor.rest :=
      taken.ends.resolve_right fun none => empty none.1
    have nonempty : word.reverse ≠ [] := List.reverse_ne_nil_iff.mpr empty
    have start : s.cursor.position + word.length = t.cursor.position := reaches.symm
    rw [Reading.outcome, Reading.along_endRun rfl nonempty ends, reading_push start]
    have before : t.cursor.position - word.length = s.cursor.position := by omega
    simp only [Reading.outcome, Reading.endRun, reading, List.reverse_reverse, List.length_reverse,
      before]
    rfl

/-! ## Brackets -/

/-- From `s` to `t` the cursor moved over this character. -/
structure Stepped (s t : Scan) (c : Char) : Prop where
  rest_eq : s.cursor.rest = c :: t.cursor.rest
  position_eq : t.cursor.position = s.cursor.position + 1
  line_eq : t.line = s.line
  tokens_eq : t.tokens = s.tokens

theorem takeIf_follows (regular : Regular size s) (expected : Char) :
    Follows size r (move (Cursor.takeIf expected)) s fun found t q =>
      found = true ∧ q = r.feed expected ∧ Stepped s t expected ∨
        found = false ∧ q = r ∧ t = s ∧ s.cursor.rest.head? ≠ some expected := by
  by_cases h : s.cursor.rest.head? = some expected
  · obtain ⟨text, ahead⟩ := List.head?_eq_some_iff.mp h
    obtain ⟨d, moved, source, bound, position, rest⟩ :=
      Cursor.takeIf_of_found regular.room ahead
    have stepped : Stepped s { s with cursor := d } expected :=
      ⟨by rw [ahead, rest], position, rfl, rfl⟩
    refine Follows.of_ok (move_of_ok moved) (regular.of_cursor source bound) ?_
      (.inl ⟨rfl, rfl, stepped⟩)
    rw [stepped.rest_eq, Reading.outcome_cons]
  · exact Follows.of_ok (move_of_ok (Cursor.takeIf_of_other h)) regular rfl
      (.inr ⟨rfl, rfl, rfl, h⟩)

theorem require_follows (regular : Regular size s) {expected : Char}
    (other : s.cursor.rest.head? ≠ some expected → (r.outcome s.cursor.rest).StoppedWith
      ⟨.wrongCharacter expected s.cursor.rest.head?, s.cursor.position, s.line⟩ s.tokens.toList) :
    Follows size r (require expected) s fun _ t q => q = r.feed expected ∧ Stepped s t expected := by
  rw [require]
  refine (takeIf_follows regular expected).bind ?_
  rintro found t q - regular (⟨rfl, rfl, stepped⟩ | ⟨rfl, rfl, rfl, missing⟩)
  · exact follows_pure regular ⟨rfl, stepped⟩
  · apply follows_look
    exact follows_reject regular (other missing)

theorem openBracket_follows (regular : Regular size s) (depth : Nat) {text : List Char}
    (ahead : s.cursor.rest = Vocabulary.openBracket :: text) :
    Follows size (s.reading .ready depth) openBracket s fun _ t q =>
      q = t.reading (.counting .operator []) (depth + 1) := by
  rw [openBracket]
  apply follows_position
  refine (require_follows regular fun h => absurd (by rw [ahead]; rfl) h).bind ?_
  rintro _ t q - regular ⟨rfl, stepped⟩
  have reaches : s.cursor.position + 1 = t.cursor.position := stepped.position_eq.symm
  refine Follows.of_ok (emitFrom_of_le (by omega) _ _) (regular.push _) ?_ rfl
  rw [Reading.feed_openBracket rfl, reading_push reaches]
  simp only [reading, reaches, stepped.line_eq, stepped.tokens_eq]
  rfl

theorem requireNext_follows (regular : Regular size s) (expected next : Char) (further : List Char)
    (depth : Nat) :
    Follows size (s.reading (.closing expected (next :: further)) depth) (require expected) s
      fun _ t q => q = t.reading (.closing next further) depth ∧
        t.cursor.position = s.cursor.position + 1 := by
  refine (require_follows regular fun h => Reading.outcome_closing_of_other rfl h).mono ?_
  rintro _ t q ⟨rfl, stepped⟩
  refine ⟨?_, stepped.position_eq⟩
  rw [Reading.feed_closing_next rfl]
  simp only [reading, stepped.position_eq, stepped.line_eq, stepped.tokens_eq]

theorem requireLast_follows (regular : Regular size s) (expected : Char) (outer : Nat) :
    Follows size (s.reading (.closing expected []) (outer + 1)) (require expected) s fun _ t q =>
      q = (t.reading (.behind outer) outer).emit .closeBracket none (s.cursor.position - 3) 4 ∧
        t.cursor.position = s.cursor.position + 1 := by
  refine (require_follows regular fun h => Reading.outcome_closing_of_other rfl h).mono ?_
  rintro _ t q ⟨rfl, stepped⟩
  refine ⟨?_, stepped.position_eq⟩
  rw [Reading.feed_closing_last rfl]
  simp only [reading, stepped.position_eq, stepped.line_eq, stepped.tokens_eq, Nat.add_sub_cancel]

theorem requireFirst_follows (regular : Regular size s) {stage : Reading.Stage} {depth : Nat}
    (links : (s.reading stage depth).Links s.cursor.rest)
    (noSeparator : s.cursor.rest.head? ≠ some separator) :
    Follows size (s.reading stage depth) (require 'の') s fun _ t q =>
      q = t.reading (.closing 'う' ['ち', '。']) depth ∧
        t.cursor.position = s.cursor.position + 1 := by
  refine (require_follows regular fun h => links.outcome_of_other noSeparator h).mono ?_
  rintro _ t q ⟨rfl, stepped⟩
  refine ⟨?_, stepped.position_eq⟩
  rw [stepped.rest_eq] at links
  rw [links.feed_eq]
  simp only [Reading.link, reading, Reading.moveTo, stepped.position_eq, stepped.line_eq,
    stepped.tokens_eq]
  rfl

theorem closeBracket_follows (regular : Regular size s) {stage : Reading.Stage} {outer : Nat}
    (links : (s.reading stage (outer + 1)).Links s.cursor.rest)
    (noSeparator : s.cursor.rest.head? ≠ some separator) :
    Follows size (s.reading stage (outer + 1)) closeBracket s fun _ t q =>
      q = t.reading (.behind outer) outer ∧ t.tokens ≠ #[] := by
  have characters : Follows size (s.reading stage (outer + 1))
      (Vocabulary.closeBracket.forM require) s fun _ t q =>
        q = (t.reading (.behind outer) outer).emit .closeBracket none s.cursor.position 4 ∧
          s.cursor.position + 4 = t.cursor.position := by
    change Follows size _ (require 'の' >>= fun _ => require 'う' >>= fun _ =>
      require 'ち' >>= fun _ => require '。' >>= fun _ => pure ()) s _
    refine (requireFirst_follows regular links noSeparator).bind ?_
    rintro _ t₁ q - regular ⟨rfl, first⟩
    refine (requireNext_follows regular 'う' 'ち' ['。'] (outer + 1)).bind ?_
    rintro _ t₂ q - regular ⟨rfl, second⟩
    refine (requireNext_follows regular 'ち' '。' [] (outer + 1)).bind ?_
    rintro _ t₃ q - regular ⟨rfl, third⟩
    refine (requireLast_follows regular '。' outer).bind ?_
    rintro _ t₄ q - regular ⟨rfl, fourth⟩
    have start : t₃.cursor.position - 3 = s.cursor.position := by omega
    rw [start]
    exact follows_pure regular ⟨rfl, by omega⟩
  rw [closeBracket]
  apply follows_position
  refine characters.bind ?_
  rintro _ t q - regular ⟨rfl, reaches⟩
  refine Follows.of_ok (emitFrom_of_le (by omega) _ _) (regular.push _) ?_
    ⟨rfl, push_tokens_ne t _⟩
  rw [reading_push reaches]
  rfl

/-! ## Expressions -/

/-- Where a scan takes turns, inside as many brackets, or goes on outside of brackets. -/
def Between (depth : Nat) (s : Scan) (r : Reading) : Prop :=
  0 < depth ∧ r = s.reading .named depth ∨ r = s.reading (.behind depth) depth ∧ Clear s

theorem Between.links {outer : Nat} (h : Between (outer + 1) s r) : r.Links s.cursor.rest := by
  rcases h with ⟨_, rfl⟩ | ⟨rfl, clear⟩
  · exact .inl rfl
  · exact .inr ⟨rfl, clear⟩

theorem literal_follows (regular : Regular size s) (depth : Nat) {c : Char} {text : List Char}
    (ahead : s.cursor.rest = c :: text) (numeral : isNumeral c = true) :
    Follows size (s.reading .ready depth) (literal c) s fun _ t q =>
      t.tokens ≠ #[] ∧ Between depth t q := by
  rw [literal]
  apply follows_get
  apply follows_checked (Cursor.lookAhead_of_rest regular.room ahead)
  by_cases marked : text.head? = some closeMark
  · rw [if_pos marked]
    obtain ⟨text, rfl⟩ := List.head?_eq_some_iff.mp marked
    refine follows_reject regular ?_
    rw [ahead, Reading.outcome_cons, Reading.outcome_cons,
      Reading.feed_closeMark (.inr (.inl rfl)) numeral]
    exact Reading.outcome_stoppedWith rfl text
  · rw [if_neg marked]
    have same : (s.reading .ready depth).outcome s.cursor.rest =
        (s.reading (.counting .numberLiteral []) depth).outcome s.cursor.rest := by
      rw [ahead, Reading.outcome_cons, Reading.feed_numeral rfl numeral]
      rfl
    refine Follows.congr same ?_
    refine (numerals_follows regular .numberLiteral depth (.inr ⟨c, text, ahead, numeral, marked⟩)).bind ?_
    rintro _ t q - regular ⟨rfl, emitted⟩
    refine (passFiller_follows regular (Reading.behind_cases depth) depth).mono ?_
    rintro _ u q ⟨rfl, clear, tokens, _⟩
    exact ⟨by rw [tokens]; exact emitted, .inr ⟨rfl, clear⟩⟩

theorem compound_follows (regular : Regular size s) (depth : Nat) {text : List Char}
    (ahead : s.cursor.rest = Vocabulary.openBracket :: text) :
    Follows size (s.reading .ready depth)
      (openBracket >>= fun _ => numerals .operator >>= fun _ => pure true) s fun opened t q =>
        opened = true ∧ t.tokens ≠ #[] ∧ Between (depth + 1) t q := by
  refine (openBracket_follows regular depth ahead).bind ?_
  rintro _ t q - regular rfl
  refine (numerals_follows regular .operator (depth + 1) (.inl rfl)).bind ?_
  rintro _ u q - regular ⟨rfl, emitted⟩
  exact follows_pure regular ⟨rfl, emitted, .inl ⟨Nat.succ_pos depth, rfl⟩⟩

theorem endMark_follows (regular : Regular size s) (ahead : s.cursor.rest = [])
    (tokens : s.tokens = #[]) (something : 0 < size) :
    Follows size (s.reading .ready 0)
      (position >>= fun place => emit .endMark none (Span.empty place) >>= fun _ => pure false) s
      fun opened t q => opened = false ∧ t.tokens ≠ #[] ∧ Between 0 t q := by
  have length := Cursor.length_rest s.cursor
  have size_eq := regular.size_eq
  rw [ahead, List.length_nil, Cursor.remaining] at length
  have further : 0 < s.cursor.position := by omega
  have nothing : s.tokens.toList = [] := by rw [tokens]
  let token : Token := ⟨.endMark, none, s.line, Span.empty s.cursor.position⟩
  have step : (position >>= fun place => emit .endMark none (Span.empty place) >>= fun _ =>
      pure false) s = .ok false (s.push token) := rfl
  have clear : Clear (s.push token) := by
    intro c hc
    rw [show (s.push token).cursor.rest = [] from ahead] at hc
    cases hc
  refine Follows.of_ok step (regular.push token) ?_ ⟨rfl, push_tokens_ne s token, .inr ⟨rfl, clear⟩⟩
  rw [show (s.push token).cursor.rest = [] from ahead, ahead]
  simp [Reading.outcome, Reading.finish, reading, nothing, further, Scan.push, Reading.emit, token,
    Span.empty, Reading.Stage.behind]

/-- If only filler is ahead, it is all there is. -/
def Fresh (size : Nat) (s : Scan) : Prop :=
  (∀ c ∈ s.cursor.rest, isFiller c = true) → s.tokens = #[] ∧ 0 < size

theorem enter_follows (regular : Regular size s) {nested : Bool} {depth : Nat}
    (inside : nested = true ↔ 0 < depth) (fresh : nested = false → Fresh size s) :
    Follows size (s.reading .ready depth) (enter nested) s fun opened t q =>
      t.tokens ≠ #[] ∧ Between (if opened then depth + 1 else depth) t q := by
  rw [enter]
  refine (passFiller_follows regular (.inl rfl) depth).bind ?_
  rintro _ t q - regular ⟨rfl, clear, tokens, gap, filler, split⟩
  apply follows_look
  cases ahead : t.cursor.rest with
  | nil =>
    cases nested with
    | true =>
      have deep : 0 < depth := inside.mp rfl
      refine follows_reject regular ?_
      rw [ahead]
      exact ⟨by simp [Reading.outcome, Reading.finish, reading, deep, Reading.stop],
        by simp [Reading.outcome, Reading.finish, reading, deep, Reading.stop]⟩
    | false =>
      obtain rfl : depth = 0 := Nat.eq_zero_of_not_pos fun deep => Bool.noConfusion (inside.mpr deep)
      rw [ahead, List.append_nil] at split
      obtain ⟨none, something⟩ := fresh rfl (by rw [split]; exact filler)
      refine (endMark_follows regular ahead (tokens.trans none) something).mono ?_
      rintro _ u q ⟨rfl, after⟩
      exact after
  | cons c text =>
    have solid : isFiller c = false := clear c (by rw [ahead]; rfl)
    simp only [List.head?_cons]
    by_cases bracket : c = Vocabulary.openBracket
    · subst bracket
      rw [if_pos rfl]
      refine (compound_follows regular depth ahead).mono ?_
      rintro _ u q ⟨rfl, after⟩
      exact after
    · rw [if_neg bracket]
      by_cases numeral : isNumeral c = true
      · rw [if_pos numeral]
        refine (literal_follows regular depth ahead numeral).bind ?_
        rintro _ u q - regular ⟨emitted, between⟩
        exact follows_pure regular ⟨emitted, between⟩
      · rw [if_neg numeral]
        refine follows_reject regular ?_
        rw [ahead, Reading.outcome_cons, Reading.feed_of_ready rfl]
        simp only [Reading.enter, solid, bracket, numeral, Bool.false_eq_true, if_false]
        exact Reading.outcome_stoppedWith rfl text

/-! ## Nesting -/

theorem turn_follows (regular : Regular size s) {outer : Nat} (between : Between (outer + 1) s r) :
    Follows size r turn s fun turned t q => t.tokens ≠ #[] ∧ Between (turned.depth outer) t q := by
  have links := between.links
  obtain ⟨stage, rfl⟩ : ∃ stage, r = s.reading stage (outer + 1) := by
    rcases between with ⟨_, rfl⟩ | ⟨rfl, _⟩ <;> exact ⟨_, rfl⟩
  rw [turn]
  refine (takeIf_follows regular separator).bind ?_
  rintro found t q - regular (⟨rfl, rfl, stepped⟩ | ⟨rfl, rfl, rfl, missing⟩)
  · rw [stepped.rest_eq] at links
    have parameter : (s.reading stage (outer + 1)).feed separator = t.reading .ready (outer + 1) := by
      rw [links.feed_separator]
      simp only [reading, stepped.position_eq, stepped.line_eq, stepped.tokens_eq]
    rw [parameter]
    refine (enter_follows regular (by simp) fun h => Bool.noConfusion h).bind ?_
    rintro opened u q - regular ⟨emitted, between⟩
    cases opened with
    | true => exact follows_pure regular ⟨emitted, between⟩
    | false => exact follows_pure regular ⟨emitted, between⟩
  · refine (closeBracket_follows regular links missing).bind ?_
    rintro _ u q - regular ⟨rfl, emitted⟩
    refine (passFiller_follows regular (Reading.behind_cases outer) outer).bind ?_
    rintro _ v q - regular ⟨rfl, clear, tokens, _⟩
    exact follows_pure regular ⟨by rw [tokens]; exact emitted, .inr ⟨rfl, clear⟩⟩

def Done (s : Scan) (r : Reading) : Prop := s.tokens ≠ #[] ∧ r = s.reading .ready 0 ∧ Clear s

theorem Between.done (h : Between 0 s r) (emitted : s.tokens ≠ #[]) : Done s r := by
  rcases h with ⟨impossible, _⟩ | ⟨rfl, clear⟩
  · exact absurd impossible (Nat.lt_irrefl 0)
  · exact ⟨emitted, rfl, clear⟩

/-- The induction is on what is left of the text, of which every turn consumes something. -/
theorem closing_follows (depth : Nat) (s : Scan) (r : Reading) (regular : Regular size s)
    (emitted : s.tokens ≠ #[]) (between : Between depth s r) :
    Follows size r (closing depth) s fun _ t q => Done t q := by
  cases depth with
  | zero =>
    rw [closing_zero]
    exact follows_pure regular (between.done emitted)
  | succ outer =>
    rw [closing_succ]
    refine (turn_follows regular between).bind ?_
    intro turned t q run regular after
    have shorter : t.remaining < s.remaining := turn_consumes.remaining_lt run
    exact closing_follows (turned.depth outer) t q regular after.1 after.2
termination_by s.remaining

theorem expression_follows (regular : Regular size s) (fresh : Fresh size s) :
    Follows size (s.reading .ready 0) (expression false) s fun _ t q => Done t q := by
  rw [expression]
  refine (enter_follows regular (by simp) fun _ => fresh).bind ?_
  rintro opened t q - regular ⟨emitted, between⟩
  cases opened with
  | true => exact closing_follows 1 t q regular emitted between
  | false => exact follows_pure regular (between.done emitted)

/-! ## The whole text -/

theorem outermost_follows (regular : Regular size s) (fresh : Fresh size s) :
    Follows size (s.reading .ready 0) outermost s fun _ t q => Done t q := by
  rw [outermost]
  refine (passFiller_follows regular (.inl rfl) 0).bind ?_
  rintro _ t q - regular ⟨rfl, _, tokens, gap, filler, split⟩
  refine expression_follows regular fun filling => ?_
  rw [tokens]
  refine fresh fun c hc => ?_
  rw [split] at hc
  exact (List.mem_append.mp hc).elim (filler c) (filling c)

def Loop (s : Scan) : Prop := s.tokens = #[] ∧ s.cursor.position = 0 ∨ s.tokens ≠ #[] ∧ Clear s

theorem Loop.fresh (regular : Regular size s) (loop : Loop s)
    (unfinished : ¬ s.cursor.atEnd = true) : Fresh size s := by
  intro filling
  have ahead : s.cursor.rest ≠ [] := fun h => unfinished (s.cursor.atEnd_iff_rest_eq_nil.mpr h)
  rcases loop with ⟨tokens, start⟩ | ⟨_, clear⟩
  · refine ⟨tokens, ?_⟩
    have le := s.cursor.position_le
    have size_eq := regular.size_eq
    rw [Cursor.atEnd_iff] at unfinished
    omega
  · obtain ⟨c, text, h⟩ := List.exists_cons_of_ne_nil ahead
    have solid := clear c (by rw [h]; rfl)
    rw [filling c (by rw [h]; exact List.mem_cons_self)] at solid
    cases solid

theorem expressions_follows (s : Scan) (regular : Regular size s) (loop : Loop s) :
    Follows size (s.reading .ready 0) expressions s fun _ t q =>
      q = t.reading .ready 0 ∧ Loop t ∧ t.cursor.rest = [] := by
  by_cases finished : s.cursor.atEnd = true
  · have ahead := s.cursor.atEnd_iff_rest_eq_nil.mp finished
    exact Follows.of_ok (expressions_of_finished finished) regular rfl ⟨rfl, loop, ahead⟩
  · have first := outermost_follows regular (loop.fresh regular finished)
    rw [Follows]
    rw [expressions_of_unfinished finished]
    refine first.bind ?_
    rintro _ t q run regular ⟨emitted, rfl, clear⟩
    have shorter : t.remaining < s.remaining := outermost_remaining_lt finished run
    exact expressions_follows t regular (.inr ⟨emitted, clear⟩)
termination_by s.remaining

theorem reading_ofText (bound : Offset.Bound) (text : String) :
    (ofText bound text).reading .ready 0 = Reading.start := rfl

theorem regular_ofText {bound : Offset.Bound} {text : String}
    (room : Offset.Fits bound text.length) : Regular text.length (ofText bound text) := by
  have size_eq : (ofText bound text).cursor.source.size = text.length := by
    rw [← String.length_toList]
    rfl
  refine ⟨size_eq, ?_, rfl⟩
  rw [size_eq]
  exact room

theorem Loop.outcome_nil (loop : Loop s) :
    (s.reading .ready 0).outcome [] = s.reading .ready 0 := by
  have old : ¬ (s.tokens.toList = [] ∧ 0 < s.cursor.position) := by
    rintro ⟨tokens, further⟩
    rcases loop with ⟨_, start⟩ | ⟨emitted, _⟩
    · omega
    · exact emitted (Array.toList_eq_nil_iff.mp tokens)
  simp only [Reading.outcome, Reading.along_nil, Reading.finish, reading, Nat.lt_irrefl, old, if_false]

end Scan

theorem Lexing.ofText_eq {bound : Offset.Bound} {text : String}
    (room : Offset.Fits bound text.length) :
    Lexing.ofText bound text = (Reading.read text.toList).lexing := by
  have regular := Scan.regular_ofText room
  have follows := Scan.expressions_follows _ regular (.inl ⟨rfl, rfl⟩)
  rw [Scan.reading_ofText] at follows
  rw [Scan.Follows] at follows
  change Lexing.ofScan (EStateM.bind Scan.expressions (fun _ => Scan.conclude) _) = _
  rw [EStateM.bind]
  cases run : Scan.expressions (Scan.ofText bound text) with
  | ok a t =>
    rw [run] at follows
    obtain ⟨regular, q, same, rfl, loop, ahead⟩ := follows
    rw [ahead, loop.outcome_nil] at same
    have finished : (Reading.read text.toList).finish = t.reading .ready 0 := same
    have finish := Cursor.length_rest t.cursor
    have place := t.cursor.position_le
    rw [ahead, List.length_nil, Cursor.remaining] at finish
    have length : t.cursor.length = t.cursor.position := by
      rw [Cursor.length]
      omega
    have live : (Reading.read text.toList).finish.Live := by
      rw [finished]
      intro e stopped
      cases stopped
    rw [Reading.lexing_of_live live, finished]
    simp only [Lexing.ofScan, Scan.conclude, Scan.reading, Array.toList_push, regular.journal_eq,
      Array.length_toList, length]
  | error e t =>
    rw [run] at follows
    obtain ⟨regular, rejection, rfl, stopped⟩ := follows
    have finished : (Reading.read text.toList).finish.stage = .stopped rejection := stopped.stage_eq
    have tokens : (Reading.read text.toList).finish.tokens = t.tokens.toList := stopped.tokens_eq
    rw [Reading.lexing_of_stopped finished, tokens]
    simp only [Lexing.ofScan, regular.journal_eq]

theorem Lexing.ofText_unbounded (text : String) :
    Lexing.ofText Offset.unbounded text = (Reading.read text.toList).lexing :=
  Lexing.ofText_eq (Offset.fits_unbounded _)

theorem lex_eq (text : String) : lex text = (Reading.read text.toList).lexing.result := by
  rw [lex, Lexing.ofText_unbounded]

theorem lex_eq_ok_iff {text : String} {tokens : List Token} :
    lex text = .ok tokens ↔ (Reading.read text.toList).finish.Live ∧
      (Reading.read text.toList).finish.tokens = tokens := by
  rw [lex_eq, Reading.lexing_result_eq_ok_iff]

theorem lex_eq_error_iff {text : String} {e : Failure} :
    lex text = .error e ↔ ∃ rejection, e = .rejected rejection ∧
      (Reading.read text.toList).finish.stage = .stopped rejection := by
  rw [lex_eq, Reading.lexing_result_eq_error_iff]

end SumomoLexer
