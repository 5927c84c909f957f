import SumomoLexer.Cursor.Rest
import SumomoLexer.Vocabulary

/-! # Cursors as zippers

A zipper is a text cut in two: the characters that have been passed and those still ahead. It has no
offsets and no bound, and every request has an answer. A cursor on a text of which 64-bit words can count
the characters twice over answers as the zipper at its place does. Two requests are the exception, since
the cursor has no answer to them: to give back where nothing has been passed, and to look ahead past the
last offset that there is.
-/
namespace SumomoLexer
open Cursor (Request Answer)
open Vocabulary
set_option autoImplicit false

structure Zipper where
  /-- The characters that have been passed, last first. -/
  passed : List Char
  ahead : List Char
deriving DecidableEq, Repr

namespace Zipper

def ofText (text : List Char) : Zipper := ⟨[], text⟩

def text (z : Zipper) : List Char := z.passed.reverse ++ z.ahead

/-- Moves over the next character, if there is one. -/
def forward : Zipper → Zipper
  | ⟨passed, c :: ahead⟩ => ⟨c :: passed, ahead⟩
  | ⟨passed, []⟩ => ⟨passed, []⟩

/-- Moves back over the last character, if there is one. -/
def back : Zipper → Zipper
  | ⟨c :: passed, ahead⟩ => ⟨passed, c :: ahead⟩
  | ⟨[], ahead⟩ => ⟨[], ahead⟩

/-- Moves over the longest run of characters ahead that have the property. -/
def forwardRun (p : Char → Bool) (z : Zipper) : Zipper :=
  ⟨(z.ahead.takeWhile p).reverse ++ z.passed, z.ahead.dropWhile p⟩

def next (z : Zipper) : Request → Zipper
  | .takeOne => z.forward
  | .giveBack => z.back
  | .takeIf expected => if z.ahead.head? = some expected then z.forward else z
  | .takeRun p => z.forwardRun p
  | .next? | .lookAhead _ | .length | .atEnd | .source => z

def answer (z : Zipper) : Request → Answer
  | .takeOne => .character z.ahead.head?
  | .next? => .character z.ahead.head?
  | .lookAhead n => .character z.ahead[n]?
  | .giveBack => .nothing
  | .takeIf expected => .truth (z.ahead.head? = some expected)
  | .takeRun p => .count (z.ahead.takeWhile p).length
  | .length => .count z.text.length
  | .atEnd => .truth z.ahead.isEmpty
  | .source => .text z.text

def after (z : Zipper) (requests : List Request) : Zipper := requests.foldl next z

variable {z : Zipper} {c : Char} {p : Char → Bool} {request : Request}

theorem text_forward (z : Zipper) : z.forward.text = z.text := by
  obtain ⟨passed, ahead⟩ := z
  cases ahead with
  | nil => rfl
  | cons c ahead => simp [forward, text]

theorem text_back (z : Zipper) : z.back.text = z.text := by
  obtain ⟨passed, ahead⟩ := z
  cases passed with
  | nil => rfl
  | cons c passed => simp [back, text]

theorem text_forwardRun (p : Char → Bool) (z : Zipper) : (z.forwardRun p).text = z.text := by
  simp only [forwardRun, text, List.reverse_append, List.reverse_reverse, List.append_assoc,
    List.takeWhile_append_dropWhile]

theorem length_passed_forward {ahead : List Char} (h : z.ahead = c :: ahead) :
    z.forward.passed.length = z.passed.length + 1 := by
  obtain ⟨passed, _⟩ := z
  cases h
  rfl

theorem length_passed_back {passed : List Char} (h : z.passed = c :: passed) :
    z.back.passed.length = z.passed.length - 1 := by
  obtain ⟨_, ahead⟩ := z
  cases h
  rfl

theorem length_passed_forwardRun (p : Char → Bool) (z : Zipper) :
    (z.forwardRun p).passed.length = z.passed.length + (z.ahead.takeWhile p).length := by
  rw [forwardRun, List.length_append, List.length_reverse, Nat.add_comm]

/-- The fault with which a cursor meets a request that it has no answer to. -/
def fault? (z : Zipper) : Request → Option Fault
  | .giveBack => if z.passed = [] then some .nothingToGiveBack else none
  | .lookAhead n => if Offset.wordBound ≤ z.passed.length + n then some .sumOverflow else none
  | _ => none

theorem fault?_eq_some_iff {f : Fault} :
    z.fault? request = some f ↔
      request = .giveBack ∧ z.passed = [] ∧ f = .nothingToGiveBack ∨
        ∃ n, request = .lookAhead n ∧ Offset.wordBound ≤ z.passed.length + n ∧
          f = .sumOverflow := by
  cases request with
  | giveBack => simp [fault?, eq_comm]
  | lookAhead n => simp [fault?, eq_comm]
  | _ => simp [fault?]

end Zipper

/-- The cursor stands in this text where the zipper cuts it. -/
structure Cursor.Shows (source : Array Char) (z : Zipper) (c : Cursor) : Prop where
  source_eq : c.source = source
  bound_eq : c.bound = Offset.word
  text_eq : z.text = source.toList
  position_eq : c.position = z.passed.length

namespace Cursor

variable {source : Array Char} {z y : Zipper} {c d : Cursor}

def after (c : Cursor) (requests : List Request) : Cursor :=
  requests.foldl (fun c request => (c.perform request).2) c

theorem shows_ofArray (source : Array Char) :
    Shows source (Zipper.ofText source.toList) (ofArray Offset.word source) := ⟨rfl, rfl, rfl, rfl⟩

theorem Shows.rest_eq (h : Shows source z c) : c.rest = z.ahead := by
  rw [rest, h.source_eq, ← h.text_eq, h.position_eq, ← List.length_reverse, Zipper.text,
    List.drop_left]

theorem Shows.moved (h : Shows source z c) (text : y.text = z.text) (from_source : d.source = c.source)
    (bound : d.bound = c.bound) (position : d.position = y.passed.length) : Shows source y d :=
  ⟨from_source.trans h.source_eq, bound.trans h.bound_eq, text.trans h.text_eq, position⟩

/-- Half of the words are offsets in the text, so that a place behind any character is a word. -/
theorem Shows.room (h : Shows source z c) (addressable : source.size < Nat.pow 2 63) {n : Nat}
    (le : n ≤ c.source.size) : Offset.Fits c.bound n := by
  have half : Nat.pow 2 63 < Offset.wordBound := by decide
  rw [h.source_eq] at le
  rw [h.bound_eq, Offset.fits_word_iff]
  omega

theorem takeOne_of_end (h : c.rest = []) : c.takeOne = .ok (none, c) := by
  have finished := c.atEnd_iff.mp (c.atEnd_iff_rest_eq_nil.mpr h)
  rw [takeOne, dif_neg (by omega)]

theorem takeOne_of_next {a : Char} {text : List Char} (h : c.rest = a :: text)
    (room : ∀ n ≤ c.source.size, Offset.Fits c.bound n) :
    ∃ d, c.takeOne = .ok (some a, d) ∧ d.source = c.source ∧ d.bound = c.bound ∧
      d.position = c.position + 1 := by
  have first : c.source[c.position]? = some a := by
    have head := c.next?_eq_head?_rest
    rwa [h] at head
  obtain ⟨inside, found⟩ := Array.getElem?_eq_some_iff.mp first
  have moved : c.advance 1 inside = .ok (c.moveTo (c.position + 1) inside) :=
    advance_eq_ok_iff.mpr ⟨room _ inside, rfl⟩
  refine ⟨c.moveTo (c.position + 1) inside, ?_, rfl, rfl, rfl⟩
  rw [takeOne, dif_pos inside, moved, found]
  rfl

theorem Shows.takeOne (h : Shows source z c) (addressable : source.size < Nat.pow 2 63) :
    ∃ d, c.takeOne = .ok (z.ahead.head?, d) ∧ Shows source z.forward d := by
  have rest := h.rest_eq
  cases ahead : z.ahead with
  | nil =>
    rw [ahead] at rest
    obtain ⟨passed, _⟩ := z
    cases ahead
    exact ⟨c, takeOne_of_end rest, h⟩
  | cons a text =>
    rw [ahead] at rest
    obtain ⟨d, taken, from_source, bound, position⟩ :=
      takeOne_of_next rest fun _ le => h.room addressable le
    refine ⟨d, taken, h.moved z.text_forward from_source bound ?_⟩
    rw [Zipper.length_passed_forward ahead, position, h.position_eq]

theorem Shows.giveBack {a : Char} {passed : List Char} (h : Shows source z c)
    (something : z.passed = a :: passed) :
    ∃ d, c.giveBack = .ok ((), d) ∧ Shows source z.back d := by
  have further : c.position ≠ 0 := by
    rw [h.position_eq, something]
    exact Nat.succ_ne_zero _
  have le := c.position_le
  refine ⟨c.moveTo (c.position - 1) (by omega), giveBack_eq_ok_iff.mpr ⟨further, rfl, rfl, rfl⟩, ?_⟩
  refine h.moved z.text_back rfl rfl ?_
  rw [Zipper.length_passed_back something, ← h.position_eq]
  rfl

theorem Shows.takeIf (h : Shows source z c) (addressable : source.size < Nat.pow 2 63)
    (expected : Char) :
    ∃ d, c.takeIf expected = .ok (decide (z.ahead.head? = some expected), d) ∧
      Shows source (z.next (.takeIf expected)) d := by
  have next : c.next? = z.ahead.head? := by rw [next?_eq_head?_rest, h.rest_eq]
  rw [Zipper.next]
  split
  · rename_i found
    obtain ⟨text, ahead⟩ := List.head?_eq_some_iff.mp found
    have inside : c.position + 1 ≤ c.source.size := by
      have length := c.length_rest
      rw [h.rest_eq, ahead, List.length_cons, remaining] at length
      omega
    refine ⟨c.moveTo (c.position + 1) inside, ?_, ?_⟩
    · rw [decide_eq_true found]
      exact takeIf_eq_true_iff.mpr ⟨next.trans found, h.room addressable inside, rfl, rfl, rfl⟩
    · refine h.moved z.text_forward rfl rfl ?_
      rw [Zipper.length_passed_forward ahead, ← h.position_eq]
      rfl
  · rename_i other
    refine ⟨c, ?_, h⟩
    rw [decide_eq_false other]
    exact takeIf_eq_false_iff.mpr ⟨by rwa [next], rfl⟩

theorem Shows.takeRun (h : Shows source z c) (addressable : source.size < Nat.pow 2 63)
    (p : Char → Bool) :
    ∃ d, c.takeRun p = .ok ((z.ahead.takeWhile p).length, d) ∧ Shows source (z.forwardRun p) d := by
  have inside := c.position_add_runLength_le p
  have length : c.runLength p = (z.ahead.takeWhile p).length := by rw [runLength_eq, h.rest_eq]
  refine ⟨c.moveTo (c.position + c.runLength p) inside, ?_, ?_⟩
  · rw [← length]
    exact takeRun_eq_ok_iff.mpr ⟨rfl, h.room addressable inside, rfl, rfl, rfl⟩
  · refine h.moved (z.text_forwardRun p) rfl rfl ?_
    rw [Zipper.length_passed_forwardRun, ← length, ← h.position_eq]
    rfl

/-! ## Requests -/

theorem perform_of_ok {request : Request} {answer : Answer}
    (h : c.step request = .ok (answer, d)) : c.perform request = (.ok answer, d) := by
  rw [perform, h]

theorem perform_of_error {request : Request} {f : Fault} (h : c.step request = .error f) :
    c.perform request = (.error f, c) := by
  rw [perform, h]

theorem Shows.step_of_fault {request : Request} {f : Fault} (h : Shows source z c)
    (fault : z.fault? request = some f) : c.step request = .error f ∧ z.next request = z := by
  rcases Zipper.fault?_eq_some_iff.mp fault with ⟨rfl, start, rfl⟩ | ⟨n, rfl, past, rfl⟩
  · have here : c.position = 0 := by rw [h.position_eq, start, List.length_nil]
    obtain ⟨_, ahead⟩ := z
    cases start
    refine ⟨?_, rfl⟩
    rw [step, Cursor.giveBack, if_pos here]
    rfl
  · have outside : ¬ Offset.Fits c.bound (c.position + n) := by
      rw [h.bound_eq, Offset.fits_word_iff, h.position_eq]
      omega
    refine ⟨?_, rfl⟩
    rw [step, lookAhead, Offset.addWithin, if_neg outside]
    rfl

theorem Shows.step_of_answer {request : Request} (h : Shows source z c)
    (addressable : source.size < Nat.pow 2 63) (answered : z.fault? request = none) :
    ∃ d, c.step request = .ok (z.answer request, d) ∧ Shows source (z.next request) d := by
  cases request with
  | takeOne =>
    obtain ⟨d, taken, shown⟩ := h.takeOne addressable
    exact ⟨d, by rw [step, taken]; rfl, shown⟩
  | next? => exact ⟨c, by rw [step, next?_eq_head?_rest, h.rest_eq]; rfl, h⟩
  | lookAhead n =>
    have room : Offset.Fits c.bound (c.position + n) := by
      rw [h.bound_eq, Offset.fits_word_iff, h.position_eq]
      simpa [Zipper.fault?] using answered
    have found : c.lookAhead n = .ok z.ahead[n]? :=
      lookAhead_eq_ok_iff.mpr ⟨room, by rw [h.rest_eq]⟩
    exact ⟨c, by rw [step, found]; rfl, h⟩
  | giveBack =>
    have something : z.passed ≠ [] := by simpa [Zipper.fault?] using answered
    obtain ⟨a, passed, last⟩ := List.exists_cons_of_ne_nil something
    obtain ⟨d, given, shown⟩ := h.giveBack last
    exact ⟨d, by rw [step, given]; rfl, shown⟩
  | takeIf expected =>
    obtain ⟨d, taken, shown⟩ := h.takeIf addressable expected
    exact ⟨d, by rw [step, taken]; rfl, shown⟩
  | takeRun p =>
    obtain ⟨d, taken, shown⟩ := h.takeRun addressable p
    exact ⟨d, by rw [step, taken]; rfl, shown⟩
  | length =>
    have length : c.length = z.text.length := by
      rw [Cursor.length, h.source_eq, h.text_eq, Array.length_toList]
    exact ⟨c, by rw [step, length]; rfl, h⟩
  | atEnd =>
    have ends : c.atEnd = z.ahead.isEmpty := by
      rw [Bool.eq_iff_iff, atEnd_iff_rest_eq_nil, h.rest_eq, List.isEmpty_iff]
    exact ⟨c, by rw [step, ends]; rfl, h⟩
  | source => exact ⟨c, by rw [step, h.source_eq, ← h.text_eq]; rfl, h⟩

theorem Shows.perform (h : Shows source z c) (addressable : source.size < Nat.pow 2 63)
    (request : Request) : Shows source (z.next request) (c.perform request).2 := by
  cases fault : z.fault? request with
  | none =>
    obtain ⟨d, stepped, shown⟩ := h.step_of_answer addressable fault
    rw [perform_of_ok stepped]
    exact shown
  | some f =>
    obtain ⟨stuck, stays⟩ := h.step_of_fault fault
    rw [perform_of_error stuck, stays]
    exact h

theorem Shows.after (h : Shows source z c) (addressable : source.size < Nat.pow 2 63)
    (requests : List Request) : Shows source (z.after requests) (c.after requests) := by
  induction requests generalizing z c with
  | nil => exact h
  | cons request requests ih => exact ih (h.perform addressable request)

theorem Shows.fault_iff {request : Request} {f : Fault} (h : Shows source z c)
    (addressable : source.size < Nat.pow 2 63) :
    (c.perform request).1 = .error f ↔ z.fault? request = some f := by
  constructor
  · intro failed
    cases fault : z.fault? request with
    | none =>
      obtain ⟨d, stepped, -⟩ := h.step_of_answer addressable fault
      rw [perform_of_ok stepped] at failed
      cases failed
    | some g =>
      rw [perform_of_error (h.step_of_fault fault).1] at failed
      cases failed
      rfl
  · intro fault
    rw [perform_of_error (h.step_of_fault fault).1]

theorem Shows.position_le (h : Shows source z c) : c.position ≤ source.size := by
  have le := c.position_le
  rwa [h.source_eq] at le

/-- After whatever requests, a cursor stands where the zipper cuts the text. It answers as the zipper
does, or has no answer and stays in its place. -/
theorem cursor_refines_zipper (source : Array Char) (addressable : source.size < Nat.pow 2 63)
    (requests : List Request) :
    let c := (ofArray Offset.word source).after requests
    let z := (Zipper.ofText source.toList).after requests
    c.source = source ∧ z.text = source.toList ∧ c.position ≤ source.size ∧
      c.position = z.passed.length ∧
      ∀ request,
        ((c.perform request).1 = .ok (z.answer request) ∨
          ∃ f, c.perform request = (.error f, c)) ∧
        ∀ f, (c.perform request).1 = .error f ↔
          request = .giveBack ∧ z.passed = [] ∧ f = .nothingToGiveBack ∨
            ∃ n, request = .lookAhead n ∧ Offset.wordBound ≤ z.passed.length + n ∧
              f = .sumOverflow := by
  intro c z
  have h : Shows source z c := (shows_ofArray source).after addressable requests
  refine ⟨h.source_eq, h.text_eq, h.position_le, h.position_eq, fun request => ⟨?_, ?_⟩⟩
  · cases fault : z.fault? request with
    | none =>
      obtain ⟨d, stepped, -⟩ := h.step_of_answer addressable fault
      rw [perform_of_ok stepped]
      exact .inl rfl
    | some f => exact .inr ⟨f, perform_of_error (h.step_of_fault fault).1⟩
  · intro f
    rw [h.fault_iff addressable, Zipper.fault?_eq_some_iff]

/-- A run is taken and its last character given back; what stands there is no separator. -/
theorem cursor_refines_zipper_of_give_back :
    let c := (ofArray Offset.word #['も', 'の', 'う']).after
      [.takeRun isNumeral, .giveBack, .takeIf separator, .lookAhead Offset.wordBound]
    c.position = 1 ∧ (c.perform .takeOne).1 = .ok (.character (some 'の')) ∧
      (c.perform (.lookAhead (Offset.wordBound - 1))).1 = .error .sumOverflow := by
  obtain ⟨-, -, -, position, here⟩ := cursor_refines_zipper #['も', 'の', 'う'] (by decide)
    [.takeRun isNumeral, .giveBack, .takeIf separator, .lookAhead Offset.wordBound]
  have passed : ((Zipper.ofText ['も', 'の', 'う']).after
      [.takeRun isNumeral, .giveBack, .takeIf separator, .lookAhead Offset.wordBound]).passed =
        ['も'] := by decide
  refine ⟨position, ?_, ?_⟩
  · obtain ⟨answered | ⟨f, failed⟩, fault⟩ := here .takeOne
    · exact answered
    · have impossible := (fault f).mp (congrArg Prod.fst failed)
      simp at impossible
  · apply ((here (.lookAhead (Offset.wordBound - 1))).2 _).mpr
    refine .inr ⟨_, rfl, ?_, rfl⟩
    rw [passed]
    decide

end Cursor
end SumomoLexer
