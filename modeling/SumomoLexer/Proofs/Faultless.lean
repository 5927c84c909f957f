import SumomoLexer.Proofs.Caret

/-! # No faults

Offsets that are 64-bit words have room for every text of less than half as many characters. A lexing
that counts with them comes to the same as one without bound, so that no operation of it faults, and
what it leaves behind has its place in the text: every token has a column, and a rejection can be
drawn. Looking up a line mark counts offsets and lines as well, and has room for them, too.
-/
namespace SumomoLexer
open Vocabulary
set_option autoImplicit false

namespace LineMark

/-- The mark at `position`, found by counting from `offset` on, where a text with this mark begins.
Neither the lines nor the offsets may come to the bound. -/
def count (bound : Offset.Bound) (position : Nat) (mark : LineMark) (offset : Nat) :
    List Char → Except Fault LineMark
  | [] => .ok mark
  | c :: text =>
    if position ≤ offset then .ok mark
    else do
      let mark ←
        if isLineTerminator c then (Offset.addWithin bound mark.number 1).map (⟨·, offset⟩)
        else .ok mark
      let offset ← Offset.addWithin bound offset 1
      count bound position mark offset text

variable {bound : Offset.Bound}

/-- There are no more lines than characters, so that room for the offsets is enough. -/
theorem count_eq {position offset : Nat} {mark : LineMark} {text : List Char}
    (room : Offset.Fits bound (offset + text.length)) (few : mark.number ≤ offset) :
    count bound position mark offset text =
      .ok (mark.past offset (text.take (position - offset))) := by
  induction text generalizing mark offset with
  | nil =>
    rw [List.take_nil]
    rfl
  | cons c text ih =>
    rw [List.length_cons] at room
    rw [count]
    by_cases reached : position ≤ offset
    · rw [if_pos reached, Nat.sub_eq_zero_of_le reached]
      rfl
    · have next : position - offset = (position - (offset + 1)) + 1 := by omega
      have offsets : Offset.addWithin bound offset 1 = .ok (offset + 1) :=
        Offset.addWithin_eq_ok_iff.mpr ⟨room.mono (by omega), rfl⟩
      have lines : Offset.addWithin bound mark.number 1 = .ok (mark.number + 1) :=
        Offset.addWithin_eq_ok_iff.mpr ⟨room.mono (by omega), rfl⟩
      have goesOn {m : LineMark} (fewer : m.number ≤ offset + 1) :
          (Offset.addWithin bound offset 1 >>= fun offset => count bound position m offset text) =
            .ok (m.past (offset + 1) (text.take (position - (offset + 1)))) := by
        rw [offsets]
        exact ih (room.mono (by omega)) fewer
      rw [if_neg reached, next, List.take_succ_cons, past, lines]
      split
      · exact goesOn (Nat.succ_le_succ few)
      · exact goesOn (Nat.le_succ_of_le few)

theorem count_eq_find {text : String} (room : Offset.Fits bound text.length) (position : Nat) :
    count bound position first 0 text.toList = .ok (find text position) := by
  rw [← String.length_toList] at room
  rw [count_eq (by rwa [Nat.zero_add]) (Nat.le_refl 0), find_eq_before]
  rfl

end LineMark

/-- The lexing comes to no fault, nor does placing what it gives in this text. -/
structure Lexing.Faultless (l : Lexing) (text : String) : Prop where
  answered : ∀ f, l.result ≠ .error (.fault f)
  lines : ∀ tokens characters lines, .scanned tokens characters lines ∈ l.journal →
    Offset.Fits Offset.word lines
  tokens : ∀ tokens, l.result = .ok tokens →
    ∀ t ∈ tokens, ∃ column, t.line.column t.range.start = .ok column
  rejection : ∀ e, l.result = .error (.rejected e) →
    ∃ column shown, e.diagnostic.column = .ok column ∧ e.diagnostic.Draws text shown

variable {text : String} {bytes : List UInt8}

theorem lex_token_column {tokens : List Token} (h : lex text = .ok tokens) {t : Token}
    (member : t ∈ tokens) : ∃ column, t.line.column t.range.start = .ok column := by
  obtain ⟨column, _, here, -⟩ := find_pointsTo (lex_token_start_le h member)
  rw [← lex_token_line h member] at here
  exact ⟨column, here⟩

theorem PlacedIn.drawn {e : Rejection} (placed : PlacedIn text e)
    (room : Offset.Fits Offset.word text.length) :
    ∃ column shown, e.diagnostic.column = .ok column ∧ e.diagnostic.Draws text shown := by
  obtain ⟨column, _, here, -⟩ := find_pointsTo placed.position_le
  rw [← placed.line] at here
  exact ⟨column, _, here, draws_layout here (room.mono placed.number_lt) text⟩

theorem LineMark.before_number_le (text : List Char) (position : Nat) :
    (LineMark.before text position).number ≤ text.length := by
  rw [before, past_number]
  calc
    first.number + (text.take position).countP isLineTerminator
    _ = (text.take position).countP isLineTerminator := Nat.zero_add _
    _ ≤ text.countP isLineTerminator := (List.take_sublist _ _).countP_le
    _ ≤ text.length := List.countP_le_length

theorem Reading.finish_number_le {text : List Char} (live : (read text).finish.Live) :
    (read text).finish.line.number ≤ text.length := by
  rw [finish_line live]
  exact LineMark.before_number_le text _

/-- Only at the end of a text that lexes the lines are noted. -/
theorem Reading.scanned_lines_le {text : List Char} {tokens characters lines : Nat}
    (h : .scanned tokens characters lines ∈ (read text).lexing.journal) :
    lines ≤ text.length + 1 := by
  rcases (read text).finish.live_or_stopped with live | ⟨e, stopped⟩
  · rw [lexing_of_live live] at h
    rcases List.mem_append.mp h with emitted | last
    · obtain ⟨_, -, impossible⟩ := List.mem_map.mp emitted
      cases impossible
    · cases List.mem_singleton.mp last
      exact Nat.succ_le_succ (finish_number_le live)
  · rw [lexing_of_stopped stopped] at h
    obtain ⟨_, -, impossible⟩ := List.mem_map.mp h
    cases impossible

/-! ## Texts -/

theorem Lexing.ofText_faultless (room : Offset.Fits Offset.word (text.length + 1)) :
    (Lexing.ofText Offset.word text).Faultless text := by
  have offsets : Offset.Fits Offset.word text.length := room.mono (Nat.le_succ _)
  have same : (Lexing.ofText Offset.word text).result = lex text := by
    rw [Lexing.ofText_eq offsets, lex_eq]
  constructor
  · intro f fault
    obtain ⟨_, impossible, -⟩ := lex_error_line (same.symm.trans fault)
    cases impossible
  · intro tokens characters lines noted
    rw [Lexing.ofText_eq offsets] at noted
    have le := Reading.scanned_lines_le noted
    rw [String.length_toList] at le
    exact room.mono le
  · intro tokens ok t member
    exact lex_token_column (same.symm.trans ok) member
  · intro e error
    exact (lex_error_placed (same.symm.trans error)).drawn offsets

/-! ## Bytes -/

theorem Utf8.decode_length_le (bytes : List UInt8) : (decode bytes).1.length ≤ bytes.length := by
  obtain ⟨more, lenient, -⟩ := lossy_eq bytes
  have length := congrArg List.length lenient
  rw [List.length_append, String.length_toList, String.length_toList] at length
  exact Nat.le_trans (Nat.le.intro length.symm) (length_lossy_le bytes)

theorem Lexing.ofBytes_eq_unbounded (room : Offset.Fits Offset.word bytes.length) :
    Lexing.ofBytes Offset.word bytes = Lexing.ofBytes Offset.unbounded bytes := by
  have shorter := room.mono (Utf8.decode_length_le bytes)
  unfold Lexing.ofBytes
  rcases decoded : Utf8.decode bytes with ⟨text, none | defect⟩
  · rw [decoded] at shorter
    exact (Lexing.ofText_eq shorter).trans (Lexing.ofText_unbounded text).symm
  · rfl

theorem Utf8.lossy_of_decode (h : decode bytes = (text, none)) : lossy bytes = text := by
  obtain ⟨more, lenient, whole⟩ := lossy_eq bytes
  rw [h] at lenient whole
  rw [whole rfl, List.append_nil] at lenient
  exact String.toList_inj.mp lenient

theorem Lexing.ofBytes_faultless (room : Offset.Fits Offset.word (bytes.length + 1)) :
    (Lexing.ofBytes Offset.word bytes).Faultless (Utf8.lossy bytes) := by
  have shorter := Utf8.decode_length_le bytes
  rcases decoded : Utf8.decode bytes with ⟨text, none | defect⟩
  · rw [decoded] at shorter
    rw [Utf8.lossy_of_decode decoded, Lexing.ofBytes, decoded]
    exact Lexing.ofText_faultless (room.mono (Nat.succ_le_succ shorter))
  · have given : Lexing.ofBytes Offset.word bytes =
        ⟨.error (.rejected (.ofDefect text defect)), [], []⟩ := by rw [Lexing.ofBytes, decoded]
    obtain ⟨_, ⟨⟩, placed⟩ := lexBytes_error_placed (lexBytes_of_defect decoded)
    rw [given]
    constructor
    · intro _ fault
      cases fault
    · intro _ _ _ noted
      cases noted
    · intro _ ok
      cases ok
    · rintro _ ⟨⟩
      have lenient := Nat.le_trans (Utf8.length_lossy_le bytes) (Nat.le_succ _)
      exact placed.drawn (room.mono lenient)

theorem fits_succ_of_addressable {n : Nat} (h : n < Nat.pow 2 63) :
    Offset.Fits Offset.word (n + 1) := by
  have half : Nat.pow 2 63 < Offset.wordBound := by decide
  rw [Offset.fits_word_iff]
  omega

/-- Counting with words, lexing a text or bytes comes to what it comes to without bound, and to no
fault; nor does the search for any line mark in the text, or in what of the bytes can be decoded. -/
theorem lexing_faultless :
    (∀ text : String, text.length < Nat.pow 2 63 →
      Lexing.ofText Offset.word text = Lexing.ofText Offset.unbounded text ∧
      (Lexing.ofText Offset.word text).Faultless text ∧
      ∀ position, LineMark.count Offset.word position .first 0 text.toList =
        .ok (LineMark.find text position)) ∧
    ∀ bytes : List UInt8, bytes.length < Nat.pow 2 63 →
      Lexing.ofBytes Offset.word bytes = Lexing.ofBytes Offset.unbounded bytes ∧
      (Lexing.ofBytes Offset.word bytes).Faultless (Utf8.lossy bytes) ∧
      ∀ position, LineMark.count Offset.word position .first 0 (Utf8.decode bytes).1.toList =
        .ok (LineMark.find (Utf8.decode bytes).1 position) := by
  constructor
  · intro text addressable
    have room := fits_succ_of_addressable addressable
    have offsets := room.mono (Nat.le_succ _)
    refine ⟨?_, Lexing.ofText_faultless room, LineMark.count_eq_find offsets⟩
    rw [Lexing.ofText_eq offsets, Lexing.ofText_unbounded]
  · intro bytes addressable
    have room := fits_succ_of_addressable addressable
    have offsets := room.mono (Nat.le_succ _)
    exact ⟨Lexing.ofBytes_eq_unbounded offsets, Lexing.ofBytes_faultless room,
      LineMark.count_eq_find (offsets.mono (Utf8.decode_length_le bytes))⟩

/-- A text on whose second line a numeral is given back, and bytes that end within a character. -/
theorem lexing_faultless_of_give_back :
    ("\nすももう".length < Nat.pow 2 63 ∧ ∃ e shown,
      (Lexing.ofText Offset.word "\nすももう").result = .error (.rejected e) ∧ e.position = 3 ∧
        e.diagnostic.column = .ok 2 ∧ e.diagnostic.Draws "\nすももう" shown ∧
        LineMark.count Offset.word 3 .first 0 "\nすももう".toList = .ok e.line) ∧
    ([0x0A, 0xE3, 0x81] : List UInt8).length < Nat.pow 2 63 ∧
      (Lexing.ofBytes Offset.word [0x0A, 0xE3, 0x81]).Faultless "\n\uFFFD" := by
  obtain ⟨same, faultless, count⟩ := lexing_faultless.1 "\nすももう" (by decide)
  have run : (Lexing.ofText Offset.word "\nすももう").result =
      .error (.rejected ⟨.wrongCharacter 'の' (some 'も'), 3, ⟨1, 0⟩⟩) := by
    rw [same]
    decide +kernel
  obtain ⟨column, shown, here, drawn⟩ := faultless.rejection _ run
  have lenient : Utf8.lossy [0x0A, 0xE3, 0x81] = "\n\uFFFD" := by decide +kernel
  have bytes := (lexing_faultless.2 [0x0A, 0xE3, 0x81] (by decide)).2.1
  rw [lenient] at bytes
  exact ⟨⟨by decide, _, shown, run, rfl, rfl, drawn, count 3⟩, by decide, bytes⟩

end SumomoLexer
