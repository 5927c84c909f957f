import SumomoLexer.Proofs.Decoding
import SumomoLexer.Proofs.Lines
import SumomoLexer.Proofs.Reading.Brackets
import SumomoLexer.Proofs.Reading.OfScan
import SumomoLexer.Proofs.Reading.Stop

/-! # Line marks of tokens and rejections

The mark that a reading keeps is the one of its position, and also of every position since the token
began that it is in, because only filler contains terminators. A token, or a rejection in front of a
numeral that was read already, therefore gets the mark that is found from its position.
-/
namespace SumomoLexer
open Vocabulary
set_option autoImplicit false

namespace Reading

/-- Where the token began that is being read; outside of tokens the position. -/
def origin (r : Reading) : Nat :=
  match r.stage with
  | .counting _ taken => r.position - taken.length
  | .closing _ further => r.position - (3 - further.length)
  | _ => r.position

def Placed (text : List Char) (t : Token) : Prop :=
  t.range.start ≤ text.length ∧ t.line = LineMark.before text t.range.start

structure Tracks (text : List Char) (r : Reading) : Prop where
  position_eq : r.position = text.length
  line_eq : r.Live → ∀ k, r.origin ≤ k → k ≤ text.length → r.line = LineMark.before text k
  placed : ∀ t ∈ r.tokens, Placed text t
  rejection : ∀ e, r.stage = .stopped e →
    e.position ≤ text.length ∧ e.line = LineMark.before text e.position

variable {r b q : Reading} {c : Char} {text : List Char} {kind : Token.Kind} {taken : List Char}

theorem origin_le (r : Reading) : r.origin ≤ r.position := by
  unfold origin
  split
  · exact Nat.sub_le _ _
  · exact Nat.sub_le _ _
  · exact Nat.le_refl _

theorem origin_of_counting (h : r.stage = .counting kind taken) :
    r.origin = r.position - taken.length := by
  rw [origin, h]

theorem origin_of_closing {expected : Char} {further : List Char}
    (h : r.stage = .closing expected further) :
    r.origin = r.position - (3 - further.length) := by
  rw [origin, h]

theorem origin_of_outside (h : r.stage = .named ∨ r.stage = .ready ∨ r.stage = .settled) :
    r.origin = r.position := by
  rcases h with h | h | h <;> rw [origin, h]

theorem Placed.append {t : Token} (h : Placed text t) (more : List Char) :
    Placed (text ++ more) t := by
  constructor
  · rw [List.length_append]
    exact Nat.le_trans h.1 (Nat.le_add_right _ _)
  · rw [LineMark.before_append h.1]
    exact h.2

theorem start_tracks : Tracks [] start := by
  refine ⟨rfl, ?_, nofun, nofun⟩
  intro _ k _ le
  rw [Nat.le_zero.mp le]
  rfl

namespace Tracks

variable (h : Tracks text r)
include h

theorem origin_le_length : r.origin ≤ text.length := by
  rw [← h.position_eq]
  exact r.origin_le

theorem push {t : Token} {tokens : List Token} (live : r.Live)
    (old : ∀ u ∈ tokens, Placed text u) (line : t.line = r.line)
    (since : r.origin ≤ t.range.start) (le : t.range.start ≤ text.length) :
    ∀ u ∈ tokens ++ [t], Placed text u := by
  intro u hu
  rcases List.mem_append.mp hu with earlier | last
  · exact old u earlier
  · rw [List.mem_singleton.mp last]
    exact ⟨le, line.trans (h.line_eq live _ since le)⟩

theorem behind (live : r.Live) (behind : r.Behind b) : ∀ t ∈ b.tokens, Placed text t := by
  cases behind with
  | self => exact h.placed
  | run stage =>
    have since := origin_of_counting stage
    have le := h.origin_le_length
    rw [since] at le
    exact h.push live h.placed rfl (Nat.le_of_eq since) le

theorem behind_unread {last : Char} (stage : r.stage = .counting kind (last :: taken))
    (behind : (r.unread kind taken).Behind b) : ∀ t ∈ b.tokens, Placed text t := by
  have live : r.Live := live_of_stage stage trivial
  cases behind with
  | self => exact h.placed
  | run counting =>
    cases counting
    have same : r.origin = r.position - 1 - taken.length := by
      rw [origin_of_counting stage, List.length_cons]
      omega
    have le := h.origin_le_length
    rw [same] at le
    exact h.push live h.placed rfl (Nat.le_of_eq same) le

theorem line_eq_next (live : r.Live) (solid : isLineTerminator c = false) {k : Nat}
    (since : r.origin ≤ k) (le : k ≤ text.length + 1) :
    r.line = LineMark.before (text ++ [c]) k := by
  rcases Nat.lt_or_eq_of_le le with inside | last
  · have within : k ≤ text.length := Nat.le_of_lt_succ inside
    rw [LineMark.before_append within]
    exact h.line_eq live k since within
  · rw [last, LineMark.before_snoc, LineMark.past_of_not_terminator solid]
    exact h.line_eq live _ h.origin_le_length (Nat.le_refl _)

theorem next (live : r.Live) (solid : isLineTerminator c = false)
    (position : q.position = r.position + 1) (line : q.line = r.line)
    (since : r.origin ≤ q.origin) (placed : ∀ t ∈ q.tokens, Placed text t)
    (goes : q.Live) : Tracks (text ++ [c]) q := by
  have length : (text ++ [c]).length = text.length + 1 := List.length_append
  refine ⟨?_, ?_, ?_, ?_⟩
  · rw [position, length, h.position_eq]
  · intro _ k ge le
    rw [length] at le
    rw [line]
    exact h.line_eq_next live solid (Nat.le_trans since ge) le
  · exact fun t ht => (placed t ht).append [c]
  · exact fun e stopped => absurd stopped (goes e)

theorem next_stopped (live : r.Live) {e : Rejection} (stage : q.stage = .stopped e)
    (position : q.position = r.position + 1) (line : e.line = r.line)
    (since : r.origin ≤ e.position) (le : e.position ≤ r.position)
    (placed : ∀ t ∈ q.tokens, Placed text t) : Tracks (text ++ [c]) q := by
  have length : (text ++ [c]).length = text.length + 1 := List.length_append
  rw [h.position_eq] at le
  refine ⟨?_, ?_, ?_, ?_⟩
  · rw [position, length, h.position_eq]
  · exact fun alive => absurd stage (alive e)
  · exact fun t ht => (placed t ht).append [c]
  · intro f stopped
    cases stage.symm.trans stopped
    rw [length, LineMark.before_append le, line]
    exact ⟨Nat.le_succ_of_le le, h.line_eq live _ since le⟩

end Tracks

theorem not_terminator_of_numeral (h : isNumeral c = true) : isLineTerminator c = false := by
  rcases (isNumeral_iff c).mp h with rfl | rfl <;> decide

theorem not_terminator_of_bracket (h : c ∈ closeBracket) : isLineTerminator c = false := by
  simp only [closeBracket, List.mem_cons, List.not_mem_nil, or_false] at h
  rcases h with rfl | rfl | rfl | rfl <;> decide

/-- Only filler moves the mark, and then no token has begun. -/
theorem Tracks.next_filler (h : Tracks text r) (behind : r.Behind b)
    (stage : b.stage = .ready ∨ b.stage = .settled) :
    Tracks (text ++ [c]) ((b.pass c).moveTo (r.position + 1)) := by
  have length : (text ++ [c]).length = text.length + 1 := List.length_append
  have goes : b.Live := by
    rcases stage with stage | stage <;> exact live_of_stage stage trivial
  have outside : ((b.pass c).moveTo (r.position + 1)).origin = r.position + 1 :=
    origin_of_outside (.inr stage)
  have live := behind.live goes
  refine ⟨?_, ?_, ?_, ?_⟩
  · rw [length, ← h.position_eq]
    rfl
  · intro _ k since le
    rw [outside, h.position_eq] at since
    rw [length] at le
    rw [Nat.le_antisymm le since, LineMark.before_snoc, ← h.line_eq live _ h.origin_le_length
      (Nat.le_refl _), ← h.position_eq, ← behind.position_eq, ← behind.line_eq]
    rfl
  · exact fun t ht => (h.behind live behind t ht).append [c]
  · exact fun e stopped => absurd stopped (goes e)

theorem Tracks.step (h : Tracks text r) (sound : r.Sound) (step : r.Step c q) :
    Tracks (text ++ [c]) q := by
  have here := h.position_eq
  cases step with
  | numeral stage numeral =>
    refine h.next (live_of_stage stage trivial) (not_terminator_of_numeral numeral) rfl rfl ?_
      h.placed (live_of_stage rfl trivial)
    rw [origin_of_counting stage, origin_of_counting rfl, List.length_cons]
    exact Nat.le_of_eq (Nat.add_sub_add_right _ _ _).symm
  | literal stage numeral =>
    exact h.next (live_of_stage stage trivial) (not_terminator_of_numeral numeral) rfl rfl r.origin_le
      h.placed (live_of_stage rfl trivial)
  | filler behind stage => exact h.next_filler behind stage
  | @openBracket b behind stage opens =>
    have live := behind.live (live_of_stage stage trivial)
    have since : r.origin ≤ r.position + 1 := Nat.le_succ_of_le r.origin_le
    have placed := h.behind live behind
    subst opens
    refine h.next live (by decide) rfl behind.line_eq since ?_ (live_of_stage rfl trivial)
    exact h.push live placed behind.line_eq r.origin_le (Nat.le_of_eq here)
  | separator behind stage separates =>
    have goes := stage.elim (fun h => live_of_stage h trivial) (fun h => live_of_stage h trivial)
    have live := behind.live goes
    have since : r.origin ≤ r.position + 1 := Nat.le_succ_of_le r.origin_le
    have placed := h.behind live behind
    subst separates
    exact h.next live (by decide) rfl behind.line_eq since placed (live_of_stage rfl trivial)
  | bracket stage begins =>
    have live := stage.elim (fun h => live_of_stage h trivial) (fun h => live_of_stage h trivial)
    subst begins
    exact h.next live (by decide) rfl rfl r.origin_le h.placed (live_of_stage rfl trivial)
  | givenBack stage something inside mark =>
    have placed := h.behind_unread stage (.run rfl something)
    subst mark
    refine h.next (live_of_stage stage trivial) (by decide) rfl rfl ?_ placed
      (live_of_stage rfl trivial)
    rw [origin_of_counting stage, origin_of_closing rfl, List.length_cons, List.length_singleton]
    change r.position - (_ + 1) ≤ r.position + 1 - (3 - 1)
    omega
  | @closing next further stage =>
    -- What a close bracket goes on with is part of it, hence no terminator.
    have solid := not_terminator_of_bracket ((sound.bracket _ _ stage).subset List.mem_cons_self)
    refine h.next (live_of_stage stage trivial) solid rfl rfl ?_ h.placed (live_of_stage rfl trivial)
    rw [origin_of_closing stage, origin_of_closing rfl, List.length_cons]
    change _ ≤ r.position + 1 - (3 - further.length)
    omega
  | closed stage =>
    -- The token begins three characters back, where the bracket did.
    have live : r.Live := live_of_stage stage trivial
    have solid := not_terminator_of_bracket ((sound.bracket _ _ stage).subset List.mem_cons_self)
    have begun : r.origin = r.position - 3 := origin_of_closing stage
    have inside : r.position - 3 ≤ text.length := by omega
    have outside := behind_cases (r.depth - 1)
    refine h.next live solid rfl rfl ?_ ?_ ?_
    · refine Nat.le_trans (Nat.le_succ_of_le r.origin_le) (Nat.le_of_eq ?_)
      symm
      apply origin_of_outside
      exact .inr outside
    · exact h.push live h.placed rfl (Nat.le_of_eq begun) inside
    · rcases outside with outside | outside <;> exact live_of_stage outside trivial
  | stop cause live behind =>
    have placed := h.behind live behind
    exact h.next_stopped live rfl rfl behind.line_eq r.origin_le (Nat.le_refl _) placed
  | @stopBefore b kind last taken cause stage behind =>
    -- The position is that of the last numeral, which lies behind where the run began.
    have placed := h.behind_unread stage behind
    refine h.next_stopped (live_of_stage stage trivial) rfl rfl behind.line_eq ?_ (Nat.sub_le _ _)
      placed
    change r.origin ≤ r.position - 1
    rw [origin_of_counting stage, List.length_cons]
    omega
  | @dead e stopped =>
    refine ⟨?_, fun live => absurd stopped (live e), ?_, ?_⟩
    · rw [List.length_append, ← here]
      rfl
    · exact fun t ht => (h.placed t ht).append [c]
    · intro f same
      have ⟨le, line⟩ := h.rejection f same
      rw [LineMark.before_append le, List.length_append]
      exact ⟨Nat.le_add_right_of_le le, line⟩

theorem read_tracks (text : List Char) : Tracks text (read text) := by
  apply read_induction start_tracks
  rintro text _ q c rfl h step
  exact h.step (read_sound text) step

theorem finish_line {text : List Char} (live : (read text).finish.Live) :
    (read text).finish.line = LineMark.before text text.length := by
  obtain ⟨stage, top⟩ := ready_of_live live
  have tracks := read_tracks text
  rw [finish_of_ready stage top, ← tracks.line_eq (live_of_stage stage trivial) _
    tracks.origin_le_length (Nat.le_refl _)]
  split <;> rfl

theorem Tracks.finish_placed (h : Tracks text r) : ∀ t ∈ r.finish.tokens, Placed text t := by
  cases stage : r.stage with
  | ready =>
    simp only [finish, stage]
    split
    · exact h.placed
    · split
      · exact h.push (live_of_stage stage trivial) h.placed rfl r.origin_le (Nat.le_of_eq h.position_eq)
      · exact h.placed
  | counting | named | settled | closing | stopped =>
    simp only [finish, stage]
    exact h.placed

theorem Tracks.finish_rejection (h : Tracks text r) {e : Rejection}
    (stopped : r.finish.stage = .stopped e) :
    e.position ≤ text.length ∧ e.line = LineMark.before text e.position := by
  rcases r.live_or_stopped with live | ⟨f, before⟩
  · obtain ⟨position, line, -⟩ := finish_stopped_of_live live stopped
    have here := h.position_eq
    rw [position, line, here]
    exact ⟨Nat.le_refl _, h.line_eq live _ h.origin_le_length (Nat.le_refl _)⟩
  · rw [finish_of_stopped before] at stopped
    exact h.rejection e stopped

end Reading

theorem lex_token_start_le {text : String} {tokens : List Token} (h : lex text = .ok tokens)
    {t : Token} (member : t ∈ tokens) : t.range.start ≤ text.length := by
  obtain ⟨-, rfl⟩ := lex_eq_ok_iff.mp h
  rw [← String.length_toList]
  exact ((Reading.read_tracks text.toList).finish_placed t member).1

theorem lex_token_line {text : String} {tokens : List Token} (h : lex text = .ok tokens)
    {t : Token} (member : t ∈ tokens) : t.line = LineMark.find text t.range.start := by
  obtain ⟨-, rfl⟩ := lex_eq_ok_iff.mp h
  rw [LineMark.find_eq_before]
  exact ((Reading.read_tracks text.toList).finish_placed t member).2

theorem lex_error_line {text : String} {failure : Failure} (h : lex text = .error failure) :
    ∃ e, failure = .rejected e ∧ e.position ≤ text.length ∧
      e.line = LineMark.find text e.position := by
  obtain ⟨e, rfl, stopped⟩ := lex_eq_error_iff.mp h
  refine ⟨e, rfl, ?_⟩
  rw [LineMark.find_eq_before, ← String.length_toList]
  exact (Reading.read_tracks text.toList).finish_rejection stopped

theorem lexBytes_of_decode {bytes : List UInt8} {text : String}
    (h : Utf8.decode bytes = (text, none)) : lexBytes bytes = lex text := by
  rw [lexBytes, Lexing.ofBytes, h]
  rfl

theorem lexBytes_of_defect {bytes : List UInt8} {readable : String} {defect : Utf8.Defect}
    (h : Utf8.decode bytes = (readable, some defect)) :
    lexBytes bytes = .error (.rejected (.ofDefect readable defect)) := by
  rw [lexBytes, Lexing.ofBytes, h]

/-- Tokens and rejections carry the mark that is found in the text from their position alone, also
the rejection of bytes that cannot be decoded. -/
theorem lexBytes_lines (bytes : List UInt8) :
    match lexBytes bytes with
    | .ok tokens => ∃ text, Utf8.decode bytes = (text, none) ∧
        ∀ t ∈ tokens, t.line = LineMark.find text t.range.start
    | .error failure => ∃ e, failure = .rejected e ∧ e.position ≤ (Utf8.lossy bytes).length ∧
        e.line = LineMark.find (Utf8.lossy bytes) e.position := by
  obtain ⟨more, lenient, whole⟩ := Utf8.lossy_eq bytes
  rcases decoded : Utf8.decode bytes with ⟨text, none | defect⟩
  · rw [decoded, whole (by rw [decoded]), List.append_nil] at lenient
    rw [lexBytes_of_decode decoded, String.toList_inj.mp lenient]
    cases run : lex text with
    | ok tokens => exact ⟨text, rfl, fun t member => lex_token_line run member⟩
    | error failure => exact lex_error_line run
  · rw [decoded] at lenient
    rw [lexBytes_of_defect decoded]
    refine ⟨_, rfl, ?_, ?_⟩
    · rw [← String.length_toList, lenient, List.length_append, String.length_toList]
      exact Nat.le_add_right _ _
    · rw [LineMark.find_eq_before, lenient, Rejection.ofDefect, LineMark.find_eq_before]
      exact (LineMark.before_append (Nat.le_of_eq String.length_toList.symm) more).symm

/-- A literal on a second line, and there a byte that no character begins with. -/
theorem lexBytes_lines_of_second_line :
    (∃ t text, lexBytes [0x0A, 0xE3, 0x82, 0x82, 0x20] = .ok [t] ∧ t.value = some "も" ∧
      t.range.start = 1 ∧ t.line = ⟨1, 0⟩ ∧
      Utf8.decode [0x0A, 0xE3, 0x82, 0x82, 0x20] = (text, none) ∧
      t.line = LineMark.find text 1) ∧
    ∃ e, lexBytes [0xE3, 0x82, 0x82, 0x0A, 0xFF] = .error (.rejected e) ∧
      e.position = 2 ∧ e.line = ⟨1, 1⟩ ∧
      e.line = LineMark.find (Utf8.lossy [0xE3, 0x82, 0x82, 0x0A, 0xFF]) 2 := by
  have literal : lexBytes [0x0A, 0xE3, 0x82, 0x82, 0x20] =
      .ok [⟨.numberLiteral, some "も", ⟨1, 0⟩, ⟨1, 2, by decide⟩⟩] := by decide +kernel
  have defect : lexBytes [0xE3, 0x82, 0x82, 0x0A, 0xFF] =
      .error (.rejected ⟨.undecodable ⟨4, 1, false⟩, 2, ⟨1, 1⟩⟩) := by decide +kernel
  have token := lexBytes_lines [0x0A, 0xE3, 0x82, 0x82, 0x20]
  have rejection := lexBytes_lines [0xE3, 0x82, 0x82, 0x0A, 0xFF]
  rw [literal] at token
  rw [defect] at rejection
  obtain ⟨text, decoded, lines⟩ := token
  obtain ⟨e, same, -, line⟩ := rejection
  cases same
  constructor
  · exact ⟨_, text, literal, rfl, rfl, rfl, decoded, lines _ List.mem_cons_self⟩
  · exact ⟨_, defect, rfl, rfl, line⟩

end SumomoLexer
