import SumomoLexer.Proofs.Reading.Parallel

/-! # Which filler a text has

Reading takes notice of where a gap is, but neither of what is in it nor of how long it is. Where
its first character is passed, the others are passed too, and where that one is not, the reading has
stopped. So two texts that have their gaps at the same places can be read side by side, gap for gap
and character for character between gaps. Both are at the seams of these pieces together, and only
there do tokens begin and end and do rejections lie.
-/
namespace SumomoLexer
open Vocabulary Grammar
set_option autoImplicit false

def endsInFiller (text : List Char) : Bool := text.getLast?.any isFiller

def startsWithFiller (text : List Char) : Bool := text.head?.any isFiller

/-- The character is the last one of a gap if this text comes next. -/
def endsGap (c : Char) (text : List Char) : Bool := isFiller c && !startsWithFiller text

/-- The text with a single blank for every gap. -/
def collapse : List Char → List Char
  | [] => []
  | c :: text =>
    if endsGap c text then ' ' :: collapse text
    else if isFiller c then collapse text
    else c :: collapse text

/-- The number of gaps that have come to their end at a position. -/
def gapsBefore : List Char → Nat → Nat
  | c :: text, position + 1 => (if endsGap c text then 1 else 0) + gapsBefore text position
  | _, _ => 0

def meaningfulBefore (text : List Char) (position : Nat) : Nat :=
  (text.take position).countP isMeaningful

/-- One gap goes on from the first text to the second. -/
def Cuts (text more : List Char) : Prop := endsInFiller text = true ∧ startsWithFiller more = true

def InsideGap (text : List Char) (position : Nat) : Prop :=
  Cuts (text.take position) (text.drop position)

instance (text more : List Char) : Decidable (Cuts text more) := inferInstanceAs (Decidable (_ ∧ _))

instance (text : List Char) (position : Nat) : Decidable (InsideGap text position) :=
  inferInstanceAs (Decidable (Cuts _ _))

variable {s t text more gap : List Char} {c d : Char} {p q : Nat}

/-! ## Texts put together -/

theorem Cuts.tail (h : Cuts text more) (c : Char) : Cuts (c :: text) more := by
  refine ⟨?_, h.2⟩
  cases text with
  | nil => cases h.1
  | cons d text =>
    rw [endsInFiller, List.getLast?_cons_cons]
    exact h.1

theorem not_cuts_of_solid (solid : isFiller c = false) : ¬ Cuts text (c :: more) := by
  intro cuts
  have filler : isFiller c = true := cuts.2
  rw [solid] at filler
  cases filler

theorem not_cuts_of_endsInFiller (h : endsInFiller text = false) : ¬ Cuts text more := by
  intro cuts
  have last := cuts.1
  rw [h] at last
  cases last

theorem not_cuts_nil : ¬ Cuts text [] := fun cuts => absurd cuts.2 Bool.false_ne_true

theorem endsGap_append (whole : ¬ Cuts (c :: text) more) :
    endsGap c (text ++ more) = endsGap c text := by
  cases text with
  | cons d text => rfl
  | nil =>
    cases filler : isFiller c with
    | false => simp only [endsGap, filler, Bool.false_and]
    | true =>
      have solid : startsWithFiller more = false := by
        rw [← Bool.not_eq_true]
        exact fun next => whole ⟨filler, next⟩
      rw [List.nil_append, endsGap, solid]
      rfl

theorem collapse_append (whole : ¬ Cuts text more) :
    collapse (text ++ more) = collapse text ++ collapse more := by
  induction text with
  | nil => rfl
  | cons c text ih =>
    rw [List.cons_append, collapse, collapse, endsGap_append whole,
      ih fun cuts => whole (cuts.tail c)]
    split
    · rfl
    · split
      · rfl
      · rfl

theorem gapsBefore_eq (outside : ¬ InsideGap text p) :
    gapsBefore text p = (collapse (text.take p)).count ' ' := by
  induction text generalizing p with
  | nil =>
    rw [List.take_nil]
    rfl
  | cons c text ih =>
    cases p with
    | zero => rfl
    | succ p =>
      have further : ¬ InsideGap text p := fun inside => outside (inside.tail c)
      have whole : ¬ Cuts (c :: text.take p) (text.drop p) := outside
      have same : endsGap c text = endsGap c (text.take p) := by
        rw [← endsGap_append whole, List.take_append_drop]
      rw [gapsBefore, List.take_succ_cons, collapse, ih further, same]
      split
      · rw [List.count_cons_self, Nat.add_comm]
      · split
        · rw [Nat.zero_add]
        · rename_i solid
          have other : c ≠ ' ' := by
            rintro rfl
            exact solid (by decide)
          rw [List.count_cons_of_ne other, Nat.zero_add]

example : InsideGap "も \nの".toList 2 ∧ ¬ InsideGap "も \nの".toList 3 ∧
    gapsBefore "も \nの".toList 3 = 1 := by decide

theorem countP_collapse (text : List Char) :
    (collapse text).countP isMeaningful = text.countP isMeaningful := by
  induction text with
  | nil => rfl
  | cons c text ih =>
    have filler (h : isFiller c = true) : isMeaningful c = false := by
      rw [isFiller] at h
      exact Bool.not_eq_eq_eq_not.mp h
    rw [collapse, List.countP_cons]
    split
    · rename_i ends
      have last := filler (Bool.and_eq_true_iff.mp ends).1
      rw [List.countP_cons, ih, last]
      rfl
    · split
      · rename_i within
        rw [ih, filler within]
        rfl
      · rw [List.countP_cons, ih]

theorem collapse_eq_nil_iff : collapse text = [] ↔ text = [] := by
  constructor
  · intro h
    induction text with
    | nil => rfl
    | cons c text ih =>
      rw [collapse] at h
      split at h
      · cases h
      · rename_i inside
        split at h
        · rename_i filler
          -- Filler that does not end a gap is not the last character.
          cases ih h
          exact absurd (by rw [endsGap, filler]; rfl) inside
        · cases h
  · rintro rfl
    rfl

theorem collapse_gap (isGap : IsGap gap) (something : gap ≠ []) : collapse gap = [' '] := by
  induction gap with
  | nil => exact absurd rfl something
  | cons c gap ih =>
    have filler := isGap c List.mem_cons_self
    have rest : IsGap gap := fun d hd => isGap d (List.mem_cons_of_mem c hd)
    cases gap with
    | nil =>
      simp only [collapse, endsGap, filler, startsWithFiller, List.head?_nil, Option.any_none,
        Bool.not_false, Bool.and_self, if_true]
    | cons d gap =>
      have goes : endsGap c (d :: gap) = false := by
        simp only [endsGap, startsWithFiller, List.head?_cons, Option.any_some,
          rest d List.mem_cons_self, Bool.not_true, Bool.and_false]
      rw [collapse, goes, if_neg Bool.false_ne_true, if_pos filler]
      exact ih rest (List.cons_ne_nil d gap)

/-! ## Texts that are alike -/

/-- The texts have the same characters between gaps, and their gaps at the same places. -/
inductive Alike : List Char → List Char → Prop
  | nil : Alike [] []
  | solid {s t : List Char} {c : Char} : Alike s t → isFiller c = false →
    Alike (s ++ [c]) (t ++ [c])
  | gap {s t : List Char} {c d : Char} {gap gap' : List Char} : Alike s t →
    endsInFiller s = false → endsInFiller t = false → IsGap (c :: gap) → IsGap (d :: gap') →
    Alike (s ++ c :: gap) (t ++ d :: gap')

theorem collapse_snoc_solid (solid : isFiller c = false) :
    collapse (text ++ [c]) = collapse text ++ [c] := by
  rw [collapse_append (not_cuts_of_solid solid)]
  simp only [collapse, endsGap, solid, Bool.false_and, Bool.false_eq_true, if_false]

theorem collapse_append_gap (apart : endsInFiller text = false) (isGap : IsGap (c :: gap)) :
    collapse (text ++ c :: gap) = collapse text ++ [' '] := by
  rw [collapse_append (not_cuts_of_endsInFiller apart), collapse_gap isGap (List.cons_ne_nil c gap)]

theorem exists_last_gap (text : List Char) :
    ∃ before gap, text = before ++ gap ∧ endsInFiller before = false ∧ IsGap gap := by
  induction text using List.reverseRecOn with
  | nil => exact ⟨[], [], rfl, rfl, isGap_nil⟩
  | append_singleton text c ih =>
    cases filler : isFiller c with
    | false =>
      refine ⟨text ++ [c], [], (List.append_nil _).symm, ?_, isGap_nil⟩
      rw [endsInFiller, List.getLast?_concat]
      exact filler
    | true =>
      obtain ⟨before, gap, rfl, apart, isGap⟩ := ih
      refine ⟨before, gap ++ [c], List.append_assoc _ _ _, apart, ?_⟩
      intro d hd
      rcases List.mem_append.mp hd with inner | last
      · exact isGap d inner
      · rw [List.mem_singleton.mp last]
        exact filler

/-- What a text was that collapses to a text with this last character. -/
theorem collapse_eq_snoc (h : collapse text = s ++ [c]) :
    (isFiller c = false ∧ ∃ before, text = before ++ [c] ∧ collapse before = s) ∨
      (isFiller c = true ∧ ∃ before d gap, text = before ++ d :: gap ∧
        endsInFiller before = false ∧ IsGap (d :: gap) ∧ collapse before = s) := by
  obtain ⟨before, gap, rfl, apart, isGap⟩ := exists_last_gap text
  cases gap with
  | cons d gap =>
    rw [collapse_append_gap apart isGap] at h
    obtain ⟨same, last⟩ := List.append_inj' h rfl
    cases last
    exact .inr ⟨by decide, before, d, gap, rfl, apart, isGap, same⟩
  | nil =>
    rw [List.append_nil] at h ⊢
    rcases List.eq_nil_or_concat before with rfl | ⟨earlier, d, rfl⟩
    · simp [collapse] at h
    · rw [List.concat_eq_append] at h apart ⊢
      have solid : isFiller d = false := by
        rwa [endsInFiller, List.getLast?_concat] at apart
      rw [collapse_snoc_solid solid] at h
      obtain ⟨same, last⟩ := List.append_inj' h rfl
      cases last
      exact .inl ⟨solid, earlier, rfl, same⟩

/-- The induction is on what both texts collapse to, from its end. -/
theorem alike_iff : Alike s t ↔ collapse s = collapse t := by
  constructor
  · intro alike
    induction alike with
    | nil => rfl
    | solid _ solid ih => rw [collapse_snoc_solid solid, collapse_snoc_solid solid, ih]
    | gap _ apart apart' isGap isGap' ih =>
      rw [collapse_append_gap apart isGap, collapse_append_gap apart' isGap', ih]
  · generalize common : collapse t = u
    intro same
    induction u using List.reverseRecOn generalizing s t with
    | nil =>
      rw [collapse_eq_nil_iff.mp same, collapse_eq_nil_iff.mp common]
      exact .nil
    | append_singleton u c ih =>
      rcases collapse_eq_snoc same with ⟨solid, before, rfl, first⟩ | ⟨filler, before, d, gap, rfl,
        apart, isGap, first⟩
      · rcases collapse_eq_snoc common with ⟨-, before', rfl, second⟩ | ⟨filler, -⟩
        · exact .solid (ih second first) solid
        · rw [solid] at filler
          cases filler
      · rcases collapse_eq_snoc common with ⟨solid, -⟩ | ⟨-, before', d', gap', rfl, apart', isGap',
          second⟩
        · rw [filler] at solid
          cases solid
        · exact .gap (ih second first) apart apart' isGap isGap'

/-- The positions are at seams and have the same in front of them. -/
structure Level (s t : List Char) (p q : Nat) : Prop where
  collapse_eq : collapse (s.take p) = collapse (t.take q)
  outside : ¬ InsideGap s p
  outside' : ¬ InsideGap t q

theorem Level.meaningful (h : Level s t p q) : meaningfulBefore s p = meaningfulBefore t q := by
  rw [meaningfulBefore, meaningfulBefore, ← countP_collapse, h.collapse_eq, countP_collapse]

theorem Level.gaps (h : Level s t p q) : gapsBefore s p = gapsBefore t q := by
  rw [gapsBefore_eq h.outside, gapsBefore_eq h.outside', h.collapse_eq]

theorem Alike.level {x y x' y' : List Char} (alike : Alike x y) (whole : ¬ Cuts x x')
    (whole' : ¬ Cuts y y') : Level (x ++ x') (y ++ y') x.length y.length := by
  refine ⟨?_, ?_, ?_⟩
  · rw [List.take_left, List.take_left]
    exact alike_iff.mp alike
  · rwa [InsideGap, List.take_left, List.drop_left]
  · rwa [InsideGap, List.take_left, List.drop_left]

/-! ## Reading them side by side -/

namespace Reading

variable {m : Matching} {base : List Token} {r r' : Reading}

/-- Filler changes nothing any more. -/
def Idle (r : Reading) : Prop :=
  r.stage = .ready ∨ r.stage = .settled ∨ ∃ e, r.stage = .stopped e

theorem Step.idle {q : Reading} (step : r.Step c q) (sound : r.Sound) (filler : isFiller c = true) :
    q.Idle := by
  have other {d : Char} (solid : isFiller d = false) : c ≠ d := ne_of_isFiller filler solid
  cases step with
  | numeral _ numeral | literal _ numeral =>
    rw [isNumeral_of_isFiller filler] at numeral
    cases numeral
  | filler _ stage => exact stage.imp_right .inl
  | openBracket _ _ opens => exact absurd opens (other (by decide))
  | separator _ _ separates => exact absurd separates (other (by decide))
  | bracket _ begins => exact absurd begins (other (by decide))
  | givenBack _ _ _ mark => exact absurd mark (other (by decide))
  | closing stage | closed stage => exact absurd rfl (other (sound.expected_solid stage))
  | stop | stopBefore => exact .inr (.inr ⟨_, rfl⟩)
  | dead stopped => exact .inr (.inr ⟨_, stopped⟩)

theorem Idle.width_eq (h : r.Idle) : r.width = 0 := by
  rcases h with stage | stage | ⟨e, stage⟩ <;> rw [width, stage]

theorem Idle.along_gap (h : r.Idle) (isGap : IsGap gap) :
    ∃ line, r.along gap = { r with position := r.position + gap.length, line } := by
  rcases h with stage | stage | ⟨e, stopped⟩
  · exact ⟨_, along_filler (.inl stage) isGap⟩
  · exact ⟨_, along_filler (.inr stage) isGap⟩
  · exact ⟨r.line, along_of_stopped stopped gap⟩

/-- The places that go together are those with the same in front of them. -/
def Matching.alike (s t : List Char) : Matching where
  place := Level s t
  line _ _ := True
  cause x y := x.kind = y.kind
  same _ := rfl

theorem Matching.alike_fillers (filler : isFiller c = true) (filler' : isFiller d = true) :
    (Matching.alike s t).Fillers c d := ⟨filler, filler', fun _ => rfl, fun _ => rfl⟩

theorem Matching.Parallel.along_gap {gap' : List Char} (h : (Matching.alike s t).Parallel base r r')
    (idle : r.Idle) (idle' : r'.Idle) (isGap : IsGap gap) (isGap' : IsGap gap')
    (level : Level s t (r.along gap).position (r'.along gap').position) :
    (Matching.alike s t).Parallel base (r.along gap) (r'.along gap') ∧
      (Matching.alike s t).Aligned (r.along gap) (r'.along gap') := by
  obtain ⟨line, through⟩ := idle.along_gap isGap
  obtain ⟨line', through'⟩ := idle'.along_gap isGap'
  refine ⟨?_, .of_width_eq ?_ level⟩
  · rw [through, through']
    exact ⟨h.stage, h.depth_eq, trivial, h.tokens⟩
  · rw [through]
    exact idle.width_eq

/-- Up to a seam, both readings emit the same and stop for the same. -/
theorem parallel_of_alike {x y : List Char} (alike : Alike x y) {x' y' : List Char}
    (left : s = x ++ x') (right : t = y ++ y') (whole : ¬ Cuts x x') (whole' : ¬ Cuts y y') :
    (Matching.alike s t).Parallel [] (read x) (read y) ∧
      (Matching.alike s t).Aligned (read x) (read y) := by
  induction alike generalizing x' y' with
  | nil =>
    subst left right
    exact ⟨⟨.runs trivial, rfl, trivial, [], rfl, .nil⟩,
      .of_width_eq rfl (Alike.nil.level whole whole')⟩
  | @solid x y c alike solid ih =>
    have level := (Alike.solid alike solid).level whole whole'
    rw [← left, ← right, ← read_position, ← read_position, read_snoc, read_snoc] at level
    rw [List.append_assoc] at left right
    obtain ⟨parallel, aligned⟩ := ih left right (not_cuts_of_solid solid) (not_cuts_of_solid solid)
    rw [read_snoc, read_snoc]
    exact ⟨parallel.feed aligned level solid, aligned.feed level⟩
  | @gap x y c d gap gap' alike apart apart' isGap isGap' ih =>
    have level := (Alike.gap alike apart apart' isGap isGap').level whole whole'
    rw [← left, ← right, ← read_position, ← read_position] at level
    rw [List.append_assoc] at left right
    obtain ⟨parallel, aligned⟩ := ih left right (not_cuts_of_endsInFiller apart)
      (not_cuts_of_endsInFiller apart')
    have filler := isGap c List.mem_cons_self
    have filler' := isGap' d List.mem_cons_self
    have entered := parallel.feed_filler (read_sound x) aligned
      (Matching.alike_fillers filler filler') trivial
    rw [read_append, read_append, along_cons, along_cons] at level ⊢
    exact entered.along_gap ((step_feed _ c).idle (read_sound x) filler)
      ((step_feed _ d).idle (read_sound y) filler')
      (fun e he => isGap e (List.mem_cons_of_mem c he))
      (fun e he => isGap' e (List.mem_cons_of_mem d he)) level

end Reading

/-! ## Lexing them -/

/-- The tokens say the same and have as many meaningful characters in front of their ends. -/
structure Token.Agrees (s t : List Char) (a b : Token) : Prop where
  lexeme_eq : b.lexeme = a.lexeme
  start : meaningfulBefore s a.range.start = meaningfulBefore t b.range.start
  stop : meaningfulBefore s a.range.stop = meaningfulBefore t b.range.stop

/-- The rejections are of the same kind, outside of gaps, and have as much in front of them. -/
structure Rejection.Agrees (s t : List Char) (e f : Rejection) : Prop where
  kind_eq : f.cause.kind = e.cause.kind
  outside : ¬ InsideGap s e.position
  outside' : ¬ InsideGap t f.position
  meaningful : meaningfulBefore s e.position = meaningfulBefore t f.position
  gaps : gapsBefore s e.position = gapsBefore t f.position

namespace Reading

theorem Matching.Tokens.agrees {a b : Token} (h : (Matching.alike s t).Tokens a b) :
    a.Agrees s t b := by
  refine ⟨?_, h.start.meaningful, h.stop.meaningful⟩
  rw [Token.lexeme, Token.lexeme, h.kind_eq, h.value_eq]

theorem Matching.Rejections.agrees {e f : Rejection} (h : (Matching.alike s t).Rejections e f) :
    e.Agrees s t f :=
  ⟨h.cause.symm, h.position.outside, h.position.outside', h.position.meaningful, h.position.gaps⟩

end Reading

/-- Which filler a text has, and how much, makes no difference to what lexing it gives. -/
theorem lex_of_collapse_eq {s t : String} (same : collapse s.toList = collapse t.toList) :
    (∃ first second, lex s = .ok first ∧ lex t = .ok second ∧
      List.Forall₂ (Token.Agrees s.toList t.toList) first second) ∨
    ∃ e f, lex s = .error (.rejected e) ∧ lex t = .error (.rejected f) ∧
      e.Agrees s.toList t.toList f := by
  obtain ⟨parallel, aligned⟩ := Reading.parallel_of_alike (alike_iff.mpr same)
    (List.append_nil _).symm (List.append_nil _).symm not_cuts_nil not_cuts_nil
  rcases parallel.finish_cases aligned.here with
    ⟨stage, top, stage', top'⟩ | ⟨e, f, stopped, stopped', rejections⟩
  · have something : 0 < (Reading.read s.toList).position ↔
        0 < (Reading.read t.toList).position := by
      rw [Reading.read_position, Reading.read_position, List.length_pos_iff, List.length_pos_iff,
        ne_eq, ne_eq, ← collapse_eq_nil_iff, same, collapse_eq_nil_iff]
    have tokens := parallel.finish_tokens aligned.here something stage top stage' top'
    exact .inl ⟨_, _, lex_of_ready stage top, lex_of_ready stage' top',
      tokens.imp fun a b matching => matching.agrees⟩
  · exact .inr ⟨e, f, lex_eq_error_iff.mpr ⟨e, rfl, stopped⟩,
      lex_eq_error_iff.mpr ⟨f, rfl, stopped'⟩, rejections.agrees⟩

/-- A text that lexes with either filler, and one that with either is rejected for the filler behind
its open bracket. -/
theorem lex_of_collapse_eq_of_two_gaps :
    (collapse "すも、 の\r\nのうち。".toList = collapse "すも、x のzzzのうち。".toList ∧
      ∃ first second, lex "すも、 の\r\nのうち。" = .ok first ∧
        lex "すも、x のzzzのうち。" = .ok second ∧ first.length = 4 ∧
        List.Forall₂ (Token.Agrees "すも、 の\r\nのうち。".toList "すも、x のzzzのうち。".toList)
          first second) ∧
    collapse "も  す\nの".toList = collapse "も\u2028すxxの".toList ∧
      ∃ e f, lex "も  す\nの" = .error (.rejected e) ∧ lex "も\u2028すxxの" = .error (.rejected f) ∧
        e.position = 4 ∧ f.position = 3 ∧
        e.Agrees "も  す\nの".toList "も\u2028すxxの".toList f := by
  have same : collapse "すも、 の\r\nのうち。".toList = collapse "すも、x のzzzのうち。".toList := by
    decide +kernel
  have same' : collapse "も  す\nの".toList = collapse "も\u2028すxxの".toList := by decide +kernel
  have accepted : lex "すも、 の\r\nのうち。" = .ok [
      ⟨.openBracket, none, ⟨0, 0⟩, ⟨0, 1, by decide⟩⟩,
      ⟨.operator, some "も", ⟨0, 0⟩, ⟨1, 2, by decide⟩⟩,
      ⟨.numberLiteral, some "の", ⟨0, 0⟩, ⟨4, 5, by decide⟩⟩,
      ⟨.closeBracket, none, ⟨2, 6⟩, ⟨7, 11, by decide⟩⟩] := by decide +kernel
  have stray : lex "も  す\nの" =
      .error (.rejected ⟨.missingNumerals .operator (some '\n'), 4, ⟨0, 0⟩⟩) := by decide +kernel
  have stray' : lex "も\u2028すxxの" =
      .error (.rejected ⟨.missingNumerals .operator (some 'x'), 3, ⟨1, 1⟩⟩) := by decide +kernel
  refine ⟨⟨same, ?_⟩, same', ?_⟩
  · rcases lex_of_collapse_eq same with ⟨first, second, ok, ok', agrees⟩ | ⟨e, f, error, -⟩
    · refine ⟨first, second, ok, ok', ?_, agrees⟩
      rw [accepted] at ok
      cases ok
      rfl
    · rw [accepted] at error
      cases error
  · rcases lex_of_collapse_eq same' with ⟨first, second, ok, -⟩ | ⟨e, f, error, error', agrees⟩
    · rw [stray] at ok
      cases ok
    · refine ⟨e, f, error, error', ?_, ?_, agrees⟩
      · rw [stray] at error
        cases error
        rfl
      · rw [stray'] at error'
        cases error'
        rfl

end SumomoLexer
