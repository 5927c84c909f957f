import SumomoLexer.Proofs.Grammar
import SumomoLexer.Proofs.Reading.OfScan
import SumomoLexer.Proofs.Reading.Stop

/-! # How tokens tile a text

A text is laid out from left to right in tokens and in single characters between them, and each token
has the range it is laid out at. A reading lays out what it has read, except for the token that it
is in the middle of. What the tokens of a text have to do with its characters is then read off the
layout; that the rest of the text plays no part in it is why this goes by induction on what was laid.
-/
namespace SumomoLexer
open Vocabulary Grammar
set_option autoImplicit false

/-- The token stands for these characters. -/
def Token.Spells (t : Token) (body : List Char) : Prop :=
  match t.kind with
  | .openBracket => body = [openBracket] ∧ t.value = none
  | .closeBracket => body = closeBracket ∧ t.value = none
  | .operator | .numberLiteral => IsWord body ∧ t.value = some (String.ofList body)
  | .endMark => body = [] ∧ t.value = none

def Token.OfNumerals (t : Token) : Prop := t.kind = .operator ∨ t.kind = .numberLiteral

/-- An open bracket ends the tokens, directly before this position. -/
def OpensAt (position : Nat) (tokens : List Token) : Prop :=
  ∃ o, tokens.getLast? = some o ∧ o.kind = .openBracket ∧ o.range.stop = position

def ClosesAt (position : Nat) (tokens : List Token) : Prop :=
  ∃ u ∈ tokens, u.kind = .closeBracket ∧ u.range.start = position

/-- Behind a text with these tokens the next token stands for `body`. -/
structure Token.Lies (t : Token) (text : List Char) (tokens : List Token) (body : List Char) :
    Prop where
  start_eq : t.range.start = text.length
  stop_eq : t.range.stop = text.length + body.length
  marks : t.kind ≠ .endMark
  spells : t.Spells body
  begins : t.OfNumerals → Finished text
  opened : t.kind = .operator → OpensAt text.length tokens

inductive Tiling : List Char → List Token → Prop
  | start : Tiling [] []
  | between {text : List Char} {tokens : List Token} {c : Char} : Tiling text tokens →
    isFiller c = true ∨ c = separator → Tiling (text ++ [c]) tokens
  | token {text body : List Char} {tokens : List Token} {t : Token} : Tiling text tokens →
    t.Lies text tokens body → Tiling (text ++ body) (tokens ++ [t])

namespace Token

variable {t : Token} {text body : List Char} {tokens : List Token}

theorem Spells.isWord (h : t.Spells body) (numerals : t.OfNumerals) : IsWord body := by
  rcases numerals with kind | kind <;> rw [Spells, kind] at h <;> exact h.1

theorem Spells.closes (h : t.Spells body) (kind : t.kind = .closeBracket) :
    body = closeBracket := by
  rw [Spells, kind] at h
  exact h.1

/-- Every kind of token but the end mark begins and goes on with characters of its own. -/
theorem Spells.inner (h : t.Spells body) (marks : t.kind ≠ .endMark) :
    body ≠ [] ∧ ∀ c ∈ body, isFiller c = false ∧ c ≠ separator := by
  have word (isWord : IsWord body) :
      body ≠ [] ∧ ∀ c ∈ body, isFiller c = false ∧ c ≠ separator := by
    refine ⟨isWord.1, fun c hc => ⟨isFiller_of_isNumeral (isWord.2 c hc), ?_⟩⟩
    rintro rfl
    exact absurd (isWord.2 _ hc) (by decide)
  unfold Spells at h
  split at h
  · rw [h.1]
    exact ⟨List.cons_ne_nil _ _, List.forall_mem_singleton.mpr (by decide)⟩
  · rw [h.1]
    refine ⟨List.cons_ne_nil _ _, fun c hc => ?_⟩
    simp only [closeBracket, List.mem_cons, List.not_mem_nil, or_false] at hc
    rcases hc with rfl | rfl | rfl | rfl <;> decide
  · exact word h.1
  · exact word h.1
  · rename_i kind
    exact absurd kind marks

/-- What a token begins with is a numeral only if it is one of numerals, or a close bracket. -/
theorem Spells.head_cases (h : t.Spells body) {c : Char} {rest : List Char}
    (split : body = c :: rest) :
    t.OfNumerals ∨ t.kind = .closeBracket ∨ isNumeral c = false := by
  subst split
  unfold Spells at h
  split at h
  · cases h.1
    exact .inr (.inr (by decide))
  · rename_i kind
    exact .inr (.inl kind)
  · rename_i kind
    exact .inl (.inl kind)
  · rename_i kind
    exact .inl (.inr kind)
  · cases h.1

theorem Lies.body_ne_nil (h : t.Lies text tokens body) : body ≠ [] :=
  (h.spells.inner h.marks).1

end Token

/-! ## What a layout says about its tokens -/

namespace Tiling

variable {text body : List Char} {tokens first rest : List Token} {t u : Token}

theorem marks (h : Tiling text tokens) : ∀ t ∈ tokens, t.kind ≠ .endMark := by
  induction h with
  | start => nofun
  | between _ _ ih => exact ih
  | token _ lies ih =>
    intro t member
    rcases List.mem_append.mp member with earlier | last
    · exact ih t earlier
    · rw [List.mem_singleton.mp last]
      exact lies.marks

/-- A token lies behind a text with the tokens before it, whatever comes after it. -/
theorem lies_of_append (h : Tiling text tokens) (split : tokens = first ++ t :: rest) :
    ∃ before body after, text = before ++ (body ++ after) ∧ t.Lies before first body := by
  induction h generalizing rest with
  | start => exact absurd split (by simp)
  | @between text tokens c _ _ ih =>
    obtain ⟨before, body, after, rfl, lies⟩ := ih split
    exact ⟨before, body, after ++ [c], by simp only [List.append_assoc], lies⟩
  | @token text body tokens u tiling lies ih =>
    rcases List.eq_nil_or_concat rest with rfl | ⟨others, last, rfl⟩
    · obtain ⟨rfl, same⟩ := List.append_inj' split rfl
      cases same
      exact ⟨text, body, [], by rw [List.append_nil], lies⟩
    · rw [List.concat_eq_append, ← List.cons_append, ← List.append_assoc] at split
      obtain ⟨before, inner, after, rfl, found⟩ := ih (List.append_inj' split rfl).1
      exact ⟨before, inner, after ++ body, by simp only [List.append_assoc], found⟩

theorem lies_of_mem (h : Tiling text tokens) (member : t ∈ tokens) :
    ∃ first before body after, text = before ++ (body ++ after) ∧ t.Lies before first body := by
  obtain ⟨first, rest, split⟩ := List.append_of_mem member
  exact ⟨first, h.lies_of_append split⟩

theorem stop_le (h : Tiling text tokens) : ∀ t ∈ tokens, t.range.stop ≤ text.length := by
  intro t member
  obtain ⟨first, before, body, after, rfl, lies⟩ := h.lies_of_mem member
  rw [lies.stop_eq, List.length_append, List.length_append]
  omega

theorem ordered (h : Tiling text tokens) :
    tokens.Pairwise fun t u => t.range.stop ≤ u.range.start := by
  induction h with
  | start => exact .nil
  | between _ _ ih => exact ih
  | token tiling lies ih =>
    refine List.pairwise_append.mpr ⟨ih, List.pairwise_singleton _ _, ?_⟩
    intro t member u last
    rw [List.mem_singleton.mp last, lies.start_eq]
    exact tiling.stop_le t member

theorem spells_extract (h : Tiling text tokens) (member : t ∈ tokens) :
    t.Spells (text.extract t.range.start t.range.stop) := by
  obtain ⟨first, before, body, after, rfl, lies⟩ := h.lies_of_mem member
  have under : (before ++ (body ++ after)).extract t.range.start t.range.stop = body := by
    rw [List.extract_eq_take_drop, lies.start_eq, lies.stop_eq, Nat.add_sub_cancel_left,
      List.drop_left, List.take_left]
  rw [under]
  exact lies.spells

theorem start_lt_stop (h : Tiling text tokens) (member : t ∈ tokens) :
    t.range.start < t.range.stop := by
  obtain ⟨first, before, body, after, -, lies⟩ := h.lies_of_mem member
  have length := List.length_pos_iff.mpr lies.body_ne_nil
  rw [lies.start_eq, lies.stop_eq]
  omega

theorem finished_take (h : Tiling text tokens) (member : t ∈ tokens) (numerals : t.OfNumerals) :
    Finished (text.take t.range.start) := by
  obtain ⟨first, before, body, after, rfl, lies⟩ := h.lies_of_mem member
  rw [lies.start_eq, List.take_left]
  exact lies.begins numerals

theorem covers_iff (h : Tiling text tokens) (i : Nat) (inside : i < text.length) :
    (∃ t ∈ tokens, t.range.start ≤ i ∧ i < t.range.stop) ↔
      isFiller text[i] = false ∧ text[i] ≠ separator := by
  induction h with
  | start => exact absurd inside (Nat.not_lt_zero i)
  | @between text tokens c tiling gap ih =>
    rw [List.length_append, List.length_singleton] at inside
    rcases Nat.lt_succ_iff_lt_or_eq.mp inside with earlier | rfl
    · rw [List.getElem_append_left earlier]
      exact ih earlier
    · rw [List.getElem_concat_length rfl]
      constructor
      · rintro ⟨t, member, _, below⟩
        exact absurd (tiling.stop_le t member) (Nat.not_le.mpr below)
      · rintro ⟨solid, different⟩
        rcases gap with filler | separates
        · rw [filler] at solid
          cases solid
        · exact absurd separates different
  | @token text body tokens t tiling lies ih =>
    rw [List.length_append] at inside
    by_cases earlier : i < text.length
    · rw [List.getElem_append_left earlier, ← ih earlier]
      constructor
      · rintro ⟨u, member, covers⟩
        rcases List.mem_append.mp member with old | last
        · exact ⟨u, old, covers⟩
        · rw [List.mem_singleton.mp last, lies.start_eq] at covers
          exact absurd covers.1 (Nat.not_le.mpr earlier)
      · rintro ⟨u, member, covers⟩
        exact ⟨u, List.mem_append_left _ member, covers⟩
    · have reached : text.length ≤ i := Nat.not_lt.mp earlier
      have within : i - text.length < body.length := by omega
      rw [List.getElem_append_right reached]
      have own := (lies.spells.inner lies.marks).2 _ (List.getElem_mem within)
      refine ⟨fun _ => own, fun _ => ⟨t, List.mem_append_right _ List.mem_cons_self, ?_, ?_⟩⟩
      · rw [lies.start_eq]
        exact reached
      · rw [lies.stop_eq]
        exact inside

theorem not_finished (h : Tiling text tokens) (member : t ∈ tokens) (numerals : t.OfNumerals)
    (last : t.range.stop = text.length) : ¬ Finished text := by
  obtain ⟨first, before, body, after, rfl, lies⟩ := h.lies_of_mem member
  have none : after = [] := by
    rw [lies.stop_eq, List.length_append, List.length_append] at last
    exact List.length_eq_zero_iff.mp (by omega)
  rw [none, List.append_nil]
  exact fun finished => (lies.spells.isWord numerals).not_finished finished.of_append

/-- A numeral directly behind a token of numerals begins a close bracket. -/
theorem closes_of_numeral (h : Tiling text tokens) (member : t ∈ tokens)
    (numerals : t.OfNumerals) {c : Char} (next : text[t.range.stop]? = some c)
    (numeral : isNumeral c = true) : ClosesAt t.range.stop tokens := by
  induction h with
  | start => cases member
  | @between text tokens d tiling gap ih =>
    rcases Nat.lt_or_eq_of_le (tiling.stop_le t member) with inside | last
    · rw [List.getElem?_append_left inside] at next
      exact ih member next
    · rw [last, List.getElem?_concat_length] at next
      cases next
      rcases gap with filler | rfl
      · rw [isNumeral_of_isFiller filler] at numeral
        cases numeral
      · exact absurd numeral (by decide)
  | @token text body tokens u tiling lies ih =>
    rcases List.mem_append.mp member with old | new
    · rcases Nat.lt_or_eq_of_le (tiling.stop_le t old) with inside | last
      · rw [List.getElem?_append_left inside] at next
        obtain ⟨v, found, closes⟩ := ih old next
        exact ⟨v, List.mem_append_left _ found, closes⟩
      · -- The text ends in a numeral there, so that no token of numerals can begin.
        rw [last, List.getElem?_append_right (Nat.le_refl _), Nat.sub_self,
          ← List.head?_eq_getElem?] at next
        obtain ⟨rest, split⟩ := List.head?_eq_some_iff.mp next
        rcases lies.spells.head_cases split with word | bracket | other
        · exact absurd (lies.begins word) (tiling.not_finished old numerals last)
        · exact ⟨u, List.mem_append_right _ List.mem_cons_self, bracket,
            lies.start_eq.trans last.symm⟩
        · rw [numeral] at other
          cases other
    · rw [List.mem_singleton.mp new, lies.stop_eq, ← List.length_append,
        List.getElem?_eq_none (Nat.le_refl _)] at next
      cases next

/-- The close bracket has one numeral. -/
theorem bracket_at (h : Tiling text tokens) (member : u ∈ tokens) (kind : u.kind = .closeBracket) :
    text[u.range.start]? = some 'の' ∧ text[u.range.start + 1]? = some closeMark := by
  obtain ⟨first, before, body, after, rfl, lies⟩ := h.lies_of_mem member
  obtain rfl := lies.spells.closes kind
  rw [lies.start_eq, List.getElem?_append_right (Nat.le_refl _),
    List.getElem?_append_right (Nat.le_add_right _ _), Nat.sub_self, Nat.add_sub_cancel_left]
  exact ⟨rfl, rfl⟩

end Tiling

/-! ## Readings lay out what they read -/

namespace Reading

/-- What the stage says about the characters behind the last token: `done` has been laid out in the
tokens, `body` is what was read of the next one. -/
def Stage.Leaves (tokens : List Token) (done body : List Char) : Stage → Prop
  | .ready => body = [] ∧ Finished done
  | .counting kind taken => body = taken.reverse ∧ (∀ c ∈ taken, isNumeral c = true) ∧
    (kind = .operator ∨ kind = .numberLiteral) ∧ Finished done ∧
      (kind = .operator → OpensAt done.length tokens)
  | .named | .settled => body = []
  | .closing expected further => body ++ expected :: further = closeBracket
  | .stopped _ => True

def Lays (text : List Char) (r : Reading) : Prop :=
  ∃ done body, text = done ++ body ∧ Tiling done r.tokens ∧ r.stage.Leaves r.tokens done body

variable {r b q : Reading} {c : Char} {text : List Char} {kind : Token.Kind} {taken : List Char}

theorem tiling_endRun {done : List Char} (tiling : Tiling done r.tokens) (something : taken ≠ [])
    (leaves : (Stage.counting kind taken).Leaves r.tokens done taken.reverse)
    (place : r.position = done.length + taken.length) :
    Tiling (done ++ taken.reverse) (r.endRun kind taken).tokens := by
  obtain ⟨-, numerals, kinds, finished, opened⟩ := leaves
  have start : r.position - taken.length = done.length := by omega
  have isWord : IsWord taken.reverse :=
    ⟨List.reverse_ne_nil_iff.mpr something, fun c hc => numerals c (List.mem_reverse.mp hc)⟩
  refine .token tiling ⟨start, ?_, ?_, ?_, fun _ => finished, opened⟩
  · rw [List.length_reverse]
    exact congrArg (· + taken.length) start
  · rcases kinds with rfl | rfl <;> nofun
  · rcases kinds with rfl | rfl <;> exact ⟨isWord, rfl⟩

/-- With the run of numerals as a token, if there was one, everything outside of brackets is laid. -/
theorem Lays.behind (h : r.Lays text) (place : r.position = text.length) (behind : r.Behind b) :
    ∃ done body, text = done ++ body ∧ Tiling done b.tokens ∧
      (b.stage = .named ∨ b.stage = .ready ∨ b.stage = .settled → body = []) := by
  obtain ⟨done, body, rfl, tiling, leaves⟩ := h
  cases behind with
  | self =>
    refine ⟨done, body, rfl, tiling, ?_⟩
    rintro (stage | stage | stage) <;> rw [stage] at leaves
    · exact leaves
    · exact leaves.1
    · exact leaves
  | @run kind taken stage something =>
    rw [stage] at leaves
    obtain rfl := leaves.1
    rw [List.length_append, List.length_reverse] at place
    exact ⟨_, [], (List.append_nil _).symm, tiling_endRun tiling something leaves place, fun _ => rfl⟩

theorem Lays.outside (h : r.Lays text) (place : r.position = text.length) (behind : r.Behind b)
    (stage : b.stage = .named ∨ b.stage = .ready ∨ b.stage = .settled) :
    Tiling text b.tokens := by
  obtain ⟨done, body, rfl, tiling, none⟩ := h.behind place behind
  rw [none stage, List.append_nil]
  exact tiling

/-- The last numeral of a run is left over when the others have become a token. -/
theorem Lays.unread (h : r.Lays text) (place : r.position = text.length) {last : Char}
    (stage : r.stage = .counting kind (last :: taken)) :
    ∃ before, text = before ++ [last] ∧ (r.unread kind taken).Lays before ∧
      (r.unread kind taken).position = before.length := by
  obtain ⟨done, body, rfl, tiling, leaves⟩ := h
  rw [stage] at leaves
  obtain ⟨rfl, numerals, kinds, finished, opened⟩ := leaves
  rw [List.reverse_cons, ← List.append_assoc] at place ⊢
  refine ⟨done ++ taken.reverse, rfl, ⟨done, _, rfl, tiling, rfl, ?_, kinds, finished, opened⟩, ?_⟩
  · exact fun c hc => numerals c (List.mem_cons_of_mem last hc)
  · rw [List.length_append, List.length_singleton] at place
    exact Nat.sub_eq_of_eq_add place

theorem Lays.stopped {done body : List Char} {tokens : List Token} {e : Rejection}
    (tiling : Tiling done tokens) (stage : q.stage = .stopped e) (same : q.tokens = tokens)
    (split : text = done ++ body) : q.Lays text := by
  refine ⟨done, body, split, same ▸ tiling, ?_⟩
  rw [stage]
  trivial

theorem start_lays : start.Lays [] := ⟨[], [], rfl, .start, rfl, nofun⟩

theorem Lays.step (h : r.Lays text) (place : r.position = text.length) (step : r.Step c q) :
    q.Lays (text ++ [c]) := by
  cases step with
  | @numeral kind taken stage numeral =>
    obtain ⟨done, body, rfl, tiling, leaves⟩ := h
    rw [stage] at leaves
    obtain ⟨rfl, numerals, kinds, finished, opened⟩ := leaves
    refine ⟨done, (c :: taken).reverse, ?_, tiling, rfl, ?_, kinds, finished, opened⟩
    · rw [List.reverse_cons, List.append_assoc]
    · exact List.forall_mem_cons.mpr ⟨numeral, numerals⟩
  | literal stage numeral =>
    obtain ⟨done, body, rfl, tiling, leaves⟩ := h
    rw [stage] at leaves
    obtain ⟨rfl, finished⟩ := leaves
    rw [List.append_nil]
    refine ⟨done, [c], rfl, tiling, rfl, ?_, .inr rfl, finished, nofun⟩
    exact List.forall_mem_singleton.mpr numeral
  | @filler b behind stage filler =>
    have tiling := h.outside place behind (.inr stage)
    refine ⟨text ++ [c], [], (List.append_nil _).symm, .between tiling (.inl filler), ?_⟩
    change b.stage.Leaves b.tokens (text ++ [c]) []
    rcases stage with stage | stage <;> rw [stage]
    · exact ⟨rfl, (isGap_nil.cons filler).finished.append nofun⟩
    · rfl
  | @openBracket b behind stage opens =>
    have tiling := h.outside place behind (.inr (.inl stage))
    subst opens
    refine ⟨text ++ [openBracket], [], (List.append_nil _).symm, .token tiling
      ⟨place, ?_, nofun, ⟨rfl, rfl⟩, nofun, nofun⟩, rfl, nofun, .inl rfl, ?_, ?_⟩
    · exact congrArg (· + 1) place
    · exact Finished.append (fun c hc => by cases hc; decide) nofun
    · intro _
      refine ⟨_, List.getLast?_concat, rfl, ?_⟩
      rw [List.length_append]
      exact congrArg (· + 1) place
  | separator behind stage separates =>
    have tiling := h.outside place behind (stage.imp_right .inr)
    subst separates
    refine ⟨text ++ [separator], [], (List.append_nil _).symm, .between tiling (.inr rfl), rfl, ?_⟩
    exact Finished.append (fun c hc => by cases hc; decide) nofun
  | bracket stage begins =>
    have tiling := h.outside place .self (stage.imp_right .inr)
    subst begins
    exact ⟨text, ['の'], rfl, tiling, rfl⟩
  | @givenBack kind taken stage something inside mark =>
    subst mark
    obtain ⟨before, rfl, unread, there⟩ := h.unread place stage
    have tiling := unread.outside there (.run rfl something) (behindRun_cases kind r.depth)
    exact ⟨before, ['の', 'う'], List.append_assoc _ _ _, tiling, rfl⟩
  | @closing next further stage =>
    obtain ⟨done, body, rfl, tiling, leaves⟩ := h
    rw [stage] at leaves
    refine ⟨done, body ++ [c], List.append_assoc _ _ _, tiling, ?_⟩
    change (body ++ [c]) ++ next :: further = closeBracket
    rw [List.append_assoc]
    exact leaves
  | closed stage =>
    obtain ⟨done, body, rfl, tiling, leaves⟩ := h
    rw [stage] at leaves
    have whole : body ++ [c] = closeBracket := leaves
    have length : body.length = 3 := by
      have four := congrArg List.length whole
      rw [List.length_append] at four
      exact Nat.succ.inj four
    rw [List.length_append, length] at place
    have start : r.position - 3 = done.length := by omega
    rw [List.append_assoc, whole]
    refine ⟨done ++ closeBracket, [], (List.append_nil _).symm, .token tiling
      ⟨start, congrArg (· + 4) start, nofun, ⟨rfl, rfl⟩, ?_, nofun⟩, ?_⟩
    · rintro (kind | kind) <;> cases kind
    · change (Stage.behind (r.depth - 1)).Leaves _ _ _
      rcases behind_cases (r.depth - 1) with outside | outside <;> rw [outside]
      · exact ⟨rfl, Finished.append (fun c hc => by cases hc; decide) nofun⟩
      · rfl
  | stop cause live behind =>
    obtain ⟨done, body, rfl, tiling, -⟩ := h.behind place behind
    exact .stopped tiling rfl rfl (List.append_assoc _ _ _)
  | @stopBefore b kind last taken cause stage behind =>
    obtain ⟨before, rfl, unread, there⟩ := h.unread place stage
    obtain ⟨done, body, rfl, tiling, -⟩ := unread.behind there behind
    have split : done ++ body ++ [last] ++ [c] = done ++ (body ++ [last, c]) := by
      simp only [List.append_assoc, List.cons_append, List.nil_append]
    exact .stopped tiling rfl rfl split
  | dead stopped =>
    obtain ⟨done, body, rfl, tiling, -⟩ := h
    exact .stopped tiling stopped rfl (List.append_assoc _ _ _)

theorem read_lays (text : List Char) : (read text).Lays text := by
  apply read_induction start_lays
  rintro text _ q c rfl h step
  exact h.step (read_position text) step

theorem finish_spells {text : List Char} {t : Token} (member : t ∈ (read text).finish.tokens) :
    ∃ body, t.Spells body := by
  obtain ⟨done, body, -, tiling, -⟩ := read_lays text
  have laid (u : Token) (old : u ∈ (read text).tokens) : ∃ body, u.Spells body :=
    ⟨_, tiling.spells_extract old⟩
  rcases finish_tokens_cases (read text) with same | ⟨line, range, more⟩
  · rw [same] at member
    exact laid t member
  · rw [more] at member
    rcases List.mem_append.mp member with old | last
    · exact laid t old
    · rw [List.mem_singleton.mp last]
      exact ⟨[], rfl, rfl⟩

/-- All tokens of a rejected text are laid out in front of the position that it is rejected at. -/
theorem finish_stopped_tiling {text : List Char} {e : Rejection}
    (h : (read text).finish.stage = .stopped e) :
    ∃ done body, text.take e.position = done ++ body ∧ Tiling done (read text).finish.tokens := by
  obtain ⟨-, b, -, behind, same⟩ := finish_stopped h
  obtain ⟨done, body, split, tiling, -⟩ := (read_lays _).behind (read_position _) behind
  exact ⟨done, body, split, same ▸ tiling⟩

end Reading

/-! ## Accepted texts -/

/-- What the tokens of a text have to do with its characters. -/
structure Tiled (text : List Char) (tokens : List Token) : Prop where
  inside : ∀ t ∈ tokens, t.range.stop ≤ text.length
  ordered : tokens.Pairwise fun t u => t.range.stop ≤ u.range.start
  extent : ∀ t ∈ tokens, if t.kind = .endMark then t.range = Span.empty text.length
    else t.range.start < t.range.stop
  spelled : ∀ t ∈ tokens, t.Spells (text.extract t.range.start t.range.stop)
  operators : ∀ first t rest, tokens = first ++ t :: rest → t.kind = .operator →
    OpensAt t.range.start first
  covered : ∀ (i : Nat) (h : i < text.length),
    (∃ t ∈ tokens, t.range.start ≤ i ∧ i < t.range.stop) ↔
      ¬ (isFiller text[i] = true ∨ text[i] = separator)
  /-- In front of a token of numerals there is no numeral. Behind it there is none either, except
  that a close bracket may begin there, and then its first character is the only one. -/
  maximal : ∀ t ∈ tokens, t.OfNumerals → Finished (text.take t.range.start) ∧
    (ClosesAt t.range.stop tokens →
      text[t.range.stop]? = some 'の' ∧ ∀ c ∈ text[t.range.stop + 1]?, isNumeral c = false) ∧
    (¬ ClosesAt t.range.stop tokens → ∀ c ∈ text[t.range.stop]?, isNumeral c = false)

theorem Tiling.tiled {text : List Char} {tokens : List Token} (h : Tiling text tokens) :
    Tiled text tokens where
  inside := h.stop_le
  ordered := h.ordered
  extent t member := by
    rw [if_neg (h.marks t member)]
    exact h.start_lt_stop member
  spelled t member := h.spells_extract member
  operators first t rest split operator := by
    obtain ⟨before, body, after, -, lies⟩ := h.lies_of_append split
    rw [lies.start_eq]
    exact lies.opened operator
  covered i inside := by
    rw [h.covers_iff i inside, not_or, Bool.not_eq_true]
  maximal t member numerals := by
    refine ⟨h.finished_take member numerals, ?_, ?_⟩
    · rintro ⟨u, found, kind, place⟩
      obtain ⟨first, second⟩ := h.bracket_at found kind
      rw [place] at first second
      refine ⟨first, fun c hc => ?_⟩
      rw [second] at hc
      cases hc
      decide
    · intro apart c hc
      rw [← Bool.not_eq_true]
      exact fun numeral => apart (h.closes_of_numeral member numerals hc numeral)

/-- A text in which nothing was laid is filler and separators alone. -/
theorem Tiling.tiled_endMark {text : List Char} (h : Tiling text []) (line : LineMark) :
    Tiled text [⟨.endMark, none, line, Span.empty text.length⟩] where
  inside := List.forall_mem_singleton.mpr (Nat.le_refl _)
  ordered := List.pairwise_singleton _ _
  extent := List.forall_mem_singleton.mpr rfl
  spelled := by
    refine List.forall_mem_singleton.mpr ⟨?_, rfl⟩
    simp only [Span.empty, List.extract_eq_take_drop, Nat.sub_self, List.take_zero]
  operators first t rest split operator := by
    have member : t ∈ [(⟨.endMark, none, line, Span.empty text.length⟩ : Token)] := by
      rw [split]
      exact List.mem_append_right _ List.mem_cons_self
    rw [List.mem_singleton.mp member] at operator
    cases operator
  covered i inside := by
    have none := h.covers_iff i inside
    constructor
    · rintro ⟨t, member, reached, below⟩
      rw [List.mem_singleton.mp member] at reached below
      exact absurd (Nat.lt_of_le_of_lt reached below) (Nat.lt_irrefl _)
    · intro covered
      rw [not_or, Bool.not_eq_true, ← none] at covered
      obtain ⟨t, member, -⟩ := covered
      cases member
  maximal := by
    refine List.forall_mem_singleton.mpr ?_
    rintro (kind | kind) <;> cases kind

theorem lex_tiled {text : String} {tokens : List Token} (h : lex text = .ok tokens) :
    Tiled text.toList tokens := by
  obtain ⟨live, rfl⟩ := lex_eq_ok_iff.mp h
  have place := Reading.read_position text.toList
  obtain ⟨stage, top⟩ := Reading.ready_of_live live
  have tiling := (Reading.read_lays text.toList).outside place .self (.inr (.inl stage))
  rw [Reading.finish_of_ready stage top]
  split
  · rename_i alone
    rw [alone.1] at tiling
    have tiled := tiling.tiled_endMark (Reading.read text.toList).line
    rw [Reading.emit, alone.1, place]
    exact tiled
  · exact tiling.tiled

/-- The operator and the literal each leave a numeral to a close bracket. -/
theorem lex_tiled_of_shared_numerals : ∃ tokens,
    lex "すもの、\nすのののうち。のうち。" = .ok tokens ∧
      tokens.map (fun t => (t.range.start, t.range.stop)) =
        [(0, 1), (1, 3), (5, 6), (6, 8), (8, 12), (12, 16)] ∧
      Tiled "すもの、\nすのののうち。のうち。".toList tokens := by
  have accepted : lex "すもの、\nすのののうち。のうち。" = .ok [
      ⟨.openBracket, none, ⟨0, 0⟩, ⟨0, 1, by decide⟩⟩,
      ⟨.operator, some "もの", ⟨0, 0⟩, ⟨1, 3, by decide⟩⟩,
      ⟨.openBracket, none, ⟨1, 4⟩, ⟨5, 6, by decide⟩⟩,
      ⟨.operator, some "のの", ⟨1, 4⟩, ⟨6, 8, by decide⟩⟩,
      ⟨.closeBracket, none, ⟨1, 4⟩, ⟨8, 12, by decide⟩⟩,
      ⟨.closeBracket, none, ⟨1, 4⟩, ⟨12, 16, by decide⟩⟩] := by decide +kernel
  exact ⟨_, accepted, rfl, lex_tiled accepted⟩

end SumomoLexer
