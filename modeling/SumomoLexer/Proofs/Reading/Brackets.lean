import SumomoLexer.Proofs.Reading.Step

/-! # Open brackets

The depth of a reading is the number of brackets that its tokens open and do not close, and at no
point have they closed more than they opened. This rests on where a reading may stand: behind an
operator, behind a parameter and inside a close bracket there is a bracket to close.
-/
namespace SumomoLexer
open Vocabulary
set_option autoImplicit false

/-- Which brackets the tokens leave open. -/
structure Nested (tokens : List Token) (depth : Nat) : Prop where
  prefixes : ∀ first, first <+: tokens →
    (first.map Token.kind).count .closeBracket ≤ (first.map Token.kind).count .openBracket
  depth_eq : (tokens.map Token.kind).count .openBracket =
    (tokens.map Token.kind).count .closeBracket + depth

namespace Nested

variable {tokens : List Token} {depth outer : Nat} {t : Token}

theorem nil : Nested [] 0 := by
  constructor
  · intro first h
    rw [List.prefix_nil.mp h]
    exact Nat.le_refl _
  · rfl

/-- The prefixes of more tokens need not be looked at again. -/
theorem push (h : Nested tokens depth)
    (balance : ((tokens ++ [t]).map Token.kind).count .openBracket =
      ((tokens ++ [t]).map Token.kind).count .closeBracket + outer) :
    Nested (tokens ++ [t]) outer := by
  constructor
  · intro first isPrefix
    rcases List.prefix_concat_iff.mp isPrefix with whole | earlier
    · rw [whole]
      omega
    · exact h.prefixes first earlier
  · exact balance

theorem push_open (h : Nested tokens depth) (opens : t.kind = .openBracket) :
    Nested (tokens ++ [t]) (depth + 1) := by
  apply h.push
  have before := h.depth_eq
  simp [List.count_append, opens]
  omega

theorem push_close (h : Nested tokens depth) (inside : 0 < depth)
    (closes : t.kind = .closeBracket) : Nested (tokens ++ [t]) (depth - 1) := by
  apply h.push
  have before := h.depth_eq
  simp [List.count_append, closes]
  omega

theorem push_other (h : Nested tokens depth) (opens : t.kind ≠ .openBracket)
    (closes : t.kind ≠ .closeBracket) : Nested (tokens ++ [t]) depth := by
  apply h.push
  have before := h.depth_eq
  simp [List.count_append, opens, closes]
  omega

end Nested

namespace Reading

def Stage.Inner : Stage → Prop
  | .counting kind _ => kind = .operator
  | .named | .settled | .closing _ _ => True
  | .ready | .stopped _ => False

structure Sound (r : Reading) : Prop where
  inner : r.stage.Inner → 0 < r.depth
  run : ∀ kind taken, r.stage = .counting kind taken → kind = .operator ∨ kind = .numberLiteral
  bracket : ∀ expected further, r.stage = .closing expected further →
    expected :: further <:+ closeBracket
  nested : Nested r.tokens r.depth

variable {r b q : Reading} {c : Char}

theorem start_sound : start.Sound := ⟨nofun, nofun, nofun, Nested.nil⟩

theorem inner_behind {depth : Nat} (h : (Stage.behind depth).Inner) : 0 < depth := by
  unfold Stage.behind at h
  split at h
  · exact h.elim
  · omega

/-- Between expressions there is neither a run of numerals nor a close bracket to go on with. -/
theorem not_within {stage : Stage} (h : stage = .named ∨ stage = .ready ∨ stage = .settled) :
    (∀ kind taken, stage ≠ .counting kind taken) ∧
      ∀ expected further, stage ≠ .closing expected further := by
  rcases h with rfl | rfl | rfl <;> exact ⟨nofun, nofun⟩

theorem Sound.endRun (h : r.Sound) {kind : Token.Kind} {taken : List Char}
    (stage : r.stage = .counting kind taken) : (r.endRun kind taken).Sound := by
  have kinds := h.run kind taken stage
  have outside := not_within (behindRun_cases kind r.depth)
  refine ⟨?_, ?_, ?_, ?_⟩
  · change (Stage.behindRun kind r.depth).Inner → 0 < r.depth
    unfold Stage.behindRun
    split
    · rename_i operator
      intro _
      apply h.inner
      rw [stage]
      exact operator
    · exact inner_behind
  · intro other more counting
    exact absurd counting (outside.1 other more)
  · intro expected further closing
    exact absurd closing (outside.2 expected further)
  · apply h.nested.push_other
    · rcases kinds with rfl | rfl <;> nofun
    · rcases kinds with rfl | rfl <;> nofun

theorem Sound.behind (h : r.Sound) (behind : r.Behind b) : b.Sound := by
  cases behind with
  | self => exact h
  | run stage => exact h.endRun stage

theorem Sound.moveTo (h : r.Sound) (position : Nat) : (r.moveTo position).Sound :=
  ⟨h.inner, h.run, h.bracket, h.nested⟩

theorem Sound.stop (h : r.Sound) (cause : Cause) (position : Nat) :
    (r.stop cause position).Sound := ⟨nofun, nofun, nofun, h.nested⟩

theorem Sound.unread (h : r.Sound) {kind : Token.Kind} {last : Char} {taken : List Char}
    (stage : r.stage = .counting kind (last :: taken)) : (r.unread kind taken).Sound := by
  have inner := h.inner
  rw [stage] at inner
  refine ⟨inner, ?_, nofun, h.nested⟩
  rintro _ _ ⟨⟩
  exact h.run kind _ stage

theorem Sound.step (h : r.Sound) (step : r.Step c q) : q.Sound := by
  cases step with
  | @numeral kind taken stage _ =>
    have inner := h.inner
    rw [stage] at inner
    refine ⟨inner, ?_, nofun, h.nested⟩
    rintro _ _ ⟨⟩
    exact h.run kind taken stage
  | literal =>
    refine ⟨nofun, ?_, nofun, h.nested⟩
    rintro _ _ ⟨⟩
    exact .inr rfl
  | filler behind =>
    have sound := h.behind behind
    exact ⟨sound.inner, sound.run, sound.bracket, sound.nested⟩
  | openBracket behind =>
    have sound := h.behind behind
    refine ⟨fun _ => Nat.succ_pos _, ?_, nofun, sound.nested.push_open rfl⟩
    rintro _ _ ⟨⟩
    exact .inl rfl
  | separator behind => exact ⟨nofun, nofun, nofun, (h.behind behind).nested⟩
  | bracket stage =>
    have inside : 0 < r.depth := by
      apply h.inner
      rcases stage with stage | stage <;> rw [stage] <;> trivial
    refine ⟨fun _ => inside, nofun, ?_, h.nested⟩
    rintro _ _ ⟨⟩
    exact ⟨['の'], rfl⟩
  | @givenBack kind taken stage something inside =>
    have sound := (h.unread stage).endRun rfl
    refine ⟨fun _ => sound.inner ?_, nofun, ?_, sound.nested⟩
    · change (Stage.behindRun kind r.depth).Inner
      rcases behindRun_cases kind r.depth with named | ready | settled
      · rw [named]
        trivial
      · exact absurd ready inside
      · rw [settled]
        trivial
    · rintro _ _ ⟨⟩
      exact ⟨['の', 'う'], rfl⟩
  | closing stage =>
    have inner := h.inner
    rw [stage] at inner
    refine ⟨inner, nofun, ?_, h.nested⟩
    rintro _ _ ⟨⟩
    exact (List.suffix_cons c _).trans (h.bracket _ _ stage)
  | closed stage =>
    -- Here it matters that a bracket is open, since its depth is taken down by one.
    have inner := h.inner
    rw [stage] at inner
    have outside := not_within (.inr (behind_cases (r.depth - 1)))
    refine ⟨inner_behind, ?_, ?_, h.nested.push_close (inner trivial) rfl⟩
    · intro kind taken counting
      exact absurd counting (outside.1 kind taken)
    · intro expected further closing
      exact absurd closing (outside.2 expected further)
  | stop cause _ behind => exact ((h.behind behind).stop cause _).moveTo _
  | stopBefore cause stage behind => exact (((h.unread stage).behind behind).stop cause _).moveTo _
  | dead => exact h.moveTo _

theorem read_sound (text : List Char) : (read text).Sound :=
  read_induction (P := fun _ r => r.Sound) start_sound (fun _ _ _ _ _ h step => h.step step) text

theorem Sound.finish_nested (h : r.Sound) : Nested r.finish.tokens r.finish.depth := by
  unfold finish
  split
  · split
    · exact h.nested
    · split
      · exact h.nested.push_other nofun nofun
      · exact h.nested
  all_goals exact h.nested

end Reading
end SumomoLexer
