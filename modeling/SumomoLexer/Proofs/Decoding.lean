import SumomoLexer.Utf8

/-! # Strict and lenient decoding

Bytes that are well-formed decode to the same text both ways. Otherwise the text before the first
ill-formed piece is what the lenient text begins with.
-/
namespace SumomoLexer.Utf8
set_option autoImplicit false

def wellFormed (all : List Piece) : List Piece := all.takeWhile (·.character?.isSome)

theorem filterMap_wellFormed (all : List Piece) :
    (wellFormed all).filterMap (·.character?) =
      (wellFormed all).map fun p => p.character?.getD replacement := by
  induction all with
  | nil => rfl
  | cons p all ih =>
    rw [wellFormed, List.takeWhile_cons]
    cases p with
    | illFormed width truncated => rfl
    | character c width => exact congrArg (c :: ·) ih

def remainder (all : List Piece) : List Piece := all.dropWhile (·.character?.isSome)

theorem wellFormed_append_remainder (all : List Piece) :
    wellFormed all ++ remainder all = all := List.takeWhile_append_dropWhile

theorem drop_wellFormed (all : List Piece) :
    all.drop (wellFormed all).length = remainder all := by
  have cut : (wellFormed all ++ remainder all).drop (wellFormed all).length = remainder all :=
    List.drop_left
  rw [wellFormed_append_remainder] at cut
  exact cut

theorem remainder_head {all others : List Piece} {p : Piece}
    (h : remainder all = p :: others) : p.character?.isSome = false := by
  have head := List.head?_dropWhile_not (·.character?.isSome) all
  unfold remainder at h
  rw [h] at head
  exact head

theorem decode_text (bytes : List UInt8) :
    (decode bytes).1 = String.ofList ((wellFormed (pieces bytes)).filterMap (·.character?)) := by
  unfold decode
  dsimp only
  split <;> rfl

theorem decode_defect_eq_none_iff (bytes : List UInt8) :
    (decode bytes).2 = none ↔ remainder (pieces bytes) = [] := by
  have rest : (pieces bytes).drop ((pieces bytes).takeWhile (·.character?.isSome)).length =
      remainder (pieces bytes) := drop_wellFormed (pieces bytes)
  unfold decode
  dsimp only
  rw [rest]
  cases first : remainder (pieces bytes) with
  | nil => simp
  | cons p others =>
    have head := remainder_head first
    cases p with
    | character c width => cases head
    | illFormed width truncated => simp

/-- The lenient text goes on behind the strict one only if the bytes are ill-formed. -/
theorem lossy_eq (bytes : List UInt8) : ∃ more,
    (lossy bytes).toList = (decode bytes).1.toList ++ more ∧
      ((decode bytes).2 = none → more = []) := by
  refine ⟨(remainder (pieces bytes)).map fun p => p.character?.getD replacement, ?_, ?_⟩
  · rw [decode_text, filterMap_wellFormed, lossy, String.toList_ofList, String.toList_ofList,
      ← List.map_append, wellFormed_append_remainder]
  · intro whole
    rw [(decode_defect_eq_none_iff bytes).mp whole, List.map_nil]

end SumomoLexer.Utf8
