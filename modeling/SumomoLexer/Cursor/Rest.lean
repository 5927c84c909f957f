import SumomoLexer.Cursor

/-! # The rest of a text

What a cursor can still reach is a list of characters, the rest. Each operation of a cursor is said
here in terms of it. What has been passed matters only for giving characters back.
-/
namespace SumomoLexer.Cursor
set_option autoImplicit false

def rest (c : Cursor) : List Char := c.source.toList.drop c.position

theorem length_rest (c : Cursor) : c.rest.length = c.remaining := by
  simp [rest, remaining]

theorem next?_eq_head?_rest (c : Cursor) : c.next? = c.rest.head? := by
  simp [next?, rest, List.head?_drop]

theorem atEnd_iff_rest_eq_nil (c : Cursor) : c.atEnd = true ↔ c.rest = [] := by
  rw [atEnd, next?_eq_head?_rest]
  cases c.rest <;> simp

theorem rest_moveTo_add {c : Cursor} {n : Nat} (h : c.position + n ≤ c.source.size) :
    (c.moveTo (c.position + n) h).rest = c.rest.drop n := by
  simp [rest, moveTo, List.drop_drop]

theorem lookAhead_eq_ok_iff {c : Cursor} {n : Nat} {found : Option Char} :
    c.lookAhead n = .ok found ↔ Offset.Fits c.bound (c.position + n) ∧ found = c.rest[n]? := by
  by_cases fits : Offset.Fits c.bound (c.position + n) <;>
    simp [lookAhead, Offset.addWithin, fits, Except.map, rest, eq_comm]

theorem rest_giveBack {c d : Cursor} (back : c.giveBack = .ok ((), d)) :
    ∃ last, c.source[c.position - 1]? = some last ∧ d.rest = last :: c.rest := by
  obtain ⟨start, source, place, _⟩ := giveBack_eq_ok_iff.mp back
  have inside : c.position - 1 < c.source.toList.length := by
    have le := c.position_le
    simp only [Array.length_toList]
    omega
  refine ⟨c.source.toList[c.position - 1], by simp, ?_⟩
  unfold rest
  rw [source, place, List.drop_eq_getElem_cons inside, Nat.sub_add_cancel (by omega)]

theorem runEnd_eq (p : Char → Bool) (source : Array Char) (i : Nat) (h : i ≤ source.size) :
    runEnd p source i = i + ((source.toList.drop i).takeWhile p).length := by
  fun_induction runEnd p source i with
  | case1 i inside holds ih =>
    have split : source.toList.drop i = source[i] :: source.toList.drop (i + 1) :=
      List.drop_eq_getElem_cons inside
    rw [ih inside, split, List.takeWhile_cons_of_pos holds, List.length_cons]
    omega
  | case2 i inside fails =>
    have split : source.toList.drop i = source[i] :: source.toList.drop (i + 1) :=
      List.drop_eq_getElem_cons inside
    rw [split, List.takeWhile_cons_of_neg fails]
    rfl
  | case3 i outside =>
    rw [List.drop_eq_nil_of_le (by simpa using outside)]
    simp

theorem runLength_eq (p : Char → Bool) (c : Cursor) :
    c.runLength p = (c.rest.takeWhile p).length := by
  rw [runLength, runEnd_eq p c.source c.position c.position_le, rest, Nat.add_sub_cancel_left]

theorem ahead_eq (n : Nat) (c : Cursor) : c.ahead n = c.rest.take n := by
  simp [ahead, rest]

theorem ahead_runLength (p : Char → Bool) (c : Cursor) :
    c.ahead (c.runLength p) = c.rest.takeWhile p := by
  rw [ahead_eq, runLength_eq]
  exact (List.prefix_iff_eq_take.mp (List.takeWhile_prefix p)).symm

theorem rest_takeRun {p : Char → Bool} {c d : Cursor} {n : Nat}
    (run : c.takeRun p = .ok (n, d)) : d.rest = c.rest.dropWhile p := by
  obtain ⟨rfl, _, source, place, _⟩ := takeRun_eq_ok_iff.mp run
  have moved : d.rest = c.rest.drop (c.rest.takeWhile p).length := by
    rw [← runLength_eq, rest, source, place, rest, List.drop_drop]
  have split : (c.rest.takeWhile p ++ c.rest.dropWhile p).drop (c.rest.takeWhile p).length =
      c.rest.dropWhile p := List.drop_left
  rw [List.takeWhile_append_dropWhile] at split
  rw [moved, split]

end SumomoLexer.Cursor
