import Mathlib.Data.List.Forall2
import Mathlib.Order.Bounds.Defs
import Mathlib.Tactic.SplitIfs
import SumomoLexer.Proofs.Decoding

/-! # Encoding and decoding

The library's encoding of characters is the yardstick here: bytes are well-formed if a text encodes to
them, and they begin a character if they are a proper prefix of its encoding. A piece of the decoding is
an encoded character exactly where one stands, and otherwise the longest beginning of one. That the
beginnings are known from the ranges alone rests on this, that each of them can be completed.
-/
namespace SumomoLexer.Utf8
open String (utf8EncodeChar)
set_option autoImplicit false

/-- The bytes lie in the ranges, one by one, and there are as many of them. -/
def Fits (ranges : List ByteRange) (bytes : List UInt8) : Prop :=
  List.Forall₂ (fun range byte => range.contains byte = true) ranges bytes

/-- The range of the byte behind a first one. The bytes behind that lie in `tail`. -/
def second (first : UInt8) : ByteRange :=
  if first = 0xE0 then ⟨0xA0, 0xBF⟩
  else if first = 0xED then ⟨0x80, 0x9F⟩
  else if first = 0xF0 then ⟨0x90, 0xBF⟩
  else if first = 0xF4 then ⟨0x80, 0x8F⟩
  else tail

variable {first b : UInt8} {ranges : List ByteRange} {following rest bytes more : List UInt8}

theorem followers_eq_some_iff :
    followers first = some ranges ↔
      first.toNat < 0x80 ∧ ranges = [] ∨
      0xC2 ≤ first.toNat ∧ first.toNat < 0xE0 ∧ ranges = [second first] ∨
      0xE0 ≤ first.toNat ∧ first.toNat < 0xF0 ∧ ranges = [second first, tail] ∨
      0xF0 ≤ first.toNat ∧ first.toNat ≤ 0xF4 ∧ ranges = [second first, tail, tail] := by
  simp only [followers, second, UInt8.lt_iff_toNat_lt, ← UInt8.toNat_inj, UInt8.reduceToNat]
  split_ifs <;> grind

theorem contains_iff {r : ByteRange} :
    r.contains b = true ↔ r.low.toNat ≤ b.toNat ∧ b.toNat ≤ r.high.toNat := by
  simp only [ByteRange.contains, Bool.and_eq_true, decide_eq_true_eq, UInt8.le_iff_toNat_le]

theorem contains_tail_iff : tail.contains b = true ↔ 0x80 ≤ b.toNat ∧ b.toNat ≤ 0xBF :=
  contains_iff

theorem contains_second_iff :
    (second first).contains b = true ↔ 0x80 ≤ b.toNat ∧ b.toNat ≤ 0xBF ∧
      (first.toNat = 0xE0 → 0xA0 ≤ b.toNat) ∧ (first.toNat = 0xED → b.toNat ≤ 0x9F) ∧
      (first.toNat = 0xF0 → 0x90 ≤ b.toNat) ∧ (first.toNat = 0xF4 → b.toNat ≤ 0x8F) := by
  simp only [contains_iff, second, tail, ← UInt8.toNat_inj, UInt8.reduceToNat]
  split_ifs <;> simp only [UInt8.reduceToNat] <;> omega

/-! ## Characters as bytes -/

theorem assemble_one (first b : UInt8) :
    assemble first [b] = Char.ofNat (first.toNat % 32 * 64 + b.toNat % 64) := rfl

theorem assemble_two (first b c : UInt8) : assemble first [b, c] =
    Char.ofNat ((first.toNat % 16 * 64 + b.toNat % 64) * 64 + c.toNat % 64) := rfl

theorem assemble_three (first b c d : UInt8) : assemble first [b, c, d] =
    Char.ofNat (((first.toNat % 8 * 64 + b.toNat % 64) * 64 + c.toNat % 64) * 64 +
      d.toNat % 64) := rfl

theorem toNat_ofNat {n : Nat} (valid : n < 0xD800 ∨ 0xDFFF < n ∧ n < 0x110000) :
    (Char.ofNat n).val.toNat = n := by
  rw [Char.ofNat, dif_pos valid]
  rfl

/-- What the ranges admit is the encoding of the character that it is decoded to. -/
theorem encodeChar_assemble (lead : followers first = some ranges)
    (fits : Fits ranges following) :
    utf8EncodeChar (assemble first following) = first :: following := by
  rcases followers_eq_some_iff.mp lead with ⟨ascii, rfl⟩ | ⟨low, high, rfl⟩ | ⟨low, high, rfl⟩ |
    ⟨low, high, rfl⟩
  · cases fits
    rw [assemble, utf8EncodeChar, toNat_ofNat (by omega), if_pos (by omega), UInt8.ofNat_toNat]
  · obtain _ | ⟨b, _ | _⟩ := fits
    rw [contains_second_iff] at b
    rw [assemble_one, utf8EncodeChar, toNat_ofNat (by omega), if_neg (by omega),
      if_pos (by omega)]
    simp only [List.cons.injEq, ← UInt8.toNat_inj, UInt8.toNat_ofNat', and_true, Nat.reducePow]
    omega
  · obtain _ | ⟨b, _ | ⟨c, _ | _⟩⟩ := fits
    rw [contains_second_iff] at b
    rw [contains_tail_iff] at c
    rw [assemble_two, utf8EncodeChar, toNat_ofNat (by omega), if_neg (by omega),
      if_neg (by omega), if_pos (by omega)]
    simp only [List.cons.injEq, ← UInt8.toNat_inj, UInt8.toNat_ofNat', and_true, Nat.reducePow]
    omega
  · obtain _ | ⟨b, _ | ⟨c, _ | ⟨d, _ | _⟩⟩⟩ := fits
    rw [contains_second_iff] at b
    rw [contains_tail_iff] at c d
    rw [assemble_three, utf8EncodeChar, toNat_ofNat (by omega), if_neg (by omega),
      if_neg (by omega), if_neg (by omega)]
    simp only [List.cons.injEq, ← UInt8.toNat_inj, UInt8.toNat_ofNat', and_true, Nat.reducePow]
    omega

/-- The encoding of a character is admitted by the ranges, and decoded to the character. -/
theorem exists_fits (c : Char) : ∃ first following ranges,
    utf8EncodeChar c = first :: following ∧ followers first = some ranges ∧
      Fits ranges following ∧ assemble first following = c := by
  have valid : c.val.toNat < 0xD800 ∨ 0xDFFF < c.val.toNat ∧ c.val.toNat < 0x110000 := c.valid
  have back {n : Nat} (same : n = c.val.toNat) : Char.ofNat n = c := by
    rw [same]
    exact Char.ofNat_toNat c
  unfold utf8EncodeChar
  dsimp only
  split_ifs with ascii two three
  · refine ⟨_, _, _, rfl, followers_eq_some_iff.mpr (.inl ⟨?_, rfl⟩), .nil, back ?_⟩ <;>
      simp only [UInt8.toNat_ofNat', Nat.reducePow] <;> omega
  · refine ⟨_, _, _, rfl, followers_eq_some_iff.mpr (.inr (.inl ⟨?_, ?_, rfl⟩)),
      .cons (contains_second_iff.mpr ?_) .nil, (assemble_one _ _).trans (back ?_)⟩ <;>
      simp only [UInt8.toNat_ofNat', Nat.reducePow] <;> omega
  · refine ⟨_, _, _, rfl, followers_eq_some_iff.mpr (.inr (.inr (.inl ⟨?_, ?_, rfl⟩))),
      .cons (contains_second_iff.mpr ?_) (.cons (contains_tail_iff.mpr ?_) .nil),
      (assemble_two _ _ _).trans (back ?_)⟩ <;>
      simp only [UInt8.toNat_ofNat', Nat.reducePow] <;> omega
  · refine ⟨_, _, _, rfl, followers_eq_some_iff.mpr (.inr (.inr (.inr ⟨?_, ?_, rfl⟩))),
      .cons (contains_second_iff.mpr ?_) (.cons (contains_tail_iff.mpr ?_)
        (.cons (contains_tail_iff.mpr ?_) .nil)), (assemble_three _ _ _ _).trans (back ?_)⟩ <;>
      simp only [UInt8.toNat_ofNat', Nat.reducePow] <;> omega

/-! ## Beginnings of characters -/

/-- There is a character of which these bytes are the first ones, but not all. -/
def Begins (bytes : List UInt8) : Prop :=
  ∃ c, bytes <+: utf8EncodeChar c ∧ bytes ≠ utf8EncodeChar c

theorem contains_low (lead : followers first = some ranges) {r : ByteRange} (member : r ∈ ranges) :
    r.contains r.low = true := by
  have own : (second first).contains (second first).low = true := by
    unfold second
    split_ifs <;> decide
  have other : tail.contains tail.low = true := by decide
  have known : r = second first ∨ r = tail := by
    rcases followers_eq_some_iff.mp lead with ⟨-, rfl⟩ | ⟨-, -, rfl⟩ | ⟨-, -, rfl⟩ | ⟨-, -, rfl⟩ <;>
      simp only [List.mem_cons, List.not_mem_nil, or_false] at member <;> tauto
  rcases known with rfl | rfl
  · exact own
  · exact other

theorem fits_map_low (nonempty : ∀ r ∈ ranges, r.contains r.low = true) :
    Fits ranges (ranges.map ByteRange.low) := by
  unfold Fits
  rw [List.forall₂_map_right_iff, List.forall₂_same]
  exact nonempty

theorem begins_cons_iff : Begins (first :: rest) ↔ ∃ ranges, followers first = some ranges ∧
    rest.length < ranges.length ∧ Fits (ranges.take rest.length) rest := by
  constructor
  · rintro ⟨c, isPrefix, proper⟩
    obtain ⟨lead, following, ranges, encoded, known, fits, -⟩ := exists_fits c
    rw [encoded] at isPrefix proper
    obtain ⟨rfl, initial⟩ := List.cons_prefix_cons.mp isPrefix
    have same : ranges.length = following.length := fits.length_eq
    have shorter : rest.length < following.length := by
      refine Nat.lt_of_le_of_ne initial.length_le fun equal => proper ?_
      rw [initial.eq_of_length equal]
    refine ⟨ranges, known, same ▸ shorter, ?_⟩
    have taken := List.forall₂_take rest.length fits
    rwa [← List.prefix_iff_eq_take.mp initial] at taken
  · rintro ⟨ranges, known, shorter, fits⟩
    -- The least byte of each further range completes the character.
    have completed : Fits (ranges.take rest.length ++ ranges.drop rest.length)
        (rest ++ (ranges.drop rest.length).map ByteRange.low) := by
      refine List.rel_append fits (fits_map_low fun r member => ?_)
      exact contains_low known (List.mem_of_mem_drop member)
    rw [List.take_append_drop] at completed
    have encoded := encodeChar_assemble known completed
    refine ⟨assemble first (rest ++ (ranges.drop rest.length).map ByteRange.low), ?_, ?_⟩
    · rw [encoded, ← List.cons_append]
      exact List.prefix_append _ _
    · rw [encoded]
      intro same
      have lengths := congrArg List.length same
      simp only [List.length_cons, List.length_append, List.length_map, List.length_drop] at lengths
      omega

/-! ## Matching -/

theorem fits_take_matching (ranges : List ByteRange) (bytes : List UInt8) :
    Fits (ranges.take (matching ranges bytes)) (bytes.take (matching ranges bytes)) := by
  fun_induction matching ranges bytes with
  | case1 r ranges b bytes holds ih => exact .cons holds ih
  | case2 => exact .nil
  | case3 => exact .nil

theorem le_matching {n : Nat} (fits : Fits (ranges.take n) following) (inside : n ≤ ranges.length)
    (initial : following <+: bytes) : n ≤ matching ranges bytes := by
  induction n generalizing ranges following bytes with
  | zero => exact Nat.zero_le _
  | succ n ih =>
    cases ranges with
    | nil => cases inside
    | cons r ranges =>
      obtain _ | ⟨holds, fits⟩ := fits
      obtain ⟨more, rfl⟩ := initial
      rw [List.cons_append, matching, if_pos holds]
      exact Nat.succ_le_succ (ih fits (Nat.le_of_succ_le_succ inside) (List.prefix_append _ _))

/-! ## Pieces -/

theorem piece_of_fits (lead : followers first = some ranges) (fits : Fits ranges following)
    (more : List UInt8) : piece first (following ++ more) =
      .character (assemble first following) (following.length + 1) := by
  have same : ranges.length = following.length := fits.length_eq
  have whole : matching ranges (following ++ more) = ranges.length := by
    refine Nat.le_antisymm (matching_le_left _ _) ?_
    refine le_matching ?_ (Nat.le_refl _) (List.prefix_append following more)
    rwa [List.take_length]
  unfold piece
  rw [lead]
  dsimp only
  rw [if_pos whole, whole, same, List.take_left]

theorem pieces_encodeChar_append (c : Char) (more : List UInt8) :
    pieces (utf8EncodeChar c ++ more) =
      .character c (utf8EncodeChar c).length :: pieces more := by
  obtain ⟨first, following, ranges, encoded, lead, fits, decoded⟩ := exists_fits c
  have step := piece_of_fits lead fits more
  rw [encoded, List.cons_append, pieces_cons, step, decoded, List.length_cons]
  exact congrArg (_ :: pieces ·) List.drop_left

theorem pieces_flatMap_append (text : List Char) (more : List UInt8) :
    pieces (text.flatMap utf8EncodeChar ++ more) =
      text.map (fun c => .character c (utf8EncodeChar c).length) ++ pieces more := by
  induction text with
  | nil => rfl
  | cons c text ih =>
    rw [List.flatMap_cons, List.append_assoc, pieces_encodeChar_append, ih]
    rfl

/-- No character stands at the beginning. -/
def Undecodable (bytes : List UInt8) : Prop := ∀ c, ¬ utf8EncodeChar c <+: bytes

/-- The longest beginning of a character that the bytes allow has this many. -/
def LongestBeginning (bytes : List UInt8) (n : Nat) : Prop :=
  IsGreatest {k | ∃ initial, initial <+: bytes ∧ Begins initial ∧ initial.length = k} n

theorem begins_nil : Begins [] := ⟨'a', List.nil_prefix, String.utf8EncodeChar_ne_nil.symm⟩

theorem longestBeginning_zero (unknown : followers first = none) :
    LongestBeginning (first :: rest) 0 := by
  constructor
  · exact ⟨[], List.nil_prefix, begins_nil, rfl⟩
  · rintro _ ⟨initial, isPrefix, begins, rfl⟩
    cases initial with
    | nil => exact Nat.le_refl 0
    | cons b initial =>
      obtain ⟨rfl, -⟩ := List.cons_prefix_cons.mp isPrefix
      obtain ⟨ranges, known, -⟩ := begins_cons_iff.mp begins
      rw [unknown] at known
      cases known

theorem longestBeginning_matching (lead : followers first = some ranges)
    (shorter : matching ranges rest < ranges.length) :
    LongestBeginning (first :: rest) (matching ranges rest + 1) := by
  have inside := matching_le_right ranges rest
  have taken : (rest.take (matching ranges rest)).length = matching ranges rest := by
    rw [List.length_take, Nat.min_eq_left inside]
  constructor
  · refine ⟨first :: rest.take (matching ranges rest), ?_,
      begins_cons_iff.mpr ⟨ranges, lead, ?_, ?_⟩, congrArg (· + 1) taken⟩
    · exact List.cons_prefix_cons.mpr ⟨rfl, List.take_prefix _ _⟩
    · rwa [taken]
    · rw [taken]
      exact fits_take_matching ranges rest
  · rintro _ ⟨initial, isPrefix, begins, rfl⟩
    cases initial with
    | nil => exact Nat.zero_le _
    | cons b initial =>
      obtain ⟨rfl, further⟩ := List.cons_prefix_cons.mp isPrefix
      obtain ⟨_, known, less, fits⟩ := begins_cons_iff.mp begins
      cases lead.symm.trans known
      exact Nat.succ_le_succ (le_matching fits (Nat.le_of_lt less) further)

/-- Where no character stands, the piece is the longest beginning of one, or a single byte. It is
truncated if it is all there is. -/
theorem piece_of_undecodable (h : Undecodable (first :: rest)) : ∃ n truncated,
    piece first rest = .illFormed (max 1 n) truncated ∧ LongestBeginning (first :: rest) n ∧
      (truncated = true ↔ Begins (first :: rest)) := by
  unfold piece
  cases lead : followers first with
  | none =>
    refine ⟨0, false, rfl, longestBeginning_zero lead, ?_⟩
    rw [begins_cons_iff, lead]
    simp
  | some ranges =>
    have fits := fits_take_matching ranges rest
    have shorter : matching ranges rest < ranges.length := by
      refine Nat.lt_of_le_of_ne (matching_le_left _ _) fun whole => ?_
      rw [whole, List.take_length] at fits
      refine h (assemble first (rest.take ranges.length)) ?_
      rw [encodeChar_assemble lead fits]
      exact List.cons_prefix_cons.mpr ⟨rfl, List.take_prefix _ _⟩
    dsimp only
    rw [if_neg (Nat.ne_of_lt shorter)]
    refine ⟨matching ranges rest + 1, decide (matching ranges rest = rest.length), ?_,
      longestBeginning_matching lead shorter, ?_⟩
    · rw [Nat.max_eq_right (Nat.succ_le_succ (Nat.zero_le _))]
    · rw [decide_eq_true_eq, begins_cons_iff, lead]
      constructor
      · intro all
        rw [all] at shorter fits
        rw [List.take_length] at fits
        exact ⟨ranges, rfl, shorter, fits⟩
      · rintro ⟨_, ⟨⟩, less, whole⟩
        exact Nat.le_antisymm (matching_le_right _ _)
          (le_matching whole (Nat.le_of_lt less) List.prefix_rfl)

theorem undecodable_cons_iff :
    Undecodable (first :: rest) ↔ (piece first rest).character? = none := by
  constructor
  · intro stuck
    obtain ⟨n, truncated, illFormed, -⟩ := piece_of_undecodable stuck
    rw [illFormed]
    rfl
  · rintro none c ⟨more, whole⟩
    obtain ⟨lead, following, ranges, encoded, known, fits, -⟩ := exists_fits c
    rw [encoded, List.cons_append] at whole
    cases whole
    rw [piece_of_fits known fits] at none
    cases none

end SumomoLexer.Utf8
