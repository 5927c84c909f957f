import SumomoLexer.Proofs.Encoding
import SumomoLexer.Proofs.LineTracking
import SumomoLexer.Proofs.Reading.Blame

/-! # Bytes that are not a text

Any bytes are an encoded text followed by bytes that no character begins with. If there are such bytes,
their beginning is the defect that is reported, and its place is the end of the text in front of it: in
bytes, in characters and as a line mark. Whether that text lexes does not matter.
-/
namespace SumomoLexer
open String (utf8EncodeChar)
set_option autoImplicit false

namespace Utf8

variable {bytes more : List UInt8}

def encode (text : String) : List UInt8 := text.toUTF8.data.toList

theorem encode_eq (text : String) : encode text = text.toList.flatMap utf8EncodeChar := by
  have same : (text.toList.flatMap utf8EncodeChar).toByteArray = text.toByteArray :=
    String.utf8Encode_toList
  rw [encode, String.toUTF8, ← same, List.data_toByteArray]

theorem isValidUTF8_iff : bytes.toByteArray.IsValidUTF8 ↔ ∃ text, encode text = bytes := by
  constructor
  · rintro ⟨text, same⟩
    refine ⟨String.ofList text, ?_⟩
    have data := congrArg ByteArray.data same
    rw [List.utf8Encode, List.data_toByteArray, List.data_toByteArray] at data
    rw [encode_eq, String.toList_ofList]
    exact (Array.toList_inj.mpr data).symm
  · rintro ⟨text, rfl⟩
    refine ⟨text.toList, ?_⟩
    rw [encode_eq, List.utf8Encode]

theorem exists_undecodable (bytes : List UInt8) :
    ∃ text more, bytes = encode text ++ more ∧ Undecodable more := by
  simp only [encode_eq]
  induction size : bytes.length using Nat.strong_induction_on generalizing bytes with
  | h length ih =>
    by_cases stuck : Undecodable bytes
    · exact ⟨"", bytes, rfl, stuck⟩
    · obtain ⟨c, rest, rfl⟩ := not_forall_not.mp stuck
      clear stuck
      have shorter : rest.length < length := by
        have something := List.length_pos_iff.mpr (String.utf8EncodeChar_ne_nil (c := c))
        rw [List.length_append] at size
        omega
      obtain ⟨text, more, rfl, stuck⟩ := ih _ shorter rest rfl
      refine ⟨String.ofList (c :: text.toList), more, ?_, stuck⟩
      rw [String.toList_ofList, List.flatMap_cons, List.append_assoc]

/-! ## Decoding an encoded text -/

def characters (text : String) : List Piece :=
  text.toList.map fun c => .character c (utf8EncodeChar c).length

theorem pieces_encode_append (text : String) (more : List UInt8) :
    pieces (encode text ++ more) = characters text ++ pieces more := by
  rw [encode_eq, pieces_flatMap_append, characters]

theorem filterMap_characters (text : String) :
    (characters text).filterMap Piece.character? = text.toList := by
  rw [characters, List.filterMap_map]
  exact List.filterMap_some

theorem widths_characters (text : String) :
    (characters text).foldl (fun sum p => sum + p.width) 0 = (encode text).length := by
  rw [encode_eq, List.length_flatMap, characters, List.foldl_map, List.sum_eq_foldl, List.foldl_map]
  rfl

theorem takeWhile_characters_append (text : String) {others : List Piece}
    (stuck : ∀ p ∈ others.head?, p.character?.isSome = false) :
    (characters text ++ others).takeWhile (·.character?.isSome) = characters text := by
  have readable : ∀ p ∈ characters text, p.character?.isSome = true := by
    intro p member
    obtain ⟨c, -, rfl⟩ := List.mem_map.mp member
    rfl
  rw [List.takeWhile_append_of_pos readable]
  cases others with
  | nil => exact List.append_nil _
  | cons p others =>
    rw [List.takeWhile_cons, stuck p rfl]
    exact List.append_nil _

theorem decode_encode (text : String) : decode (encode text) = (text, none) := by
  have whole := pieces_encode_append text []
  rw [List.append_nil (encode text), pieces_nil] at whole
  unfold decode
  dsimp only
  rw [whole, takeWhile_characters_append text (by rintro p ⟨⟩), List.drop_left,
    filterMap_characters, String.ofList_toList]

/-- The defect lies behind the bytes of the text. -/
theorem decode_encode_append {first : UInt8} {rest : List UInt8} {width : Nat} {truncated : Bool}
    (illFormed : piece first rest = .illFormed width truncated) (text : String) :
    decode (encode text ++ first :: rest) =
      (text, some ⟨(encode text).length, width, truncated⟩) := by
  have whole := pieces_encode_append text (first :: rest)
  rw [pieces_cons, illFormed] at whole
  unfold decode
  dsimp only
  rw [whole, takeWhile_characters_append text (by rintro p ⟨⟩; rfl), List.drop_left,
    filterMap_characters, widths_characters, String.ofList_toList]

/-! ## Lenient text -/

theorem lossy_encode_append (text : String) (more : List UInt8) :
    lossy (encode text ++ more) = text ++ lossy more := by
  have readable : (characters text).map (fun p => p.character?.getD replacement) = text.toList := by
    rw [characters, List.map_map]
    exact List.map_id _
  rw [lossy, pieces_encode_append, List.map_append, readable, String.ofList_append,
    String.ofList_toList, lossy]

theorem lossy_encode (text : String) : lossy (encode text) = text := by
  have whole := lossy_encode_append text []
  rw [List.append_nil] at whole
  rw [whole, lossy, pieces_nil]
  exact String.append_empty

theorem lossy_of_illFormed {first : UInt8} {rest : List UInt8} {width : Nat} {truncated : Bool}
    (illFormed : piece first rest = .illFormed width truncated) :
    (lossy (first :: rest)).toList.head? = some replacement := by
  rw [lossy, String.toList_ofList, pieces_cons, illFormed]
  rfl

theorem length_lossy_le (bytes : List UInt8) : (lossy bytes).length ≤ bytes.length := by
  rw [lossy, String.length_ofList, List.length_map]
  induction size : bytes.length using Nat.strong_induction_on generalizing bytes with
  | h length ih =>
    cases bytes with
    | nil =>
      rw [pieces_nil]
      exact Nat.zero_le _
    | cons first rest =>
      rw [pieces_cons, List.length_cons, ← size, List.length_cons]
      refine Nat.succ_le_succ (Nat.le_trans (ih _ ?_ _ rfl) ?_)
      · rw [← size, List.length_drop, List.length_cons]
        omega
      · rw [List.length_drop]
        exact Nat.sub_le _ _

end Utf8

/-! ## The rejection -/

theorem lexBytes_encode (text : String) : lexBytes (Utf8.encode text) = lex text :=
  lexBytes_of_decode (Utf8.decode_encode text)

/-- The rejection of bytes that come behind a text: they may begin a character that the end cuts off,
and otherwise the longest beginning of a character is invalid, or else their first byte. -/
structure BlamesBytes (text : String) (more : List UInt8) (e : Rejection) : Prop where
  kind : e.cause.kind = .invalidInput
  position : e.position = text.length
  line : e.line = LineMark.find text text.length
  incomplete : Utf8.Begins more → e.cause.message =
    "Source is not valid UTF-8: " ++
      s!"incomplete utf-8 byte sequence from index {(Utf8.encode text).length}"
  invalid : ¬ Utf8.Begins more → ∃ n, Utf8.LongestBeginning more n ∧ e.cause.message =
    "Source is not valid UTF-8: " ++
      s!"invalid utf-8 sequence of {max 1 n} bytes from index {(Utf8.encode text).length}"

theorem lexBytes_encode_append {more : List UInt8} (something : more ≠ [])
    (stuck : Utf8.Undecodable more) (text : String) :
    ∃ e, lexBytes (Utf8.encode text ++ more) = .error (.rejected e) ∧ BlamesBytes text more e := by
  obtain ⟨first, rest, rfl⟩ := List.exists_cons_of_ne_nil something
  obtain ⟨n, truncated, illFormed, longest, begins⟩ := Utf8.piece_of_undecodable stuck
  refine ⟨_, lexBytes_of_defect (Utf8.decode_encode_append illFormed text), rfl, rfl, rfl, ?_, ?_⟩
  · intro whole
    rw [← begins] at whole
    subst whole
    rfl
  · intro part
    rw [← begins, Bool.not_eq_true] at part
    subst part
    exact ⟨n, longest, rfl⟩

/-- Only bytes are undecodable, and those that are not well-formed always are; where they stop being so
is where they are rejected. -/
theorem lexBytes_undecodable :
    (∀ bytes, (∃ e, lexBytes bytes = .error (.rejected e) ∧ e.cause.kind = .invalidInput) ↔
      ¬ bytes.toByteArray.IsValidUTF8) ∧
    (∀ text e, lex text = .error (.rejected e) → e.cause.kind ≠ .invalidInput) ∧
    ∀ (text : String) (more : List UInt8), more ≠ [] → Utf8.Undecodable more →
      ∃ e, lexBytes (Utf8.encode text ++ more) = .error (.rejected e) ∧
        BlamesBytes text more e := by
  have never (text : String) (e : Rejection) (h : lex text = .error (.rejected e)) :
      e.cause.kind ≠ .invalidInput := (lex_error_cause h).1.kind_ne
  refine ⟨fun bytes => ⟨?_, ?_⟩, never, fun text more something stuck =>
    lexBytes_encode_append something stuck text⟩
  · rintro ⟨e, run, kind⟩ wellFormed
    obtain ⟨text, rfl⟩ := Utf8.isValidUTF8_iff.mp wellFormed
    rw [lexBytes_encode] at run
    exact never text e run kind
  · intro illFormed
    obtain ⟨text, more, rfl, stuck⟩ := Utf8.exists_undecodable bytes
    have something : more ≠ [] := by
      rintro rfl
      exact illFormed (Utf8.isValidUTF8_iff.mpr ⟨text, (List.append_nil _).symm⟩)
    obtain ⟨e, run, blames⟩ := lexBytes_encode_append something stuck text
    exact ⟨e, run, blames.kind⟩

/-- A character that is no sumomo, and then two of the three bytes of another one. -/
theorem lexBytes_undecodable_of_cut_character :
    ∃ e, lexBytes [0xE3, 0x81, 0xAC, 0xE3, 0x81] = .error (.rejected e) ∧ e.position = 1 ∧
      e.cause.message =
        "Source is not valid UTF-8: incomplete utf-8 byte sequence from index 3" := by
  have stuck : Utf8.Undecodable [0xE3, 0x81] := Utf8.undecodable_cons_iff.mpr (by decide)
  have begins : Utf8.Begins [0xE3, 0x81] := ⟨'す', by decide, by decide⟩
  obtain ⟨e, run, blames⟩ := lexBytes_undecodable.2.2 "ぬ" [0xE3, 0x81] nofun stuck
  exact ⟨e, run, blames.position, blames.incomplete begins⟩

end SumomoLexer
