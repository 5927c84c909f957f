import SumomoLexer.Proofs.Completion
import SumomoLexer.Proofs.Concatenation

/-! # What is emitted stays

The tokens that a run records are those it emits, and a longer text only adds to them. It does not
matter how either run ends: a reading that is cut short has emitted what the whole one had emitted
there, and the end of a text brings nothing but the end mark. Whether a longer text lexes is left
open here.
-/
namespace SumomoLexer
set_option autoImplicit false

def Journal.Entry.token? : Journal.Entry → Option Token
  | .emitted token => some token
  | _ => none

/-- The tokens that the journal of a text shows, whether it lexes or not. -/
def traced (text : String) : List Token :=
  (Lexing.ofText Offset.unbounded text).journal.filterMap Journal.Entry.token?

theorem filterMap_token?_map_emitted (tokens : List Token) :
    (tokens.map Journal.Entry.emitted).filterMap Journal.Entry.token? = tokens := by
  rw [List.filterMap_map]
  exact List.filterMap_some

theorem traced_eq_emitted (text : String) : traced text = emitted text := by
  rw [traced, emitted, Lexing.ofText_unbounded]
  rcases (Reading.read text.toList).finish.live_or_stopped with live | ⟨e, stopped⟩
  · rw [Reading.lexing_of_live live, List.filterMap_append, filterMap_token?_map_emitted]
    exact List.append_nil _
  · rw [Reading.lexing_of_stopped stopped]
    exact filterMap_token?_map_emitted _

namespace Reading

theorem withoutEndMark_read (text : List Char) :
    withoutEndMark (read text).tokens = (read text).tokens := by
  obtain ⟨done, body, -, tiling, -⟩ := read_lays text
  apply List.filter_eq_self.mpr
  intro t member
  exact decide_eq_true (tiling.marks t member)

/-- A rejection at the end emits nothing, and the end mark is taken away again. -/
theorem withoutEndMark_finish_read (text : List Char) :
    withoutEndMark (read text).finish.tokens = (read text).tokens := by
  rcases (read text).finish.live_or_stopped with live | ⟨e, stopped⟩
  · obtain ⟨stage, top⟩ := ready_of_live live
    exact withoutEndMark_finish stage top
  · have nothing : (read text).finish.tokens = (read text).tokens := by
      rcases (read text).live_or_stopped with live | ⟨f, before⟩
      · exact (finish_stopped_of_live live stopped).2.2
      · rw [finish_of_stopped before]
    rw [nothing]
    exact withoutEndMark_read text

end Reading

/-- The tokens of a text, without the end mark, are the first ones of every longer text. -/
theorem traced_append (text more : String) :
    withoutEndMark (traced text) <+: traced (text ++ more) := by
  rw [traced_eq_emitted, traced_eq_emitted, emitted_eq, emitted_eq,
    Reading.withoutEndMark_finish_read, String.toList_append, Reading.read_append]
  exact Reading.outcome_keeps_tokens (Reading.read text.toList) more.toList

/-- Cut inside a close bracket, a text is rejected, and its tokens are still those of the whole. -/
example : traced "すも、ものう" <+: traced "すも、ものうち。" := by decide +kernel

end SumomoLexer
