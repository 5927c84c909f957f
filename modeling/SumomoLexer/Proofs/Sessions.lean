import SumomoLexer.Session
import SumomoLexer.Proofs.Undecodable

/-! # What a session remembers

A session lexes every source as if it were the first, and what it holds afterwards are the tokens of
that source, or none if it could not be lexed. Of earlier sources nothing is left. It makes no
difference whether a source is given as text or as the bytes that encode it.
-/
namespace SumomoLexer.Session
set_option autoImplicit false

/-- What a request comes to by itself. Recalling only repeats what is held. -/
def Request.result? : Request → Option (Except Failure (List Token))
  | .restart => some (.ok [])
  | .lex text => some (SumomoLexer.lex text)
  | .lexBytes bytes => some (SumomoLexer.lexBytes bytes)
  | .recall => none

def kept : Except Failure (List Token) → List Token
  | .ok tokens => tokens
  | .error _ => []

/-- The tokens that the last of the requests left, where recalling does not count. -/
def lastKept (requests : List Request) : List Token :=
  ((requests.filterMap Request.result?).getLast?.map kept).getD []

def after (s : Session) (requests : List Request) : Session :=
  requests.foldl (fun s request => (s.perform request).2) s

/-- The same source, as it is or encoded, and any request for itself. -/
inductive SameSource : Request → Request → Prop
  | same (request : Request) : SameSource request request
  | encoded (text : String) : SameSource (.lex text) (.lexBytes (Utf8.encode text))

variable {s : Session} {request other : Request} {requests others : List Request}
  {result : Except Failure (List Token)}

theorem hold_forget (s : Session) (result : Except Failure (List Token)) :
    s.forget.hold result = (result, ⟨kept result⟩) := by
  cases result with
  | ok tokens => rfl
  | error e => rfl

theorem perform_of_result (h : request.result? = some result) (s : Session) :
    s.perform request = (result, ⟨kept result⟩) := by
  cases request with
  | restart =>
    cases h
    rfl
  | lex text =>
    cases h
    exact hold_forget s (SumomoLexer.lex text)
  | lexBytes bytes =>
    cases h
    exact hold_forget s (SumomoLexer.lexBytes bytes)
  | _ => cases h

theorem perform_of_none (h : request.result? = none) (s : Session) :
    s.perform request = (.ok s.tokens, s) := by
  cases request with
  | restart | lex | lexBytes => cases h
  | _ => rfl

theorem tokens_after (s : Session) (requests : List Request) :
    (s.after requests).tokens =
      ((requests.filterMap Request.result?).getLast?.map kept).getD s.tokens := by
  induction requests generalizing s with
  | nil => rfl
  | cons request requests ih =>
    have next : (s.after (request :: requests)).tokens =
        ((s.perform request).2.after requests).tokens := rfl
    rw [next, ih]
    cases own : request.result? with
    | none => rw [perform_of_none own, List.filterMap_cons_none own]
    | some result =>
      rw [perform_of_result own, List.filterMap_cons_some own, List.getLast?_cons]
      cases (requests.filterMap Request.result?).getLast? <;> rfl

theorem after_new (requests : List Request) : new.after requests = ⟨lastKept requests⟩ :=
  congrArg mk (tokens_after new requests)

/-! ## Sources as bytes -/

theorem SameSource.perform_eq (h : SameSource request other) (s : Session) :
    s.perform other = s.perform request := by
  cases h with
  | same => rfl
  | encoded text => rw [perform, perform, lexBytes_encode]

theorem after_of_sameSource (h : List.Forall₂ SameSource requests others) (s : Session) :
    s.after others = s.after requests := by
  induction h generalizing s with
  | nil => rfl
  | cons same _ ih =>
    rw [after, after, List.foldl_cons, List.foldl_cons, same.perform_eq]
    exact ih _

/-- After whatever requests, a session answers what lexing answers by itself and holds the tokens of this
answer alone; recalling repeats them. Encoding any of the texts changes no answer and no session. -/
theorem session_forgets (requests : List Request) :
    (∀ text, (new.after requests).perform (.lex text) =
      (SumomoLexer.lex text, ⟨kept (SumomoLexer.lex text)⟩)) ∧
    (∀ bytes, (new.after requests).perform (.lexBytes bytes) =
      (SumomoLexer.lexBytes bytes, ⟨kept (SumomoLexer.lexBytes bytes)⟩)) ∧
    (new.after requests).perform .restart = (.ok [], ⟨[]⟩) ∧
    (new.after requests).perform .recall = (.ok (lastKept requests), ⟨lastKept requests⟩) ∧
    ∀ others request other, List.Forall₂ SameSource requests others → SameSource request other →
      new.after others = new.after requests ∧
      (new.after others).perform other = (new.after requests).perform request := by
  refine ⟨?_, ?_, rfl, ?_, ?_⟩
  · intro text
    exact perform_of_result rfl _
  · intro bytes
    exact perform_of_result rfl _
  · rw [after_new]
    rfl
  · intro others request other history same
    have before := after_of_sameSource history new
    constructor
    · exact before
    · rw [before, same.perform_eq]

/-- A source that cannot be lexed comes between two that can, and the last one is given as bytes. -/
theorem session_forgets_of_failure_between :
    (new.after [.lex "も ", .lexBytes (Utf8.encode "すも")]).perform .recall = (.ok [], ⟨[]⟩) ∧
      (new.after [.lex "も ", .lexBytes (Utf8.encode "すも")]).perform
          (.lexBytes (Utf8.encode "の\n")) =
        (.ok [⟨.numberLiteral, some "の", ⟨0, 0⟩, ⟨0, 1, by decide⟩⟩],
          ⟨[⟨.numberLiteral, some "の", ⟨0, 0⟩, ⟨0, 1, by decide⟩⟩]⟩) := by
  have lexed : SumomoLexer.lex "の\n" =
      .ok [⟨.numberLiteral, some "の", ⟨0, 0⟩, ⟨0, 1, by decide⟩⟩] := by decide +kernel
  have nothing : lastKept [.lex "も ", .lex "すも"] = [] := by decide +kernel
  obtain ⟨text, -, -, held, same⟩ := session_forgets [.lex "も ", .lex "すも"]
  have history : List.Forall₂ SameSource [.lex "も ", .lex "すも"]
      [.lex "も ", .lexBytes (Utf8.encode "すも")] :=
    .cons (.same _) (.cons (.encoded _) .nil)
  constructor
  · rw [(same _ _ _ history (.same .recall)).2, held, nothing]
  · rw [(same _ _ _ history (.encoded "の\n")).2, text, lexed]
    rfl

end SumomoLexer.Session
