import SumomoLexer.Scan.Expression

/-! # Scanning a whole text

A text is scanned expression by expression until none of it is left. The end mark is emitted only if
the text has characters and all of them are filler: behind any expression the filler is passed with
it, so that nothing is left to read. The scan of an empty text emits nothing at all.
-/
namespace SumomoLexer.Scan
set_option autoImplicit false

def outermost : ScanM Unit := do
  passFiller
  expression false

theorem outermost_remaining_lt {s t : Scan} (unfinished : ¬ s.cursor.atEnd = true)
    (run : outermost s = .ok () t) : t.remaining < s.remaining := by
  obtain ⟨_, r, skipped, run⟩ := bind_eq_ok_iff.mp run
  obtain ⟨source, place⟩ := passFiller_advances skipped
  obtain ⟨lastSource, further⟩ := expression_progress run
  refine remaining_lt (lastSource.trans source) ?_
  rcases further with further | ⟨_, lastPlace, finished⟩
  · omega
  · rw [Cursor.atEnd_iff] at unfinished finished
    have bound := s.cursor.position_le
    rw [lastSource, source] at finished
    omega

def expressions : ScanM Unit := fun s =>
  if _finished : s.cursor.atEnd = true then .ok () s
  else
    match _run : outermost s with
    | .ok () s' => expressions s'
    | .error e s' => .error e s'
termination_by s => s.remaining
decreasing_by exact outermost_remaining_lt _finished _run

theorem expressions_of_finished {s : Scan} (finished : s.cursor.atEnd = true) :
    expressions s = .ok () s := by
  rw [expressions, dif_pos finished]

theorem expressions_of_unfinished {s : Scan} (unfinished : ¬ s.cursor.atEnd = true) :
    expressions s = (outermost >>= fun _ => expressions) s := by
  rw [expressions, dif_neg unfinished]
  change _ = EStateM.bind outermost (fun _ => expressions) s
  unfold EStateM.bind
  split <;> simp_all

def conclude : ScanM Unit := fun s =>
  let entry := Journal.Entry.scanned s.tokens.size s.cursor.length (s.line.number + 1)
  .ok () { s with journal := s.journal.push entry }

def program : ScanM Unit := do
  expressions
  conclude

end SumomoLexer.Scan
