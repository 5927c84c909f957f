import SumomoLexer.Proofs.Emission
import SumomoLexer.Proofs.Printing

/-! # Runs of the program

A run that reads its source exits and prints by the bytes and by whether positions are asked for; the
other options and the place that the bytes come from only matter for the journal, which is shown in
rows of its own on standard error. Where a source is lexed, what is printed also gives its tokens back.
This is so however words are read as options, and whatever there is to read under any name.
-/
namespace SumomoLexer
open Vocabulary Grammar
set_option autoImplicit false

variable {bytes more : List UInt8} {tokens others : List Token} {printed : List String}
  {o p : Options}

/-! ## The rows of the journal -/

namespace Journal.Entry

def row (e : Entry) : String := e.level.name ++ " - " ++ e.text

theorem oneLine_text {e : Entry} (h : ∀ t, e = .emitted t → OneLine t.text) : OneLine e.text := by
  have read : OneLine "Read " := by decide
  have lexed : OneLine "Lexed " := by decide
  have ofTokens : OneLine " tokens from " := by decide
  have overLines : OneLine " characters over " := by decide
  cases e with
  | read bytes => exact (read.append (oneLine_repr bytes)).append (by decide)
  | emitted t => exact ((h t rfl).append (by decide)).append (t.range.oneLine_text)
  | scanned tokens characters lines =>
    have first := (lexed.append (oneLine_repr tokens)).append ofTokens
    have second := (first.append (oneLine_repr characters)).append overLines
    exact (second.append (oneLine_repr lines)).append (by decide)
  | lexed tokens => exact (lexed.append (oneLine_repr tokens)).append (by decide)

theorem oneLine_row {e : Entry} (h : ∀ t, e = .emitted t → OneLine t.text) : OneLine e.row := by
  have level : OneLine e.level.name := by
    cases e.level <;> decide
  exact (level.append (by decide)).append (oneLine_text h)

end Journal.Entry

theorem Lexing.oneLine_emitted {t : Token}
    (h : .emitted t ∈ (Lexing.ofBytes Offset.unbounded bytes).journal) : OneLine t.text := by
  rcases decoded : Utf8.decode bytes with ⟨text, none | defect⟩
  · rw [Lexing.ofBytes, decoded] at h
    have shown : t ∈ traced text := List.mem_filterMap.mpr ⟨_, h, rfl⟩
    rw [traced_eq_emitted, emitted_eq] at shown
    obtain ⟨body, spells⟩ := Reading.finish_spells shown
    exact spells.oneLine
  · rw [Lexing.ofBytes, decoded] at h
    cases h

namespace Program

def fullJournal (bytes : List UInt8) : List Journal.Entry :=
  journal bytes (Lexing.ofBytes Offset.unbounded bytes)

/-- The rows that are shown of the journal, each one for an entry. -/
def journalRows (o : Options) (bytes : List UInt8) : List String :=
  if o.quiet then [] else (Journal.shown o.verbose (fullJournal bytes)).map Journal.Entry.row

theorem oneLine_of_mem_fullJournal {e : Journal.Entry} (member : e ∈ fullJournal bytes) :
    OneLine e.row := by
  apply Journal.Entry.oneLine_row
  rintro t rfl
  rw [fullJournal, journal] at member
  rcases List.mem_append.mp member with before | done
  · rcases List.mem_append.mp before with first | emitted
    · cases List.mem_singleton.mp first
    · exact Lexing.oneLine_emitted emitted
  · split at done
    · cases List.mem_singleton.mp done
    · cases done

theorem oneLine_of_mem_journalRows {row : String} (member : row ∈ journalRows o bytes) :
    OneLine row := by
  rw [journalRows] at member
  split at member
  · cases member
  · obtain ⟨e, shown, rfl⟩ := List.mem_map.mp member
    exact oneLine_of_mem_fullJournal (List.mem_filter.mp shown).1

theorem journalRows_of_quiet (quiet : o.quiet = true) : journalRows o bytes = [] := by
  rw [journalRows, if_pos quiet]

theorem journalRows_sublist (loud : o.quiet = false) (also : p.quiet = false)
    (le : o.verbose ≤ p.verbose) : (journalRows o bytes).Sublist (journalRows p bytes) := by
  rw [journalRows, journalRows, loud, also]
  exact (Journal.shown_sublist le _).map Journal.Entry.row

theorem shownJournal_eq (o : Options) (bytes : List UInt8) :
    shownJournal o (fullJournal bytes) = sheet (journalRows o bytes) := by
  rw [shownJournal, journalRows]
  split
  · rfl
  · rw [sheet, List.map_map]
    rfl

/-! ## What a run reports -/

/-- What the program prints of bytes, and how it exits, under these options. -/
inductive Outcome.Reports (o : Options) (bytes : List UInt8) : Outcome → Prop where
  | accepted {tokens : List Token} {printed : List String} : lexBytes bytes = .ok tokens →
    Prints o.positions tokens printed →
    Reports o bytes ⟨success, sheet printed, sheet (journalRows o bytes)⟩
  | rejected {e : Rejection} {description : String} : lexBytes bytes = .error (.rejected e) →
    e.diagnostic.Draws (Utf8.lossy bytes) description →
    Reports o bytes ⟨failure, "", sheet (journalRows o bytes) ++ description ++ "\n"⟩

theorem onSource_of_accepted (accepted : lexBytes bytes = .ok tokens)
    (prints : Prints o.positions tokens printed) :
    onSource o bytes = .ok ⟨success, sheet printed, sheet (journalRows o bytes)⟩ := by
  rw [lexBytes] at accepted
  rw [onSource, accepted, ← shownJournal_eq]
  dsimp only
  rw [prints.mapM_tokenLine]
  rfl

theorem onSource_of_rejected {e : Rejection} {description : String}
    (rejected : lexBytes bytes = .error (.rejected e))
    (drawn : e.diagnostic.Draws (Utf8.lossy bytes) description) : onSource o bytes =
      .ok ⟨failure, "", sheet (journalRows o bytes) ++ description ++ "\n"⟩ := by
  rw [lexBytes] at rejected
  rw [onSource, rejected, ← shownJournal_eq]
  dsimp only
  rw [drawn.unbounded]
  rfl

end Program

theorem exists_lex_of_lexBytes (accepted : lexBytes bytes = .ok tokens) :
    ∃ text, lex text = .ok tokens := by
  rcases decoded : Utf8.decode bytes with ⟨text, none | defect⟩
  · rw [lexBytes_of_decode decoded] at accepted
    exact ⟨text, accepted⟩
  · rw [lexBytes_of_defect decoded] at accepted
    cases accepted

theorem Program.exists_prints_of_accepted (accepted : lexBytes bytes = .ok tokens) (o : Options) :
    ∃ printed, Prints o.positions tokens printed ∧
      onSource o bytes = .ok ⟨success, sheet printed, sheet (journalRows o bytes)⟩ := by
  obtain ⟨text, same⟩ := exists_lex_of_lexBytes accepted
  obtain ⟨printed, prints⟩ := exists_prints same o.positions
  exact ⟨printed, prints, onSource_of_accepted accepted prints⟩

/-- What is read is addressed by words, so that there is room to count the lines of a rejection. -/
theorem Program.exists_reports (addressable : Offset.Fits Offset.word bytes.length) (o : Options) :
    ∃ out, onSource o bytes = .ok out ∧ Outcome.Reports o bytes out := by
  cases run : lexBytes bytes with
  | ok tokens =>
    obtain ⟨printed, prints, ran⟩ := exists_prints_of_accepted run o
    exact ⟨_, ran, .accepted run prints⟩
  | error failure =>
    obtain ⟨e, rfl, placed⟩ := lexBytes_error_placed run
    obtain ⟨_, description, -, drawn⟩ :=
      placed.drawn (addressable.mono (Utf8.length_lossy_le bytes))
    exact ⟨_, onSource_of_rejected run drawn, .rejected run drawn⟩

theorem Program.Outcome.Reports.alike {out other : Outcome} (first : out.Reports o bytes)
    (second : other.Reports p bytes) (agree : o.positions = p.positions) :
    out.stdout = other.stdout ∧ out.exit = other.exit := by
  cases first with
  | accepted run prints =>
    cases second with
    | accepted also reprints =>
      cases run.symm.trans also
      rw [agree] at prints
      exact ⟨prints.sheet_eq reprints, rfl⟩
    | rejected also _ => cases run.symm.trans also
  | rejected run _ =>
    cases second with
    | accepted also _ => cases run.symm.trans also
    | rejected _ _ => exact ⟨rfl, rfl⟩

/-! ## Invocations -/

namespace Program.Invocation

/-- The words are these options, and the source that they name can be read and has these bytes. -/
structure Reads (i : Invocation) (o : Options) (bytes : List UInt8) : Prop where
  parsed : i.parse i.words = .ok o
  source : i.source o = .ok bytes

theorem Reads.run_eq {i : Invocation} (reads : i.Reads o bytes) : run i = onSource o bytes := by
  rw [run, reads.parsed]
  change onRead o (i.source o) = _
  rw [reads.source]
  rfl

/-- A run with these files, of which each is found under its own name only. -/
def withFiles (words : List String) (stdin : List UInt8) (files : List (String × List UInt8)) :
    Invocation :=
  ⟨words, Program.parse, .ok stdin, fun name => (files.lookup name).elim (.error .notFound) .ok⟩

end Program.Invocation

variable {i j : Program.Invocation}

/-- Two sources that lex and are printed alike have the same tokens, if positions are printed, and the
same lexemes in any case. -/
theorem stdout_lossless (reads : i.Reads o bytes) (also : j.Reads p more)
    (agree : o.positions = p.positions) (first : lexBytes bytes = .ok tokens)
    (second : lexBytes more = .ok others) :
    ∃ out other, Program.run i = .ok out ∧ Program.run j = .ok other ∧
      (out.stdout = other.stdout → (o.positions = true → tokens = others) ∧
        tokens.map Token.lexeme = others.map Token.lexeme) := by
  obtain ⟨printed, prints, ran⟩ := Program.exists_prints_of_accepted first o
  obtain ⟨reprinted, reprints, reran⟩ := Program.exists_prints_of_accepted second p
  refine ⟨_, _, reads.run_eq.trans ran, also.run_eq.trans reran, ?_⟩
  intro same
  rw [← agree] at reprints
  cases prints.printed_eq reprints same
  refine ⟨?_, prints.lexemes_eq reprints⟩
  intro positions
  rw [positions] at prints reprints
  obtain ⟨text, accepted⟩ := exists_lex_of_lexBytes first
  obtain ⟨longer, lexed⟩ := exists_lex_of_lexBytes second
  exact prints.tokens_eq reprints accepted lexed

/-- The filler behind a literal is not printed, from a file anywhere or from standard input. -/
theorem stdout_lossless_of_filler : ∃ out other,
    Program.run (.withFiles ["-p", "/tmp/a"] [] [("/tmp/a", [0xE3, 0x82, 0x82, 0x20])]) = .ok out ∧
    Program.run (.withFiles ["-qp", "-"] [0xE3, 0x82, 0x82, 0x0A] []) = .ok other ∧
    out.stdout = "1:1\t0..1\tnumberliteral も\n" ∧ out.stdout = other.stdout ∧
    lexBytes [0xE3, 0x82, 0x82, 0x20] = lexBytes [0xE3, 0x82, 0x82, 0x0A] := by
  have reads : Program.Invocation.Reads
      (.withFiles ["-p", "/tmp/a"] [] [("/tmp/a", [0xE3, 0x82, 0x82, 0x20])])
      ⟨"/tmp/a", 1, false, true⟩ [0xE3, 0x82, 0x82, 0x20] := ⟨by decide +kernel, by decide +kernel⟩
  have also : Program.Invocation.Reads (.withFiles ["-qp", "-"] [0xE3, 0x82, 0x82, 0x0A] [])
      ⟨"-", 1, true, true⟩ [0xE3, 0x82, 0x82, 0x0A] := ⟨by decide +kernel, by decide +kernel⟩
  have ran : Program.run (.withFiles ["-p", "/tmp/a"] [] [("/tmp/a", [0xE3, 0x82, 0x82, 0x20])]) =
      .ok ⟨0, "1:1\t0..1\tnumberliteral も\n", ""⟩ := by decide +kernel
  have reran : Program.run (.withFiles ["-qp", "-"] [0xE3, 0x82, 0x82, 0x0A] []) =
      .ok ⟨0, "1:1\t0..1\tnumberliteral も\n", ""⟩ := by decide +kernel
  obtain ⟨tokens, first⟩ : ∃ tokens, lexBytes [0xE3, 0x82, 0x82, 0x20] = .ok tokens :=
    ⟨[⟨.numberLiteral, some "も", ⟨0, 0⟩, ⟨0, 1, by decide⟩⟩], by decide +kernel⟩
  obtain ⟨others, second⟩ : ∃ others, lexBytes [0xE3, 0x82, 0x82, 0x0A] = .ok others :=
    ⟨[⟨.numberLiteral, some "も", ⟨0, 0⟩, ⟨0, 1, by decide⟩⟩], by decide +kernel⟩
  obtain ⟨_, _, run, rerun, lossless⟩ := stdout_lossless reads also rfl first second
  cases ran.symm.trans run
  cases reran.symm.trans rerun
  cases (lossless rfl).1 rfl
  exact ⟨_, _, run, rerun, rfl, rfl, first.trans second.symm⟩

/-- Runs on the same bytes answer alike, each with its own journal: none if it is quiet, and part of
that of every more verbose run. -/
theorem run_reports (reads : i.Reads o bytes) (also : j.Reads p bytes)
    (agree : o.positions = p.positions) (addressable : Offset.Fits Offset.word bytes.length) :
    ∃ out other, Program.run i = .ok out ∧ Program.run j = .ok other ∧
      out.Reports o bytes ∧ other.Reports p bytes ∧
      out.stdout = other.stdout ∧ out.exit = other.exit ∧
      (∀ row ∈ Program.journalRows o bytes, OneLine row) ∧
      (o.quiet = true → Program.journalRows o bytes = []) ∧
      (o.quiet = false → p.quiet = false → o.verbose ≤ p.verbose →
        (Program.journalRows o bytes).Sublist (Program.journalRows p bytes)) := by
  obtain ⟨out, ran, reports⟩ := Program.exists_reports addressable o
  obtain ⟨other, reran, answers⟩ := Program.exists_reports addressable p
  obtain ⟨stdout, exit⟩ := reports.alike answers agree
  refine ⟨out, other, reads.run_eq.trans ran, also.run_eq.trans reran, reports, answers, stdout,
    exit, ?_, ?_, ?_⟩
  · intro row member
    exact Program.oneLine_of_mem_journalRows member
  · exact Program.journalRows_of_quiet
  · exact Program.journalRows_sublist

/-- A lone す, from a file with the whole journal and from standard input with none. -/
theorem run_reports_of_lone_bracket : ∃ out other,
    Program.run (.withFiles ["-v", "4", "../a"] [] [("../a", [0xE3, 0x81, 0x99])]) = .ok out ∧
    Program.run (.withFiles ["-q", "-"] [0xE3, 0x81, 0x99] []) = .ok other ∧
    other.stdout = out.stdout ∧ other.exit = out.exit ∧ out.exit = 1 ∧
    other.stderr = "UnexpectedEof\nReached the end of input while reading operator.\nす\n　^\n" ∧
    Program.journalRows ⟨"-", 1, true, false⟩ [0xE3, 0x81, 0x99] = [] := by
  have reads : Program.Invocation.Reads (.withFiles ["-q", "-"] [0xE3, 0x81, 0x99] [])
      ⟨"-", 1, true, false⟩ [0xE3, 0x81, 0x99] := ⟨by decide +kernel, by decide +kernel⟩
  have also : Program.Invocation.Reads
      (.withFiles ["-v", "4", "../a"] [] [("../a", [0xE3, 0x81, 0x99])])
      ⟨"../a", 4, false, false⟩ [0xE3, 0x81, 0x99] := ⟨by decide +kernel, by decide +kernel⟩
  have quietly : Program.run (.withFiles ["-q", "-"] [0xE3, 0x81, 0x99] []) = .ok ⟨1, "",
      "UnexpectedEof\nReached the end of input while reading operator.\nす\n　^\n"⟩ := by
    decide +kernel
  obtain ⟨other, out, ran, run, -, -, stdout, exit, -, silent, -⟩ :=
    run_reports reads also rfl (by decide)
  cases quietly.symm.trans ran
  exact ⟨out, _, run, ran, stdout, exit, exit.symm, rfl, silent rfl⟩

end SumomoLexer
