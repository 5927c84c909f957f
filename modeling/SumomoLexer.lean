import SumomoLexer.Cursor.Rest
import SumomoLexer.Main
import SumomoLexer.Session
import SumomoLexer.Proofs.Reading.Basic
import SumomoLexer.Proofs.Reading.OfScan
import SumomoLexer.Proofs.Grammar
import SumomoLexer.Proofs.Language
import SumomoLexer.Proofs.Reading.Brackets
import SumomoLexer.Proofs.Reading.Stop
import SumomoLexer.Proofs.Completion
import SumomoLexer.Proofs.Tiling
import SumomoLexer.Proofs.Decoding
import SumomoLexer.Proofs.LineTracking
import SumomoLexer.Proofs.Displacement
import SumomoLexer.Proofs.Reading.Parallel
import SumomoLexer.Proofs.Concatenation
import SumomoLexer.Proofs.Nesting
import SumomoLexer.Proofs.Gaps
import SumomoLexer.Proofs.Columns
import SumomoLexer.Proofs.Emission
import SumomoLexer.Proofs.Encoding
import SumomoLexer.Proofs.Reading.Blame
import SumomoLexer.Proofs.Undecodable
import SumomoLexer.Proofs.Drawing
import SumomoLexer.Proofs.Caret
import SumomoLexer.Proofs.Faultless
import SumomoLexer.Proofs.OpenRuns
import SumomoLexer.Proofs.Spelling
import SumomoLexer.Proofs.Expectations
import SumomoLexer.Proofs.Positions
import SumomoLexer.Proofs.Records
import SumomoLexer.Proofs.Printing
import SumomoLexer.Proofs.Runs
import SumomoLexer.Proofs.Sessions
import SumomoLexer.Proofs.Diagnostics
import SumomoLexer.Proofs.Progress
import SumomoLexer.Proofs.Zipper
import SumomoLexer.Proofs.Rounds
