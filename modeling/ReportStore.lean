import ReportStore.Codec.Basic
import ReportStore.Codec.Counters
import ReportStore.Codec.Power
import ReportStore.Columns
import ReportStore.CommandLine
import ReportStore.Csv.Position
import ReportStore.Csv.Print
import ReportStore.Csv.Scan
import ReportStore.Csv.Table
import ReportStore.Dict
import ReportStore.Fault
import ReportStore.Feed
import ReportStore.FileTree
import ReportStore.Journal.Basic
import ReportStore.Journal.Event
import ReportStore.Json.Lexeme
import ReportStore.Json.Quote
import ReportStore.Json.Record
import ReportStore.Json.Scan
import ReportStore.Json.Shape
import ReportStore.Main
import ReportStore.Merge
import ReportStore.Number.Binary64
import ReportStore.Number.Decimal
import ReportStore.Number.Layout
import ReportStore.Number.Power
import ReportStore.Number.Scaled
import ReportStore.Number.Shortest
import ReportStore.Outcome
import ReportStore.Path
import ReportStore.Program
import ReportStore.Proofs.Agreement
import ReportStore.Proofs.Cells
import ReportStore.Proofs.Columns
import ReportStore.Proofs.Csv.Growth
import ReportStore.Proofs.Csv.Table
import ReportStore.Proofs.EntryLines
import ReportStore.Proofs.EveryRow
import ReportStore.Proofs.FileTree
import ReportStore.Proofs.Fragments
import ReportStore.Proofs.Headers
import ReportStore.Proofs.Iteration
import ReportStore.Proofs.Journal
import ReportStore.Proofs.LastWord
import ReportStore.Proofs.Ledger
import ReportStore.Proofs.Merge.Accounting
import ReportStore.Proofs.Merge.Again
import ReportStore.Proofs.Merge.Ascending
import ReportStore.Proofs.Merge.Connecting
import ReportStore.Proofs.Merge.Ending
import ReportStore.Proofs.Merge.Faults
import ReportStore.Proofs.Merge.Files
import ReportStore.Proofs.Merge.Opening
import ReportStore.Proofs.Merge.Order
import ReportStore.Proofs.Merge.PrimaryRows
import ReportStore.Proofs.Merge.Recovery
import ReportStore.Proofs.Merge.Reencoded
import ReportStore.Proofs.Merge.Requests
import ReportStore.Proofs.Merge.Rows
import ReportStore.Proofs.Merge.Run
import ReportStore.Proofs.Merge.Sessions
import ReportStore.Proofs.Merge.Standstill
import ReportStore.Proofs.Merge.Step
import ReportStore.Proofs.Merge.Stream
import ReportStore.Proofs.Merge.Strict
import ReportStore.Proofs.Merge.Whole
import ReportStore.Proofs.Number.ReadBack
import ReportStore.Proofs.Number.Rounding
import ReportStore.Proofs.Path
import ReportStore.Proofs.Reading
import ReportStore.Proofs.Reassembled
import ReportStore.Proofs.RecordLines
import ReportStore.Proofs.Replaying
import ReportStore.Proofs.Reports
import ReportStore.Proofs.Saving.Atomicity
import ReportStore.Proofs.Saving.Commuting
import ReportStore.Proofs.Saving.Confined
import ReportStore.Proofs.Saving.CounterReports
import ReportStore.Proofs.Saving.CounterRows
import ReportStore.Proofs.Saving.Effect
import ReportStore.Proofs.Saving.Entities
import ReportStore.Proofs.Saving.Exact
import ReportStore.Proofs.Saving.Extend
import ReportStore.Proofs.Saving.GroupFile
import ReportStore.Proofs.Saving.History
import ReportStore.Proofs.Saving.InTurn
import ReportStore.Proofs.Saving.Kept
import ReportStore.Proofs.Saving.Lines
import ReportStore.Proofs.Saving.Plan
import ReportStore.Proofs.Saving.PowerReports
import ReportStore.Proofs.Saving.ReadBack
import ReportStore.Proofs.Saving.Replay
import ReportStore.Proofs.Saving.Restored
import ReportStore.Proofs.Saving.Rows
import ReportStore.Proofs.Saving.Stream
import ReportStore.Proofs.Saving.Tallies
import ReportStore.Proofs.Saving.Written
import ReportStore.Proofs.Session
import ReportStore.Proofs.Shape
import ReportStore.Proofs.Touching
import ReportStore.Proofs.Union
import ReportStore.RecordLines
import ReportStore.Saving.Commit
import ReportStore.Saving.Plan
import ReportStore.Settings.Basic
import ReportStore.Settings.Reader
import ReportStore.Store
import ReportStore.Text.Blank
import ReportStore.Text.Digits
import ReportStore.Text.Pieces
import ReportStore.Text.Quoted
import ReportStore.Text.Unprintable
import ReportStore.Text.Utf8
import ReportStore.Timestamp
import ReportStore.Value.Basic
import ReportStore.Value.Cell
import ReportStore.Value.Union
