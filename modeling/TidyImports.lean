import TidyImports.Change
import TidyImports.CommandLine
import TidyImports.Config
import TidyImports.Config.Load
import TidyImports.DataFile
import TidyImports.Decimal
import TidyImports.Diff.Compaction
import TidyImports.Diff.Runs
import TidyImports.Diff.Unified
import TidyImports.Disk.Access
import TidyImports.Disk.Basic
import TidyImports.Disk.Discovery
import TidyImports.Disk.Resolve
import TidyImports.Document.Basic
import TidyImports.Event
import TidyImports.Event.Document
import TidyImports.Import.Canonical
import TidyImports.Import.Declaration
import TidyImports.Import.Synthesis
import TidyImports.Import.Usage
import TidyImports.Json.Parser
import TidyImports.Json.Printer
import TidyImports.KeyedList
import TidyImports.Main
import TidyImports.Patch
import TidyImports.Patch.Apply
import TidyImports.Path.Basic
import TidyImports.Path.Normal
import TidyImports.Path.Relative
import TidyImports.Plan
import TidyImports.Proofs.Edits.Clear
import TidyImports.Proofs.Edits.Places
import TidyImports.Proofs.Edits.Retarget
import TidyImports.Proofs.Edits.Several
import TidyImports.Proofs.Edits.Single
import TidyImports.Proofs.Edits.Updates
import TidyImports.Proofs.Lexing.Locality
import TidyImports.Proofs.Lexing.Marks
import TidyImports.Proofs.Lexing.Replacement
import TidyImports.Proofs.Lexing.Strings
import TidyImports.Proofs.Lexing.Top
import TidyImports.Proofs.Lexing.Words
import TidyImports.Proofs.Outline.Bare
import TidyImports.Proofs.Outline.Basic
import TidyImports.Proofs.Outline.Locality
import TidyImports.Proofs.Outline.Reading
import TidyImports.Proofs.Outline.Recognized
import TidyImports.Proofs.Outline.Rendering
import TidyImports.Proofs.Outline.Scan
import TidyImports.Proofs.Outline.Script
import TidyImports.Proofs.Outline.Seam
import TidyImports.Proofs.Outline.Shapes
import TidyImports.Proofs.Outline.Specifiers
import TidyImports.Proofs.Outline.Splice
import TidyImports.Proofs.Plan.Lines
import TidyImports.Proofs.Plan.Steps
import TidyImports.Proofs.Plan.Synthesis
import TidyImports.Proofs.Plan.Uses
import TidyImports.Proofs.Text.Cutting
import TidyImports.Report
import TidyImports.Run
import TidyImports.Settings
import TidyImports.Sha256
import TidyImports.SortedSet
import TidyImports.Sorting
import TidyImports.Source.Bindings
import TidyImports.Source.Detection
import TidyImports.Source.Layout
import TidyImports.Source.Lexer
import TidyImports.Source.Statement
import TidyImports.Source.Token
import TidyImports.Text.Basic
import TidyImports.Text.Blank
import TidyImports.Text.Edit
import TidyImports.Timestamp
import TidyImports.Toml.Lexeme
import TidyImports.Toml.Parser
import TidyImports.Toml.Scalar
import TidyImports.Toml.Tree
import TidyImports.View
import TidyImports.Vocabulary
import TidyImports.Vocabulary.Document
import TidyImports.Vocabulary.Listing
import TidyImports.Warning
import TidyImports.Proofs.Plan.DataSteps
import TidyImports.Proofs.Plan.Idempotence
import TidyImports.Proofs.Plan.OneImport
import TidyImports.Proofs.OrderMark.Layout
import TidyImports.Proofs.OrderMark.Plan
import TidyImports.Proofs.Disk.Resolution
import TidyImports.Proofs.Disk.Changes
import TidyImports.Proofs.Disk.Relative
import TidyImports.Proofs.Plan.Questions
import TidyImports.Proofs.Plan.Quiet
import TidyImports.Proofs.Run.Files
import TidyImports.Proofs.Run.Independence
import TidyImports.Proofs.Run.RelativeRoot
import TidyImports.Proofs.Patch.Applying
import TidyImports.Proofs.Patch.Once
import TidyImports.Proofs.Run.Ledger
import TidyImports.Proofs.Outline.Leading
import TidyImports.Proofs.Plan.Imported
import TidyImports.Proofs.Run.Originals
import TidyImports.Proofs.Path.Components
import TidyImports.Proofs.Path.Normal
import TidyImports.Proofs.Path.Way
import TidyImports.Proofs.DataFile.Places
import TidyImports.Proofs.DataFile.Repair
import TidyImports.Proofs.Edits.Apart
import TidyImports.Proofs.Path.Characters
import TidyImports.Proofs.DataFile.Settling
import TidyImports.Proofs.Lexing.Tiling
import TidyImports.Proofs.Plan.Roundtrip
import TidyImports.Proofs.Outline.Completeness
import TidyImports.Proofs.Edits.Insertion
import TidyImports.Proofs.Lexing.Joined
import TidyImports.Proofs.Text.Splicing
import TidyImports.Proofs.Lexing.LineEnds
import TidyImports.Proofs.Edits.Lines
import TidyImports.Proofs.Plan.Frame
import TidyImports.Proofs.Edits.Written
import TidyImports.Proofs.DataFile.Effects
import TidyImports.Proofs.Plan.Agreement
import TidyImports.Proofs.Plan.InPlace
import TidyImports.Proofs.Plan.Union
import TidyImports.Proofs.Lexing.Front
import TidyImports.Proofs.Edits.Prologue
import TidyImports.Proofs.Edits.Directive
import TidyImports.Proofs.Plan.Directives
import TidyImports.Proofs.Text.Returns
import TidyImports.Proofs.Edits.Breaks
import TidyImports.Proofs.Plan.LineEnds
import TidyImports.Proofs.Config.Overlay
import TidyImports.Proofs.Path.Algebra
import TidyImports.Proofs.Plan.Reordered
import TidyImports.Proofs.Json.Lexemes
import TidyImports.Proofs.Json.Roundtrip
import TidyImports.Proofs.Event.Reading
import TidyImports.Proofs.Event.Lines
import TidyImports.Proofs.Plan.Consistency
import TidyImports.Proofs.Edits.Order
import TidyImports.Proofs.Lexing.Within
import TidyImports.Proofs.Outline.Ranges
import TidyImports.Proofs.Outline.Imports
import TidyImports.Proofs.Edits.Imports
import TidyImports.Proofs.Plan.Statements
