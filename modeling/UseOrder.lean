import UseOrder.CommandLine.Arguments
import UseOrder.CommandLine.ListImports
import UseOrder.CommandLine.OrderImports
import UseOrder.CommandLine.Run
import UseOrder.Decimal.Read
import UseOrder.Decimal.Shortest
import UseOrder.Digest
import UseOrder.Files.Path
import UseOrder.Files.Tree
import UseOrder.Fix
import UseOrder.Import.Comments
import UseOrder.Import.Group
import UseOrder.Import.Order
import UseOrder.Import.Plan
import UseOrder.Import.Record
import UseOrder.Import.Run
import UseOrder.Import.Spacing
import UseOrder.Import.Statement
import UseOrder.Json.Reader
import UseOrder.Json.Writer
import UseOrder.Listing
import UseOrder.Main
import UseOrder.Proofs.Adjoining
import UseOrder.Proofs.Blocks
import UseOrder.Proofs.Cell
import UseOrder.Proofs.CellReading
import UseOrder.Proofs.Covering
import UseOrder.Proofs.Edits
import UseOrder.Proofs.Effects
import UseOrder.Proofs.Engines
import UseOrder.Proofs.Failure
import UseOrder.Proofs.Fixing
import UseOrder.Proofs.Fixpoint
import UseOrder.Proofs.Frame
import UseOrder.Proofs.Group
import UseOrder.Proofs.Independence
import UseOrder.Proofs.Keys
import UseOrder.Proofs.Kinds
import UseOrder.Proofs.Labels
import UseOrder.Proofs.Loading
import UseOrder.Proofs.Movable
import UseOrder.Proofs.Neighbours
import UseOrder.Proofs.Nesting
import UseOrder.Proofs.Ordering
import UseOrder.Proofs.Paths
import UseOrder.Proofs.Pieces
import UseOrder.Proofs.Position
import UseOrder.Proofs.Prefixes
import UseOrder.Proofs.Reading
import UseOrder.Proofs.Records
import UseOrder.Proofs.Reflow
import UseOrder.Proofs.Relabelling
import UseOrder.Proofs.Remarks
import UseOrder.Proofs.Rereading
import UseOrder.Proofs.Rewording
import UseOrder.Proofs.Rewrite
import UseOrder.Proofs.Runs
import UseOrder.Proofs.Scanning
import UseOrder.Proofs.Scopes
import UseOrder.Proofs.Segments
import UseOrder.Proofs.Separation
import UseOrder.Proofs.Shape
import UseOrder.Proofs.Slots
import UseOrder.Proofs.Source
import UseOrder.Proofs.Space
import UseOrder.Proofs.Spacing
import UseOrder.Proofs.Spelling
import UseOrder.Proofs.Stability
import UseOrder.Proofs.Statement
import UseOrder.Proofs.Stripping
import UseOrder.Proofs.Substitution
import UseOrder.Proofs.Tree
import UseOrder.Proofs.Turns
import UseOrder.Proofs.Unmoved
import UseOrder.Proofs.WellFormed
import UseOrder.Proofs.Writable
import UseOrder.Report
import UseOrder.Rule
import UseOrder.Settings.Basic
import UseOrder.Settings.Load
import UseOrder.Text.Basic
import UseOrder.Text.Diff
import UseOrder.Text.Letter
import UseOrder.Text.LowerCase
import UseOrder.Text.Numeral
import UseOrder.Text.Printable
import UseOrder.Text.Quoted
import UseOrder.Text.Utf8
import UseOrder.Token.Basic
import UseOrder.Token.Context
import UseOrder.Token.Lexer
import UseOrder.Token.Position
import UseOrder.Token.Rows
import UseOrder.Token.Source
import UseOrder.Value.Basic
import UseOrder.Value.Shown
