import RevisionGraph.Assembly.Assembler
import RevisionGraph.Assembly.Facts
import RevisionGraph.CallGraph
import RevisionGraph.CallGraph.Lookup
import RevisionGraph.Command.Arguments
import RevisionGraph.Command.Basic
import RevisionGraph.Command.Run
import RevisionGraph.Decimal.Layout
import RevisionGraph.Decimal.Shortest
import RevisionGraph.Document.Basic
import RevisionGraph.Document.Decode
import RevisionGraph.Document.Encode
import RevisionGraph.Document.Text
import RevisionGraph.Dot
import RevisionGraph.Error
import RevisionGraph.Failure
import RevisionGraph.Files.Basic
import RevisionGraph.Files.Change
import RevisionGraph.Files.Documents
import RevisionGraph.Files.Export
import RevisionGraph.Files.Location
import RevisionGraph.Files.Path
import RevisionGraph.Hierarchy
import RevisionGraph.Hierarchy.Partitioned
import RevisionGraph.Json.Decoder
import RevisionGraph.Json.Number
import RevisionGraph.Json.Sorted
import RevisionGraph.Json.Token
import RevisionGraph.Json.Tree
import RevisionGraph.Json.Value
import RevisionGraph.Json.Writer
import RevisionGraph.Main
import RevisionGraph.Method
import RevisionGraph.MethodTable
import RevisionGraph.MethodTable.InStep
import RevisionGraph.Ordered.Lookup
import RevisionGraph.Ordered.Map
import RevisionGraph.Revision
import RevisionGraph.Scope
import RevisionGraph.Settings.Basic
import RevisionGraph.Settings.Toml
import RevisionGraph.Store.Basic
import RevisionGraph.Store.Codec
import RevisionGraph.Store.Disk
import RevisionGraph.Store.Exchange
import RevisionGraph.Store.Memory
import RevisionGraph.Summary
import RevisionGraph.Text.Blank
import RevisionGraph.Text.Integer
import RevisionGraph.Text.Runes
import RevisionGraph.Text.Search
import RevisionGraph.TypeDecl
import RevisionGraph.Uri.Basic
import RevisionGraph.Uri.Parts
import RevisionGraph.Proofs.Assembly.Acceptance
import RevisionGraph.Proofs.Assembly.Bindings
import RevisionGraph.Proofs.Assembly.Ends
import RevisionGraph.Proofs.Assembly.Kept
import RevisionGraph.Proofs.Assembly.Meaning
import RevisionGraph.Proofs.Assembly.Order
import RevisionGraph.Proofs.Assembly.Refusal
import RevisionGraph.Proofs.Document.Built
import RevisionGraph.Proofs.Document.Calls
import RevisionGraph.Proofs.Document.RoundTrip
import RevisionGraph.Proofs.Files.Assembled
import RevisionGraph.Proofs.Hierarchy.Placement
import RevisionGraph.Proofs.Hierarchy.FirstConflict
import RevisionGraph.Proofs.Document.Acceptance
import RevisionGraph.Proofs.Store.Agreement
import RevisionGraph.Proofs.Store.Saved
import RevisionGraph.Proofs.CallGraph.History
import RevisionGraph.Proofs.Revision.Stitching
import RevisionGraph.Proofs.Document.Noted
import RevisionGraph.Proofs.Store.Interleaving
import RevisionGraph.Proofs.Assembly.Replay
import RevisionGraph.Proofs.Assembly.FirstNoted
import RevisionGraph.Proofs.Document.Scoped
import RevisionGraph.Proofs.Document.Spellings
import RevisionGraph.Proofs.Document.Concatenated
import RevisionGraph.Proofs.Document.Tables
import RevisionGraph.Proofs.MethodTable.Bindings
import RevisionGraph.Proofs.CallGraph.Append
import RevisionGraph.Proofs.CallGraph.MoveBack
import RevisionGraph.Proofs.Revision.FirstDangling
import RevisionGraph.Proofs.Revision.MethodMaps
import RevisionGraph.Proofs.Dot.Drawing
import RevisionGraph.Proofs.Dot.Labels
import RevisionGraph.Proofs.Method.TypeUri
import RevisionGraph.Proofs.Method.Rename
import RevisionGraph.Proofs.Document.Missing
import RevisionGraph.Proofs.Assembly.Walk
import RevisionGraph.Proofs.Assembly.Criterion
