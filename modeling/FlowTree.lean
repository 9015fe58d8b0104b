import FlowTree.Catalog.Basic
import FlowTree.Catalog.Builtin
import FlowTree.Catalog.Entry
import FlowTree.CommandLine.Arguments
import FlowTree.CommandLine.Help
import FlowTree.CommandLine.Run
import FlowTree.Document.Basic
import FlowTree.Document.Kind
import FlowTree.Editor
import FlowTree.Expression.Basic
import FlowTree.Expression.Language
import FlowTree.Graph.Arena
import FlowTree.Graph.Basic
import FlowTree.Graph.Build
import FlowTree.Graph.Card
import FlowTree.Graph.Mapper
import FlowTree.Graph.Outline
import FlowTree.Json.Fields
import FlowTree.Json.Inspect
import FlowTree.Json.Numeral
import FlowTree.Json.Printer
import FlowTree.Json.Reader
import FlowTree.Json.Text
import FlowTree.Json.Value
import FlowTree.Main
import FlowTree.Number.Binary64
import FlowTree.Number.Shortest
import FlowTree.Offer
import FlowTree.Path.Basic
import FlowTree.Path.Segment
import FlowTree.Path.Text
import FlowTree.Proofs.Catalog.Latest
import FlowTree.Proofs.Catalog.Overlay
import FlowTree.Proofs.Document.AllOrNothing
import FlowTree.Proofs.Document.Child
import FlowTree.Proofs.Document.Copy
import FlowTree.Proofs.Document.FlowId
import FlowTree.Proofs.Document.Processor
import FlowTree.Proofs.Document.Stale
import FlowTree.Proofs.Editor.Expression
import FlowTree.Proofs.Editor.NewHolder
import FlowTree.Proofs.Editor.Offered
import FlowTree.Proofs.Editor.RootOffers
import FlowTree.Proofs.Editor.RootSegment
import FlowTree.Proofs.Editor.StepHolder
import FlowTree.Proofs.Editor.Unrelated
import FlowTree.Proofs.Expression.Canonical
import FlowTree.Proofs.Expression.Declared
import FlowTree.Proofs.Expression.Dialects
import FlowTree.Proofs.Expression.Precedence
import FlowTree.Proofs.Expression.Registry
import FlowTree.Proofs.Expression.RoundTrip
import FlowTree.Proofs.Graph.Adjacent
import FlowTree.Proofs.Graph.Advance
import FlowTree.Proofs.Graph.Arena
import FlowTree.Proofs.Graph.Branch
import FlowTree.Proofs.Graph.Builtin
import FlowTree.Proofs.Graph.Depth
import FlowTree.Proofs.Graph.Descent
import FlowTree.Proofs.Graph.Drawing
import FlowTree.Proofs.Graph.Holder
import FlowTree.Proofs.Graph.Identity
import FlowTree.Proofs.Graph.Insertion
import FlowTree.Proofs.Graph.Label
import FlowTree.Proofs.Graph.Links
import FlowTree.Proofs.Graph.Listing
import FlowTree.Proofs.Graph.Order
import FlowTree.Proofs.Graph.Part
import FlowTree.Proofs.Graph.Placed
import FlowTree.Proofs.Graph.Plain
import FlowTree.Proofs.Graph.Preorder
import FlowTree.Proofs.Graph.Redraw
import FlowTree.Proofs.Graph.Refinement
import FlowTree.Proofs.Graph.Removal
import FlowTree.Proofs.Graph.Site
import FlowTree.Proofs.Graph.Succession
import FlowTree.Proofs.Graph.Symmetry
import FlowTree.Proofs.Number.Decimal
import FlowTree.Proofs.Path.Address
import FlowTree.Proofs.Path.Element
import FlowTree.Proofs.Path.Grammar
import FlowTree.Proofs.Path.Text
import FlowTree.Proofs.Tree.Child
import FlowTree.Proofs.Tree.Frame
import FlowTree.Proofs.Tree.Lens
import FlowTree.Proofs.Tree.Move
import FlowTree.Proofs.Tree.OneNode
import FlowTree.Proofs.Tree.Retarget
import FlowTree.Proofs.Tree.RootKeys
import FlowTree.Proofs.Tree.Settable
import FlowTree.Proofs.Tree.Skip
import FlowTree.Proofs.Tree.Splice
import FlowTree.Proofs.Tree.Walk
import FlowTree.Record.Basic
import FlowTree.Record.Catalog
import FlowTree.Record.Editor
import FlowTree.Record.Expression
import FlowTree.Text.Extending
import FlowTree.Text.Hidden
import FlowTree.Text.Printable
import FlowTree.Text.Quoted
import FlowTree.Tree.Child
import FlowTree.Tree.Clip
import FlowTree.Tree.Edit
import FlowTree.Tree.Lookup
import FlowTree.Tree.Move
import FlowTree.Tree.Set
import FlowTree.Tree.Splice
