import StoragePlan.Ascending
import StoragePlan.Decimal.Binary64
import StoragePlan.Decimal.Layout
import StoragePlan.Decimal.Shortest
import StoragePlan.Error
import StoragePlan.Gradient.Scope
import StoragePlan.Gradient.Sharing
import StoragePlan.Gradient.Walk
import StoragePlan.Graph.Basic
import StoragePlan.Graph.Dependency
import StoragePlan.Interference
import StoragePlan.Json.Basic
import StoragePlan.Json.Number
import StoragePlan.Json.Text
import StoragePlan.Json.Record
import StoragePlan.Json.Skip
import StoragePlan.Live.Basic
import StoragePlan.Net.Basic
import StoragePlan.Net.Binary
import StoragePlan.Net.Dump
import StoragePlan.Net.File
import StoragePlan.Net.Json
import StoragePlan.Order.DepthFirst
import StoragePlan.Order.PathTree
import StoragePlan.Order.Plain
import StoragePlan.Order.Strategy
import StoragePlan.Rename
import StoragePlan.Report.Event
import StoragePlan.Report.Log
import StoragePlan.Settings
import StoragePlan.Slot.Basic
import StoragePlan.Slot.Footprint
import StoragePlan.Slot.Naming
import StoragePlan.Sorting
import StoragePlan.Text
import StoragePlan.Weight
import StoragePlan.Proofs.Ascending
import StoragePlan.Proofs.Graph.Edges
import StoragePlan.Proofs.Graph.Built
import StoragePlan.Proofs.Order.Linear
import StoragePlan.Proofs.Order.PathTree
import StoragePlan.Proofs.Order.DepthFirst
import StoragePlan.Proofs.Order.Least
import StoragePlan.Proofs.Order.Dataflow
import StoragePlan.Proofs.Slot.Assign
import StoragePlan.Proofs.Slot.Footprint
import StoragePlan.Proofs.Live.Range
import StoragePlan.Proofs.Order.Reorder
import StoragePlan.Proofs.Order.Checks
import StoragePlan.Proofs.Rename
import StoragePlan.Proofs.Slot.Naming
import StoragePlan.Proofs.Interference
import StoragePlan.Proofs.Slot.Ends
import StoragePlan.Proofs.Gradient.Scope
import StoragePlan.Proofs.Gradient.Walk
import StoragePlan.Proofs.Gradient.Sharing
import StoragePlan.Proofs.Capture
import StoragePlan.Proofs.Graph.Cycles
import StoragePlan.Proofs.Graph.Session
import StoragePlan.Proofs.Graph.Dependency
import StoragePlan.Proofs.Gradient.Storage
import StoragePlan.Proofs.Gradient.Branch
import StoragePlan.Proofs.Gradient.Sight
import StoragePlan.Proofs.Json.Rest
import StoragePlan.Proofs.Json.Size
import StoragePlan.Proofs.Json.Brackets
import StoragePlan.Proofs.Json.Literal
import StoragePlan.Proofs.Json.ReadBack
import StoragePlan.Proofs.Decimal.Range
import StoragePlan.Proofs.Json.Domain
import StoragePlan.Proofs.Net.Size
import StoragePlan.Proofs.Net.Binary
import StoragePlan.Proofs.Net.Json
import StoragePlan.Proofs.Nesting
import StoragePlan.Proofs.Outcome
import StoragePlan.Proofs.Accounts
import StoragePlan.Proofs.Relabel.Graph
import StoragePlan.Proofs.Relabel.Order
import StoragePlan.Proofs.Relabel.Slot
import StoragePlan.Proofs.Relabel.Plan
import StoragePlan.Proofs.Gradient.Devices
import StoragePlan.Proofs.Order.LongestPath
import StoragePlan.Proofs.Order.Finishing
import StoragePlan.Proofs.Order.Heights
import StoragePlan.Proofs.Order.Leaves
import StoragePlan.Proofs.Live.Line
import StoragePlan.Proofs.Live.Table
import StoragePlan.Proofs.Rename.Nested
import StoragePlan.Proofs.Rename.Law
import StoragePlan.Proofs.Net.Budget
import StoragePlan.Proofs.Rename.Twice
import StoragePlan.Proofs.Rename.Formats
import StoragePlan.Proofs.Gradient.Extent
import StoragePlan.Proofs.Gradient.Readers
import StoragePlan.Proofs.Gradient.Chain
import StoragePlan.Proofs.Rename.Apart
import StoragePlan.Proofs.Slot.Overlap
import StoragePlan.Proofs.Slot.Nearest
import StoragePlan.Proofs.Slot.Growth
import StoragePlan.Proofs.Slot.Alone
import StoragePlan.Proofs.Interface
import StoragePlan.Proofs.Rename.Report
import StoragePlan.Proofs.Report
import StoragePlan.Proofs.Gradient.Entries
import StoragePlan.Proofs.Rename.Recursion
import StoragePlan.Proofs.Graph.Search
import StoragePlan.Proofs.Graph.Labels
import StoragePlan.Proofs.Live.Words
import StoragePlan.Proofs.Slot.Places
import StoragePlan.Proofs.Slot.Words
import StoragePlan.Proofs.Order.Branches
import StoragePlan.Proofs.Log
import StoragePlan.Proofs.Net.Dump
import StoragePlan.Proofs.Settings
