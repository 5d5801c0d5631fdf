import BLink.Alone.Completion
import BLink.Alone.Insertions
import BLink.Alone.Lookups
import BLink.Alone.Removals
import BLink.Alone.Repairs
import BLink.Alone.Traversal
import BLink.Alone.Writers
import BLink.Latching.Acquisition
import BLink.Latching.Counter
import BLink.Latching.Deadlock
import BLink.Latching.DeferredWrites
import BLink.Latching.Discipline
import BLink.Latching.Frame
import BLink.Latching.Guards
import BLink.Latching.Invariant
import BLink.Latching.Leaves
import BLink.Latching.Linearization
import BLink.Latching.Order
import BLink.Latching.Owners
import BLink.Latching.Progress
import BLink.Latching.Publication
import BLink.Latching.Schedule
import BLink.Latching.Sets
import BLink.Latching.Solitude
import BLink.Latching.Stability
import BLink.Latching.Stages
import BLink.Library.Balance
import BLink.Library.Collecting
import BLink.Library.Counting
import BLink.Library.DeferredChanges
import BLink.Library.Elements
import BLink.Library.Forwarding
import BLink.Library.Keys
import BLink.Library.Latches
import BLink.Library.Linearizability
import BLink.Library.Lines
import BLink.Library.RawMemory
import BLink.Library.Release
import BLink.Library.Results
import BLink.Library.Simulation
import BLink.Library.SortedMap
import BLink.Library.Tiling
import BLink.Library.TotalOrder
import BLink.Library.TransitionSystem
import BLink.Model.Array
import BLink.Model.Cursor
import BLink.Model.Guards
import BLink.Model.Handle
import BLink.Model.Latches
import BLink.Model.Node
import BLink.Model.Ownership
import BLink.Model.Set
import BLink.Model.Threads
import BLink.Model.Tree
import BLink.Pages.Operations
import BLink.Runs.Executions
import BLink.Runs.FirstRecord
import BLink.Runs.Invariant
import BLink.Runs.Iteration
import BLink.Runs.LastRecord
import BLink.Runs.Linearization
import BLink.Runs.Ownership
import BLink.Runs.Safety
import BLink.Runs.Schedule
import BLink.Runs.SearchStructure
import BLink.Runs.SiblingChains
import BLink.Runs.StableRecords
import BLink.Runs.Values
import BLink.Sections.Chain
import BLink.Sections.Contents
import BLink.Sections.Effects
import BLink.Sections.Fences
import BLink.Sections.Insertion
import BLink.Sections.LeafUpdate
import BLink.Sections.Lookup
import BLink.Sections.Order
import BLink.Sections.Outcome
import BLink.Sections.Preservation
import BLink.Sections.Removal
import BLink.Sections.Repair
import BLink.Sections.Routing
import BLink.Sequential.Answers
import BLink.Sequential.Calls
import BLink.Sequential.Commands
import BLink.Sequential.Handles
import BLink.Sequential.Heights
import BLink.Sequential.Insertions
import BLink.Sequential.Links
import BLink.Sequential.Nesting
import BLink.Sequential.Passes
import BLink.Sequential.Refinement
import BLink.Sequential.Removals
import BLink.Sequential.RoundTrips
import BLink.Sequential.Sessions
import BLink.Sequential.Sets
import BLink.Sequential.Solo
import BLink.Sequential.Structure
import BLink.Sequential.Touches
import BLink.Sequential.Walks
import BLink.Sequential.Writers
import BLink.Slots.BoundedLists
import BLink.Slots.Execution
import BLink.Slots.Ledger
import BLink.Slots.Lifetimes
import BLink.Slots.RawArray
import BLink.Slots.Refinement
import BLink.Structure.Frame
import BLink.Structure.Replace
import BLink.Structure.Root
import BLink.Structure.Shape
import BLink.Structure.Siblings
import BLink.Subtrees.Rebalancing
import BLink.Subtrees.Replacement
import BLink.Subtrees.Splits
import BLink.Subtrees.Valid
import BLink.Validation.Accepted
import BLink.Validation.Answers
import BLink.Validation.Levels
import BLink.Validation.Runs
import BLink.Validation.Space
import BLink.Validation.Validate
