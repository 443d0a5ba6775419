import ScriptHost.Access
import ScriptHost.Binding.Arguments
import ScriptHost.Binding.Attribute
import ScriptHost.Binding.Cell
import ScriptHost.Binding.Class
import ScriptHost.Binding.Enumeration
import ScriptHost.Binding.Handle
import ScriptHost.Binding.Registry
import ScriptHost.Call
import ScriptHost.Collection
import ScriptHost.Fault
import ScriptHost.Heap
import ScriptHost.Key
import ScriptHost.Machine
import ScriptHost.Marking
import ScriptHost.Metamethod
import ScriptHost.Number.Binary64
import ScriptHost.Number.Decimal
import ScriptHost.Object
import ScriptHost.Pins
import ScriptHost.Proofs.Accounting
import ScriptHost.Proofs.Acts
import ScriptHost.Proofs.Acyclic
import ScriptHost.Proofs.Agreement
import ScriptHost.Proofs.Allotment
import ScriptHost.Proofs.ArgumentVectors
import ScriptHost.Proofs.Asking
import ScriptHost.Proofs.Balance
import ScriptHost.Proofs.Batches
import ScriptHost.Proofs.Booking
import ScriptHost.Proofs.CellBook
import ScriptHost.Proofs.Cells
import ScriptHost.Proofs.Chains
import ScriptHost.Proofs.Chronicle
import ScriptHost.Proofs.Classes
import ScriptHost.Proofs.Clearing
import ScriptHost.Proofs.Commuting
import ScriptHost.Proofs.Complete
import ScriptHost.Proofs.Counting
import ScriptHost.Proofs.Course
import ScriptHost.Proofs.Dangling
import ScriptHost.Proofs.Depth
import ScriptHost.Proofs.Discipline
import ScriptHost.Proofs.During
import ScriptHost.Proofs.Edits
import ScriptHost.Proofs.Encoding
import ScriptHost.Proofs.Entries
import ScriptHost.Proofs.Enumerations
import ScriptHost.Proofs.Exactness
import ScriptHost.Proofs.Failures
import ScriptHost.Proofs.Finalizers
import ScriptHost.Proofs.FiniteMaps
import ScriptHost.Proofs.Footprints
import ScriptHost.Proofs.Garbage
import ScriptHost.Proofs.Generations
import ScriptHost.Proofs.Guards
import ScriptHost.Proofs.Handles
import ScriptHost.Proofs.Heap
import ScriptHost.Proofs.Hierarchy
import ScriptHost.Proofs.Immutability
import ScriptHost.Proofs.Installed
import ScriptHost.Proofs.Installing
import ScriptHost.Proofs.Intact
import ScriptHost.Proofs.Interchange
import ScriptHost.Proofs.Interned
import ScriptHost.Proofs.Interning
import ScriptHost.Proofs.Isolation
import ScriptHost.Proofs.IterationOrder
import ScriptHost.Proofs.KeyIdentity
import ScriptHost.Proofs.Keys
import ScriptHost.Proofs.Kinds
import ScriptHost.Proofs.Likeness
import ScriptHost.Proofs.Listing
import ScriptHost.Proofs.Lookup
import ScriptHost.Proofs.Marking
import ScriptHost.Proofs.Members
import ScriptHost.Proofs.Metatables
import ScriptHost.Proofs.Minds
import ScriptHost.Proofs.Moments
import ScriptHost.Proofs.Namespaces
import ScriptHost.Proofs.OneShot
import ScriptHost.Proofs.Operations
import ScriptHost.Proofs.Overloads
import ScriptHost.Proofs.Passage
import ScriptHost.Proofs.Passing
import ScriptHost.Proofs.Permitted
import ScriptHost.Proofs.PinMap
import ScriptHost.Proofs.Reachability
import ScriptHost.Proofs.Reclaim
import ScriptHost.Proofs.Refusal
import ScriptHost.Proofs.Renaming
import ScriptHost.Proofs.Reordering
import ScriptHost.Proofs.Respecting
import ScriptHost.Proofs.Roster
import ScriptHost.Proofs.Rounding
import ScriptHost.Proofs.Runs
import ScriptHost.Proofs.Safe
import ScriptHost.Proofs.Sealed
import ScriptHost.Proofs.Shadows
import ScriptHost.Proofs.StagedIntegers
import ScriptHost.Proofs.Steps
import ScriptHost.Proofs.Strands
import ScriptHost.Proofs.Sweeping
import ScriptHost.Proofs.Swept
import ScriptHost.Proofs.Table
import ScriptHost.Proofs.Tandem
import ScriptHost.Proofs.TextTables
import ScriptHost.Proofs.Tidy
import ScriptHost.Proofs.Traversal
import ScriptHost.Proofs.Turns
import ScriptHost.Proofs.Unforged
import ScriptHost.Proofs.Uniqueness
import ScriptHost.Proofs.Unregistering
import ScriptHost.Proofs.Unshared
import ScriptHost.Proofs.Unwrapping
import ScriptHost.Proofs.Watched
import ScriptHost.Proofs.WellFormed
import ScriptHost.Proofs.Wrapping
import ScriptHost.Proofs.Writes
import ScriptHost.Request
import ScriptHost.Table
import ScriptHost.Text.Quoted
import ScriptHost.Text.Unprintable
import ScriptHost.Text.Utf8
import ScriptHost.Value
