import StackVM.Main
import StackVM.Session
import StackVM.Files.Tree
import StackVM.Proofs.Heap.Books
import StackVM.Proofs.Heap.Reachability
import StackVM.Proofs.Heap.Sweep
import StackVM.Proofs.Heap.Collection
import StackVM.Proofs.Heap.Change
import StackVM.Proofs.Heap.Contents
import StackVM.Proofs.Heap.Generations
import StackVM.Proofs.Heap.Effects
import StackVM.Proofs.Heap.Leftovers
import StackVM.Proofs.Heap.Renaming
import StackVM.Proofs.Machine.HeapUse
import StackVM.Proofs.Machine.Step
import StackVM.Proofs.Machine.Faults
import StackVM.Proofs.Machine.Causes
import StackVM.Proofs.Machine.Flow
import StackVM.Proofs.Machine.Handles
import StackVM.Proofs.Machine.LifeCycle
import StackVM.Proofs.Machine.Budget
import StackVM.Proofs.Machine.Renaming
import StackVM.Proofs.Code.Encoding
import StackVM.Proofs.Code.Reading
import StackVM.Proofs.Code.Images
import StackVM.Proofs.Assembly.TwoPass
import StackVM.Proofs.Assembly.Backpatch
import StackVM.Proofs.Assembly.Running
import StackVM.Proofs.Files.Tree
import StackVM.Proofs.Files.Directories
import StackVM.Proofs.Command.Routes
import StackVM.Proofs.Shared.Basic
import StackVM.Proofs.Shared.Stock
import StackVM.Proofs.Shared.Generations
import StackVM.Proofs.Shared.Guards
import StackVM.Proofs.Shared.Contents
import StackVM.Proofs.Shared.Collection
import StackVM.Proofs.Shared.References
import StackVM.Proofs.Shared.Isolation
import StackVM.Proofs.Shared.Garbage
import StackVM.Proofs.Shared.Leftovers
import StackVM.Proofs.Assembly.Dialect
import StackVM.Proofs.Assembly.Reports
import StackVM.Proofs.Machine.Strict
import StackVM.Proofs.Heap.Counts
import StackVM.Proofs.Shared.Strict
import StackVM.Proofs.Shared.Counts
import StackVM.Proofs.Assembly.Numerals
import StackVM.Proofs.Assembly.Literals
import StackVM.Proofs.Assembly.Printing
import StackVM.Proofs.Machine.Extension
import StackVM.Proofs.Machine.Operands
import StackVM.Proofs.Machine.Division
import StackVM.Proofs.Shared.Failures
import StackVM.Proofs.Heap.Reuse
import StackVM.Proofs.Shared.Reuse
import StackVM.Proofs.Assembly.Recasting
import StackVM.Proofs.Assembly.Layout
import StackVM.Proofs.Assembly.Relabelling
import StackVM.Proofs.Code.Listings
import StackVM.Proofs.Code.Distinct
import StackVM.Proofs.Machine.Tracing
import StackVM.Proofs.Heap.Setup
import StackVM.Proofs.Command.Assembling
import StackVM.Proofs.Heap.Worklist
import StackVM.Proofs.Stack
import StackVM.Proofs.Files.Parents
import StackVM.Proofs.Shared.Sessions
