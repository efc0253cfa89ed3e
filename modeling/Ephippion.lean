import Ephippion.Exchange.JSONTransfer
import Ephippion.Harness.Blocks
import Ephippion.Harness.Check
import Ephippion.Harness.Graph
import Ephippion.Harness.Operand
import Ephippion.Harness.Slot
import Ephippion.IR.Builder
import Ephippion.IR.Concrete
import Ephippion.IR.Exec
import Ephippion.IR.Module
import Ephippion.IR.Type
import Ephippion.Lib.Counted
import Ephippion.Lib.Except
import Ephippion.Lib.Graph
import Ephippion.Lib.Machine
import Ephippion.Lib.Numbered
import Ephippion.Lib.ObjMem
import Ephippion.Lib.Pattern
import Ephippion.Lib.Refines
import Ephippion.Lib.Words
import Ephippion.Model.Sequence
import Ephippion.Proof.Assertions
import Ephippion.Proof.Builds
import Ephippion.Proof.Call
import Ephippion.Proof.Declare
import Ephippion.Proof.Encapsulate
import Ephippion.Proof.Flow
import Ephippion.Proof.Generations
import Ephippion.Proof.Harness
import Ephippion.Proof.Lockstep
import Ephippion.Proof.Loop
import Ephippion.Proof.Names
import Ephippion.Proof.Requests
import Ephippion.Proof.Setup
import Ephippion.Proof.Specs
import Ephippion.Proof.Stops
import Ephippion.Proof.Symbolic
import Ephippion.Proof.Twin
import Ephippion.Proof.Verified
import Ephippion.Proof.Verifier
import Ephippion.Run.Alike
import Ephippion.Run.Call
import Ephippion.Run.CallSites
import Ephippion.Run.Chain
import Ephippion.Run.Checks
import Ephippion.Run.Entry
import Ephippion.Run.Events
import Ephippion.Run.Harness
import Ephippion.Run.Header
import Ephippion.Run.Inputs
import Ephippion.Run.Iterators
import Ephippion.Run.Lockstep
import Ephippion.Run.Loop
import Ephippion.Run.Ownership
import Ephippion.Run.Program
import Ephippion.Run.Pure
import Ephippion.Run.Refinement
import Ephippion.Run.Setup
import Ephippion.Run.Sizes
import Ephippion.Run.Storage
import Ephippion.Run.Straight
import Ephippion.Support.ArgSpec
import Ephippion.Support.ArgSpecParser
import Ephippion.Support.FuncUtils
import Ephippion.Support.LoopIRBuilder
import Ephippion.Theorems.Accounting
import Ephippion.Theorems.Alarms
import Ephippion.Theorems.Batches
import Ephippion.Theorems.Bounds
import Ephippion.Theorems.Calls
import Ephippion.Theorems.Chain
import Ephippion.Theorems.ChangeReport
import Ephippion.Theorems.Commutation
import Ephippion.Theorems.Completeness
import Ephippion.Theorems.ControlFlow
import Ephippion.Theorems.Decisions
import Ephippion.Theorems.Decoding
import Ephippion.Theorems.Differences
import Ephippion.Theorems.Filter
import Ephippion.Theorems.Frame
import Ephippion.Theorems.Grammar
import Ephippion.Theorems.Independence
import Ephippion.Theorems.Inputs
import Ephippion.Theorems.Iterations
import Ephippion.Theorems.Lookups
import Ephippion.Theorems.LoopGraph
import Ephippion.Theorems.Loops
import Ephippion.Theorems.ModuleLoop
import Ephippion.Theorems.ModuleWide
import Ephippion.Theorems.ObjectNames
import Ephippion.Theorems.Operands
import Ephippion.Theorems.Orders
import Ephippion.Theorems.Ownership
import Ephippion.Theorems.Planned
import Ephippion.Theorems.Preservation
import Ephippion.Theorems.Refinement
import Ephippion.Theorems.Reports
import Ephippion.Theorems.Room
import Ephippion.Theorems.Safety
import Ephippion.Theorems.Sharing
import Ephippion.Theorems.Specs
import Ephippion.Theorems.Typing
import Ephippion.Theorems.Unset
import Ephippion.Theorems.Verifier
import Ephippion.Theorems.WhiteList
import Ephippion.Theorems.WorkList
import Ephippion.Transforms.SymbolicEncapsulation
import Ephippion.Transforms.SymbolicEncapsulationPass
import Ephippion.Transforms.WhiteList
