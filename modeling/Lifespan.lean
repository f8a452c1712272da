import Lifespan.Cleanup.Command
import Lifespan.Cleanup.Handoff
import Lifespan.Cleanup.Sharing
import Lifespan.Pool.Crew
import Lifespan.Proofs.Arena.Rule
import Lifespan.Proofs.Arena.Safety
import Lifespan.Proofs.Cleanup.Conservation
import Lifespan.Proofs.Cleanup.References
import Lifespan.Slice.KeyIndex
import Lifespan.Source.AddressSpace
import Lifespan.Source.Budget
import Lifespan.Source.Paged
import Lifespan.Workload
import Lifespan.Proofs.Arena.Writing
import Lifespan.Proofs.Arena.Contents
import Lifespan.Proofs.Source.Layers
import Lifespan.Proofs.Arena.Refusal
import Lifespan.Proofs.Cleanup.Cycles
import Lifespan.Proofs.Cleanup.Reach
import Lifespan.Proofs.Cleanup.Course
import Lifespan.Proofs.Cleanup.Unwinding
import Lifespan.Proofs.Pool.Shutdown
import Lifespan.Proofs.Cleanup.LastReference
import Lifespan.Proofs.Arena.Lifecycle
import Lifespan.Proofs.Arena.Arithmetic
import Lifespan.Proofs.Arena.Growth
import Lifespan.Proofs.Arena.Addresses
import Lifespan.Proofs.Cleanup.Calm
import Lifespan.Proofs.Cleanup.Lists
import Lifespan.Proofs.Cleanup.Order
import Lifespan.Proofs.Cleanup.Exclusive
import Lifespan.Proofs.Arena.Budget
import Lifespan.Proofs.Cleanup.Pinning
import Lifespan.Proofs.Cleanup.Pooled
import Lifespan.Proofs.Hex.RoundTrip
import Lifespan.Proofs.Arena.Exhausted
import Lifespan.Proofs.Arena.Outcome
import Lifespan.Proofs.Arena.Faults
import Lifespan.Proofs.Arena.Uniform
import Lifespan.Proofs.Arena.Containment
import Lifespan.Proofs.Arena.Copies
import Lifespan.Proofs.Cleanup.Trimming
import Lifespan.Proofs.Cleanup.Transfer
import Lifespan.Proofs.Cleanup.Termination
import Lifespan.Proofs.Arena.Typed
import Lifespan.Proofs.Slice.Order
import Lifespan.Proofs.Slice.KeyIndex
import Lifespan.Proofs.Hex.Grammar
import Lifespan.Proofs.Hex.Order
import Lifespan.Proofs.Slice.Join
import Lifespan.Proofs.Arena.FirstBlock
import Lifespan.Proofs.Workload.Draws
import Lifespan.Proofs.Workload.Keys
import Lifespan.Proofs.Memory.Rounding
import Lifespan.Proofs.Arena.Peek
import Lifespan.Proofs.Arena.Rooms
