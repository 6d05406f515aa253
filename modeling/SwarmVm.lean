import SwarmVm.Barrier
import SwarmVm.Clock
import SwarmVm.CommandLine
import SwarmVm.Fault
import SwarmVm.Heap.Array
import SwarmVm.Heap.Basic
import SwarmVm.Heap.Collect
import SwarmVm.Heap.Header
import SwarmVm.Heap.Segment
import SwarmVm.Heap.Table
import SwarmVm.Image.Assembler
import SwarmVm.Image.Header
import SwarmVm.Image.Instruction
import SwarmVm.Image.Listing
import SwarmVm.Image.Opcode
import SwarmVm.Log
import SwarmVm.Machine.Arithmetic
import SwarmVm.Machine.Basic
import SwarmVm.Machine.Boot
import SwarmVm.Machine.Calls
import SwarmVm.Machine.Execute
import SwarmVm.Machine.Inbox
import SwarmVm.Machine.Messages
import SwarmVm.Machine.Neighbors
import SwarmVm.Machine.Objects
import SwarmVm.Machine.Primitive
import SwarmVm.Machine.Run
import SwarmVm.Machine.Stigmergy
import SwarmVm.Machine.Swarms
import SwarmVm.Main
import SwarmVm.Membership
import SwarmVm.Message
import SwarmVm.Names
import SwarmVm.Numeric.Format
import SwarmVm.Numeric.Half
import SwarmVm.Numeric.Shortest
import SwarmVm.Numeric.Single
import SwarmVm.OperandStack
import SwarmVm.Outbox
import SwarmVm.Proofs.Heap.Captures
import SwarmVm.Proofs.Heap.Cells
import SwarmVm.Proofs.Heap.Chain
import SwarmVm.Proofs.Heap.Collection
import SwarmVm.Proofs.Heap.Comparison
import SwarmVm.Proofs.Heap.Containers
import SwarmVm.Proofs.Heap.Flags
import SwarmVm.Proofs.Heap.Invariant
import SwarmVm.Proofs.Heap.KeyOrder
import SwarmVm.Proofs.Heap.Layout
import SwarmVm.Proofs.Heap.Lists
import SwarmVm.Proofs.Heap.Lookups
import SwarmVm.Proofs.Heap.Maps
import SwarmVm.Proofs.Heap.Marks
import SwarmVm.Proofs.Heap.Objects
import SwarmVm.Proofs.Heap.Reachability
import SwarmVm.Proofs.Heap.Rollback
import SwarmVm.Proofs.Heap.Rolls
import SwarmVm.Proofs.Heap.Room
import SwarmVm.Proofs.Heap.Segments
import SwarmVm.Proofs.Heap.Sequences
import SwarmVm.Proofs.Heap.Slots
import SwarmVm.Proofs.Heap.Spared
import SwarmVm.Proofs.Heap.Vacancies
import SwarmVm.Proofs.Heap.WellFormed
import SwarmVm.Proofs.Image.Assembly
import SwarmVm.Proofs.Image.Decoding
import SwarmVm.Proofs.Image.Grammar
import SwarmVm.Proofs.Machine.Activations
import SwarmVm.Proofs.Machine.Addresses
import SwarmVm.Proofs.Machine.Calls
import SwarmVm.Proofs.Machine.Closed
import SwarmVm.Proofs.Machine.Confined
import SwarmVm.Proofs.Machine.Control
import SwarmVm.Proofs.Machine.Courses
import SwarmVm.Proofs.Machine.Delivery
import SwarmVm.Proofs.Machine.Environments
import SwarmVm.Proofs.Machine.ErrorState
import SwarmVm.Proofs.Machine.FailedCalls
import SwarmVm.Proofs.Machine.Faults
import SwarmVm.Proofs.Machine.Fetching
import SwarmVm.Proofs.Machine.Fields
import SwarmVm.Proofs.Machine.Floors
import SwarmVm.Proofs.Machine.Frames
import SwarmVm.Proofs.Machine.Fresh
import SwarmVm.Proofs.Machine.Held
import SwarmVm.Proofs.Machine.HostCalls
import SwarmVm.Proofs.Machine.HostFunctions
import SwarmVm.Proofs.Machine.Instructions
import SwarmVm.Proofs.Machine.Lifetime
import SwarmVm.Proofs.Machine.Matching
import SwarmVm.Proofs.Machine.Methods
import SwarmVm.Proofs.Machine.Reachable
import SwarmVm.Proofs.Machine.Records
import SwarmVm.Proofs.Machine.Registration
import SwarmVm.Proofs.Machine.Returns
import SwarmVm.Proofs.Machine.Roaming
import SwarmVm.Proofs.Machine.Sheltered
import SwarmVm.Proofs.Machine.Steady
import SwarmVm.Proofs.Machine.Wards
import SwarmVm.Proofs.Machine.Watched
import SwarmVm.Proofs.Messages.Priority
import SwarmVm.Proofs.Messages.RoundTrip
import SwarmVm.Proofs.Messages.Waiting
import SwarmVm.Proofs.Neighbors.Iteration
import SwarmVm.Proofs.Neighbors.Kinship
import SwarmVm.Proofs.Neighbors.Room
import SwarmVm.Proofs.Neighbors.Rosters
import SwarmVm.Proofs.Numeric.Exactness
import SwarmVm.Proofs.Outcome
import SwarmVm.Proofs.Rings
import SwarmVm.Proofs.Robot.Airwaves
import SwarmVm.Proofs.Robot.IdleCycles
import SwarmVm.Proofs.Robot.Lockstep
import SwarmVm.Proofs.Stigmergy.Conflicts
import SwarmVm.Proofs.Stigmergy.Convergence
import SwarmVm.Proofs.Stigmergy.Custody
import SwarmVm.Proofs.Stigmergy.Exchange
import SwarmVm.Proofs.Stigmergy.Losses
import SwarmVm.Proofs.Stigmergy.MissQueries
import SwarmVm.Proofs.Stigmergy.Outbox
import SwarmVm.Proofs.Stigmergy.Receiving
import SwarmVm.Proofs.Stigmergy.Store
import SwarmVm.Proofs.Stigmergy.Verdicts
import SwarmVm.Proofs.Swarms.Ageing
import SwarmVm.Proofs.Swarms.Replication
import SwarmVm.Radio
import SwarmVm.Ring
import SwarmVm.Robot
import SwarmVm.Sensors
import SwarmVm.Simulation
import SwarmVm.Text.ControlSequence
import SwarmVm.Text.Digits
import SwarmVm.Text.Lines
import SwarmVm.Text.Printable
import SwarmVm.Text.Quoted
import SwarmVm.Value
import SwarmVm.Wire
import SwarmVm.Word
