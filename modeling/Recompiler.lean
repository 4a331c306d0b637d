import Recompiler.Arm.Context
import Recompiler.Arm.Cpu
import Recompiler.Arm.Interpret
import Recompiler.Arm.Op
import Recompiler.Arm.Shifter
import Recompiler.Assembling
import Recompiler.Backend
import Recompiler.Bytes
import Recompiler.Command
import Recompiler.Cpu
import Recompiler.Exit
import Recompiler.Fault
import Recompiler.Guest
import Recompiler.IR.Builder
import Recompiler.IR.Constant
import Recompiler.IR.Eval
import Recompiler.IR.Fragment
import Recompiler.IR.Opcode
import Recompiler.IR.ParseError
import Recompiler.IR.Parser
import Recompiler.IR.Printer
import Recompiler.IR.Signature
import Recompiler.IR.Token
import Recompiler.IR.Ty
import Recompiler.Index
import Recompiler.Interp.Backend
import Recompiler.Interp.Code
import Recompiler.Interp.Exec
import Recompiler.Jit.Basic
import Recompiler.Jit.Cache
import Recompiler.Jit.Config
import Recompiler.Jit.Files
import Recompiler.Jit.Run
import Recompiler.Lift
import Recompiler.Main
import Recompiler.Pass.Allocation
import Recompiler.Pass.AllocationCheck
import Recompiler.Pass.BlockTree
import Recompiler.Pass.ContextReuse
import Recompiler.Pass.DeadCode
import Recompiler.Pass.Fold
import Recompiler.Pass.Pipeline
import Recompiler.Pass.Register
import Recompiler.Pass.Simplify
import Recompiler.Pass.Stats
import Recompiler.Proofs.Allocation.Assignment
import Recompiler.Proofs.Allocation.Branching
import Recompiler.Proofs.Allocation.Checking
import Recompiler.Proofs.Allocation.Correctness
import Recompiler.Proofs.Allocation.Expiry
import Recompiler.Proofs.Allocation.Filling
import Recompiler.Proofs.Allocation.Insertion
import Recompiler.Proofs.Allocation.Invariant
import Recompiler.Proofs.Allocation.Packing
import Recompiler.Proofs.Allocation.Recording
import Recompiler.Proofs.Allocation.Simulation
import Recompiler.Proofs.Allocation.Sparing
import Recompiler.Proofs.Allocation.Spilling
import Recompiler.Proofs.Allocation.StraightLine
import Recompiler.Proofs.Allocation.Tolls
import Recompiler.Proofs.Allocation.Visit
import Recompiler.Proofs.Arm.BlockTransfer
import Recompiler.Proofs.Arm.Blocks
import Recompiler.Proofs.Arm.Comparing
import Recompiler.Proofs.Arm.Flow
import Recompiler.Proofs.Arm.Shifting
import Recompiler.Proofs.Arm.State
import Recompiler.Proofs.Arm.Tolls
import Recompiler.Proofs.Bytes
import Recompiler.Proofs.Context
import Recompiler.Proofs.IR.Building
import Recompiler.Proofs.IR.Chain
import Recompiler.Proofs.IR.Closing
import Recompiler.Proofs.IR.Emit
import Recompiler.Proofs.IR.Fragment
import Recompiler.Proofs.IR.Leaving
import Recompiler.Proofs.IR.Linked
import Recompiler.Proofs.IR.Meaning
import Recompiler.Proofs.IR.Metering
import Recompiler.Proofs.IR.Methods
import Recompiler.Proofs.IR.Naming
import Recompiler.Proofs.IR.Operations
import Recompiler.Proofs.IR.Paths
import Recompiler.Proofs.IR.Quoting
import Recompiler.Proofs.IR.Reaching
import Recompiler.Proofs.IR.Receiving
import Recompiler.Proofs.IR.Recording
import Recompiler.Proofs.IR.Removal
import Recompiler.Proofs.IR.Rereading
import Recompiler.Proofs.IR.Returning
import Recompiler.Proofs.IR.Rewriting
import Recompiler.Proofs.IR.Serving
import Recompiler.Proofs.IR.Substitution
import Recompiler.Proofs.IR.Thinning
import Recompiler.Proofs.IR.Tidying
import Recompiler.Proofs.IR.Tolls
import Recompiler.Proofs.IR.Totality
import Recompiler.Proofs.IR.Trimming
import Recompiler.Proofs.IR.Typing
import Recompiler.Proofs.IR.WellFormed
import Recompiler.Proofs.Interp.Agreement
import Recompiler.Proofs.Interp.Exits
import Recompiler.Proofs.Interp.Lowering
import Recompiler.Proofs.Interp.Tolls
import Recompiler.Proofs.Jit.Budget
import Recompiler.Proofs.Jit.Cache
import Recompiler.Proofs.Jit.Compiled
import Recompiler.Proofs.Jit.Dispatch
import Recompiler.Proofs.Jit.Exits
import Recompiler.Proofs.Jit.FastMem
import Recompiler.Proofs.Jit.Frontends
import Recompiler.Proofs.Jit.Hosts
import Recompiler.Proofs.Jit.Images
import Recompiler.Proofs.Jit.InStep
import Recompiler.Proofs.Jit.Invalidation
import Recompiler.Proofs.Jit.Links
import Recompiler.Proofs.Machine
import Recompiler.Proofs.Pass.ContextReuse
import Recompiler.Proofs.Pass.DeadConduct
import Recompiler.Proofs.Pass.DeadRemoval
import Recompiler.Proofs.Pass.Folding
import Recompiler.Proofs.Pass.Known
import Recompiler.Proofs.Pass.LoadReuse
import Recompiler.Proofs.Pass.Replacement
import Recompiler.Proofs.Pass.Simplifying
import Recompiler.Proofs.Pass.Stages
import Recompiler.Proofs.Pass.StoreRemoval
import Recompiler.Proofs.Pass.Tolls
import Recompiler.Proofs.Pass.Visiting
import Recompiler.Proofs.Ram
import Recompiler.Proofs.Sh4.Alike
import Recompiler.Proofs.Sh4.Banks
import Recompiler.Proofs.Sh4.Blocks
import Recompiler.Proofs.Sh4.Branches
import Recompiler.Proofs.Sh4.Charges
import Recompiler.Proofs.Sh4.Instructions
import Recompiler.Proofs.Sh4.Interrupts
import Recompiler.Proofs.Sh4.Lifting
import Recompiler.Proofs.Sh4.Mapping
import Recompiler.Proofs.Sh4.Slots
import Recompiler.Proofs.Sh4.Status
import Recompiler.Proofs.Sh4.Tolls
import Recompiler.Proofs.X64.Arithmetic
import Recompiler.Proofs.X64.Blocks
import Recompiler.Proofs.X64.Bodies
import Recompiler.Proofs.X64.CodeBuffer
import Recompiler.Proofs.X64.Computing
import Recompiler.Proofs.X64.Decoding
import Recompiler.Proofs.X64.Emission
import Recompiler.Proofs.X64.Exits
import Recompiler.Proofs.X64.Framing
import Recompiler.Proofs.X64.Landing
import Recompiler.Proofs.X64.Linking
import Recompiler.Proofs.X64.Reading
import Recompiler.Proofs.X64.Registers
import Recompiler.Proofs.X64.Selection
import Recompiler.Proofs.X64.Standing
import Recompiler.Proofs.X64.Walking
import Recompiler.Proofs.X64.Working
import Recompiler.Ram
import Recompiler.Sh4.Context
import Recompiler.Sh4.Cpu
import Recompiler.Sh4.Interpret
import Recompiler.Sh4.Lift
import Recompiler.Sh4.Op
import Recompiler.Sh4.State
import Recompiler.Text.Blank
import Recompiler.Text.Number
import Recompiler.Trait
import Recompiler.X64.Assembly
import Recompiler.X64.Backend
import Recompiler.X64.CodeBuffer
import Recompiler.X64.Decode
import Recompiler.X64.Emission
import Recompiler.X64.Encode
import Recompiler.X64.Frame
import Recompiler.X64.Instruction
import Recompiler.X64.Lower
import Recompiler.X64.Machine
import Recompiler.X64.Register
import Recompiler.X64.Thunk
