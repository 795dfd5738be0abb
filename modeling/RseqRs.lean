import RseqRs.Lib.Run
import RseqRs.Lib.CritSec
import RseqRs.Lib.Chain
import RseqRs.Model.Abi
import RseqRs.Model.Thread
import RseqRs.Model.Asm
import RseqRs.Model.X86
import RseqRs.Model.Aarch64
import RseqRs.Model.Image
import RseqRs.Model.Membarrier
import RseqRs.Model.Machine
import RseqRs.Model.Registration
import RseqRs.Model.FreeList
import RseqRs.Proof.Realises
import RseqRs.Proof.Blocks
import RseqRs.Proof.Layout
import RseqRs.Stage.Machine
import RseqRs.Stage.Refine
import RseqRs.Stage.Invariant
import RseqRs.Stage.Context
import RseqRs.Stage.Owned
import RseqRs.Spec.Atomic
import RseqRs.Proof.Armed
import RseqRs.Proof.ExactlyOnce
import RseqRs.Proof.StalePointer
import RseqRs.Proof.ForkChain
import RseqRs.Proof.FenceRace
import RseqRs.Proof.Drain
import RseqRs.Proof.Confirmed
import RseqRs.Proof.Teardown
import RseqRs.Proof.ListShape
import RseqRs.Proof.FreeList
import RseqRs.Proof.Effect
import RseqRs.Proof.Mirror
import RseqRs.Proof.Atomicity
import RseqRs.Lib.Restart
import RseqRs.Model.BlockRun
import RseqRs.Proof.Archs
import RseqRs.Model.Alloc
import RseqRs.Proof.Alloc
import RseqRs.Model.Script
import RseqRs.Spec.Calls
import RseqRs.Stage.Calls
import RseqRs.Proof.Failure
import RseqRs.Spec.Adds
import RseqRs.Stage.Adds
import RseqRs.Proof.AddAt
import RseqRs.Model.Steal
import RseqRs.Proof.Steal
import RseqRs.Lib.Stacks
import RseqRs.Model.NodeList
import RseqRs.Proof.NodeList
import RseqRs.Lib.Text
import RseqRs.Lib.Spans
import RseqRs.Model.Region
import RseqRs.Model.Cpus
import RseqRs.Proof.Cpus
import RseqRs.Model.Tasks
import RseqRs.Proof.Tasks
import RseqRs.Proof.Region
import RseqRs.Model.Init
import RseqRs.Proof.Init
import RseqRs.Spec.Errors
import RseqRs.Proof.Errors
import RseqRs.Lib.Ledger
import RseqRs.Spec.Ledger
import RseqRs.Stage.Ledger
import RseqRs.Proof.Ledger
import RseqRs.Model.Program
import RseqRs.Proof.Program
import RseqRs.Model.Retry
import RseqRs.Proof.Retry
import RseqRs.Proof.Clients
import RseqRs.Model.Cached
import RseqRs.Proof.Cached
import RseqRs.Spec.CpuList
import RseqRs.Proof.CpuList
import RseqRs.Proof.Descriptors
import RseqRs.Proof.Fences
import RseqRs.Proof.Mappings
import RseqRs.Proof.Race
import RseqRs.Proof.Alone
