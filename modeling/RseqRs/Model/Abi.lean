import Mathlib.Data.BitVec
import RseqRs.Lib.CritSec

/-!
# The kernel ABI (`src/abi.rs`, `src/attempt.rs`)

The fields of the kernel's `struct rseq` that the word ops, the accessors and
the registration read or write, and the outcome an `asm!` block reports.
-/

namespace RseqRs

/-- A machine word: `usize`, `isize` and every pointer of the two 64-bit targets. -/
abbrev Usize := BitVec 64

/-- `u32`. -/
abbrev U32 := BitVec 32

/-- Caller memory, one aligned `usize` cell for each address. -/
abbrev Mem := Usize → Usize

/-- An access of a section: 32-bit indices, words for addresses and values. -/
abbrev Acc := Access U32 Usize

/-- `CPU_UNINIT`, `u32::MAX`. -/
def cpuUninit : U32 := 0xFFFFFFFF

/-- `CPU_REG_FAILED`, `u32::MAX - 1`. -/
def cpuRegFailed : U32 := 0xFFFFFFFE

/-- `CPU_ID_OFF`. -/
def cpuIdOff : ℕ := 4

/-- `CS_OFF`. -/
def csOff : ℕ := 8

/-- `MM_CID_OFF`. -/
def mmCidOff : ℕ := 24

/-- The fields of `struct rseq` this crate and the kernel exchange data through. -/
structure Area where
  cpuId : U32
  rseqCs : Usize
  mmCid : U32
deriving DecidableEq

/-- The 32-bit field at byte offset `off` of the area. -/
def Area.load32 (a : Area) (off : ℕ) : U32 :=
  if off = cpuIdOff then a.cpuId else if off = mmCidOff then a.mmCid else 0

/-- `attempt::Attempt`: what an `asm!` block reports. -/
inductive Attempt where
  | ok (value : Usize)
  | miss (value : Usize)
  | abort
deriving DecidableEq

/-- `Attempt::from_status`. -/
def Attempt.fromStatus (status value : Usize) : Attempt :=
  if status = 0 then .ok value else if status = 1 then .miss value else .abort

end RseqRs
