import RseqRs.Lib.Restart
import RseqRs.Model.Machine

/-!
# One block on its own

The execution of a single `asm!` block, instruction by instruction, with everything else
as its environment. Between any two instructions the kernel may interrupt the caller: then
others run, on this CPU or elsewhere, and the caller finds the area and the memory as they
left them. While the caller runs nobody else touches its cells, so that the two steps of
an `xadd` find one memory.

The kernel's rule is that of `Image.fixup`, in terms of slots: if `rseq_cs` names the
descriptor of the block and the slot lies in `[start_ip, post_commit_ip)`, the caller
resumes at `abort_ip`. The registers are of any type, so that a block can also be run with
its operands in machine registers.
-/

namespace RseqRs

/-- A block between two instructions, with the caller's area and memory. -/
structure BlockState (ρ : Type) where
  core : Core ρ
  area : Area
  mem : Mem

/-- An instruction, or the kernel steps in. -/
inductive BlockLabel where
  | exec (o : Obs)
  | event (e : CritSec.Event Area Usize)

/-- The event, if the step is one. -/
def BlockLabel.event? : BlockLabel → Option (CritSec.Event Area Usize)
  | .exec _ => none
  | .event e => some e

namespace Block

variable {ρ : Type} (b : Block ρ) (cs ptr : Usize)

/-- **The kernel's rule**, when it returns to the caller. -/
def restart (x : BlockState ρ) : Core ρ :=
  if x.area.rseqCs = cs ∧ b.start ≤ x.core.pc ∧ x.core.pc < b.post then
    { x.core with pc := b.abort }
  else x.core

/-- One step of the block whose descriptor is at `cs`, in a thread whose area is at `ptr`. -/
inductive Step [DecidableEq ρ] : BlockState ρ → BlockLabel → BlockState ρ → Prop
  | exec {x : BlockState ρ} {o : Obs} {v : Usize} {area : Area} {m : Mem} :
      (b.req x.core).bind (Req.answer ptr x.area x.mem (x.core.pc + 1 == b.post)) =
        some (o, v, area, m) →
      Step x (.exec o) ⟨b.next cs x.core v, area, m⟩
  | event {x : BlockState ρ} (area : Area) (m : Mem) : x.core.latch = none →
      Step x (.event ⟨x.mem, area, m⟩) ⟨b.restart cs x, area, m⟩

/-- `n` instructions, with no event between them. -/
def solo [DecidableEq ρ] : ℕ → BlockState ρ → Option (List BlockLabel × BlockState ρ)
  | 0, x => some ([], x)
  | n + 1, x => (solo n x).bind fun (h, x) =>
    ((b.req x.core).bind (Req.answer ptr x.area x.mem (x.core.pc + 1 == b.post))).map
      fun (o, v, area, m) => (.exec o :: h, ⟨b.next cs x.core v, area, m⟩)

theorem solo_run [DecidableEq ρ] {n : ℕ} {x : BlockState ρ} {p : List BlockLabel × BlockState ρ}
    (hs : b.solo cs ptr n x = some p) : LTS.Run (b.Step cs ptr) x p.1 p.2 := by
  induction n generalizing p with
  | zero => cases hs; exact .nil
  | succ n ih =>
    obtain ⟨q, hq, hs⟩ := Option.bind_eq_some_iff.mp hs
    obtain ⟨⟨o, v, area, m⟩, hans, hs⟩ := Option.map_eq_some_iff.mp hs
    cases hs
    exact .cons (ih hq) (.exec hans)

/-- What the block reports once it is at its end. -/
def Reports (x : BlockState ρ) (a : Attempt) : Prop :=
  x.core.pc = b.len ∧ Attempt.fromStatus (x.core.regs b.status) (x.core.regs b.value) = a

end Block

/-- Where a call finds itself: the address of its descriptor and of the caller's area, and
what the registers hold that are not its operands. -/
structure Entry where
  cs : Usize
  ptr : Usize
  regs : Reg → Usize
  zf : Bool

namespace Op

variable {K : Index} (arch : Arch) (op : Op K) (en : Entry)

/-- The block is entered. -/
def entry (area : Area) (m : Mem) : BlockState Reg :=
  ⟨⟨0, op.enter en.ptr en.regs, en.zf, none⟩, area, m⟩

/-- The op's section on `arch`, entered with area `area` and memory `m`, gets to `x`; on
the way it meets the kernel's events `τ`, newest first. -/
def RunsTo (area : Area) (m : Mem) (τ : List (CritSec.Event Area Usize)) (x : BlockState Reg) :
    Prop :=
  ∃ h, LTS.Run ((op.block arch).Step en.cs en.ptr) (op.entry en area m) h x ∧
    h.filterMap BlockLabel.event? = τ

end Op

end RseqRs
