import RseqRs.Model.Thread

/-!
# Expedited membarrier (`src/membarrier.rs`, `Rseq::fence` and `fence_all`)

`Membarrier::run` over its two process-global flags and the kernel's
registration of the process's `mm`. `RunStep` has one constructor for each step
other threads can come between; `Flags.run` is the same code run by one thread
alone, against a kernel that accepts every register command.
-/

namespace RseqRs

/-- The result of a membarrier syscall: `0`, `EPERM`, or another error. -/
inductive Rc where
  | ok
  | eperm
  | err
deriving DecidableEq

/-- `READY`, `USED`, and whether the `mm` registered the command. -/
structure Flags where
  ready : Option Bool
  used : Bool
  registered : Bool
deriving DecidableEq

/-- A process that has not fenced. -/
def Flags.fresh : Flags := ⟨none, false, false⟩

/-- `FLAG_CPU`. -/
def flagCpu : ℕ := 1

/-- The arguments of the barrier syscall after the command. -/
structure Barrier where
  flags : ℕ
  cpu : U32
deriving DecidableEq

/-- The kernel's reading of them: one CPU with `FLAG_CPU`, every CPU without. -/
def Barrier.Targets (b : Barrier) (cpu : U32) : Prop := b.flags = flagCpu → cpu = b.cpu

instance (b : Barrier) (cpu : U32) : Decidable (b.Targets cpu) :=
  inferInstanceAs (Decidable (_ → _))

/-- A call of `Rseq::fence` or `Rseq::fence_all`. -/
inductive FenceCall where
  | fence (cpu : CpuId)
  | fenceAll
deriving DecidableEq

namespace FenceCall

/-- The check of `Rseq::fence`: the CPU is below the count. -/
def Counted (cpus : U32) : FenceCall → Prop
  | .fence cpu => cpu.id < cpus
  | .fenceAll => True

/-- The check of `Membarrier::fence`: the CPU is a `c_int`. -/
def FitsCInt : FenceCall → Prop
  | .fence cpu => cpu.id.toNat < 2 ^ 31
  | .fenceAll => True

instance (cpus : U32) : (f : FenceCall) → Decidable (f.Counted cpus)
  | .fence cpu => inferInstanceAs (Decidable (cpu.id < cpus))
  | .fenceAll => inferInstanceAs (Decidable True)

instance : (f : FenceCall) → Decidable f.FitsCInt
  | .fence cpu => inferInstanceAs (Decidable (cpu.id.toNat < 2 ^ 31))
  | .fenceAll => inferInstanceAs (Decidable True)

/-- The arguments `Membarrier::run` is called with, if both checks pass. -/
def barrier (cpus : U32) (f : FenceCall) : Option Barrier :=
  if f.Counted cpus ∧ f.FitsCInt then
    match f with
    | .fence cpu => some ⟨flagCpu, cpu.id⟩
    | .fenceAll => some ⟨0, 0⟩
  else none

theorem barrier_isSome {cpus : U32} {f : FenceCall} :
    (f.barrier cpus).isSome ↔ f.Counted cpus ∧ f.FitsCInt := by
  unfold barrier
  split
  · next h => cases f <;> exact iff_of_true rfl h
  · next h => exact iff_of_false (by simp) h

end FenceCall

/-- Where a call of `Membarrier::run` stands. -/
inductive RunPc where
  /-- before `Self::ready()` -/
  | ready
  /-- before the barrier syscall -/
  | barrier
  /-- before `USED.store(true)` -/
  | store
  /-- before `USED.swap(false)` -/
  | swap
  /-- before the second `Self::register()` -/
  | register
  /-- before the second barrier syscall -/
  | retry
  /-- about to return -/
  | ret (b : Bool)
deriving DecidableEq

/-- What a step of `run` did. -/
inductive RunEv where
  /-- `READY` was set already -/
  | ready
  /-- `get_or_init` ran `register`, which succeeded or not -/
  | init (ok : Bool)
  | barrier (rc : Rc)
  | store
  /-- `swap` returned `old` -/
  | swap (old : Bool)
  | register (ok : Bool)
  | retry (rc : Rc)
deriving DecidableEq

/-- The kernel's answer to a barrier command: `EPERM` if and only if the `mm` is
not registered. -/
def Flags.Answers (p : Flags) (rc : Rc) : Prop := rc = .eperm ↔ p.registered = false

theorem Flags.answers_ok {p : Flags} (h : p.registered = true) : p.Answers .ok := by
  simp [Flags.Answers, h]

theorem Flags.answers_eperm {p : Flags} (h : p.registered = false) : p.Answers .eperm := by
  simp [Flags.Answers, h]

/-- Without another error there is one answer. -/
theorem Flags.Answers.eq {p : Flags} {rc : Rc} (h : p.Answers rc) (hne : rc ≠ .err) :
    rc = if p.registered then .ok else .eperm := by
  cases hp : p.registered with
  | true =>
    cases rc with
    | ok => rfl
    | eperm =>
      have hreg := h.mp rfl
      rw [hp] at hreg
      cases hreg
    | err => exact absurd rfl hne
  | false => exact h.mpr hp

/-- One step of `Membarrier::run`. `OnceLock` holds other callers of `get_or_init`
back while `register` runs, so the two together are one step. -/
inductive RunStep : Flags → RunPc → RunEv → Flags → RunPc → Prop
  | ready {p : Flags} {b : Bool} : p.ready = some b →
      RunStep p .ready .ready p (if b then .barrier else .ret false)
  | init {p : Flags} (ok : Bool) : p.ready = none →
      RunStep p .ready (.init ok)
        { p with ready := some ok, registered := p.registered || ok }
        (if ok then .barrier else .ret false)
  | barrier {p : Flags} {rc : Rc} : p.Answers rc →
      RunStep p .barrier (.barrier rc) p
        (match rc with | .ok => .store | .eperm => .swap | .err => .ret false)
  | store {p : Flags} : RunStep p .store .store { p with used := true } (.ret true)
  | swap {p : Flags} : RunStep p .swap (.swap p.used) { p with used := false }
      (if p.used then .register else .ret false)
  | register {p : Flags} (ok : Bool) : RunStep p .register (.register ok)
      { p with registered := p.registered || ok } (if ok then .retry else .ret false)
  | retry {p : Flags} {rc : Rc} : p.Answers rc →
      RunStep p .retry (.retry rc) p (.ret (rc = .ok))

/-- A kernel that accepts every register command and fails no barrier but with
`EPERM`. -/
def RunEv.Accepting : RunEv → Prop
  | .init ok | .register ok => ok = true
  | .barrier rc | .retry rc => rc ≠ .err
  | .ready | .store | .swap _ => True

/-! ### One thread alone -/

namespace Flags

/-- `Self::ready()`, the register command accepted. -/
def getReady (p : Flags) : Bool × Flags :=
  match p.ready with
  | some b => (b, p)
  | none => (true, { p with ready := some true, registered := true })

/-- `Membarrier::run`: the barrier command answers `0` if the `mm` is registered
and `EPERM` otherwise, every register command is accepted. -/
def run (p : Flags) : Bool × Flags :=
  let (ready, p) := p.getReady
  if !ready then (false, p)
  else if p.registered then (true, { p with used := true })
  else if p.used then
    -- `USED.swap(false)` read true: register, then the second barrier
    (true, { p with used := false, registered := true })
  else (false, { p with used := false })

/-- `Rseq::fence` and `Rseq::fence_all`. -/
def fence (cpus : U32) (p : Flags) (f : FenceCall) : Bool × Flags :=
  match f.barrier cpus with
  | some _ => p.run
  | none => (false, p)

/-- `fork`: the child has a copy of the flags, and an `mm` of its own. -/
def fork (p : Flags) : Flags := { p with registered := false }

end Flags

/-- `run` is what `RunStep` does when no other thread comes between and the
kernel accepts: from the first step to the return. -/
inductive RunsTo : Flags → RunPc → Bool → Flags → Prop
  | ret {p : Flags} {b : Bool} : RunsTo p (.ret b) b p
  | step {p p' p'' : Flags} {pc pc' : RunPc} {ev : RunEv} {b : Bool} :
      RunStep p pc ev p' pc' → ev.Accepting → RunsTo p' pc' b p'' → RunsTo p pc b p''

end RseqRs
