import RseqRs.Model.Machine

/-!
# Self-registration (`src/registration.rs`, `Rseq::bind`)

One thread of a process that glibc has not registered: it binds, runs word ops,
and exits through its thread-local destructors, one of which drops the crate's
`Registration`. The thread runs on the machine of `Model/Machine.lean`; as long
as the kernel holds its area, the kernel's events act as there. Once the area is
unregistered they no longer touch it, nor the instruction pointer.

A `Thread` is `Copy` and outlives the `Registration`: a destructor that runs
later may still call word ops through it.
-/

namespace RseqRs

/-- The state of the thread-local `SLOT`, as `try_with` sees it. -/
inductive Slot where
  /-- not accessed yet: no destructor is registered -/
  | unused
  | alive
  /-- its destructor runs, or has run: `try_with` fails -/
  | destroyed
deriving DecidableEq

/-- `thread::Thread`, with the flag `cid` that `Rseq::new` found. Its area is
that of the thread it was bound on. -/
structure Thread where
  cid : Bool
deriving DecidableEq

/-- `Thread::cpu_id`. -/
def Thread.cpuId (_ : Thread) (area : Area) : Option CpuId := CpuId.new area.cpuId

/-- `Thread::cid`. -/
def Thread.cidOf (th : Thread) (area : Area) : Option Cid :=
  if !th.cid then none else some ⟨area.mmCid⟩

/-- The life of one self-registered thread. -/
structure Life (Site : Type) where
  mem : Mem
  thr : Thr Site
  /-- the kernel holds the area as registered -/
  registered : Bool
  slot : Slot
  /-- a `Thread` that `bind` has returned -/
  thread : Option Thread
  /-- thread-local destructors run -/
  exiting : Bool

namespace Life

variable {Site : Type}

/-- `Registration::new`: the area before any registration. -/
def newArea : Area := ⟨cpuUninit, 0, 0⟩

/-- `Registration::register`. `rc` is the kernel's answer to `SYS_rseq`: the
CPU and the concurrency id it writes with its `0`, or an error. -/
def register (rc : Option (U32 × U32)) (s : Life Site) : Bool × Life Site :=
  -- registered already: no syscall
  if s.thr.area.cpuId ≠ cpuUninit ∧ s.thr.area.cpuId ≠ cpuRegFailed then (true, s)
  else
    match rc with
    | some (cpu, cid) =>
      (true, { s with registered := true, thr := { s.thr with area := ⟨cpu, 0, cid⟩ } })
    | none => (false, s)

/-- `Registration::bind`. -/
def bindSlot (rc : Option (U32 × U32)) (s : Life Site) : Bool × Life Site :=
  match s.slot with
  | .destroyed => (false, s)
  | .unused | .alive => register rc { s with slot := .alive }

/-- `Rseq::bind`, for a process whose kernel does or does not populate `mm_cid`. -/
def bind (cid : Bool) (rc : Option (U32 × U32)) (s : Life Site) : Option Thread × Life Site :=
  -- `Rseq::bind` checks `cpu_id` once more
  let (ok, s) := s.bindSlot rc
  if ok ∧ s.thr.area.cpuId ≠ cpuUninit ∧ s.thr.area.cpuId ≠ cpuRegFailed then (some ⟨cid⟩, s)
  else (none, s)

/-- The state after a bind: the new `Thread`, or the one there was. -/
def bound (cid : Bool) (rc : Option (U32 × U32)) (s : Life Site) : Life Site :=
  let (th, s') := s.bind cid rc
  { s' with thread := th <|> s.thread }

/-- `Drop for Registration`, the kernel's answer to the unregister command being
`ok`: it resets `cpu_id` to the sentinel and `mm_cid` to `0`. -/
def drop (ok : Bool) (s : Life Site) : Life Site :=
  if ok then
    { s with
      slot := .destroyed
      registered := false
      thr := { s.thr with area := { s.thr.area with cpuId := cpuUninit, mmCid := 0 } } }
  else { s with slot := .destroyed }

/-- A step of the thread, in its context at depth `d`, or a write from outside. -/
inductive Label where
  | act (d : ℕ) (a : Act)
  | bind (rc : Option (U32 × U32))
  | exit
  | drop (ok : Bool)
  | write (a v : Usize)

end Life

/-- What a thread does itself, between events: all but fences. -/
def Act.user : Act → Bool
  | .exec _ | .call _ | .ret _ _ | .goto | .unload | .sigreturn | .preempt => true
  | _ => false

/-- A method of `Thread`. -/
def Act.onThread : Act → Bool
  | .call _ | .unload => true
  | _ => false

namespace Machine

variable (M : Machine Unit) (cid : Bool)

/-- The thread runs in its outermost context, in caller code. -/
def AtRest (s : Life M.img.Site) : Prop :=
  s.thr.running = true ∧ s.thr.top.frame = .idle

/-- One step in the life of a thread. -/
inductive LifeStep : Life M.img.Site → Life.Label → Life M.img.Site → Prop
  | user {s : Life M.img.Site} {a : Act} {m : Mem} {x : Thr M.img.Site} :
      M.Move () s.mem s.thr a m x → a.user = true →
      (a.onThread = true → s.thread.isSome = true) →
      LifeStep s (.act s.thr.depth a) { s with mem := m, thr := x }
  /-- an event, while the kernel holds the area -/
  | event {s : Life M.img.Site} {a : Act} {m : Mem} {x : Thr M.img.Site} :
      s.registered = true → M.Move () s.mem s.thr a m x →
      ((∃ cpu cid, a = .resume cpu cid) ∨ a = .signal) →
      LifeStep s (.act s.thr.depth a) { s with mem := m, thr := x }
  /-- the thread runs again, and the kernel leaves its area alone -/
  | resume {s : Life M.img.Site} (cpu cid : U32) : s.registered = false →
      s.thr.running = false →
      LifeStep s (.act s.thr.depth (.resume cpu cid))
        { s with thr := { s.thr with running := true } }
  /-- a signal, and the kernel leaves the interrupted context alone -/
  | signal {s : Life M.img.Site} (a : Usize) (g : Reg → Usize) (z : Bool) :
      s.registered = false → s.thr.running = true → s.thr.top.latch = none → M.img.Outside a →
      LifeStep s (.act s.thr.depth .signal)
        { s with thr := { s.thr with top := ⟨a, g, z, none, .idle⟩, below := s.thr.stack } }
  | bind {s : Life M.img.Site} (rc : Option (U32 × U32)) : M.AtRest s →
      LifeStep s (.bind rc) (s.bound cid rc)
  /-- the thread starts to exit -/
  | exit {s : Life M.img.Site} : M.AtRest s → s.thr.below = [] →
      LifeStep s .exit { s with exiting := true }
  /-- the destructor of `SLOT` runs; only a registered area can be unregistered -/
  | drop {s : Life M.img.Site} (ok : Bool) : M.AtRest s → s.thr.below = [] →
      s.exiting = true → s.slot = .alive → (ok = true → s.registered = true) →
      LifeStep s (.drop ok) (s.drop ok)
  | write {s : Life M.img.Site} (a v : Usize) :
      LifeStep s (.write a v) { s with mem := Function.update s.mem a v }

/-- A thread that has just started. -/
structure LifeInitial (s : Life M.img.Site) : Prop where
  area : s.thr.area = Life.newArea
  registered : s.registered = false
  slot : s.slot = .unused
  thread : s.thread = none
  idle : s.thr.top.frame = .idle
  outside : M.img.Outside s.thr.top.ip
  below : s.thr.below = []

end Machine

end RseqRs
