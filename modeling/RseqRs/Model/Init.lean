import RseqRs.Model.Cpus
import RseqRs.Model.Tasks

/-!
# `Rseq::new` (`src/rseq.rs`, `src/registration.rs`)

The first call of `Rseq::new` in a process runs `init` and keeps its result in `STATE`; every
later one, on any thread, returns that. `OnceLock` holds the other callers back while `init`
runs, and `init` itself comes to no other thread's `SLOT`, so a call is one step here. What
`init` finds in its environment (`Env`) is a part of the step.
-/

namespace RseqRs

/-- `Mode`. -/
inductive Mode where
  | glibc (offset : Usize)
  | selfRegistered
deriving DecidableEq

/-- `rseq::Rseq`. -/
structure Rseq where
  mode : Mode
  cpus : U32
  node : Bool
  cid : Bool
  slice : Bool
deriving DecidableEq

/-- `GLIBC_SIZE_MIN`. -/
def glibcSizeMin : ℕ := 20

/-- `NODE_FEATURE_SIZE`. -/
def nodeFeatureSize : ℕ := 24

/-- `CID_FEATURE_SIZE`. -/
def cidFeatureSize : ℕ := 28

/-- `SLICE_FEATURE_SIZE`. -/
def sliceFeatureSize : ℕ := 33

/-- What `init` finds. -/
structure Env where
  /-- the value of `__rseq_size`, if libc exports it -/
  size : Option U32
  /-- the value of `__rseq_offset`, if libc exports it -/
  offset : Option Usize
  /-- `getauxval(AT_RSEQ_FEATURE_SIZE)` -/
  featureSize : Usize
  /-- the answer to a register command: the CPU the kernel writes with its `0`, or an error -/
  rc : Option U32
  /-- what the file of the possible CPUs holds, if it can be read -/
  file : Option (List UInt8)

namespace Env

variable (e : Env)

/-- `registration::glibc_area_info`. -/
def glibcAreaInfo : Option (Usize × ℕ) := do
  -- both symbols must be there, and the size not too small
  let size ← e.size
  let offset ← e.offset
  if size.toNat < glibcSizeMin then none else some (offset, size.toNat)

/-- `registration::node_supported`. -/
def nodeSupported : Bool := nodeFeatureSize ≤ e.featureSize.toNat

/-- `registration::cid_supported`. -/
def cidSupported : Bool := cidFeatureSize ≤ e.featureSize.toNat

/-- `registration::slice_supported`. -/
def sliceSupported : Bool := sliceFeatureSize ≤ e.featureSize.toNat

/-- The last expression of `Rseq::init`. -/
def build (mode : Mode) (slice : Bool) : Option Rseq := do
  return ⟨mode, ← Cpus.possible e.file, e.nodeSupported, e.cidSupported, slice⟩

end Env

namespace Tasks

/-- What `Registration::bind` has come to. -/
def Pc.area : Pc → Option Usize
  | .bound _ area => area
  | _ => none

variable {Pid Tid : Type}

/-- `Registration::bind`, with nothing coming between its steps: what it returns, the thread
after it and the `cpu_id` in its `SLOT`. -/
def Task.bind (T : Task Pid) (sig : U32) (rc : Option U32) (id : U32) :
    Option Usize × Task Pid × U32 :=
  let A := T.access false id
  if A.pc = .syscall false then
    let B := A.registered sig false rc.isSome
    (B.pc.area, { B with pc := .caller }, rc.getD id)
  else (A.pc.area, { A with pc := .caller }, id)

end Tasks

namespace Env

variable {Pid : Type} (e : Env)

/-- `Rseq::init` on the thread `T`. -/
def init (sig : U32) (T : Tasks.Task Pid) (id : U32) : Option Rseq × Tasks.Task Pid × U32 :=
  match e.glibcAreaInfo with
  | some (offset, size) =>
    (e.build (.glibc offset) (e.sliceSupported && decide (sliceFeatureSize ≤ size)), T, id)
  | none =>
    match T.bind sig e.rc id with
    -- `Registration::bind()?`
    | (none, T', id') => (none, T', id')
    -- `Cpus::possible()?` comes after the thread is registered
    | (some _, T', id') => (e.build .selfRegistered false, T', id')

end Env

namespace Tasks

/-- A process: `STATE`, and its threads. -/
structure Process (Tid : Type) where
  state : Option (Option Rseq)
  world : World Unit Tid

variable {Tid : Type}

/-- What the kernel holds for a thread. -/
def Process.reg (p : Process Tid) (t : Tid) : Option Held := (p.world.task t).bind Task.reg

/-- A call of `Rseq::new` on the thread `t`, or another step of a thread. -/
inductive Act (Tid : Type) where
  | new (t : Tid) (e : Env) (r : Option Rseq)
  | other (l : Label Unit Tid)

variable [DecidableEq Tid]

/-- One step of the process. -/
inductive ProcStep (sig : U32) : Process Tid → Act Tid → Process Tid → Prop
  /-- the call that runs `init` -/
  | init {p : Process Tid} {t : Tid} {T T' : Task Unit} {e : Env} {r : Option Rseq} {id : U32} :
      p.state = none → p.world.task t = some T → T.pc = .caller → T.phase ≠ .freed →
      (∀ cpu, e.rc = some cpu → IsCpu cpu ∧ T.reg = none) →
      e.init sig T (p.world.cpuId T.proc T.area) = (r, T', id) →
      ProcStep sig p (.new t e r) ⟨some r, (p.world.set t T').write T.proc T.area id⟩
  /-- a call that finds the result -/
  | cached {p : Process Tid} {t : Tid} {T : Task Unit} {e : Env} {r : Option Rseq} :
      p.state = some r → p.world.task t = some T → T.pc = .caller → T.phase ≠ .freed →
      ProcStep sig p (.new t e r) p
  | other {p : Process Tid} {l : Label Unit Tid} {w : World Unit Tid} :
      Step sig p.world l w → ProcStep sig p (.other l) { p with world := w }

/-- A step of a run, with the states around it. -/
structure Taken (Tid : Type) where
  before : Process Tid
  act : Act Tid
  after : Process Tid

/-- The step relation whose runs are recorded with their states. -/
def Taken.Leads (sig : U32) (p : Process Tid) (x : Taken Tid) (p' : Process Tid) : Prop :=
  x.before = p ∧ x.after = p' ∧ ProcStep sig p x.act p'

/-- A call that returns `None` leaves the thread's registration as it was. -/
def Taken.FailedKeeps (x : Taken Tid) : Prop :=
  ∀ t e, x.act = .new t e none → x.after.reg t = x.before.reg t

/-- A call of `new` that finds no `STATE` and no area of glibc, and whose register command is
made and accepted, finds a file with a list of CPUs. -/
def Taken.Counts (x : Taken Tid) : Prop :=
  ∀ t e r T, x.act = .new t e r → x.before.state = none → e.glibcAreaInfo = none →
    x.before.world.task t = some T → T.slot ≠ .destroyed →
    ¬IsCpu (x.before.world.cpuId T.proc T.area) → e.rc.isSome →
    Cpus.Readable e.file

end Tasks

end RseqRs
