import RseqRs.Lib.Run
import RseqRs.Model.Registration

/-!
# Self-registration across threads and processes (`src/registration.rs`, `Rseq::bind`)

Any number of threads, in processes that fork, each with a `SLOT` of its own. `bind` and the
destructor of `SLOT` take their steps one at a time: the access to `SLOT` with the first read of
`cpu_id`, the syscall, the second read of `Rseq::bind`. The kernel and the other threads come
between any two of them. What the kernel holds for a thread is a pointer, and what it writes
there it writes into the memory of the thread's process, whatever that memory is by then.
-/

namespace RseqRs

/-- What the kernel keeps of a `SYS_rseq`: the arguments of the register command. -/
structure Held where
  ptr : Usize
  len : ℕ
  sig : U32
deriving DecidableEq

/-- `size_of::<Area>()`. -/
def sizeOfArea : ℕ := 32

/-- Whether `cpu_id` is a CPU and not one of the two sentinels: what `register` and `Rseq::bind`
check. -/
def IsCpu (id : U32) : Prop := id ≠ cpuUninit ∧ id ≠ cpuRegFailed

instance (id : U32) : Decidable (IsCpu id) := inferInstanceAs (Decidable (_ ∧ _))

namespace Tasks

/-- Where a thread stands. `rseq` tells `Rseq::bind` from a call of `Registration::bind`. -/
inductive Pc where
  /-- in caller code -/
  | caller
  /-- before `SLOT.try_with` -/
  | access (rseq : Bool)
  /-- in `register`, before the syscall -/
  | syscall (rseq : Bool)
  /-- `Registration::bind` has its result -/
  | bound (rseq : Bool) (area : Option Usize)
  /-- in `drop`, before the syscall -/
  | drop
deriving DecidableEq

inductive Phase where
  | running
  /-- its thread-local destructors run -/
  | exiting
  /-- its thread-local memory is free, and may be used again -/
  | freed
deriving DecidableEq

/-- A thread: the address of the area in its `SLOT`, and what the kernel holds for it. -/
structure Task (Pid : Type) where
  proc : Pid
  area : Usize
  slot : Slot
  reg : Option Held
  pc : Pc
  phase : Phase

/-- The threads, and the `cpu_id` field of the area at each address of each process. -/
structure World (Pid Tid : Type) where
  task : Tid → Option (Task Pid)
  cpuId : Pid → Usize → U32

variable {Pid Tid : Type}

namespace Task

/-- A thread before its first access to `SLOT`. -/
def fresh (p : Pid) (a : Usize) : Task Pid := ⟨p, a, .unused, none, .caller, .running⟩

/-- The arguments of the register and of the unregister command. -/
def own (sig : U32) (T : Task Pid) : Held := ⟨T.area, sizeOfArea, sig⟩

/-- `SLOT.try_with(Self::register)`, up to the syscall: `cpu_id` reads `id`. -/
def access (T : Task Pid) (rseq : Bool) (id : U32) : Task Pid :=
  match T.slot with
  -- `try_with` fails
  | .destroyed => { T with pc := .bound rseq none }
  | .unused | .alive =>
    { T with
      slot := .alive
      -- a `cpu_id` that is a CPU says that the area is registered
      pc := if IsCpu id then .bound rseq (some T.area) else .syscall rseq }

/-- The end of `register`: `rc` tells whether the syscall gave `0`. -/
def registered (T : Task Pid) (sig : U32) (rseq : Bool) (rc : Bool) : Task Pid :=
  if rc then { T with reg := some (T.own sig), pc := .bound rseq (some T.area) }
  else { T with pc := .bound rseq none }

/-- The unregister command of `drop`: the kernel clears what has the same arguments. -/
def unregistered (T : Task Pid) (sig : U32) : Task Pid :=
  if T.reg = some (T.own sig) then { T with reg := none, pc := .caller }
  else { T with pc := .caller }

/-- `SLOT` has been destroyed: its `drop` has returned. -/
def Destroyed (T : Task Pid) : Prop := T.slot = .destroyed ∧ T.pc ≠ .drop

end Task

/-- What is returned to the caller: `Rseq::bind` reads `cpu_id` once more. -/
def result (rseq : Bool) (area : Option Usize) (id : U32) : Option Usize :=
  if rseq && !decide (IsCpu id) then none else area

/-- A step, by the thread that takes it. -/
inductive Label (Pid Tid : Type) where
  | call (t : Tid) (rseq : Bool)
  | access (t : Tid)
  /-- the register command, and whether it gave `0` -/
  | register (t : Tid) (rc : Bool)
  | ret (t : Tid) (area : Option Usize)
  | exit (t : Tid)
  | dtor (t : Tid)
  | unregister (t : Tid)
  | free (t : Tid)
  | spawn (t u : Tid)
  | fork (t u : Tid)
  /-- the kernel lets the thread run again -/
  | resume (t : Tid)
  /-- memory that is no thread's `SLOT` changes -/
  | write (p : Pid) (a : Usize)

variable [DecidableEq Pid] [DecidableEq Tid]

namespace World

def set (w : World Pid Tid) (t : Tid) (T : Task Pid) : World Pid Tid :=
  { w with task := Function.update w.task t (some T) }

def write (w : World Pid Tid) (p : Pid) (a : Usize) (id : U32) : World Pid Tid :=
  { w with cpuId := Function.update w.cpuId p (Function.update (w.cpuId p) a id) }

/-- No thread has its `SLOT` at this address. -/
def Unused (w : World Pid Tid) (p : Pid) (a : Usize) : Prop :=
  ∀ u U, w.task u = some U → U.proc = p → U.phase ≠ .freed → U.area ≠ a

end World

/-- One step. The kernel accepts a register command only for a thread it holds nothing for, and
may refuse any; a thread has run the destructor of a `SLOT` it has accessed when its memory is
freed. -/
inductive Step (sig : U32) : World Pid Tid → Label Pid Tid → World Pid Tid → Prop
  | call {w : World Pid Tid} {t : Tid} {T : Task Pid} (rseq : Bool) : w.task t = some T →
      T.pc = .caller → T.phase ≠ .freed →
      Step sig w (.call t rseq) (w.set t { T with pc := .access rseq })
  | access {w : World Pid Tid} {t : Tid} {T : Task Pid} {rseq : Bool} : w.task t = some T →
      T.pc = .access rseq →
      Step sig w (.access t) (w.set t (T.access rseq (w.cpuId T.proc T.area)))
  | register {w : World Pid Tid} {t : Tid} {T : Task Pid} {rseq : Bool} {cpu : U32} :
      w.task t = some T → T.pc = .syscall rseq → T.reg = none → IsCpu cpu →
      Step sig w (.register t true)
        ((w.set t (T.registered sig rseq true)).write T.proc T.area cpu)
  | refuse {w : World Pid Tid} {t : Tid} {T : Task Pid} {rseq : Bool} : w.task t = some T →
      T.pc = .syscall rseq →
      Step sig w (.register t false) (w.set t (T.registered sig rseq false))
  | ret {w : World Pid Tid} {t : Tid} {T : Task Pid} {rseq : Bool} {area r : Option Usize} :
      w.task t = some T → T.pc = .bound rseq area →
      r = result rseq area (w.cpuId T.proc T.area) →
      Step sig w (.ret t r) (w.set t { T with pc := .caller })
  | exit {w : World Pid Tid} {t : Tid} {T : Task Pid} : w.task t = some T → T.pc = .caller →
      T.phase = .running → Step sig w (.exit t) (w.set t { T with phase := .exiting })
  /-- `try_with` fails from here on -/
  | dtor {w : World Pid Tid} {t : Tid} {T : Task Pid} : w.task t = some T → T.pc = .caller →
      T.phase = .exiting → T.slot = .alive →
      Step sig w (.dtor t) (w.set t { T with slot := .destroyed, pc := .drop })
  /-- the kernel writes the sentinel -/
  | unregister {w : World Pid Tid} {t : Tid} {T : Task Pid} : w.task t = some T →
      T.pc = .drop → T.reg = some (T.own sig) →
      Step sig w (.unregister t)
        ((w.set t (T.unregistered sig)).write T.proc T.area cpuUninit)
  | unregisterFails {w : World Pid Tid} {t : Tid} {T : Task Pid} : w.task t = some T →
      T.pc = .drop → T.reg ≠ some (T.own sig) →
      Step sig w (.unregister t) (w.set t (T.unregistered sig))
  | free {w : World Pid Tid} {t : Tid} {T : Task Pid} : w.task t = some T → T.pc = .caller →
      T.phase = .exiting → T.slot ≠ .alive →
      Step sig w (.free t) (w.set t { T with phase := .freed })
  | spawn {w : World Pid Tid} {t u : Tid} {T : Task Pid} (a : Usize) : w.task t = some T →
      T.pc = .caller → T.phase ≠ .freed → w.task u = none → w.Unused T.proc a →
      Step sig w (.spawn t u) ((w.set u (.fresh T.proc a)).write T.proc a cpuUninit)
  /-- the child has a copy of the memory, and inherits what the kernel holds -/
  | fork {w : World Pid Tid} {t u : Tid} {T : Task Pid} (q : Pid) : w.task t = some T →
      T.pc = .caller → T.phase ≠ .freed → w.task u = none →
      (∀ v V, w.task v = some V → V.proc ≠ q) →
      Step sig w (.fork t u)
        { w.set u { T with proc := q } with
          cpuId := Function.update w.cpuId q (w.cpuId T.proc) }
  | resume {w : World Pid Tid} {t : Tid} {T : Task Pid} {r : Held} {cpu : U32} :
      w.task t = some T → T.reg = some r → IsCpu cpu →
      Step sig w (.resume t) (w.write T.proc r.ptr cpu)
  | write {w : World Pid Tid} (p : Pid) (a : Usize) (id : U32) : w.Unused p a →
      Step sig w (.write p a) (w.write p a id)

/-- Threads that have not accessed their `SLOT`: for one, a process that has just started. -/
structure Initial (w : World Pid Tid) : Prop where
  fresh : ∀ t T, w.task t = some T → T = .fresh T.proc T.area
  cpuId : ∀ t T, w.task t = some T → w.cpuId T.proc T.area = cpuUninit
  apart : ∀ t u T U, w.task t = some T → w.task u = some U → t ≠ u → T.proc = U.proc →
    T.area ≠ U.area

/-- The kernel holds no pointer into the `SLOT` that was at `T`: not for this thread, and for
another one of its process only if the memory was freed and has become that thread's `SLOT`. -/
def World.NoPointer (w : World Pid Tid) (T : Task Pid) : Prop :=
  T.reg = none ∧ ∀ u U r, w.task u = some U → U.proc = T.proc → U.reg = some r →
    r.ptr = T.area → T.phase = .freed ∧ U.area = T.area ∧ U.phase ≠ .freed

/-- The life cycle of self-registration, over all runs from `w₀`. -/
structure LifeCycle (sig : U32) (w₀ : World Pid Tid) : Prop where
  /-- what `bind` returns is the thread's `SLOT`, and the kernel holds it -/
  bound : ∀ h w w' t a, LTS.Run (Step sig) w₀ h w → Step sig w (.ret t (some a)) w' →
    ∃ T, w.task t = some T ∧ a = T.area ∧ T.reg = some (T.own sig)
  /-- no register command for a thread that is registered -/
  once : ∀ h w w' t rc, LTS.Run (Step sig) w₀ h w → Step sig w (.register t rc) w' →
    ∃ T, w.task t = some T ∧ T.reg = none
  /-- once `SLOT` is destroyed, the kernel has no pointer into it -/
  gone : ∀ h w t T, LTS.Run (Step sig) w₀ h w → w.task t = some T → T.Destroyed →
    w.NoPointer T
  /-- and every later `bind` of the thread returns `None` -/
  silent : ∀ h w t T h' w', LTS.Run (Step sig) w₀ h w → w.task t = some T → T.Destroyed →
    LTS.Run (Step sig) w h' w' → ∀ r, Label.ret t r ∈ h' → r = none

end Tasks

end RseqRs
