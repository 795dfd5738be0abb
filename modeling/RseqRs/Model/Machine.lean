import RseqRs.Lib.Run
import RseqRs.Model.Image
import RseqRs.Model.Membarrier

/-!
# The machine: threads, signal handlers, the kernel, and the word ops

Threads of one process, each with its registered area and a stack of contexts:
the code that runs on top, and below it the code its signal handlers interrupted.
A context is in caller code, in a word op, or in a fence. Every instruction of a
word op is a step of its own, but for the `xadd`, which is two; the kernel may
preempt, resume anywhere, or deliver a signal between any two instructions, and any
cell may be written from outside between any two steps.

The kernel's rule (`Image.fixup`) is applied where the kernel returns to user
code: on resume after a preemption, on signal delivery, and on the threads an
expedited membarrier reaches. `rseq_cs` is zeroed there, and only a resume
rewrites `cpu_id` and `mm_cid`.
-/

namespace RseqRs

/-- What an instruction did outside the registers. -/
inductive Obs where
  | tau
  /-- `rseq_cs` received a descriptor -/
  | arm
  /-- an access; `last` if the instruction is the last of the critical section -/
  | acc (a : Acc) (last : Bool)
deriving DecidableEq

/-- The answer to a request: what was observed, the value read, and the area and
memory after it. Only the thread's own area is addressed through `base`. -/
def Req.answer (areaPtr : Usize) (area : Area) (m : Mem) (last : Bool) :
    Req → Option (Obs × Usize × Area × Mem)
  | .tau => some (.tau, 0, area, m)
  | .storeCs base off v =>
    -- the area is reached through the thread's own pointer, and no other way
    if base = areaPtr ∧ off = csOff then some (.arm, 0, { area with rseqCs := v }, m) else none
  | .loadId base off =>
    if base = areaPtr then
      some (.acc (.index (area.load32 off)) last, (area.load32 off).setWidth 64, area, m)
    else none
  | .load a => some (.acc (.load a (m a)) last, m a, area, m)
  | .store a v => some (.acc (.store a v) last, 0, area, Function.update m a v)

/-- What a context is doing. -/
inductive Frame (Site : Type) where
  /-- caller code -/
  | idle
  /-- a word op, whose section is the copy at `site` -/
  | op (c : Call) (site : Site)
  /-- a word op whose keys differ: it returns `Abort` without a section -/
  | refused (c : Call)
  /-- `Rseq::fence` or `Rseq::fence_all` -/
  | fence (f : FenceCall) (pc : RunPc)

/-- The registers of a context, and what it is doing. -/
structure Ctx (Site : Type) where
  ip : Usize
  regs : Reg → Usize
  zf : Bool
  /-- what an `xadd` under way has loaded -/
  latch : Option Usize
  frame : Frame Site

/-- A thread. One that is running runs on the CPU `area.cpuId`, with the
concurrency id `area.mmCid`. -/
structure Thr (Site : Type) where
  area : Area
  running : Bool
  top : Ctx Site
  /-- the contexts that signal handlers interrupted, innermost first -/
  below : List (Ctx Site)

/-- The depth of a thread's running context: the number of those below it. -/
def Thr.depth {Site : Type} (x : Thr Site) : ℕ := x.below.length

/-- All contexts of a thread, the running one first. -/
def Thr.stack {Site : Type} (x : Thr Site) : List (Ctx Site) := x.top :: x.below

/-- The context at a depth, in a stack or what is left of one. -/
def ctxAt {C : Type} : List C → ℕ → Option C
  | [], _ => none
  | c :: cs, d => if d = cs.length then some c else ctxAt cs d

/-- A process. -/
structure Sys (Tid Site : Type) where
  mem : Mem
  flags : Flags
  thr : Tid → Thr Site

/-- The fixed part of a process: its code, the size of its CPU set, and where
the area of each thread lies. -/
structure Machine (Tid : Type) where
  img : Image
  cpus : U32
  areaPtr : Tid → Usize

/-- What a thread does in one step, and what the kernel does to it. -/
inductive Act where
  /-- an instruction of a word op -/
  | exec (o : Obs)
  | call (c : Call)
  | ret (c : Call) (r : Except Error Usize)
  /-- caller code runs -/
  | goto
  /-- `Thread::prepare_unload` -/
  | unload
  | preempt
  | resume (cpu cid : U32)
  | signal
  | sigreturn
  | fenceCall (f : FenceCall)
  | fenceRet (f : FenceCall) (b : Bool)

/-- A step of the machine: of thread `t`, in its context at depth `d`, unless it
is a write to memory from outside. `hit` are the threads a barrier restarts. -/
inductive Label (Tid : Type) where
  | act (t : Tid) (d : ℕ) (a : Act)
  | fenceRun (t : Tid) (d : ℕ) (ev : RunEv) (hit : Tid → Bool)
  | write (a v : Usize)

/-- `ev` is a barrier command that returned `0`. -/
def RunEv.fences : RunEv → Bool
  | .barrier .ok | .retry .ok => true
  | _ => false

section Thread

variable (img : Image)

/-- **A return to user code**: the kernel applies its rule to the running context
and zeroes `rseq_cs`. -/
def Thr.event (x : Thr img.Site) : Thr img.Site :=
  { x with
    area := { x.area with rseqCs := 0 }
    top := { x.top with ip := img.fixup x.area.rseqCs x.top.ip } }

/-- The context of a word op whose section has reached `core`. -/
def Ctx.inOp (c : Call) (site : img.Site) (core : Core Reg) : Ctx img.Site :=
  { ip := img.ip site core.pc, regs := core.regs, zf := core.zf, latch := core.latch,
    frame := .op c site }

/-- The registers of a context as a state of the section at slot `i`. -/
def Ctx.core {Site : Type} (x : Ctx Site) (i : ℕ) : Core Reg := ⟨i, x.regs, x.zf, x.latch⟩

/-- The block of `site` and what its instruction in slot `i` asks for, answered. -/
def Image.answer (ptr : Usize) (area : Area) (m : Mem) (site : img.Site) (core : Core Reg) :
    Option (Obs × Usize × Area × Mem) :=
  ((img.block site).req core).bind
    (Req.answer ptr area m (core.pc + 1 == (img.block site).post))

end Thread

namespace Machine

variable {Tid : Type} (M : Machine Tid)

/-- A move of thread `t` by itself: from memory `m` and state `x`, to `m'` and `x'`. -/
inductive Move (t : Tid) (m : Mem) (x : Thr M.img.Site) : Act → Mem → Thr M.img.Site → Prop
  /-- one instruction of a word op -/
  | exec {c : Call} {site : M.img.Site} {i : ℕ} {o : Obs} {v : Usize} {area : Area} {m' : Mem} :
      x.running = true → x.top.frame = .op c site → M.img.locate x.top.ip = some (site, i) →
      M.img.answer (M.areaPtr t) x.area m site (x.top.core i) = some (o, v, area, m') →
      Move t m x (.exec o) m'
        { x with
          area := area
          top := .inOp M.img c site
            ((M.img.block site).next (M.img.desc site) (x.top.core i) v) }
  /-- a word op is called: its operands are in their registers, anything else is not its own -/
  | call {c : Call} (site : M.img.Site) (g : Reg → Usize) (z : Bool) :
      x.running = true → x.top.frame = .idle → c.op.keysAgree = true →
      M.img.sect site = c.op.section →
      Move t m x (.call c) m
        { x with top := .inOp M.img c site ⟨0, c.op.enter (M.areaPtr t) g, z, none⟩ }
  /-- a word op is called whose keys differ -/
  | callRefused {c : Call} : x.running = true → x.top.frame = .idle → c.op.keysAgree = false →
      Move t m x (.call c) m { x with top := { x.top with frame := .refused c } }
  /-- a word op returns what its block reports -/
  | ret {c : Call} (site : M.img.Site) (a : Usize) :
      x.running = true → x.top.frame = .op c site →
      x.top.ip = M.img.ip site (M.img.block site).len → M.img.Outside a →
      Move t m x
        (.ret c (c.op.finish (Attempt.fromStatus (x.top.regs (M.img.block site).status)
          (x.top.regs (M.img.block site).value)))) m
        { x with top := { x.top with ip := a, frame := .idle } }
  | retRefused {c : Call} : x.running = true → x.top.frame = .refused c →
      Move t m x (.ret c (.error .abort)) m { x with top := { x.top with frame := .idle } }
  | goto (a : Usize) (g : Reg → Usize) (z : Bool) : x.running = true → x.top.frame = .idle →
      M.img.Outside a → Move t m x .goto m { x with top := ⟨a, g, z, none, .idle⟩ }
  | unload : x.running = true → x.top.frame = .idle →
      Move t m x .unload m { x with area := { x.area with rseqCs := 0 } }
  /-- the thread is taken off its CPU, between two instructions -/
  | preempt : x.running = true → x.top.latch = none →
      Move t m x .preempt m { x with running := false }
  /-- the thread runs again, on any CPU -/
  | resume (cpu cid : U32) : x.running = false →
      Move t m x (.resume cpu cid) m
        { x.event M.img with area := ⟨cpu, 0, cid⟩, running := true }
  /-- a signal: a handler runs on top of the context it interrupts -/
  | signal (a : Usize) (g : Reg → Usize) (z : Bool) : x.running = true → x.top.latch = none →
      M.img.Outside a →
      Move t m x .signal m
        { x.event M.img with top := ⟨a, g, z, none, .idle⟩, below := (x.event M.img).stack }
  | sigreturn {y : Ctx M.img.Site} {ys : List (Ctx M.img.Site)} : x.running = true →
      x.top.frame = .idle → x.below = y :: ys →
      Move t m x .sigreturn m { x with top := y, below := ys }
  | fenceCall (f : FenceCall) : x.running = true → x.top.frame = .idle →
      Move t m x (.fenceCall f) m
        { x with
          top := { x.top with
            frame := .fence f (if (f.barrier M.cpus).isSome then .ready else .ret false) } }
  | fenceRet {f : FenceCall} {b : Bool} : x.running = true → x.top.frame = .fence f (.ret b) →
      Move t m x (.fenceRet f b) m { x with top := { x.top with frame := .idle } }

/-- A running thread that a barrier of `f` reaches. -/
def hits (f : FenceCall) (ev : RunEv) (running : Bool) (cpu : U32) : Bool :=
  ev.fences && running && (f.barrier M.cpus).any fun b => decide (b.Targets cpu)

variable [DecidableEq Tid]

/-- At most one thread runs on a CPU, and no two running threads share a
concurrency id. -/
def Free (s : Sys Tid M.img.Site) (t : Tid) (cpu cid : U32) : Prop :=
  ∀ t', t' ≠ t → (s.thr t').running = true →
    (s.thr t').area.cpuId ≠ cpu ∧ (s.thr t').area.mmCid ≠ cid

/-- `hit` are the threads that the step `ev` of `t` in a fence `f` interrupts: those a
barrier reaches. Whether that takes in its caller is open: for one CPU the kernel
interrupts the caller too, for all of them it leaves the caller out. -/
def Reaches (s : Sys Tid M.img.Site) (t : Tid) (f : FenceCall) (ev : RunEv)
    (hit : Tid → Bool) : Prop :=
  ∀ u, hit u = M.hits f ev (s.thr u).running (s.thr u).area.cpuId ∨ u = t ∧ hit u = false

/-- Thread `t`, in a fence `f`, makes a step to `pc`, which leaves the flags `p`; the
threads `hit` are restarted. -/
def fenced (s : Sys Tid M.img.Site) (t : Tid) (f : FenceCall) (pc : RunPc) (p : Flags)
    (hit : Tid → Bool) : Sys Tid M.img.Site where
  mem := s.mem
  flags := p
  thr u :=
    let x := s.thr u
    -- the caller's own context first, for a barrier may reach it too
    let x := if u = t then { x with top := { x.top with frame := .fence f pc } } else x
    if hit u then x.event M.img else x

/-- One step of the machine. -/
inductive Step : Sys Tid M.img.Site → Label Tid → Sys Tid M.img.Site → Prop
  | move {s : Sys Tid M.img.Site} {t : Tid} {a : Act} {m : Mem} {x : Thr M.img.Site} :
      M.Move t s.mem (s.thr t) a m x →
      (∀ cpu cid, a = .resume cpu cid → M.Free s t cpu cid) →
      Step s (.act t (s.thr t).depth a) { s with mem := m, thr := Function.update s.thr t x }
  | fenceRun {s : Sys Tid M.img.Site} {t : Tid} {f : FenceCall} {pc pc' : RunPc} {ev : RunEv}
      {p : Flags} {hit : Tid → Bool} : (s.thr t).running = true →
      (s.thr t).top.frame = .fence f pc → RunStep s.flags pc ev p pc' →
      M.Reaches s t f ev hit →
      -- an interrupt comes between two instructions
      (∀ u, hit u = true → (s.thr u).top.latch = none) →
      Step s (.fenceRun t (s.thr t).depth ev hit) (M.fenced s t f pc' p hit)
  | write {s : Sys Tid M.img.Site} (a v : Usize) :
      Step s (.write a v) { s with mem := Function.update s.mem a v }

/-- Every thread is registered, in caller code, and waits to be scheduled. -/
structure Initial (s : Sys Tid M.img.Site) : Prop where
  running : ∀ t, (s.thr t).running = false
  cs : ∀ t, (s.thr t).area.rseqCs = 0
  idle : ∀ t, (s.thr t).top.frame = .idle
  outside : ∀ t, M.img.Outside (s.thr t).top.ip
  below : ∀ t, (s.thr t).below = []

end Machine

/-! ### Running one thread -/

namespace Machine

variable {Tid : Type} (M : Machine Tid) [DecidableEq M.img.Site]

/-- The next instruction of a running context that is in a word op. -/
def tick (t : Tid) (m : Mem) (x : Thr M.img.Site) : Option (Obs × Mem × Thr M.img.Site) :=
  match x.top.frame, M.img.locate x.top.ip with
  | .op c site, some (site', i) =>
    if x.running = true ∧ site' = site then
      (M.img.answer (M.areaPtr t) x.area m site (x.top.core i)).map fun (o, v, area, m') =>
        (o, m', { x with
          area := area
          top := .inOp M.img c site
            ((M.img.block site).next (M.img.desc site) (x.top.core i) v) })
    else none
  | _, _ => none

/-- `tick` computes the instruction steps, which are deterministic. -/
theorem move_exec_iff {t : Tid} {m m' : Mem} {x x' : Thr M.img.Site} {o : Obs} :
    M.Move t m x (.exec o) m' x' ↔ M.tick t m x = some (o, m', x') := by
  constructor
  · intro h
    cases h with
    | exec hr hf hloc hans =>
      unfold tick
      rw [hf, hloc]
      dsimp only
      rw [if_pos ⟨hr, rfl⟩, hans]
      rfl
  · intro h
    unfold tick at h
    split at h
    · next c site site' i hf hloc =>
      split at h
      · next hc =>
        obtain ⟨hr, rfl⟩ := hc
        obtain ⟨⟨o', v, area, m''⟩, hans, he⟩ := Option.map_eq_some_iff.mp h
        cases he
        exact .exec hr hf hloc hans
      · cases h
    · cases h

variable [DecidableEq Tid]

/-- `n` instructions of thread `t`, with nothing between them. -/
def solo (t : Tid) : ℕ → Sys Tid M.img.Site → Option (List (Label Tid) × Sys Tid M.img.Site)
  | 0, s => some ([], s)
  | n + 1, s => (solo t n s).bind fun (h, s) =>
    (M.tick t s.mem (s.thr t)).map fun (o, m, x) =>
      (.act t (s.thr t).depth (.exec o) :: h,
        { s with mem := m, thr := Function.update s.thr t x })

theorem solo_run {t : Tid} {n : ℕ} {s s' : Sys Tid M.img.Site} {h : List (Label Tid)}
    (hs : M.solo t n s = some (h, s')) : LTS.Run M.Step s h s' := by
  induction n generalizing h s' with
  | zero => cases hs; exact .nil
  | succ n ih =>
    obtain ⟨⟨h₁, s₁⟩, h₁s, hs⟩ := Option.bind_eq_some_iff.mp hs
    obtain ⟨⟨o, m, x⟩, htick, hs⟩ := Option.map_eq_some_iff.mp hs
    cases hs
    exact .cons (ih h₁s) (.move (M.move_exec_iff.mpr htick) nofun)

/-- One instruction of thread `t`. -/
theorem solo_one {t : Tid} {s : Sys Tid M.img.Site} {p : List (Label Tid) × Sys Tid M.img.Site}
    (hp : M.solo t 1 s = some p) :
    ∃ o, p.1 = [.act t (s.thr t).depth (.exec o)] ∧
      M.Step s (.act t (s.thr t).depth (.exec o)) p.2 := by
  obtain ⟨⟨o, m, x⟩, htick, hs⟩ := Option.map_eq_some_iff.mp hp
  cases hs
  exact ⟨o, rfl, .move (M.move_exec_iff.mpr htick) nofun⟩

/-- The next instruction, by what `solo` records of it. -/
theorem solo_next {t : Tid} {d : ℕ} {o : Obs} {s : Sys Tid M.img.Site}
    (h : (M.solo t 1 s).map Prod.fst = some [.act t d (.exec o)]) :
    ∃ s', M.Step s (.act t d (.exec o)) s' := by
  obtain ⟨p, hp, hl⟩ := Option.map_eq_some_iff.mp h
  obtain ⟨o', ho, hs⟩ := M.solo_one hp
  cases List.singleton_inj.mp (ho.symm.trans hl)
  exact ⟨_, hs⟩

/-- A process whose threads have not run yet. -/
def boot (m : Mem) : Sys Tid M.img.Site where
  mem := m
  flags := .fresh
  thr _ := ⟨⟨0, 0, 0⟩, false, ⟨0, fun _ => 0, false, none, .idle⟩, []⟩

omit [DecidableEq M.img.Site] [DecidableEq Tid] in
theorem boot_initial (m : Mem) (h : M.img.Outside 0) : M.Initial (M.boot m) :=
  ⟨fun _ => rfl, fun _ => rfl, fun _ => rfl, fun _ => h, fun _ => rfl⟩

/-- Thread `t` is taken off its CPU. -/
def preempted (t : Tid) (s : Sys Tid M.img.Site) : Sys Tid M.img.Site :=
  { s with thr := Function.update s.thr t { s.thr t with running := false } }

/-- Thread `t` runs again, on CPU `cpu`. -/
def resumed (t : Tid) (cpu cid : U32) (s : Sys Tid M.img.Site) : Sys Tid M.img.Site :=
  { s with
    thr := Function.update s.thr t
      { (s.thr t).event M.img with area := ⟨cpu, 0, cid⟩, running := true } }

/-- Thread `t` calls a word op at `site`. -/
def called (t : Tid) (c : Call) (site : M.img.Site) (s : Sys Tid M.img.Site) :
    Sys Tid M.img.Site :=
  { s with
    thr := Function.update s.thr t
      { s.thr t with
        top := .inOp M.img c site ⟨0, c.op.enter (M.areaPtr t) fun _ => 0, false, none⟩ } }

omit [DecidableEq M.img.Site] in
theorem step_preempted {t : Tid} {s : Sys Tid M.img.Site} (hr : (s.thr t).running = true)
    (hl : (s.thr t).top.latch = none) :
    M.Step s (.act t (s.thr t).depth .preempt) (M.preempted t s) :=
  .move (.preempt hr hl) nofun

omit [DecidableEq M.img.Site] in
theorem step_resumed {t : Tid} {cpu cid : U32} {s : Sys Tid M.img.Site}
    (hr : (s.thr t).running = false) (hfree : M.Free s t cpu cid) :
    M.Step s (.act t (s.thr t).depth (.resume cpu cid)) (M.resumed t cpu cid s) := by
  refine .move (.resume cpu cid hr) fun cpu' cid' he => ?_
  cases he
  exact hfree

omit [DecidableEq M.img.Site] in
theorem step_called {t : Tid} {c : Call} {site : M.img.Site} {s : Sys Tid M.img.Site}
    (hr : (s.thr t).running = true) (hf : (s.thr t).top.frame = .idle)
    (hk : c.op.keysAgree = true) (hs : M.img.sect site = c.op.section) :
    M.Step s (.act t (s.thr t).depth (.call c)) (M.called t c site s) :=
  .move (.call site (fun _ => 0) false hr hf hk hs) nofun

omit [DecidableEq M.img.Site] in
theorem step_returned {t : Tid} {c : Call} (site : M.img.Site) {a : Usize}
    {r : Except Error Usize} {s : Sys Tid M.img.Site} (hr : (s.thr t).running = true)
    (hf : (s.thr t).top.frame = .op c site)
    (hip : (s.thr t).top.ip = M.img.ip site (M.img.block site).len) (ha : M.img.Outside a)
    (hv : c.op.finish (Attempt.fromStatus ((s.thr t).top.regs (M.img.block site).status)
      ((s.thr t).top.regs (M.img.block site).value)) = r) :
    ∃ s', M.Step s (.act t (s.thr t).depth (.ret c r)) s' := by
  subst hv
  exact ⟨_, .move (.ret site a hr hf hip ha) nofun⟩

/-- A process whose thread `t` alone has run, on CPU `cpu`: it has called `c` and
made `n` of its instructions. -/
def alone (m : Mem) (t : Tid) (cpu cid : U32) (c : Call) (site : M.img.Site) (n : ℕ) :
    Option (List (Label Tid) × Sys Tid M.img.Site) :=
  M.solo t n (M.called t c site (M.resumed t cpu cid (M.boot m)))

theorem alone_run {m : Mem} {t : Tid} {cpu cid : U32} {c : Call} (site : M.img.Site) {n : ℕ}
    {p : List (Label Tid) × Sys Tid M.img.Site} (hk : c.op.keysAgree = true)
    (hs : M.img.sect site = c.op.section) (ha : M.alone m t cpu cid c site n = some p) :
    LTS.Run M.Step (M.boot m)
      (p.1 ++ [.act t 0 (.call c), .act t 0 (.resume cpu cid)]) p.2 := by
  have hresume : M.Step (M.boot m) (.act t 0 (.resume cpu cid)) (M.resumed t cpu cid (M.boot m)) :=
    M.step_resumed (s := M.boot m) rfl fun _ _ hr => by cases hr
  have hthr : (M.resumed t cpu cid (M.boot m)).thr t =
      { ((M.boot m).thr t).event M.img with area := ⟨cpu, 0, cid⟩, running := true } :=
    Function.update_self ..
  have hcall : M.Step (M.resumed t cpu cid (M.boot m)) _
      (M.called t c site (M.resumed t cpu cid (M.boot m))) :=
    M.step_called (by rw [hthr]) (by rw [hthr]; rfl) hk hs
  have hdepth : ((M.resumed t cpu cid (M.boot m)).thr t).depth = 0 := by rw [hthr]; rfl
  rw [hdepth] at hcall
  exact (LTS.Run.cons (.cons .nil hresume) hcall).append (M.solo_run ha)

end Machine

/-! ### What a history says about a call -/

/-- The access of the last instruction of a critical section. -/
def Obs.commits : Obs → Bool
  | .acc _ last => last
  | _ => false

/-- The accesses of an attempt after one more observation. -/
def Obs.extend (log : List Acc) : Obs → List Acc
  | .tau => log
  | .arm => []
  | .acc a _ => log ++ [a]

/-- The same, after an act: a new call has made no access. -/
def Act.extend (log : List Acc) : Act → List Acc
  | .exec o => o.extend log
  | .call _ => []
  | _ => log

/-- What a context does itself, not what the kernel does to it. -/
def Act.own : Act → Bool
  | .preempt | .resume _ _ | .signal => false
  | _ => true

section History

variable {Tid : Type} [DecidableEq Tid] (t : Tid) (d : ℕ)

/-- The accesses, oldest first, that the current attempt in the context of `t` at
depth `d` has made: those since `rseq_cs` was last armed there. -/
def attempt : List (Label Tid) → List Acc
  | [] => []
  | .act u e a :: h => if u = t ∧ e = d then a.extend (attempt h) else attempt h
  | .fenceRun _ _ _ _ :: h | .write _ _ :: h => attempt h

namespace Label

/-- The step is one that the context of `t` at depth `d` makes itself. -/
def own : Label Tid → Bool
  | .act u e a => decide (u = t ∧ e = d) && a.own
  | .fenceRun u e _ _ => decide (u = t ∧ e = d)
  | .write _ _ => false

/-- The step is a kernel event for the context of `t` at depth `d`: a resume, a
signal, or a barrier that reaches the thread. -/
def event : Label Tid → Bool
  | .act u e (.resume _ _) | .act u e .signal => decide (u = t ∧ e = d)
  | .fenceRun _ _ _ hit => hit t
  | _ => false

/-- The step calls a word op there. -/
def calls : Label Tid → Bool
  | .act u e (.call _) => decide (u = t ∧ e = d)
  | _ => false

/-- The step is an instruction of a word op there. -/
def instr : Label Tid → Bool
  | .act u e (.exec _) => decide (u = t ∧ e = d)
  | _ => false

/-- The step is the committing instruction of a word op there. -/
def commits : Label Tid → Bool
  | .act u e (.exec o) => decide (u = t ∧ e = d) && o.commits
  | _ => false

end Label

/-- How many steps satisfy `p` since a word op was last called there. -/
def sinceCall (p : Label Tid → Bool) : List (Label Tid) → ℕ
  | [] => 0
  | l :: h => if l.calls t d then 0 else (if p l then 1 else 0) + sinceCall p h

/-- The committing instructions of the call at hand. -/
def commitCount : List (Label Tid) → ℕ := sinceCall t d (Label.commits t d)

/-- The instructions of the call at hand. -/
def instrCount : List (Label Tid) → ℕ := sinceCall t d (Label.instr t d)

/-- The kernel events during the call at hand. -/
def eventCount : List (Label Tid) → ℕ := sinceCall t d (Label.event t d)

end History

end RseqRs
