import RseqRs.Model.Machine
import RseqRs.Proof.Realises

/-!
# The stage machine

The machine of `Model/Machine.lean` with its code forgotten. A word op is at one
of three stages: entering its section, inside it with a tree of what the attempt
still does, or finishing with an outcome that is already decided. The kernel's
rule becomes: an attempt inside its section goes back to entering. Labels are
those of the machine, so a history of the one is a history of the other.

The state keeps what the proofs need of an attempt: the accesses it made.
-/

namespace RseqRs

/-- How far a word op is. -/
inductive Stage where
  /-- before the section; nothing has been read -/
  | entering
  /-- inside the section, `u` still to do -/
  | inside (u : Sec)
  /-- past the section -/
  | finishing (r : Except Error Usize)

/-- One instruction of an op whose attempts are `T`, at index `idx` and memory `m`. -/
inductive Stage.Step (T : Sec) (idx : U32) (m : Mem) : Stage → Obs → Stage → Mem → Prop
  | enter : Step T idx m .entering .tau .entering m
  | arm : Step T idx m .entering .arm (.inside T) m
  | tau {u : Sec} : Step T idx m (.inside u) .tau (.inside u) m
  /-- the section is left with a failure -/
  | exit {e : Error} : Step T idx m (.inside (.fail e)) .tau (.finishing (.error e)) m
  | access {u u' : Sec} {a : Acc} : CritSec.Next u a u' → a.Reads idx m →
      Step T idx m (.inside u) (.acc a false) (.inside u') (a.apply m)
  | commit {u : Sec} {a : Acc} {r : Usize} : CritSec.Commits u a r →
      Step T idx m (.inside u) (.acc a true) (.finishing (.ok r)) (a.apply m)
  | leave {r : Except Error Usize} : Step T idx m (.finishing r) .tau (.finishing r) m

/-- What a context is doing, and for a word op how far it is and what its
current attempt has accessed. -/
inductive Work where
  | idle
  | refused (c : Call)
  | op (c : Call) (st : Stage) (log : List Acc)
  | fence (f : FenceCall) (pc : RunPc)

/-- **The kernel's rule**: an attempt inside its section starts again. -/
def Work.event : Work → Work
  | .op c (.inside _) log => .op c .entering log
  | w => w

namespace Stage

/-- A thread. -/
structure Thr where
  index : Index → U32
  running : Bool
  top : Work
  below : List Work

/-- The depth of the running context. -/
def Thr.depth (x : Thr) : ℕ := x.below.length

/-- All contexts, the running one first. -/
def Thr.stack (x : Thr) : List Work := x.top :: x.below

/-- The kernel's rule for the running context. -/
def Thr.event (x : Thr) : Thr := { x with top := x.top.event }

/-- A process. -/
structure Sys (Tid : Type) where
  mem : Mem
  flags : Flags
  thr : Tid → Thr

/-- The two fields of the area a resume writes. -/
def fields (cpu cid : U32) : Index → U32
  | .cpuId => cpu
  | .cid => cid

/-- The tree of one attempt of a call. -/
def tree (c : Call) : Sec := c.op.tree

variable {Tid : Type} (M : Machine Tid)

/-- What a context does between instructions: a call, a return, caller code. -/
inductive Turn : Work → Act → Work → Prop
  | call {c : Call} : c.op.keysAgree = true → Turn .idle (.call c) (.op c .entering [])
  | callRefused {c : Call} : c.op.keysAgree = false → Turn .idle (.call c) (.refused c)
  | ret {c : Call} {r : Except Error Usize} {log : List Acc} :
      Turn (.op c (.finishing r) log) (.ret c r) .idle
  | retRefused {c : Call} : Turn (.refused c) (.ret c (.error .abort)) .idle
  | goto : Turn .idle .goto .idle
  | unload : Turn .idle .unload .idle
  | fenceCall (f : FenceCall) : Turn .idle (.fenceCall f)
      (.fence f (if (f.barrier M.cpus).isSome then .ready else .ret false))
  | fenceRet {f : FenceCall} {b : Bool} : Turn (.fence f (.ret b)) (.fenceRet f b) .idle

/-- A move of one thread by itself. -/
inductive Move (m : Mem) (x : Thr) : Act → Mem → Thr → Prop
  | exec {c : Call} {st st' : Stage} {log : List Acc} {o : Obs} {m' : Mem} :
      x.running = true → x.top = .op c st log → Step (tree c) (x.index c.K) m st o st' m' →
      Move m x (.exec o) m' { x with top := .op c st' (o.extend log) }
  | turn {a : Act} {w w' : Work} : x.running = true → x.top = w → Turn M w a w' →
      Move m x a m { x with top := w' }
  | preempt : x.running = true → Move m x .preempt m { x with running := false }
  | resume (cpu cid : U32) : x.running = false →
      Move m x (.resume cpu cid) m
        { x.event with index := fields cpu cid, running := true }
  | signal : x.running = true →
      Move m x .signal m { x with top := .idle, below := x.top.event :: x.below }
  | sigreturn {y : Work} {ys : List Work} : x.running = true → x.top = .idle →
      x.below = y :: ys → Move m x .sigreturn m { x with top := y, below := ys }

variable [DecidableEq Tid]

/-- No other running thread has index `idx K`, for either kind. -/
def Free (s : Sys Tid) (t : Tid) (idx : Index → U32) : Prop :=
  ∀ t', t' ≠ t → (s.thr t').running = true → ∀ K, (s.thr t').index K ≠ idx K

/-- `hit` are the threads that the step `ev` of `t` in a fence `f` interrupts. -/
def Reaches (s : Sys Tid) (t : Tid) (f : FenceCall) (ev : RunEv) (hit : Tid → Bool) : Prop :=
  ∀ u, hit u = M.hits f ev (s.thr u).running ((s.thr u).index .cpuId) ∨ u = t ∧ hit u = false

/-- Thread `t`, in a fence `f`, makes a step to `pc`. -/
def fenced (s : Sys Tid) (t : Tid) (f : FenceCall) (pc : RunPc) (p : Flags) (hit : Tid → Bool) :
    Sys Tid where
  mem := s.mem
  flags := p
  thr u :=
    let x := s.thr u
    let x := if u = t then { x with top := .fence f pc } else x
    if hit u then x.event else x

/-- One step of the stage machine. -/
inductive SysStep : Sys Tid → Label Tid → Sys Tid → Prop
  | move {s : Sys Tid} {t : Tid} {a : Act} {m : Mem} {x : Thr} :
      Move M s.mem (s.thr t) a m x →
      (∀ cpu cid, a = .resume cpu cid → Free s t (fields cpu cid)) →
      SysStep s (.act t (s.thr t).depth a)
        { s with mem := m, thr := Function.update s.thr t x }
  | fenceRun {s : Sys Tid} {t : Tid} {f : FenceCall} {pc pc' : RunPc} {ev : RunEv}
      {p : Flags} {hit : Tid → Bool} : (s.thr t).running = true →
      (s.thr t).top = .fence f pc → RunStep s.flags pc ev p pc' → Reaches M s t f ev hit →
      SysStep s (.fenceRun t (s.thr t).depth ev hit) (fenced s t f pc' p hit)
  | write {s : Sys Tid} (a v : Usize) :
      SysStep s (.write a v) { s with mem := Function.update s.mem a v }

/-- Every thread is in caller code and waits to be scheduled. -/
structure Initial (s : Sys Tid) : Prop where
  running : ∀ t, (s.thr t).running = false
  idle : ∀ t, (s.thr t).top = .idle
  below : ∀ t, (s.thr t).below = []

variable {M}

section Move

variable {m m' : Mem} {x x' : Thr} {c : Call}

omit [DecidableEq Tid] in
/-- Caller code goes on. -/
theorem Move.goto (hm : Move M m x .goto m' x') :
    x.top = .idle ∧ x' = { x with top := .idle } := by
  cases hm with
  | turn _ hw ht =>
    cases ht
    exact ⟨hw, rfl⟩

omit [DecidableEq Tid] in
/-- A call is made, or refused. -/
theorem Move.call (hm : Move M m x (.call c) m' x') : x.top = .idle ∧
    (c.op.keysAgree = true ∧ x' = { x with top := .op c .entering [] } ∨
      c.op.keysAgree = false ∧ x' = { x with top := .refused c }) := by
  cases hm with
  | turn _ hw ht =>
    cases ht with
    | call hk => exact ⟨hw, Or.inl ⟨hk, rfl⟩⟩
    | callRefused hk => exact ⟨hw, Or.inr ⟨hk, rfl⟩⟩

omit [DecidableEq Tid] in
/-- A call returns what it has found, or was refused. -/
theorem Move.ret {r : Except Error Usize} (hm : Move M m x (.ret c r) m' x') :
    x' = { x with top := .idle } ∧ ((∃ log, x.top = .op c (.finishing r) log) ∨
      x.top = .refused c ∧ r = .error .abort) := by
  cases hm with
  | turn _ hw ht =>
    cases ht with
    | ret => exact ⟨rfl, Or.inl ⟨_, hw⟩⟩
    | retRefused => exact ⟨rfl, Or.inr ⟨hw, rfl⟩⟩

end Move

/-- A thread returns from the call of its running context. -/
theorem SysStep.ret {s s' : Sys Tid} {t : Tid} {d : ℕ} {c : Call} {r : Except Error Usize}
    (hs : SysStep M s (.act t d (.ret c r)) s') :
    d = (s.thr t).depth ∧ ((∃ log, (s.thr t).top = .op c (.finishing r) log) ∨
      (s.thr t).top = .refused c ∧ r = .error .abort) := by
  cases hs with
  | move hm _ => exact ⟨rfl, hm.ret.2⟩

end Stage

end RseqRs
