import Mathlib.Algebra.BigOperators.Group.Finset.Basic
import Mathlib.Data.BitVec
import RseqRs.Model.FreeList
import RseqRs.Spec.Adds

/-!
# Adders and a drainer (`benches/drain.rs`)

Threads, and their signal handlers, run `add`, which retries `fetch_add` on the word of the
current CPU until it returns `Ok`, and `steal_all`, which goes over the CPUs, fences each and
swaps its word for zero. `Bench` is what their code keeps in its variables, and beside it the
sum of what has been swapped out. Everything between two calls is caller code; the swap is a
plain atomic access, outside any section.
-/

namespace RseqRs

/-- A word that `Words::get` has given for a CPU. -/
def Words.Picked (ws : Words) : Type :=
  { w : Word .cpuId // ∃ cpu : CpuId, ws.get (K := .cpuId) cpu = some w }

namespace Steal

/-- What a context of the bench is doing. -/
inductive Job (ws : Words) where
  | rest
  /-- at the head of the loop of `add` -/
  | add (count : Usize)
  /-- it has picked the word of its CPU -/
  | picked (count : Usize) (w : ws.Picked)
  | adding (count : Usize) (w : ws.Picked)
  /-- at the head of the loop of `steal_all` -/
  | steal (raw : U32)
  | fencing (raw : U32) (cpu : CpuId)
  /-- the fence has returned -/
  | fenced (raw : U32) (cpu : CpuId)

/-- The state of the bench. -/
structure Bench (ws : Words) (Tid : Type) where
  /-- what the contexts of a thread are doing, the running one first -/
  jobs : Tid → List (Job ws)
  /-- the sum of the values swapped out -/
  stolen : Usize

/-- `fetch_add(w, count)`. -/
def addCall {ws : Words} (count : Usize) (w : ws.Picked) : Call := ⟨.cpuId, .fetchAdd w.1 count⟩

/-- What a thread may do while its job stays as it is: an instruction, a `continue` of a loop,
being scheduled. -/
def Idles : Act → Bool
  | .exec _ | .goto | .preempt | .resume _ _ => true
  | _ => false

/-- A step beside which every job stays as it is. -/
def Label.idles {Tid : Type} : Label Tid → Bool
  | .act _ _ a => Idles a
  | .fenceRun _ _ _ _ => true
  | .write _ _ => false

section Turn

variable (ws : Words) (cpus : U32)

/-- What an act does to the job of the running context, in a process with `cpus` CPUs. -/
inductive Turn (area : Area) : Act → Job ws → Job ws → Prop
  | add (count : Usize) : Turn area .goto .rest (.add count)
  /-- the thread reads its `cpu_id` and gets the word of that CPU -/
  | pick {count : Usize} {cpu : CpuId} {w : Word .cpuId} :
      CpuId.new area.cpuId = some cpu → (hw : ws.get (K := .cpuId) cpu = some w) →
      Turn area .goto (.add count) (.picked count ⟨w, cpu, hw⟩)
  | addCall {count : Usize} {w : ws.Picked} :
      Turn area (.call (Steal.addCall count w)) (.picked count w) (.adding count w)
  | added {count v : Usize} {w : ws.Picked} :
      Turn area (.ret (Steal.addCall count w) (.ok v)) (.adding count w) .rest
  /-- after an `Abort` it tries again -/
  | retry {count : Usize} {w : ws.Picked} {e : Error} :
      Turn area (.ret (Steal.addCall count w) (.error e)) (.adding count w) (.add count)
  | steal : Turn area .goto .rest (.steal 0)
  | skip {raw : U32} : raw < cpus → CpuId.new raw = none →
      Turn area .goto (.steal raw) (.steal (raw + 1))
  | fence {raw : U32} {cpu : CpuId} : raw < cpus → CpuId.new raw = some cpu →
      Turn area (.fenceCall (.fence cpu)) (.steal raw) (.fencing raw cpu)
  | fenced {raw : U32} {cpu : CpuId} :
      Turn area (.fenceRet (.fence cpu) true) (.fencing raw cpu) (.fenced raw cpu)
  | skipWord {raw : U32} {cpu : CpuId} : ws.get (K := .cpuId) cpu = none →
      Turn area .goto (.fenced raw cpu) (.steal (raw + 1))
  | done {raw : U32} : ¬ raw < cpus → Turn area .goto (.steal raw) .rest

end Turn

section Step

variable {Tid : Type} [DecidableEq Tid] (ws : Words) (M : Machine Tid)

/-- What a step of the machine from `s` does to the bench. -/
inductive Moves (s : Sys Tid M.img.Site) (k : Bench ws Tid) : Label Tid → Bench ws Tid → Prop
  | turn {t : Tid} {d : ℕ} {a : Act} {j j' : Job ws} {js : List (Job ws)} :
      k.jobs t = j :: js → Turn ws M.cpus (s.thr t).area a j j' →
      Moves s k (.act t d a) { k with jobs := Function.update k.jobs t (j' :: js) }
  | idle {t : Tid} {d : ℕ} {a : Act} : Idles a = true → Moves s k (.act t d a) k
  /-- a handler is a client too -/
  | signal {t : Tid} {d : ℕ} :
      Moves s k (.act t d .signal) { k with jobs := Function.update k.jobs t (.rest :: k.jobs t) }
  | sigreturn {t : Tid} {d : ℕ} {js : List (Job ws)} : k.jobs t = .rest :: js →
      Moves s k (.act t d .sigreturn) { k with jobs := Function.update k.jobs t js }
  | fenceRun {t : Tid} {d : ℕ} {ev : RunEv} {hit : Tid → Bool} :
      Moves s k (.fenceRun t d ev hit) k
  /-- **the swap**: a thread that has fenced takes what the word holds -/
  | swap {t : Tid} {raw : U32} {cpu : CpuId} {w : Word .cpuId} {js : List (Job ws)} :
      (s.thr t).running = true → (s.thr t).top.frame = .idle →
      k.jobs t = .fenced raw cpu :: js → ws.get (K := .cpuId) cpu = some w →
      Moves s k (.write w.word 0)
        { jobs := Function.update k.jobs t (.steal (raw + 1) :: js)
          stolen := k.stolen + s.mem w.word }
  /-- nobody else writes the words -/
  | write {a v : Usize} : (∀ cpu, cpu < ws.cpus → a ≠ ws.addr cpu) → Moves s k (.write a v) k

/-- One step of the machine with the bench. -/
def Step (s : Sys Tid M.img.Site × Bench ws Tid) (l : Label Tid)
    (s' : Sys Tid M.img.Site × Bench ws Tid) : Prop :=
  M.Step s.1 l s'.1 ∧ Moves ws M s.1 s.2 l s'.2

/-- The bench as it starts: nothing is running, and the words are zero. -/
structure Initial (s : Sys Tid M.img.Site × Bench ws Tid) : Prop where
  machine : M.Initial s.1
  rest : ∀ t, s.2.jobs t = [.rest]
  stolen : s.2.stolen = 0
  zero : ∀ cpu, cpu < ws.cpus → s.1.mem (ws.addr cpu) = 0

end Step

end Steal

/-! ### What is counted -/

/-- The sum of the words of a region. -/
def Words.total (ws : Words) (m : Mem) : Usize :=
  ∑ cpu ∈ Finset.range ws.cpus.toNat, m (ws.addr (BitVec.ofNat 32 cpu))

section History

variable {Tid : Type}

/-- The sum of the counts of the adds that have returned `Ok`. -/
def returned : List (Label Tid) → Usize
  | [] => 0
  | .act _ _ (.ret c (.ok _)) :: h => c.adds + returned h
  | _ :: h => returned h

variable [DecidableEq Tid]

/-- An attempt of `t` at depth `d` has gone on over the history `h`: no new one was armed. -/
def GoesOn (t : Tid) (d : ℕ) (h : List (Label Tid)) : Prop :=
  .act t d (.exec .arm) ∉ h ∧ ∀ c, .act t d (.call c) ∉ h

/-- **A torn add**: between the load and the store of one attempt, which read something other
than zero, the cell `x` was written from outside. -/
def Torn (x : Usize) (h : List (Label Tid)) : Prop :=
  ∃ h₃ h₂ h₁ t d a v w, h = h₃ ++ .act t d (.exec (.acc a true)) :: (h₂ ++ .write x w :: h₁) ∧
    a.written = some x ∧ .load x v ∈ attempt t d h₁ ∧ v ≠ 0 ∧ GoesOn t d h₂

end History

/-- **Stealing conserves counts**, in the runs whose history satisfies `P`: where no call is in
flight, what has been swapped out and what the words hold is what the adds that returned have
added. -/
def Steal.Conserves {Tid : Type} [DecidableEq Tid] (ws : Words) (M : Machine Tid)
    (P : List (Label Tid) → Prop) : Prop :=
  ∀ s₀ h s, Steal.Initial ws M s₀ → LTS.Run (Steal.Step ws M) s₀ h s → P h →
    M.Quiescent s.1 → s.2.stolen + ws.total s.1.mem = returned h

end RseqRs
