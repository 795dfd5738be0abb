import RseqRs.Lib.Chain
import RseqRs.Model.Machine

/-!
# A per-CPU intrusive list (`src/words.rs`, `benches/freelist.rs`)

Each CPU owns a head word in a `Words` region; a node is linked through the cell
at its address plus `off`, and `0` ends a list. Threads, and their signal
handlers, pop with `load_if_ne` and push with `store_if`, whose scratch cell is
the node's own link. `Client` is what their code keeps in its variables: the
nodes in hand, and for each context how far its pop or push is. It runs beside
the machine; everything it does between two word ops is caller code.
-/

namespace RseqRs

/-- `words::Words`: the base address of its region and the number of its slots. -/
structure Words where
  base : Usize
  cpus : U32

/-- `Region::word`: `base + cpu * size_of::<AtomicUsize>()`. -/
def Words.addr (ws : Words) (cpu : U32) : Usize := ws.base + cpu.setWidth 64 * 8

/-- `Words::get`. -/
def Words.get {K : Index} (ws : Words) (key : K.Key) : Option (Word K) :=
  if K.get key < ws.cpus then some ⟨ws.addr (K.get key), key⟩ else none

theorem Words.get_key {K : Index} {ws : Words} {key : K.Key} {w : Word K}
    (h : ws.get key = some w) : w.key = key := by
  unfold Words.get at h
  split at h
  · cases h
    rfl
  · cases h

/-- A family of lists, one for each CPU. -/
structure FreeList where
  words : Words
  /-- the byte offset of the link in a node -/
  off : Usize
  isNode : Usize → Prop
  nonzero : ∀ p, isNode p → p ≠ 0
  /-- no link lies in the region -/
  apart : ∀ p cpu, isNode p → cpu < words.cpus → p + off ≠ words.addr cpu

/-- What a context of a client is doing. -/
inductive Job where
  | rest
  /-- about to pop from the list at `head` -/
  | pop (head : Word .cpuId)
  | popping (head : Word .cpuId)
  /-- it has `node` to push -/
  | push (node : Usize)
  /-- it has picked the list at `head` -/
  | pushTo (node : Usize) (head : Word .cpuId)
  /-- it has read `h` there, outside the section -/
  | pushOn (node : Usize) (head : Word .cpuId) (h : Usize)
  | pushing (node : Usize) (head : Word .cpuId) (h : Usize)

/-- The variables of the clients. -/
structure Client (Tid : Type) where
  /-- the nodes a thread has in hand -/
  hand : Tid → List Usize
  /-- what its contexts are doing, the running one first -/
  jobs : Tid → List Job

namespace FreeList

variable (L : FreeList)

/-- `load_if_ne(head, 0, off)`. -/
def popCall (head : Word .cpuId) : Call := ⟨.cpuId, .loadIfNe head 0 L.off⟩

/-- `store_if(head, h, node, side, h)`, with the link of `node` as `side`, keyed by
the same CPU. -/
def pushCall (node : Usize) (head : Word .cpuId) (h : Usize) : Call :=
  ⟨.cpuId, .storeIf head h node ⟨node + L.off, head.key⟩ h⟩

/-- The words of the lists: heads and links. -/
def Owns (a : Usize) : Prop :=
  (∃ cpu, cpu < L.words.cpus ∧ a = L.words.addr cpu) ∨ ∃ p, L.isNode p ∧ a = p + L.off

/-- What a thread may do while its client does something else. -/
def Idles : Act → Prop
  | .exec _ | .goto | .unload | .preempt | .resume _ _ | .fenceCall _ | .fenceRet _ _ => True
  | _ => False

/-- What an act does to the job of the running context and to the nodes in hand,
the area and the memory being as before the act. -/
inductive Turn (area : Area) (m : Mem) (hand : List Usize) :
    Act → Job → List Usize → Job → Prop
  /-- the client reads its `cpu_id` and picks the list of that CPU -/
  | pop {cpu : CpuId} {head : Word .cpuId} : CpuId.new area.cpuId = some cpu →
      L.words.get (K := .cpuId) cpu = some head → Turn area m hand .goto .rest hand (.pop head)
  | popCall {head : Word .cpuId} :
      Turn area m hand (.call (L.popCall head)) (.pop head) hand (.popping head)
  /-- `Ok(p)`: the node is the thread's -/
  | popped {head : Word .cpuId} {p : Usize} :
      Turn area m hand (.ret (L.popCall head) (.ok p)) (.popping head) (p :: hand) .rest
  /-- after a `Miss` or an `Abort` it starts over -/
  | popFailed {head : Word .cpuId} {e : Error} :
      Turn area m hand (.ret (L.popCall head) (.error e)) (.popping head) hand .rest
  /-- it takes a node in hand to push -/
  | push {node : Usize} : node ∈ hand →
      Turn area m hand .goto .rest (hand.erase node) (.push node)
  | pushTo {node : Usize} {cpu : CpuId} {head : Word .cpuId} :
      CpuId.new area.cpuId = some cpu → L.words.get (K := .cpuId) cpu = some head →
      Turn area m hand .goto (.push node) hand (.pushTo node head)
  | pushOn {node : Usize} {head : Word .cpuId} :
      Turn area m hand .goto (.pushTo node head) hand (.pushOn node head (m head.word))
  | pushCall {node : Usize} {head : Word .cpuId} {h : Usize} :
      Turn area m hand (.call (L.pushCall node head h)) (.pushOn node head h) hand
        (.pushing node head h)
  | pushed {node : Usize} {head : Word .cpuId} {h v : Usize} :
      Turn area m hand (.ret (L.pushCall node head h) (.ok v)) (.pushing node head h) hand .rest
  /-- after a `Miss` or an `Abort` it reads `cpu_id` and the head again -/
  | pushFailed {node : Usize} {head : Word .cpuId} {h : Usize} {e : Error} :
      Turn area m hand (.ret (L.pushCall node head h) (.error e)) (.pushing node head h) hand
        (.push node)
  | idle {a : Act} {j : Job} : Idles a → Turn area m hand a j hand j

variable {Tid : Type} [DecidableEq Tid]

/-- What a step of the machine does to the clients. -/
inductive Moves (area : Tid → Area) (m : Mem) (k : Client Tid) : Label Tid → Client Tid → Prop
  | turn {t : Tid} {d : ℕ} {a : Act} {j j' : Job} {js : List Job} {hand : List Usize} :
      k.jobs t = j :: js → L.Turn (area t) m (k.hand t) a j hand j' →
      Moves area m k (.act t d a)
        { hand := Function.update k.hand t hand
          jobs := Function.update k.jobs t (j' :: js) }
  /-- a handler is a client too -/
  | signal {t : Tid} {d : ℕ} :
      Moves area m k (.act t d .signal)
        { k with jobs := Function.update k.jobs t (.rest :: k.jobs t) }
  /-- it ends with no job undone -/
  | sigreturn {t : Tid} {d : ℕ} {js : List Job} : k.jobs t = .rest :: js →
      Moves area m k (.act t d .sigreturn) { k with jobs := Function.update k.jobs t js }
  | fenceRun {t : Tid} {d : ℕ} {ev : RunEv} {hit : Tid → Bool} :
      Moves area m k (.fenceRun t d ev hit) k
  /-- nobody else writes the words of the lists -/
  | write {a v : Usize} : ¬ L.Owns a → Moves area m k (.write a v) k

/-- One step of the machine with its clients. -/
def Step (M : Machine Tid) (s : Sys Tid M.img.Site × Client Tid) (l : Label Tid)
    (s' : Sys Tid M.img.Site × Client Tid) : Prop :=
  M.Step s.1 l s'.1 ∧ L.Moves (fun t => (s.1.thr t).area) s.1.mem s.2 l s'.2

end FreeList

/-! ### Who holds what -/

/-- The node a committed pop has taken, by the accesses of its attempt. -/
def popped : List Acc → Option Usize
  | [.index _, .load _ p, .load _ _, .store _ _] => some p
  | _ => none

section Held

variable {Tid : Type} [DecidableEq Tid] (h : List (Label Tid)) (t : Tid)

/-- The node that the context of `t` at depth `d` holds in its job: one to push, up
to the commit, or one popped, from the commit on. -/
def Job.node (d : ℕ) : Job → Option Usize
  | .rest | .pop _ => none
  -- a pop has its node from its commit on, and a push up to its commit
  | .popping _ => if commitCount t d h = 1 then popped (attempt t d h) else none
  | .push node | .pushTo node _ | .pushOn node _ _ => some node
  | .pushing node _ _ => if commitCount t d h = 1 then none else some node

/-- The nodes in the jobs of a thread. -/
def nodesOf : List Job → List Usize
  | [] => []
  | j :: js => (j.node h t js.length).toList ++ nodesOf js

/-- The nodes a thread holds. -/
def Client.held (k : Client Tid) : List Usize := k.hand t ++ nodesOf h t (k.jobs t)

end Held

/-- Where a node is. -/
inductive Place (Tid : Type) where
  | list (cpu : U32)
  | thread (t : Tid)
deriving DecidableEq

/-- **No node is lost or duplicated.** There is one place for each node: it is once
on the list of one CPU, or held once by one thread. Every list ends in `0` and has
no cycle. -/
def FreeList.Conserved (L : FreeList) {Tid Site : Type} [DecidableEq Tid]
    (h : List (Label Tid)) (s : Sys Tid Site) (k : Client Tid) : Prop :=
  ∃ (lists : U32 → List Usize) (place : Usize → Option (Place Tid)),
    (∀ cpu, cpu < L.words.cpus → (lists cpu).Nodup ∧
      Linked (fun p => s.mem (p + L.off)) 0 (s.mem (L.words.addr cpu)) (lists cpu)) ∧
    (∀ p, (place p).isSome ↔ L.isNode p) ∧
    (∀ p cpu, place p = some (.list cpu) → cpu < L.words.cpus) ∧
    (∀ p cpu, cpu < L.words.cpus →
      (lists cpu).count p = if place p = some (.list cpu) then 1 else 0) ∧
    ∀ p t, (k.held h t).count p = if place p = some (.thread t) then 1 else 0

end RseqRs
