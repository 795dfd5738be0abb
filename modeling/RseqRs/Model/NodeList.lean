import RseqRs.Model.FreeList

/-!
# The list of the bench (`benches/freelist.rs`)

The bench names its nodes by their index in `next`, where `0` (`EMPTY`) is none. Its pop is in
three steps, each on the CPU the thread is on at the time: `add(0)` reads the head, a plain
load reads the link, and `cas` swaps the head for the link. Its push is `store_if`, with the
link of the node as the scratch cell. `Bench` is how far each thread is; it runs beside the
machine. A thread pops a node and pushes it back, over and over.
-/

namespace RseqRs

/-- `List`, and the region of the heads. -/
structure NodeList where
  words : Words
  /-- the address of `next[0]` -/
  next : Usize
  /-- the number of nodes, as given to `with_nodes` -/
  n : ℕ
  /-- `next` has `n + 1` cells -/
  fits : (n + 1) * 8 ≤ 2 ^ 64
  /-- none of them is in the region -/
  apart : ∀ (p : Usize) (cpu : U32), p.toNat ≤ n → cpu < words.cpus →
    next + p * 8 ≠ words.addr cpu

/-- The loops of the bench that try again on the CPU of the moment. -/
inductive Task where
  /-- `add(thread, words, 0)` -/
  | add
  /-- `cas(thread, words, head, nxt)` -/
  | cas (head nxt : Usize)
  /-- `push_rseq(thread, words, node)` -/
  | push (node : Usize)

/-- The word ops of these loops. -/
inductive ListOp where
  | add
  | cas (head nxt : Usize)
  | store (node head : Usize)

/-- How far a thread is. -/
inductive ListJob where
  | rest
  /-- at the head of a loop -/
  | loop (k : Task)
  /-- it has the word of its CPU -/
  | picked (k : Task) (w : Word .cpuId)
  /-- `push_rseq` has read the head -/
  | headed (node : Usize) (w : Word .cpuId) (head : Usize)
  | calling (r : ListOp) (w : Word .cpuId)
  /-- `pop_rseq` has a head that is not `EMPTY` -/
  | got (head : Usize)

/-- The op a job calls next. -/
def ListJob.asks : ListJob → Option (ListOp × Word .cpuId)
  | .picked .add w => some (.add, w)
  | .picked (.cas head nxt) w => some (.cas head nxt, w)
  | .headed node w head => some (.store node head, w)
  | _ => none

/-- What the bench does with the result of an op. -/
def ListOp.after : ListOp → Except Error Usize → ListJob
  | .add, .ok head => if head = 0 then .rest else .got head
  | .add, .error _ => .loop .add
  -- the node is popped, and pushed back
  | .cas head _, .ok _ => .loop (.push head)
  -- `cas` tries again after an `Abort`; a `Miss` is for `pop_rseq`, which starts over
  | .cas head nxt, .error .abort => .loop (.cas head nxt)
  | .cas _ _, .error (.miss _) => .loop .add
  | .store _ _, .ok _ => .rest
  | .store node _, .error _ => .loop (.push node)

/-- The node in a job, whose op, if it is in one, has committed or not: a node to push up to
the commit, a popped node from the commit on. -/
def ListJob.holds (committed : Bool) : ListJob → Option Usize
  | .loop (.push node) | .picked (.push node) _ | .headed node _ _ => some node
  | .calling (.cas head _) _ => if committed then some head else none
  | .calling (.store node _) _ => if committed then none else some node
  | _ => none

namespace NodeList

variable (L : NodeList)

/-- The address of `next[p]`. -/
def cell (p : Usize) : Usize := L.next + p * 8

/-- The nodes are `1..=n`. -/
def IsNode (p : Usize) : Prop := p ≠ 0 ∧ p.toNat ≤ L.n

/-- The words of the lists: heads and links. -/
def Owns (a : Usize) : Prop :=
  (∃ cpu, cpu < L.words.cpus ∧ a = L.words.addr cpu) ∨ ∃ p, L.IsNode p ∧ a = L.cell p

/-- The call of an op: `fetch_add(w, 0)`, `compare_exchange(w, head, nxt)`, or
`store_if(w, head, node, side, head)` with the link of `node`, keyed by the same CPU. -/
def call (w : Word .cpuId) : ListOp → Call
  | .add => ⟨.cpuId, .fetchAdd w 0⟩
  | .cas head nxt => ⟨.cpuId, .compareExchange w head nxt⟩
  | .store node head => ⟨.cpuId, .storeIf w head node ⟨L.cell node, w.key⟩ head⟩

/-- What a thread may do while its job stays as it is. -/
def Idles : Act → Bool
  | .exec _ | .goto | .preempt | .resume _ _ => true
  | _ => false

/-- A step beside which every job stays as it is. -/
def Label.idles {Tid : Type} : Label Tid → Bool
  | .act _ _ a => Idles a
  | _ => false

/-- What an act does to the job of its thread, with the area and the memory before it. -/
inductive Turn (area : Area) (m : Mem) : Act → ListJob → ListJob → Prop
  | pop : Turn area m .goto .rest (.loop .add)
  /-- the thread reads its `cpu_id` and gets the word of that CPU -/
  | pick {k : Task} {cpu : CpuId} {w : Word .cpuId} : CpuId.new area.cpuId = some cpu →
      L.words.get (K := .cpuId) cpu = some w → Turn area m .goto (.loop k) (.picked k w)
  /-- `w.atomic().load()`, outside the section -/
  | head {node : Usize} {w : Word .cpuId} :
      Turn area m .goto (.picked (.push node) w) (.headed node w (m w.word))
  /-- `self.next[head].load()`, which panics beyond the end of `next` -/
  | next {head : Usize} : head.toNat ≤ L.n →
      Turn area m .goto (.got head) (.loop (.cas head (m (L.cell head))))
  | call {j : ListJob} {r : ListOp} {w : Word .cpuId} : j.asks = some (r, w) →
      Turn area m (.call (L.call w r)) j (.calling r w)
  | ret {r : ListOp} {w : Word .cpuId} {res : Except Error Usize} :
      Turn area m (.ret (L.call w r) res) (.calling r w) (r.after res)
  | idle {a : Act} {j : ListJob} : Idles a = true → Turn area m a j j

variable {Tid : Type} [DecidableEq Tid] (M : Machine Tid)

/-- What a step of the machine from `s` does to the bench. -/
inductive Moves (s : Sys Tid M.img.Site) (k : Tid → ListJob) :
    Label Tid → (Tid → ListJob) → Prop
  | turn {t : Tid} {d : ℕ} {a : Act} {j : ListJob} :
      L.Turn (s.thr t).area s.mem a (k t) j → Moves s k (.act t d a) (Function.update k t j)
  /-- nobody else writes the words of the lists -/
  | write {a v : Usize} : ¬ L.Owns a → Moves s k (.write a v) k

/-- One step of the machine with the bench. -/
def Step (x : Sys Tid M.img.Site × (Tid → ListJob)) (l : Label Tid)
    (y : Sys Tid M.img.Site × (Tid → ListJob)) : Prop :=
  M.Step x.1 l y.1 ∧ L.Moves M x.1 x.2 l y.2

/-- **No node is lost or duplicated.** There is one place for each node: the list of one CPU,
or one thread, which holds it. Every list ends in `EMPTY` and has no cycle. -/
def Conserved {Site : Type} (h : List (Label Tid)) (s : Sys Tid Site) (k : Tid → ListJob) :
    Prop :=
  ∃ (lists : U32 → List Usize) (place : Usize → Option (Place Tid)),
    (∀ cpu, cpu < L.words.cpus → (lists cpu).Nodup ∧
      Linked (fun p => s.mem (L.cell p)) 0 (s.mem (L.words.addr cpu)) (lists cpu)) ∧
    (∀ p, (place p).isSome ↔ L.IsNode p) ∧
    (∀ p cpu, place p = some (.list cpu) → cpu < L.words.cpus) ∧
    (∀ p cpu, cpu < L.words.cpus → (p ∈ lists cpu ↔ place p = some (.list cpu))) ∧
    ∀ p t, (k t).holds (commitCount t 0 h = 1) = some p ↔ place p = some (.thread t)

/-- The bench as it starts: nothing is running, and all nodes are on lists. -/
structure Initial (x : Sys Tid M.img.Site × (Tid → ListJob)) : Prop where
  machine : M.Initial x.1
  rest : ∀ t, x.2 t = .rest
  conserved : L.Conserved [] x.1 x.2

/-- A pop that commits finds the link of its node as it read it. -/
def LinkKept (x : Sys Tid M.img.Site × (Tid → ListJob)) : Label Tid → Prop
  | .act t _ (.exec (.acc _ true)) =>
    ∀ head nxt w, x.2 t = .calling (.cas head nxt) w → x.1.mem (L.cell head) = nxt
  | _ => True

/-- **The bench keeps its nodes**, in the runs whose steps satisfy `D`. -/
def Keeps (D : Sys Tid M.img.Site × (Tid → ListJob) → Label Tid → Prop) : Prop :=
  ∀ x h y, L.Initial M x → LTS.Run (fun x l y => L.Step M x l y ∧ D x l) x h y →
    L.Conserved h y.1 y.2

end NodeList

end RseqRs
