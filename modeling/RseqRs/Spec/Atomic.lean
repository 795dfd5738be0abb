import RseqRs.Model.Machine

/-!
# The word ops as atomic steps

What the word ops are for, with no instruction in sight. In the atomic machine a
call takes effect in one step, at some instant between its call and its return,
while its thread runs: `Op.run` says what that step returns and what it does to
memory. Threads, signal handlers and the kernel are those of the machine.

A failing `store_if` may leave its side cell written: the scratch store of an
attempt that was thrown away is not undone.
-/

namespace RseqRs

section Effect

variable {K : Index}

/-- **What an op does** in one go to memory `m`, on the index of its key. -/
def Op.run (m : Mem) : Op K → Except Error Usize × Mem
  | .compareExchange w expect new =>
    if m w.word = expect then (.ok expect, Function.update m w.word new)
    else (.error (.miss (m w.word)), m)
  | .compareExchangeIf w expect new o otherExpect =>
    if m w.word = expect then
      if m o.word = otherExpect then (.ok expect, Function.update m w.word new)
      else (.error (.miss (m o.word)), m)
    else (.error (.miss (m w.word)), m)
  | .fetchAdd w count => (.ok (m w.word), Function.update m w.word (m w.word + count))
  | .loadIfNe w expectNot offset =>
    if m w.word = expectNot then (.error (.miss (m w.word)), m)
    else (.ok (m w.word), Function.update m w.word (m (m w.word + offset)))
  | .fetchAddAt p offset count =>
    (.ok (m (m (m p.word + offset))),
      Function.update m (m (m p.word + offset)) (m (m (m p.word + offset)) + count))
  | .storeIf w expect new s sideNew =>
    if m w.word = expect then
      (.ok expect, Function.update (Function.update m s.word sideNew) w.word new)
    else (.error (.miss (m w.word)), m)

/-- The scratch store of `store_if`. -/
def Op.scratch : Op K → Option (Usize × Usize)
  | .storeIf _ _ _ s sideNew => some (s.word, sideNew)
  | _ => none

end Effect

/-- What a call does in one go, its thread having the index `i`. -/
def Call.run (c : Call) (i : U32) (m : Mem) : Except Error Usize × Mem :=
  if c.op.keysAgree = true ∧ i = c.key then c.op.run m else (.error .abort, m)

/-- What a call that returns `r` and does to memory `m` what it is for may leave. -/
inductive Call.Leaves (c : Call) (r : Except Error Usize) (m : Mem) : Mem → Prop
  | exact : Leaves c r m m
  | scratch {e : Error} {x v : Usize} : r = .error e → c.op.scratch = some (x, v) →
      Leaves c r m (Function.update m x v)

namespace Atomic

/-- What a context is doing. -/
inductive Work where
  /-- caller code or a fence -/
  | idle
  | called (c : Call)
  /-- the call has taken effect -/
  | done (c : Call) (r : Except Error Usize)

/-- A thread. -/
structure Thr where
  index : Index → U32
  running : Bool
  top : Work
  below : List Work

/-- A process. -/
structure Sys (Tid : Type) where
  mem : Mem
  thr : Tid → Thr

/-- The depth of the running context. -/
def Thr.depth (x : Thr) : ℕ := x.below.length

/-- The two fields of the area a resume writes. -/
def fields (cpu cid : U32) : Index → U32
  | .cpuId => cpu
  | .cid => cid

/-- A move of one thread that its callers or the kernel see. -/
inductive Move (x : Thr) : Act → Thr → Prop
  | call {c : Call} : x.running = true → x.top = .idle →
      Move x (.call c) { x with top := .called c }
  | ret {c : Call} {r : Except Error Usize} : x.running = true → x.top = .done c r →
      Move x (.ret c r) { x with top := .idle }
  | preempt : x.running = true → Move x .preempt { x with running := false }
  | resume (cpu cid : U32) : x.running = false →
      Move x (.resume cpu cid) { x with index := fields cpu cid, running := true }
  | signal : x.running = true → Move x .signal { x with top := .idle, below := x.top :: x.below }
  | sigreturn {y : Work} {ys : List Work} : x.running = true → x.top = .idle → x.below = y :: ys →
      Move x .sigreturn { x with top := y, below := ys }

variable {Tid : Type} [DecidableEq Tid]

/-- No other running thread has index `idx K`, for either kind. -/
def Free (s : Sys Tid) (t : Tid) (idx : Index → U32) : Prop :=
  ∀ t', t' ≠ t → (s.thr t').running = true → ∀ K, (s.thr t').index K ≠ idx K

/-- One step. Only the step in which a call takes effect is not seen from outside. -/
inductive Step : Sys Tid → Option (Label Tid) → Sys Tid → Prop
  | move {s : Sys Tid} {t : Tid} {a : Act} {x : Thr} : Move (s.thr t) a x →
      (∀ cpu cid, a = .resume cpu cid → Free s t (fields cpu cid)) →
      Step s (some (.act t (s.thr t).depth a)) { s with thr := Function.update s.thr t x }
  /-- **A call takes effect.** -/
  | run {s : Sys Tid} {t : Tid} {c : Call} {m : Mem} : (s.thr t).running = true →
      (s.thr t).top = .called c →
      c.Leaves (c.run ((s.thr t).index c.K) s.mem).1 (c.run ((s.thr t).index c.K) s.mem).2 m →
      Step s none
        { mem := m
          thr := Function.update s.thr t
            { s.thr t with top := .done c (c.run ((s.thr t).index c.K) s.mem).1 } }
  | write {s : Sys Tid} (a v : Usize) :
      Step s (some (.write a v)) { s with mem := Function.update s.mem a v }

end Atomic

/-! ### What the two machines have in common -/

section Common

variable {Tid : Type}

/-- What is seen of an act from outside: calls and returns, and the kernel's doings. -/
def Act.visible : Act → Bool
  | .call _ | .ret _ _ | .preempt | .resume _ _ | .signal | .sigreturn => true
  | _ => false

/-- The label, if the step is seen from outside. -/
def Label.visible : Label Tid → Option (Label Tid)
  | .act t d a => if a.visible then some (.act t d a) else none
  | .fenceRun _ _ _ _ => none
  | .write a v => some (.write a v)

/-- The process as the atomic machine starts with it. -/
def Sys.atomic {Site : Type} (s : Sys Tid Site) : Atomic.Sys Tid where
  mem := s.mem
  thr t := ⟨(s.thr t).area.index, false, .idle, []⟩

/-- `x` is the side cell of no call in flight, but for the context of `t` at depth `d`. -/
def Sys.Unshared {Site : Type} (s : Sys Tid Site) (own : Tid → ℕ → Prop) (x : Usize) : Prop :=
  ∀ u e y c site, ¬ own u e → ctxAt (s.thr u).stack e = some y → y.frame = .op c site →
    c.sideAddr ≠ some x

end Common

/-! ### How the cells are used -/

namespace Machine

variable {Tid : Type} (M : Machine Tid) (U : Usize → Option Tag)

/-- The cells are used under fixed keys, `U` giving each cell its key: a cell that a
section loads has a key; a cell is written only by ops confirmed with its key, and
has one unless it is written as a side cell only; a side cell is not the word of
its call, and nothing else touches it while the call is in flight. -/
def FixedKeys (s : Sys Tid M.img.Site) : Label Tid → Prop
  | .act t d (.exec (.acc a last)) => ∀ x c site, a.touched = some x →
    (s.thr t).top.frame = .op c site →
    s.Unshared (fun u e => u = t ∧ e = d) x ∧ (a.written = none → U x ≠ none) ∧
      (a.written = some x → U x = some c.tag ∨ last = false ∧ U x = none)
  | .act _ _ (.call c) => c.sideAddr ≠ some c.op.word.word
  | .write x _ => U x = none ∧ s.Unshared (fun _ _ => False) x
  | _ => True

/-- The same, and a section loads only cells of its own key. -/
def OwnKeys (s : Sys Tid M.img.Site) (l : Label Tid) : Prop :=
  M.FixedKeys U s l ∧ ∀ t d a last x c site, l = .act t d (.exec (.acc a last)) →
    a.touched = some x → a.written = none → (s.thr t).top.frame = .op c site → U x = some c.tag

variable [DecidableEq Tid]

/-- **Atomic.** Every run from `s₀` whose steps satisfy `D` is one of the atomic
machine: the same calls, returns and kernel events are seen in the same order, and
the memory is the same but for the side cells of the calls in flight. -/
def AtomicUnder (D : Sys Tid M.img.Site → Label Tid → Prop) (s₀ : Sys Tid M.img.Site) : Prop :=
  ∀ h s, LTS.Run (fun s l s' => M.Step s l s' ∧ D s l) s₀ h s →
    ∃ k b, LTS.Run Atomic.Step s₀.atomic k b ∧ k.filterMap id = h.filterMap Label.visible ∧
      ∀ x, s.Unshared (fun _ _ => False) x → s.mem x = b.mem x

end Machine

end RseqRs
