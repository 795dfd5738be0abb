import RseqRs.Proof.Effect
import RseqRs.Stage.Context
import RseqRs.Stage.Owned

/-!
# The atomic machine follows the stage machine

A call takes effect in the instruction that leaves its section: what its attempt
has loaded is then still there (`LoadsHold`), so the attempt has seen and done what
the whole section does now. Every other instruction changes nothing the atomic
machine knows of.

The memories of the two machines differ in the side cells of calls in flight, where
an attempt has made its scratch store and the call has not taken effect. No section
loads such a cell: it would touch the side cell of another call.
-/

namespace RseqRs

/-! ### The two machines -/

/-- A context, as the atomic machine sees it. -/
def Work.atomic : Work → Atomic.Work
  | .idle | .fence _ _ => .idle
  | .refused c => .done c (.error .abort)
  | .op c (.finishing r) _ => .done c r
  | .op c .entering _ | .op c (.inside _) _ => .called c

/-- A call that has not taken effect may have left `v` in its side cell `x`. -/
def Work.Owes (x v : Usize) : Work → Prop
  | .op c .entering _ | .op c (.inside _) _ => c.op.scratch = some (x, v)
  | _ => False

theorem Work.atomic_event (w : Work) : w.event.atomic = w.atomic := by
  cases w with
  | op c st log => cases st <;> rfl
  | _ => rfl

theorem Work.Owes.op {w : Work} {x v : Usize} (h : w.Owes x v) :
    ∃ c st log, w = .op c st log ∧ c.op.scratch = some (x, v) := by
  cases w with
  | op c st log =>
    cases st with
    | entering => exact ⟨c, _, log, rfl, h⟩
    | inside u => exact ⟨c, _, log, rfl, h⟩
    | finishing r => exact h.elim
  | _ => exact h.elim

namespace Stage

def Thr.atomic (x : Thr) : Atomic.Thr where
  index := x.index
  running := x.running
  top := x.top.atomic
  below := x.below.map Work.atomic

variable {Tid : Type}

/-- The atomic machine with memory `m`. -/
def Sys.atomic (s : Sys Tid) (m : Mem) : Atomic.Sys Tid where
  mem := m
  thr t := (s.thr t).atomic

/-- `x` is the side cell of no call in flight, but for the contexts `own`. -/
def Sys.Unshared (s : Sys Tid) (own : Tid → ℕ → Prop) (x : Usize) : Prop :=
  ∀ u e c st log, ¬ own u e → s.ctx u e = some (.op c st log) → c.sideAddr ≠ some x

/-- The cells are used under their own keys. -/
def OwnKeys (U : Usize → Option Tag) (s : Sys Tid) : Label Tid → Prop
  | .act t d (.exec (.acc a last)) => ∀ x c st log, a.touched = some x →
    (s.thr t).top = .op c st log →
    s.Unshared (fun u e => u = t ∧ e = d) x ∧ (a.written = none → U x = some c.tag) ∧
      (a.written = some x → U x = some c.tag ∨ last = false ∧ U x = none)
  | .act _ _ (.call c) => c.sideAddr ≠ some c.op.word.word
  | .write x _ => U x = none ∧ s.Unshared (fun _ _ => False) x
  | _ => True

/-- **The invariant**, with `m` the memory of the atomic machine. -/
structure Mirrors (U : Usize → Option Tag) (s : Sys Tid) (m : Mem) : Prop where
  held : LoadsHold U s
  /-- what a running attempt has loaded is there in both memories -/
  loaded : ∀ t c u log, (s.thr t).running = true → (s.thr t).top = .op c (.inside u) log →
    ∀ x v, Access.load x v ∈ log → U x = some c.tag ∧ m x = v
  /-- its scratch store is still there -/
  scratched : ∀ t c u log, (s.thr t).running = true → (s.thr t).top = .op c (.inside u) log →
    ∀ x v, Access.store x v ∈ log → s.mem x = v
  sides : ∀ t d c st log, s.ctx t d = some (.op c st log) → c.sideAddr ≠ some c.op.word.word
  /-- the memories differ only where a call owes it -/
  agrees : ∀ x, s.mem x = m x ∨ ∃ t d w, s.ctx t d = some w ∧ w.Owes x (s.mem x)

section Facts

variable {M : Machine Tid} {U : Usize → Option Tag} {s s' : Sys Tid} {m : Mem} {t : Tid}
  {c : Call} {u : Sec} {log : List Acc} {idx : Index → U32} {acc : List Acc}

/-- Only its side cell can differ from what the atomic machine has. -/
theorem Mirrors.agree_at (hm : Mirrors U s m) {d : ℕ} {st : Stage} {x : Usize}
    (hu : s.Unshared (fun u e => u = t ∧ e = d) x) (htop : s.ctx t d = some (.op c st log))
    (hx : c.sideAddr ≠ some x) : s.mem x = m x := by
  refine (hm.agrees x).resolve_right ?_
  -- the memories differ there only if some call in flight owes the cell
  rintro ⟨u, e, w, hw, howe⟩
  obtain ⟨c', st', log', rfl, hs⟩ := howe.op
  have hside : c'.sideAddr = some x := Op.sideAddr_of_scratch hs
  by_cases he : u = t ∧ e = d
  · obtain ⟨rfl, rfl⟩ := he
    rw [htop] at hw
    cases hw
    exact hx hside
  · exact hu u e c' st' log' he hw hside

end Facts

/-! ### Steps -/

section Steps

variable [DecidableEq Tid] {M : Machine Tid} {U : Usize → Option Tag} {s s' : Sys Tid} {m m' : Mem}
  {h : List (Label Tid)} {l : Label Tid} {t : Tid} {c : Call} {u : Sec} {log : List Acc}

omit [DecidableEq Tid] in
theorem OwnKeys.respects (hk : OwnKeys U s l) : Respects U s l := by
  cases l with
  | act t d act =>
    cases act with
    | exec o =>
      cases o with
      | acc a last =>
        intro x c st log τ hw htop hU
        rcases (hk x c st log (Access.touched_of_written hw) htop).2.2 hw with hx | ⟨_, hx⟩
        · rw [hU] at hx
          exact (Option.some_inj.mp hx).symm
        · rw [hU] at hx
          cases hx
      | _ => trivial
    | _ => trivial
  | fenceRun => trivial
  | write x v => exact hk.1

/-- **A side cell is written by its own call only**, while the call is in flight. -/
theorem OwnKeys.side_kept (hi : Inv h s) (hs : SysStep M s l s') (hk : OwnKeys U s l) {d : ℕ}
    {st : Stage} {x : Usize} (hc : s.ctx t d = some (.op c st log)) (hx : c.sideAddr = some x)
    (hl : ∀ a, l ≠ .act t d a) : s'.mem x = s.mem x := by
  refine hs.mem_eq (fun v e a last he hw => ?_) fun v he => ?_
  · subst he
    obtain ⟨c', u', log', _, htop, _⟩ := hi.writer hs hw
    -- the op that writes touches no side cell but its own
    have hunshared := (hk x c' _ log' (Access.touched_of_written hw) htop).1
    refine hunshared t d c st log (fun hown => ?_) hc hx
    obtain ⟨rfl, rfl⟩ := hown
    exact hl _ rfl
  · subst he
    exact hk.2 t d c st log id hc hx

/-- A call in flight was called with a side cell that is not its word. -/
theorem Mirrors.sides_step (hm : Mirrors U s m) (hs : SysStep M s l s') (hk : OwnKeys U s l)
    {d : ℕ} {st : Stage} (hc : s'.ctx t d = some (.op c st log)) :
    c.sideAddr ≠ some c.op.word.word := by
  rcases hs.op_back hc with ⟨st', log', hc'⟩ | rfl
  · exact hm.sides t d c st' log' hc'
  · exact hk

/-- A scratch store stays. -/
theorem Mirrors.scratched_step (hm : Mirrors U s m) (hi : Inv h s) (hs : SysStep M s l s')
    (hk : OwnKeys U s l) (hr : (s'.thr t).running = true)
    (htop : (s'.thr t).top = .op c (.inside u) log) {x v : Usize}
    (hx : Access.store x v ∈ log) : s'.mem x = v := by
  obtain ⟨_, _, hback⟩ := hi.inside_back hs hr htop
  -- the attempt has stored before the step, or the step is the store
  cases hback with
  | kept hr₀ htop₀ hne =>
    have hok := hi.top t
    rw [htop₀] at hok
    have hctx : s.ctx t (s.thr t).depth = some (.op c (.inside u) log) := htop₀ ▸ s.ctx_depth t
    have hside : c.sideAddr = some x := Op.sideAddr_of_scratch (hok.scratch_of_store hx)
    rw [OwnKeys.side_kept hi hs hk hctx hside fun a he => hne _ a he]
    exact hm.scratched t c u log hr₀ htop₀ x v hx
  | armed hnil => rw [hnil] at hx; cases hx
  | tau hr₀ htop₀ hmem _ =>
    rw [hmem]
    exact hm.scratched t c u log hr₀ htop₀ x v hx
  | @access u₀ log₀ a hr₀ htop₀ hn hread hlog hmem _ =>
    have hok := (hi.step hs).top t
    rw [htop] at hok
    have hscr := hok.scratch_of_store hx
    rw [hmem]
    cases a with
    | store b w =>
      -- all its scratch stores are the same
      have hlast : Access.store b w ∈ log :=
        hlog ▸ List.mem_append_right _ (List.mem_singleton_self _)
      have hsame := (hok.scratch_of_store hlast).symm.trans hscr
      cases hsame
      exact Function.update_self ..
    | index j =>
      exact hm.scratched t c u₀ log₀ hr₀ htop₀ x v (by simpa [hlog] using hx)
    | load b w =>
      exact hm.scratched t c u₀ log₀ hr₀ htop₀ x v (by simpa [hlog] using hx)

/-- What an attempt has loaded stays in the memory of the atomic machine, wherever
that changes only to catch up. -/
theorem Mirrors.loaded_step (hm : Mirrors U s m) (hi : Inv h s) (hs : SysStep M s l s')
    (hk : OwnKeys U s l) (hm' : ∀ x, m' x = m x ∨ m' x = s'.mem x)
    (hr : (s'.thr t).running = true) (htop : (s'.thr t).top = .op c (.inside u) log) {x v : Usize}
    (hx : Access.load x v ∈ log) : U x = some c.tag ∧ m' x = v := by
  have hok := (hi.step hs).top t
  rw [htop] at hok
  have hsides : c.sideAddr ≠ some c.op.word.word :=
    hm.sides_step hs hk (d := (s'.thr t).depth) (htop ▸ s'.ctx_depth t)
  have hne := hok.sideAddr_ne hsides hx
  -- it is enough that it was in the old memory of the atomic machine
  suffices hold : U x = some c.tag ∧ m x = v by
    refine ⟨hold.1, ?_⟩
    rcases hm' x with he | he
    · rw [he]
      exact hold.2
    · rw [he]
      refine hm.held.step hi hs hk.respects t c u log hr htop x v hx hold.1 fun w hw => ?_
      exact hne (Op.sideAddr_of_scratch (hok.scratch_of_store hw))
  obtain ⟨_, hdepth, hback⟩ := hi.inside_back hs hr htop
  cases hback with
  | kept hr₀ htop₀ _ => exact hm.loaded t c u log hr₀ htop₀ x v hx
  | armed hnil => rw [hnil] at hx; cases hx
  | tau hr₀ htop₀ _ _ => exact hm.loaded t c u log hr₀ htop₀ x v hx
  | @access u₀ log₀ a hr₀ htop₀ hn hread hlog hmem hl =>
    rw [hlog] at hx
    rcases List.mem_append.mp hx with hx | hx
    · exact hm.loaded t c u₀ log₀ hr₀ htop₀ x v hx
    · -- the load itself: `x` is no side cell of another call, nor its own
      obtain rfl := List.mem_singleton.mp hx
      subst hl
      obtain ⟨hunshared, hown, _⟩ := hk x c _ log₀ rfl htop₀
      have hctx : s.ctx t (s.thr t).depth = some (.op c (.inside u₀) log₀) := htop₀ ▸ s.ctx_depth t
      exact ⟨hown rfl, (hm.agree_at hunshared hctx hne).symm.trans hread⟩

/-- A step keeps what a call owes, unless the call takes effect. -/
theorem SysStep.owes (hs : SysStep M s l s') {d : ℕ} {w : Work} (hw : s.ctx t d = some w)
    {x v : Usize} (ho : w.Owes x v) :
    (∃ w', s'.ctx t d = some w' ∧ w'.Owes x v) ∨
      ∃ o c u log r log', l = .act t d (.exec o) ∧ w = .op c (.inside u) log ∧
        s'.ctx t d = some (.op c (.finishing r) log') := by
  have hstep := hs.ctx hw
  generalize hw' : s'.ctx t d = w' at hstep
  cases hstep with
  | keep hl => exact Or.inl ⟨w, rfl, ho⟩
  | event hl _ =>
    refine Or.inl ⟨_, rfl, ?_⟩
    cases w with
    | op c st log => cases st <;> exact ho
    | _ => exact ho
  | exec hr htop hst =>
    cases hst with
    | enter => exact Or.inl ⟨_, rfl, ho⟩
    | arm => exact Or.inl ⟨_, rfl, ho⟩
    | tau => exact Or.inl ⟨_, rfl, ho⟩
    | access hn hread => exact Or.inl ⟨_, rfl, ho⟩
    -- these two leave the section
    | exit => exact Or.inr ⟨_, _, _, _, _, _, rfl, rfl, rfl⟩
    | commit hc => exact Or.inr ⟨_, _, _, _, _, _, rfl, rfl, rfl⟩
    | leave => exact ho.elim
  | turn ht => cases ht <;> exact ho.elim
  | fence hr => exact ho.elim
  | popped => exact ho.elim

/-- The memories still agree after a step in which no call takes effect, and which
writes a side cell at most. -/
theorem Mirrors.agrees_keep (hm : Mirrors U s m) (hs : SysStep M s l s')
    (hfin : ∀ t d o c u log r log', l = .act t d (.exec o) →
      s.ctx t d = some (.op c (.inside u) log) → s'.ctx t d ≠ some (.op c (.finishing r) log'))
    (hmem : ∀ x, s'.mem x = s.mem x ∨ ∃ t d w, s'.ctx t d = some w ∧ w.Owes x (s'.mem x)) (x : Usize) :
    s'.mem x = m x ∨ ∃ t d w, s'.ctx t d = some w ∧ w.Owes x (s'.mem x) := by
  refine (hmem x).elim (fun he => ?_) Or.inr
  rw [he]
  refine (hm.agrees x).imp id ?_
  rintro ⟨t, d, w, hw, howe⟩
  -- a call that owes a cell still owes it, since none takes effect
  rcases hs.owes hw howe with ⟨w', hw', howe'⟩ | ⟨o, c, u, log, r, log', hl, rfl, hw'⟩
  · exact ⟨t, d, w', hw', howe'⟩
  · exact absurd hw' (hfin t d o c u log r log' hl hw)

/-- The atomic machine after a step of thread `t`. -/
theorem Sys.atomic_update {x : Thr} {m₁ : Mem} :
    Sys.atomic { s with mem := m₁, thr := Function.update s.thr t x } m' =
      { mem := m', thr := Function.update (s.atomic m).thr t x.atomic } := by
  refine congrArg (Atomic.Sys.mk m') (funext fun v => ?_)
  show (Function.update s.thr t x v).atomic = Function.update (s.atomic m).thr t x.atomic v
  by_cases hv : v = t
  · subst hv
    rw [Function.update_self, Function.update_self]
  · rw [Function.update_of_ne hv, Function.update_of_ne hv]
    rfl

/-- A step of thread `t` that the atomic machine does not make. -/
theorem Sys.atomic_silent {x : Thr} {m₁ : Mem} (hx : x.atomic = (s.thr t).atomic) :
    Sys.atomic { s with mem := m₁, thr := Function.update s.thr t x } m = s.atomic m := by
  rw [Sys.atomic_update (m := m), hx]
  exact congrArg (Atomic.Sys.mk m) (Function.update_eq_self t (s.atomic m).thr)

/-- **A call takes effect.** -/
theorem Sys.atomic_run {w : Work} {m₁ m₂ : Mem} {r : Except Error Usize}
    (hr : (s.thr t).running = true) (htop : (s.thr t).top.atomic = .called c)
    (hrun : c.run ((s.thr t).index c.K) m = (r, m₁)) (hleave : c.Leaves r m₁ m')
    (hw : w.atomic = .done c r) :
    Atomic.Step (s.atomic m) none (Sys.atomic { s with
      mem := m₂, thr := Function.update s.thr t { s.thr t with top := w } } m') := by
  have hstep : Atomic.Step (s.atomic m) none _ := .run (m := m') (t := t) hr htop (by
    show c.Leaves (c.run ((s.thr t).index c.K) m).1 (c.run ((s.thr t).index c.K) m).2 m'
    rw [hrun]
    exact hleave)
  have hres : (c.run (((s.atomic m).thr t).index c.K) (s.atomic m).mem).1 = r :=
    congrArg Prod.fst hrun
  rw [hres, ← hw] at hstep
  rw [Sys.atomic_update (m := m)]
  exact hstep

end Steps

/-! ### Calls taking effect -/

section Effects

variable [DecidableEq Tid] {M : Machine Tid} {U : Usize → Option Tag} {s s' : Sys Tid} {m m' : Mem}
  {h : List (Label Tid)} {l : Label Tid} {t : Tid} {c : Call} {u : Sec} {log : List Acc}

/-- An attempt that gives up does what the call does now, in one go. -/
theorem Mirrors.run_fail (hm : Mirrors U s m) (hi : Inv h s) {e : Error}
    (hr : (s.thr t).running = true) (htop : (s.thr t).top = .op c (.inside (.fail e)) log) :
    c.run ((s.thr t).index c.K) m = (.error e, m) := by
  have hok := hi.top t
  rw [htop] at hok
  -- from `m`, the attempt leads to the memory `m₁`, and the rest of it decides the call there
  obtain ⟨m₁, hc, _, _, hsame⟩ := hok.consistent
    (fun x v hx => (hm.loaded t c _ log hr htop x v hx).2) (hm.scratched t c _ log hr htop)
  have hclean : ∀ a ∈ log, a.written = none := fun a ha => by
    rcases hok.2.2.1.written ha with hw | ⟨x, v, rfl, _⟩
    · exact hw
    · -- one that has made its scratch store does not give up
      obtain ⟨_, _, _, _, _, _, _, he⟩ := Op.path_of_store hok.2.2.1 ha
      cases he
  calc c.run ((s.thr t).index c.K) m
      = (tree c).atomic ((s.thr t).index c.K) m := (Call.atomic_tree hok.2.1).symm
    _ = CritSec.atomic ((s.thr t).index c.K) (.fail e) m₁ := hok.2.2.1.atomic_eq hc
    _ = (.error e, m) := by rw [hsame hclean]; rfl

/-- An attempt that commits does what the call does now, in one go. -/
theorem Mirrors.run_commit (hm : Mirrors U s m) (hi : Inv h s) {a : Acc} {r : Usize}
    (hr : (s.thr t).running = true) (htop : (s.thr t).top = .op c (.inside u) log)
    (hcom : CritSec.Commits u a r) :
    ∃ m₁, c.run ((s.thr t).index c.K) m = (.ok r, a.apply m₁) ∧
      (∀ x, m₁ x = m x ∨ m₁ x = s.mem x) ∧
      ∀ x v, c.op.scratch = some (x, v) → m₁ x = s.mem x := by
  have hok := hi.top t
  rw [htop] at hok
  -- `m₁` differs from `m` where the attempt has made its scratch store
  obtain ⟨m₁, hc, hmem, hstored, _⟩ := hok.consistent
    (fun x v hx => (hm.loaded t c u log hr htop x v hx).2) (hm.scratched t c u log hr htop)
  refine ⟨m₁, ?_, hmem, fun x v hs => hstored x v (Op.store_of_commit hs hok.2.2.1 hcom)⟩
  calc c.run ((s.thr t).index c.K) m
      = (tree c).atomic ((s.thr t).index c.K) m := (Call.atomic_tree hok.2.1).symm
    _ = u.atomic ((s.thr t).index c.K) m₁ := hok.2.2.1.atomic_eq hc
    _ = (.ok r, a.apply m₁) := hcom.atomic_eq

/-- What the atomic machine does for a step. -/
def Follows (s s' : Sys Tid) (l : Label Tid) (m m' : Mem) : Prop :=
  (∃ k, LTS.Run Atomic.Step (s.atomic m) k (s'.atomic m') ∧ k.filterMap id = l.visible.toList) ∧
    (∀ x, m' x = m x ∨ m' x = s'.mem x) ∧
    ∀ x, s'.mem x = m' x ∨ ∃ t d w, s'.ctx t d = some w ∧ w.Owes x (s'.mem x)

/-- The call of `t` takes effect, and owes nothing any more where the memories agree. -/
theorem Mirrors.agrees_effect (hm : Mirrors U s m) {a : Act}
    (hs : SysStep M s (.act t (s.thr t).depth a) s') (htop : (s.thr t).top = .op c (.inside u) log)
    {x : Usize} (hmem : s'.mem x = s.mem x) (hm' : m' x = m x ∨ m' x = s.mem x)
    (hown : c.op.scratch = some (x, s.mem x) → m' x = s.mem x) :
    s'.mem x = m' x ∨ ∃ t d w, s'.ctx t d = some w ∧ w.Owes x (s'.mem x) := by
  rw [hmem]
  rcases hm' with he | he
  · rw [he]
    rcases hm.agrees x with he' | ⟨v, d, w, hw, howe⟩
    · exact Or.inl he'
    · rcases hs.owes hw howe with ⟨w', hw', howe'⟩ | ⟨_, _, _, _, _, _, hl, rfl, _⟩
      · exact Or.inr ⟨v, d, w', hw', howe'⟩
      · obtain ⟨rfl, rfl, _⟩ := Label.act.inj hl
        rw [s.ctx_depth, htop] at hw
        cases hw
        exact Or.inl ((hown howe).symm.trans he)
  · exact Or.inl he.symm

/-- **The section is left with a failure.** If the scratch store of an abandoned
attempt is still there, the atomic machine leaves it too. -/
theorem Mirrors.follows_exit (hm : Mirrors U s m) (hi : Inv h s) {e : Error}
    (hr : (s.thr t).running = true) (htop : (s.thr t).top = .op c (.inside (.fail e)) log)
    (hs : SysStep M s (.act t (s.thr t).depth (.exec .tau)) s')
    (hs' : s' = { s with
      thr := Function.update s.thr t
        { s.thr t with top := .op c (.finishing (.error e)) log } }) :
    ∃ m', Follows s s' (.act t (s.thr t).depth (.exec .tau)) m m' := by
  have hrun := hm.run_fail hi hr htop
  have hcalled : (s.thr t).top.atomic = .called c := congrArg Work.atomic htop
  have hmem : s'.mem = s.mem := by rw [hs']
  have hsame (x : Usize) : s'.mem x = s.mem x := congrFun hmem x
  by_cases hleft : ∃ x, c.op.scratch = some (x, s.mem x)
  · -- what is left in the side cell is put there in the atomic machine too
    obtain ⟨x, hx⟩ := hleft
    have hm' (y : Usize) : Function.update m x (s.mem x) y = m y ∨
        Function.update m x (s.mem x) y = s.mem y := by
      by_cases hy : y = x
      · subst hy
        exact Or.inr (Function.update_self ..)
      · exact Or.inl (Function.update_of_ne hy _ _)
    refine ⟨Function.update m x (s.mem x), ⟨[none], ?_, rfl⟩, hmem ▸ hm', fun y =>
      hm.agrees_effect hs htop (hsame y) (hm' y) fun hy => ?_⟩
    · rw [hs']
      exact .single (Sys.atomic_run hr hcalled hrun (.scratch rfl hx) rfl)
    · rw [hx] at hy
      cases hy
      exact Function.update_self ..
  · refine ⟨m, ⟨[none], ?_, rfl⟩, fun x => Or.inl rfl, fun x =>
      hm.agrees_effect hs htop (hsame x) (Or.inl rfl) fun hx => absurd ⟨x, hx⟩ hleft⟩
    rw [hs']
    exact .single (Sys.atomic_run hr hcalled hrun .exact rfl)

/-- **The section is left with the commit.** -/
theorem Mirrors.follows_commit (hm : Mirrors U s m) (hi : Inv h s) {a : Acc} {r : Usize}
    (hr : (s.thr t).running = true) (htop : (s.thr t).top = .op c (.inside u) log)
    (hcom : CritSec.Commits u a r)
    (hs : SysStep M s (.act t (s.thr t).depth (.exec (.acc a true))) s')
    (hs' : s' = { s with
      mem := a.apply s.mem
      thr := Function.update s.thr t
        { s.thr t with top := .op c (.finishing (.ok r)) (log ++ [a]) } }) :
    ∃ m', Follows s s' (.act t (s.thr t).depth (.exec (.acc a true))) m m' := by
  obtain ⟨m₁, hrun, hm₁, hown⟩ := hm.run_commit hi hr htop hcom
  have hcalled : (s.thr t).top.atomic = .called c := congrArg Work.atomic htop
  have hmem : s'.mem = a.apply s.mem := by rw [hs']
  -- both memories have what the commit writes, and are as before elsewhere
  obtain ⟨y, hy, hother⟩ : ∃ y, a.apply m₁ y = a.apply s.mem y ∧
      ∀ x, x ≠ y → a.apply m₁ x = m₁ x ∧ a.apply s.mem x = s.mem x := by
    cases hcom with
    | store b v r =>
      refine ⟨b, ?_, fun x hx => ⟨Function.update_of_ne hx _ _, Function.update_of_ne hx _ _⟩⟩
      show Function.update m₁ b v b = Function.update s.mem b v b
      rw [Function.update_self, Function.update_self]
  refine ⟨a.apply m₁, ⟨[none], ?_, rfl⟩, fun x => ?_, fun x => ?_⟩
  · rw [hs']
    exact .single (Sys.atomic_run hr hcalled hrun .exact rfl)
  · by_cases hx : x = y
    · rw [hx, hmem]
      exact Or.inr hy
    · rw [hmem, (hother x hx).1, (hother x hx).2]
      exact hm₁ x
  · by_cases hx : x = y
    · rw [hx, hmem]
      exact Or.inl hy.symm
    · obtain ⟨hx₁, hx₂⟩ := hother x hx
      refine hm.agrees_effect hs htop ((congrFun hmem x).trans hx₂) ?_ fun hscr => ?_
      · rw [hx₁]
        exact hm₁ x
      · rw [hx₁]
        exact hown x _ hscr

end Effects

/-! ### Every step -/

section Follow

variable [DecidableEq Tid] {M : Machine Tid} {U : Usize → Option Tag} {s s' : Sys Tid} {m m' : Mem}
  {h : List (Label Tid)} {l : Label Tid} {t : Tid}

theorem Thr.atomic_depth (x : Thr) : x.atomic.depth = x.depth := List.length_map _

/-- A step of thread `t` that the atomic machine makes too. -/
theorem Sys.atomic_move {a : Act} {x : Thr} {m₁ : Mem} (hx : Atomic.Move (s.thr t).atomic a x.atomic)
    (hfree : ∀ cpu cid, a = .resume cpu cid → Free s t (fields cpu cid)) :
    Atomic.Step (s.atomic m) (some (.act t (s.thr t).depth a))
      (Sys.atomic { s with mem := m₁, thr := Function.update s.thr t x } m) := by
  have hstep : Atomic.Step (s.atomic m) _ _ := .move (t := t) hx fun cpu cid ha u hu hr K => by
    have hne := hfree cpu cid ha u hu hr K
    cases K <;> exact hne
  have hdepth : ((s.atomic m).thr t).depth = (s.thr t).depth := (s.thr t).atomic_depth
  rw [hdepth] at hstep
  rw [Sys.atomic_update (m := m)]
  exact hstep

/-- A call whose keys differ. -/
theorem Sys.atomic_refused {c : Call} {m₁ : Mem} (hr : (s.thr t).running = true)
    (htop : (s.thr t).atomic.top = .idle) (hk : c.op.keysAgree = false) :
    LTS.Run Atomic.Step (s.atomic m) [none, some (.act t (s.thr t).depth (.call c))]
      (Sys.atomic { s with
        mem := m₁
        thr := Function.update s.thr t { s.thr t with top := .refused c } } m) := by
  -- in between it is as if the call could enter a section
  let s₁ : Sys Tid :=
    { s with thr := Function.update s.thr t { s.thr t with top := .op c .entering [] } }
  have hthr : s₁.thr t = { s.thr t with top := .op c .entering [] } := Function.update_self ..
  have hcall : Atomic.Step (s.atomic m) (some (.act t (s.thr t).depth (.call c))) (s₁.atomic m) :=
    Sys.atomic_move (.call hr htop) nofun
  have hrun : c.run ((s₁.thr t).index c.K) m = (.error .abort, m) :=
    if_neg fun hc => Bool.false_ne_true (hk.symm.trans hc.1)
  have heffect : Atomic.Step (s₁.atomic m) none (Sys.atomic { s₁ with
      mem := m₁, thr := Function.update s₁.thr t { s₁.thr t with top := .refused c } } m) :=
    Sys.atomic_run (by rw [hthr]; exact hr) (by rw [hthr]; rfl) hrun .exact rfl
  rw [hthr, Function.update_idem] at heffect
  exact .cons (.single hcall) heffect

/-- The atomic machine stays where it is. -/
theorem Mirrors.follows_silent (hm : Mirrors U s m) (hs : SysStep M s l s')
    (heq : s'.atomic m = s.atomic m) (hl : l.visible = none)
    (hfin : ∀ t d o c u log r log', l = .act t d (.exec o) →
      s.ctx t d = some (.op c (.inside u) log) → s'.ctx t d ≠ some (.op c (.finishing r) log'))
    (hmem : ∀ x, s'.mem x = s.mem x ∨ ∃ t d w, s'.ctx t d = some w ∧ w.Owes x (s'.mem x)) :
    ∃ m', Follows s s' l m m' := by
  refine ⟨m, ⟨[], ?_, by rw [hl]; rfl⟩, fun x => Or.inl rfl, hm.agrees_keep hs hfin hmem⟩
  rw [heq]
  exact .nil

/-- The atomic machine makes the same step, or it and another. -/
theorem Mirrors.follows_seen (hm : Mirrors U s m) {d : ℕ} {a : Act}
    (hs : SysStep M s (.act t d a) s') {k : List (Option (Label Tid))}
    (hrun : LTS.Run Atomic.Step (s.atomic m) k (s'.atomic m))
    (hk : k.filterMap id = [.act t d a]) (ha : a.visible = true) (hmem : s'.mem = s.mem) :
    ∃ m', Follows s s' (.act t d a) m m' := by
  refine ⟨m, ⟨k, hrun, ?_⟩, fun x => Or.inl rfl, hm.agrees_keep hs ?_ fun x => ?_⟩
  · rw [hk]
    show _ = Option.toList (if a.visible = true then _ else _)
    rw [if_pos ha]
    rfl
  · intro t d o c u log r log' hl
    obtain ⟨_, _, rfl⟩ := Label.act.inj hl
    cases ha
  · rw [hmem]
    exact Or.inl rfl

/-- An instruction that decides nothing. -/
theorem Mirrors.follows_exec (hm : Mirrors U s m) (hi : Inv h s) {c : Call} {st st' : Stage}
    {log : List Acc} {o : Obs} {m₁ : Mem}
    (hs : SysStep M s (.act t (s.thr t).depth (.exec o)) s')
    (htop : (s.thr t).top = .op c st log)
    (hst : Step (tree c) ((s.thr t).index c.K) s.mem st o st' m₁)
    (hs' : s' = { s with
      mem := m₁
      thr := Function.update s.thr t { s.thr t with top := .op c st' (o.extend log) } })
    (heq : (Work.op c st' (o.extend log)).atomic = (Work.op c st log).atomic) :
    ∃ m', Follows s s' (.act t (s.thr t).depth (.exec o)) m m' := by
  -- the context goes on with the same call
  have hctx : s'.ctx t (s.thr t).depth = some (.op c st' (o.extend log)) := by
    rw [hs']
    show ctxAt (Function.update s.thr t _ t).stack _ = _
    rw [Function.update_self]
    exact ctxAt_cons_self
  refine hm.follows_silent hs ?_ rfl ?_ fun x => ?_
  · rw [hs']
    refine Sys.atomic_silent ?_
    show Atomic.Thr.mk _ _ (Work.op c st' (o.extend log)).atomic _ = _
    rw [heq, ← htop]
    rfl
  · intro u d o' c' v log' r log'' hl hw hw'
    obtain ⟨rfl, rfl, _⟩ := Label.act.inj hl
    rw [s.ctx_depth, htop] at hw
    rw [hctx] at hw'
    cases hw
    cases hw'
    cases heq
  · -- only a scratch store writes, in the side cell of its call
    have hmem : s'.mem = m₁ := by rw [hs']
    rw [hmem]
    cases hst with
    | commit hc => cases heq
    | @access u u' a hn hr =>
      cases a with
      | index j => exact Or.inl rfl
      | load b v => exact Or.inl rfl
      | store b v =>
        by_cases hx : x = b
        · subst hx
          refine Or.inr ⟨t, _, _, hctx, ?_⟩
          have hok := hi.top t
          rw [htop] at hok
          have hself : (Access.store x v : Acc).apply s.mem x = v := Function.update_self ..
          rw [hself]
          exact Op.scratch_of_scratches (hok.2.2.1.scratches hn)
        · exact Or.inl (Function.update_of_ne hx _ _)
    | _ => exact Or.inl rfl

/-- A turn between instructions: a call and a return are seen, what caller code does and the
ends of a fence are not. -/
theorem Mirrors.follows_turn (hm : Mirrors U s m) {a : Act} {w w' : Work}
    (hr : (s.thr t).running = true) (htop : (s.thr t).top = w) (ht : Turn M w a w') :
    ∃ m', Follows s { s with thr := Function.update s.thr t { s.thr t with top := w' } }
      (.act t (s.thr t).depth a) m m' := by
  have hfree : ∀ cpu cid, a = .resume cpu cid → Free s t (fields cpu cid) := by
    rintro cpu cid rfl
    cases ht
  have hs : SysStep M s (.act t (s.thr t).depth a) _ := .move (.turn hr htop ht) hfree
  have htop' : (s.thr t).atomic.top = w.atomic := congrArg Work.atomic htop
  have hsilent (hl : (Label.act t (s.thr t).depth a).visible = none)
      (hno : ∀ o, a ≠ .exec o) (hw : w'.atomic = w.atomic) :
      ∃ m', Follows s { s with thr := Function.update s.thr t { s.thr t with top := w' } }
        (.act t (s.thr t).depth a) m m' := by
    refine hm.follows_silent hs (Sys.atomic_silent ?_) hl ?_ fun x => Or.inl rfl
    · show Atomic.Thr.mk _ _ w'.atomic _ = _
      rw [hw, ← htop]
      rfl
    · intro u d o c v log r log' he
      exact absurd (Label.act.inj he).2.2 (hno o)
  cases ht with
  | @call c hagree =>
    exact hm.follows_seen hs (.single (Sys.atomic_move (.call hr htop') hfree)) rfl rfl rfl
  | @callRefused c hdiffer =>
    -- the call takes effect at once
    exact hm.follows_seen hs (Sys.atomic_refused hr htop' hdiffer) rfl rfl rfl
  | ret =>
    exact hm.follows_seen hs (.single (Sys.atomic_move (.ret hr htop') hfree)) rfl rfl rfl
  | retRefused =>
    exact hm.follows_seen hs (.single (Sys.atomic_move (.ret hr htop') hfree)) rfl rfl rfl
  | goto => exact hsilent rfl nofun rfl
  | unload => exact hsilent rfl nofun rfl
  | fenceCall f => exact hsilent rfl nofun rfl
  | fenceRet => exact hsilent rfl nofun rfl

/-- The atomic machine knows of no fence, nor of the attempts that one throws away. -/
theorem Mirrors.follows_fence (hm : Mirrors U s m) {f : FenceCall} {pc pc' : RunPc}
    {p : Flags} {hit : Tid → Bool} (hs : SysStep M s l (fenced s t f pc' p hit))
    (hl : l.visible = none)
    (hno : ∀ u d o, l ≠ .act u d (.exec o)) (htop : (s.thr t).top = .fence f pc) :
    ∃ m', Follows s (fenced s t f pc' p hit) l m m' := by
  refine hm.follows_silent hs ?_ hl (fun u d o _ _ _ _ _ he => absurd he (hno u d o))
    fun x => Or.inl rfl
  refine congrArg (Atomic.Sys.mk m) (funext fun u => ?_)
  obtain ⟨w, he, hc⟩ := fenced_thr s t u f pc' p hit
  have hw : w.atomic = (s.thr u).top.atomic := by
    rcases hc with ⟨rfl, rfl⟩ | ⟨_, ⟨_, rfl⟩ | ⟨_, rfl⟩⟩
    · rw [htop]
      rfl
    · exact Work.atomic_event _
    · rfl
  rw [he]
  show Atomic.Thr.mk _ _ w.atomic _ = _
  rw [hw]
  rfl

/-- Both memories are written. -/
theorem Mirrors.follows_write (hm : Mirrors U s m) (b v : Usize) :
    ∃ m', Follows s { s with mem := Function.update s.mem b v } (.write b v) m m' := by
  have hstep : Atomic.Step (s.atomic m) (some (.write b v)) _ := .write b v
  refine ⟨Function.update m b v, ⟨[some (.write b v)], .single hstep, rfl⟩, fun x => ?_, fun x => ?_⟩
  · by_cases hx : x = b
    · subst hx
      right
      show _ = Function.update s.mem x v x
      rw [Function.update_self, Function.update_self]
    · exact Or.inl (Function.update_of_ne hx _ _)
  · show Function.update s.mem b v x = Function.update m b v x ∨
      ∃ t d w, s.ctx t d = some w ∧ w.Owes x (Function.update s.mem b v x)
    by_cases hx : x = b
    · subst hx
      left
      rw [Function.update_self, Function.update_self]
    · rw [Function.update_of_ne hx, Function.update_of_ne hx]
      exact hm.agrees x

/-- **Every step** is followed by the atomic machine. -/
theorem Mirrors.follows (hm : Mirrors U s m) (hi : Inv h s) (hs : SysStep M s l s')
    (hk : OwnKeys U s l) : ∃ m', Follows s s' l m m' := by
  have hs₀ := hs
  cases hs with
  | @move t a m₁ x hmove hfree =>
    -- of an attempt that an event restarts the atomic machine has the call only
    have hevent : (s.thr t).atomic.top = (s.thr t).top.event.atomic := (Work.atomic_event _).symm
    cases hmove with
    | @exec c st st' log o m₁ hr htop hst =>
      cases hst with
      | enter => exact hm.follows_exec hi hs₀ htop .enter rfl rfl
      | arm => exact hm.follows_exec hi hs₀ htop .arm rfl rfl
      | tau => exact hm.follows_exec hi hs₀ htop .tau rfl rfl
      | access hn hread => exact hm.follows_exec hi hs₀ htop (.access hn hread) rfl rfl
      | leave => exact hm.follows_exec hi hs₀ htop .leave rfl rfl
      | exit => exact hm.follows_exit hi hr htop hs₀ rfl
      | commit hc => exact hm.follows_commit hi hr htop hc hs₀ rfl
    | turn hr htop ht => exact hm.follows_turn hr htop ht
    | preempt hr =>
      exact hm.follows_seen hs₀ (.single (Sys.atomic_move (.preempt hr) hfree)) rfl rfl rfl
    | resume cpu cid hr =>
      have hmove : Atomic.Move (s.thr t).atomic (.resume cpu cid) _ := .resume cpu cid hr
      rw [hevent] at hmove
      exact hm.follows_seen hs₀ (.single (Sys.atomic_move hmove hfree)) rfl rfl rfl
    | signal hr =>
      have hmove : Atomic.Move (s.thr t).atomic .signal _ := .signal hr
      rw [hevent] at hmove
      exact hm.follows_seen hs₀ (.single (Sys.atomic_move hmove hfree)) rfl rfl rfl
    | @sigreturn y ys hr htop hb =>
      have htop' : (s.thr t).atomic.top = .idle := congrArg Work.atomic htop
      have hb' : (s.thr t).atomic.below = y.atomic :: ys.map Work.atomic :=
        congrArg (List.map Work.atomic) hb
      exact hm.follows_seen hs₀ (.single (Sys.atomic_move (.sigreturn hr htop' hb') hfree))
        rfl rfl rfl
  | fenceRun hr htop hrun => exact hm.follows_fence hs₀ rfl nofun htop
  | write b v => exact hm.follows_write b v

/-- **Every step** keeps the invariant. -/
theorem Mirrors.step (hm : Mirrors U s m) (hi : Inv h s) (hs : SysStep M s l s')
    (hk : OwnKeys U s l) : ∃ m', Follows s s' l m m' ∧ Mirrors U s' m' := by
  obtain ⟨m', hf⟩ := hm.follows hi hs hk
  exact ⟨m', hf, hm.held.step hi hs hk.respects,
    fun t c u log hr htop x v hx => hm.loaded_step hi hs hk hf.2.1 hr htop hx,
    fun t c u log hr htop x v hx => hm.scratched_step hi hs hk hr htop hx,
    fun t d c st log hc => hm.sides_step hs hk hc, hf.2.2⟩

omit [DecidableEq Tid] in
theorem Initial.mirrors (hs : Initial s) : Mirrors U s s.mem where
  held := hs.loadsHold
  loaded t c u log hr := by rw [hs.running t] at hr; cases hr
  scratched t c u log hr := by rw [hs.running t] at hr; cases hr
  sides t d c st log hc := by
    rcases Sys.ctx_cases hc with ⟨_, htop⟩ | ⟨_, hb⟩
    · rw [hs.idle t] at htop; cases htop
    · rw [hs.below t] at hb; cases hb
  agrees x := Or.inl rfl

end Follow

end Stage

end RseqRs
