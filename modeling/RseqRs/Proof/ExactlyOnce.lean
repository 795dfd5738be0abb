import RseqRs.Stage.Context
import RseqRs.Stage.Refine

/-!
# Exactly once, whatever else happens

A call commits at most once, and returns `Ok` just if it did, with the value its
final attempt loaded; nobody else is assumed to leave the cells alone. The
kernel's events only cost time: between two of them a call makes at most as many
instructions as its block has, and it never gets stuck.
-/

namespace RseqRs

/-- The accesses of an attempt that committed and returned `Ok v`: the value is
the one loaded, and the value stored is computed from it. -/
def Op.Committed {K : Index} (v : Usize) (log : List Acc) : Op K → Prop
  | .compareExchange w expect new => v = expect ∧
    log = [.index (K.get w.key), .load w.word v, .store w.word new]
  | .compareExchangeIf w expect new o otherExpect => v = expect ∧
    log = [.index (K.get w.key), .load w.word v, .load o.word otherExpect, .store w.word new]
  | .fetchAdd w count => log = [.index (K.get w.key), .load w.word v, .store w.word (v + count)]
  | .loadIfNe w expectNot offset => v ≠ expectNot ∧ ∃ chase,
    log = [.index (K.get w.key), .load w.word v, .load (v + offset) chase, .store w.word chase]
  | .fetchAddAt p offset count => ∃ base slot,
    log = [.index (K.get p.key), .load p.word base, .load (base + offset) slot, .load slot v,
      .store slot (v + count)]
  | .storeIf w expect new s sideNew => v = expect ∧
    log = [.index (K.get w.key), .load w.word v, .store s.word sideNew, .store w.word new]

/-- A confirmed attempt that ends with `Ok`. -/
theorem CritSec.Ends.of_confirm {key : U32} {t : Sec} {log : List Acc} {v : Usize}
    (h : CritSec.Ends (.confirm key .abort t) log (.ok v)) :
    ∃ log', log = .index key :: log' ∧ t.Ends log' (.ok v) := by
  obtain ⟨i, log', rfl, h'⟩ := h.of_index
  by_cases hi : i = key
  · subst hi
    rw [if_pos rfl] at h'
    exact ⟨log', rfl, h'⟩
  · rw [if_neg hi] at h'
    cases h'.of_fail.2

/-- **What `Ok` means**, for each op. -/
theorem Op.committed_of_ends {K : Index} {op : Op K} {log : List Acc} {v : Usize}
    (h : op.tree.Ends log (.ok v)) : op.Committed v log := by
  -- past the check of the index; then the loads of each op, one at a time, to its commit
  obtain ⟨log₁, rfl, h₁⟩ := CritSec.Ends.of_confirm h
  cases op with
  | compareExchange w expect new =>
    obtain ⟨x, log₂, rfl, h₂⟩ := h₁.of_load
    split at h₂
    · next he => obtain ⟨rfl, hv⟩ := h₂.of_commit; cases hv; exact ⟨he, rfl⟩
    · cases h₂.of_fail.2
  | compareExchangeIf w expect new o otherExpect =>
    obtain ⟨x, log₂, rfl, h₂⟩ := h₁.of_load
    split at h₂
    · next he =>
      obtain ⟨y, log₃, rfl, h₃⟩ := h₂.of_load
      split at h₃
      · next ho => subst ho; obtain ⟨rfl, hv⟩ := h₃.of_commit; cases hv; exact ⟨he, rfl⟩
      · cases h₃.of_fail.2
    · cases h₂.of_fail.2
  | fetchAdd w count =>
    obtain ⟨x, log₂, rfl, h₂⟩ := h₁.of_load
    obtain ⟨rfl, hv⟩ := h₂.of_commit
    cases hv
    rfl
  | loadIfNe w expectNot offset =>
    obtain ⟨x, log₂, rfl, h₂⟩ := h₁.of_load
    split at h₂
    · cases h₂.of_fail.2
    · next hne =>
      obtain ⟨y, log₃, rfl, h₃⟩ := h₂.of_load
      obtain ⟨rfl, hv⟩ := h₃.of_commit
      cases hv
      exact ⟨hne, y, rfl⟩
  | fetchAddAt p offset count =>
    obtain ⟨base, log₂, rfl, h₂⟩ := h₁.of_load
    obtain ⟨slot, log₃, rfl, h₃⟩ := h₂.of_load
    obtain ⟨x, log₄, rfl, h₄⟩ := h₃.of_load
    obtain ⟨rfl, hv⟩ := h₄.of_commit
    cases hv
    exact ⟨base, slot, rfl⟩
  | storeIf w expect new s sideNew =>
    obtain ⟨x, log₂, rfl, h₂⟩ := h₁.of_load
    split at h₂
    · next he =>
      obtain ⟨log₃, rfl, h₃⟩ := h₂.of_scratch
      obtain ⟨rfl, hv⟩ := h₃.of_commit
      cases hv
      exact ⟨he, rfl⟩
    · cases h₂.of_fail.2

/-- Only `store_if` has a scratch store: the one to its side. -/
theorem Op.scratches_tree {K : Index} {op : Op K} {x v : Usize}
    (h : op.tree.Scratches x v) :
    ∃ w expect new s, op = .storeIf w expect new s v ∧ x = s.word := by
  -- the check of the index stores nothing
  have hbody : op.body.Scratches x v := by
    obtain ⟨i, h⟩ := h.of_index
    split at h
    · exact h
    · exact absurd h CritSec.Scratches.not_fail
  cases op with
  | compareExchange w expect new =>
    obtain ⟨c, h⟩ := hbody.of_load
    split at h
    · exact absurd h CritSec.Scratches.not_commit
    · exact absurd h CritSec.Scratches.not_fail
  | compareExchangeIf w expect new o otherExpect =>
    obtain ⟨c, h⟩ := hbody.of_load
    split at h
    · obtain ⟨c', h⟩ := h.of_load
      split at h
      · exact absurd h CritSec.Scratches.not_commit
      · exact absurd h CritSec.Scratches.not_fail
    · exact absurd h CritSec.Scratches.not_fail
  | fetchAdd w count =>
    obtain ⟨c, h⟩ := hbody.of_load
    exact absurd h CritSec.Scratches.not_commit
  | loadIfNe w expectNot offset =>
    obtain ⟨c, h⟩ := hbody.of_load
    split at h
    · exact absurd h CritSec.Scratches.not_fail
    · obtain ⟨c', h⟩ := h.of_load
      exact absurd h CritSec.Scratches.not_commit
  | fetchAddAt p offset count =>
    obtain ⟨b, h⟩ := hbody.of_load
    obtain ⟨slot, h⟩ := h.of_load
    obtain ⟨c, h⟩ := h.of_load
    exact absurd h CritSec.Scratches.not_commit
  | storeIf w expect new s sideNew =>
    obtain ⟨c, h⟩ := hbody.of_load
    split at h
    · rcases h.of_scratch with ⟨rfl, rfl⟩ | h
      · exact ⟨_, _, _, _, rfl, rfl⟩
      · exact absurd h CritSec.Scratches.not_commit
    · exact absurd h CritSec.Scratches.not_fail

/-! ### Commits -/

section Counts

variable {Tid : Type} [DecidableEq Tid] {t : Tid} {d : ℕ} {p : Label Tid → Bool} {l : Label Tid}
  {h : List (Label Tid)}

theorem sinceCall_cons_of_not_calls (hl : l.calls t d = false) :
    sinceCall t d p (l :: h) = (if p l then 1 else 0) + sinceCall t d p h := by
  rw [sinceCall, if_neg (by rw [hl]; exact Bool.false_ne_true)]

theorem sinceCall_call {c : Call} : sinceCall t d p (.act t d (.call c) :: h) = 0 :=
  if_pos (Label.calls_iff.mpr ⟨c, rfl⟩)

/-- What is not the context's own step counts for no commit. -/
theorem commitCount_keep (hl : l.own t d = false) :
    commitCount t d (l :: h) = commitCount t d h := by
  rw [commitCount, sinceCall_cons_of_not_calls (Label.calls_of_not_own hl),
    Label.commits_of_not_own hl]
  simp

theorem commitCount_exec {o : Obs} : commitCount t d (.act t d (.exec o) :: h) =
    (if o.commits then 1 else 0) + commitCount t d h := by
  rw [commitCount, sinceCall_cons_of_not_calls rfl]
  simp [Label.commits]

theorem commitCount_cons_le :
    commitCount t d (l :: h) ≤ (if l.commits t d then 1 else 0) + commitCount t d h := by
  by_cases hl : l.calls t d = true
  · rw [commitCount, sinceCall, if_pos hl]; exact Nat.zero_le _
  · rw [commitCount, sinceCall_cons_of_not_calls (Bool.eq_false_iff.mpr hl)]

end Counts

namespace Stage

variable {Tid : Type} [DecidableEq Tid] {M : Machine Tid} {s s' s₀ : Sys Tid}
  {h : List (Label Tid)}

/-- The commits of a call, by its stage. -/
def Work.committed : Work → ℕ → Prop
  | .op _ (.finishing (.ok _)) _, n => n = 1
  | .op _ _ _, n => n = 0
  | .refused _, n => n = 0
  | _, _ => True

theorem Work.committed_event {w : Work} {n : ℕ} (h : Work.committed w n) :
    Work.committed w.event n := by
  cases w with
  | op c st log => cases st <;> exact h
  | _ => exact h

theorem committed_step {l : Label Tid} {t : Tid} {d : ℕ} {w w' : Work}
    (hw : Work.committed w (commitCount t d h)) (hs : CtxStep M s t d l w (some w')) :
    Work.committed w' (commitCount t d (l :: h)) := by
  cases hs with
  | keep hl => rw [commitCount_keep hl]; exact hw
  | event hl _ => rw [commitCount_keep hl]; exact Work.committed_event hw
  | @exec c st st' log o m hr htop hst =>
    rw [commitCount_exec]
    cases hst with
    -- no instruction before this one has counted
    | commit hc =>
      obtain hw : commitCount t d h = 0 := hw
      show _ + _ = 1
      rw [hw]
      rfl
    | _ => exact (Nat.zero_add _).symm ▸ hw
  | turn ht =>
    cases ht with
    -- a call starts the count again
    | call hk => exact sinceCall_call
    | callRefused hk => exact sinceCall_call
    | _ => trivial
  | fence hr => trivial

/-- **At most one commit**, and exactly one just past it. -/
theorem committed_run (hi : Initial s₀) (hr : LTS.Run (SysStep M) s₀ h s) :
    ∀ t d w, s.ctx t d = some w → Work.committed w (commitCount t d h) := by
  refine hr.invariant (I := fun h s => ∀ t d w, s.ctx t d = some w →
    Work.committed w (commitCount t d h)) (fun t d w hw => ?_) fun h s l s' _ ih hs t d w' hw' => ?_
  · rcases Sys.ctx_cases hw with ⟨_, rfl⟩ | ⟨_, hb⟩
    · rw [hi.idle t]; trivial
    · rw [hi.below t] at hb; cases hb
  · rcases hs.ctx_back hw' with ⟨w, hw, hstep⟩ | rfl
    · exact committed_step (ih t d w hw) hstep
    · trivial

/-- A committing instruction belongs to a call that is still inside its section. -/
theorem SysStep.commits {l : Label Tid} {t : Tid} {d : ℕ} (hs : SysStep M s l s')
    (hl : l.commits t d = true) : ∃ c u log, s.ctx t d = some (.op c (.inside u) log) := by
  obtain ⟨o, rfl, ho⟩ := Label.commits_iff.mp hl
  obtain ⟨rfl, _, c, st, st', log, htop, _, hst, _⟩ := hs.exec
  rw [s.ctx_depth, htop]
  generalize s'.mem = m at hst
  cases hst with
  | commit hc => exact ⟨_, _, _, rfl⟩
  | _ => cases ho

/-- No call commits twice. -/
theorem commitCount_le_one (hi : Initial s₀) (hr : LTS.Run (SysStep M) s₀ h s) (t : Tid) (d : ℕ) :
    commitCount t d h ≤ 1 := by
  induction hr with
  | nil => exact Nat.zero_le _
  | @cons h s s' l hr hs ih =>
    have hle := commitCount_cons_le (t := t) (d := d) (l := l) (h := h)
    cases hl : l.commits t d with
    | true =>
      -- a call that commits is inside its section, and has not committed
      obtain ⟨c, u, log, hw⟩ := hs.commits hl
      have hzero : commitCount t d h = 0 := committed_run hi hr t d _ hw
      rw [hl, hzero] at hle
      exact hle
    | false =>
      rw [hl] at hle
      exact hle.trans ((Nat.zero_add _).trans_le ih)

end Stage

/-! ### Calls of the machine -/

section Called

variable {Tid : Type} [DecidableEq Tid] {M : Machine Tid} {s₀ s : Sys Tid M.img.Site}

/-- A word op in flight has been called. -/
theorem frame_called {h : List (Label Tid)} {t : Tid} {d : ℕ} {z : Ctx M.img.Site} {c : Call}
    {site : M.img.Site} (hi : M.Initial s₀) (hr : LTS.Run M.Step s₀ h s)
    (hz : ctxAt (s.thr t).stack d = some z) (hf : z.frame = .op c site) :
    .act t d (.call c) ∈ h := by
  obtain ⟨a, ha, hrel⟩ := refine_run hi hr
  obtain ⟨w, hw, hrelw⟩ := (hrel.thr t).ctx hz
  obtain ⟨st, log, _, rfl, _⟩ := hrelw.works hf
  exact Stage.called_run s₀.initial_stages ha t d c st log hw

end Called

/-! ### Instructions -/

section Instructions

variable {Tid : Type} [DecidableEq Tid] {M : Machine Tid} {s s' s₀ : Sys Tid M.img.Site}
  {h : List (Label Tid)} {l : Label Tid} {t : Tid} {d : ℕ} {c : Call} {site : M.img.Site}

/-- What a step of the machine did to a context that is in a word op after it. -/
inductive OpStep (M : Machine Tid) (t : Tid) (d : ℕ) (c : Call) (site : M.img.Site) (cs : Usize)
    (before : Option (Ctx M.img.Site)) : Label Tid → Ctx M.img.Site → Prop
  | call {x' : Ctx M.img.Site} : x'.ip = M.img.ip site 0 →
      OpStep M t d c site cs before (.act t d (.call c)) x'
  | exec {x x' : Ctx M.img.Site} {o : Obs} {i : ℕ} {v : Usize} {ins : Instr Reg} :
      before = some x → x.frame = .op c site → x.ip = M.img.ip site i →
      (M.img.block site).fetch i = some ins →
      x'.ip = M.img.ip site ((M.img.block site).next (M.img.desc site) (x.core i) v).pc →
      OpStep M t d c site cs before (.act t d (.exec o)) x'
  | keep {l : Label Tid} {x : Ctx M.img.Site} : before = some x → l.own t d = false →
      OpStep M t d c site cs before l x
  | event {l : Label Tid} {x : Ctx M.img.Site} : before = some x → l.own t d = false →
      l.event t d = true →
      OpStep M t d c site cs before l { x with ip := M.img.fixup cs x.ip }

theorem Machine.Move.op {m m' : Mem} {x y : Thr M.img.Site} {a : Act} {z : Ctx M.img.Site}
    (hm : M.Move t m x a m' y) (hz : ctxAt y.stack d = some z) (hf : z.frame = .op c site) :
    OpStep M t d c site x.area.rseqCs (ctxAt x.stack d) (.act t x.depth a) z := by
  -- a context below the running one is left alone
  have hbelow (hlt : d < x.below.length) (hb : ctxAt x.below d = some z) :
      OpStep M t d c site x.area.rseqCs (ctxAt x.stack d) (.act t x.depth a) z :=
    .keep ((ctxAt_cons_of_lt hlt).trans hb) (Label.own_of_ne (Or.inr hlt.ne'))
  cases hm with
  | @exec c' site' i o v area m' hr hfr hloc hans =>
    rcases ctxAt_cons hz with ⟨rfl, rfl⟩ | ⟨hlt, hb⟩
    · cases hf
      obtain ⟨q, hq, _⟩ := Option.bind_eq_some_iff.mp hans
      obtain ⟨ins, hins, _⟩ := Option.map_eq_some_iff.mp hq
      exact .exec ctxAt_cons_self hfr (M.img.ip_locate _ _ _ hloc).1 hins rfl
    · exact hbelow hlt hb
  | call site' g z' hr hfr hk hs =>
    rcases ctxAt_cons hz with ⟨rfl, rfl⟩ | ⟨hlt, hb⟩
    · cases hf
      exact .call rfl
    · exact hbelow hlt hb
  | preempt hr =>
    rcases ctxAt_cons hz with ⟨rfl, rfl⟩ | ⟨hlt, hb⟩
    · exact .keep ctxAt_cons_self (Label.own_of_kernel rfl)
    · exact hbelow hlt hb
  | resume cpu cid hr =>
    rcases ctxAt_cons hz with ⟨rfl, rfl⟩ | ⟨hlt, hb⟩
    · exact .event ctxAt_cons_self (Label.own_of_kernel rfl) (decide_eq_true ⟨rfl, rfl⟩)
    · exact hbelow hlt hb
  | signal b g z' hr _ ho =>
    rcases ctxAt_cons hz with ⟨_, rfl⟩ | ⟨_, hz⟩
    · cases hf
    · rcases ctxAt_cons hz with ⟨rfl, rfl⟩ | ⟨hlt, hb⟩
      · exact .event ctxAt_cons_self (Label.own_of_kernel rfl) (decide_eq_true ⟨rfl, rfl⟩)
      · exact hbelow hlt hb
  | sigreturn hr hfr hb' =>
    have hb : ctxAt x.below d = some z := hb' ▸ hz
    exact hbelow (ctxAt_lt hb) hb
  | unload hr hfr =>
    rcases ctxAt_cons hz with ⟨rfl, rfl⟩ | ⟨hlt, hb⟩
    · rw [hfr] at hf; cases hf
    · exact hbelow hlt hb
  | _ =>
    rcases ctxAt_cons hz with ⟨rfl, rfl⟩ | ⟨hlt, hb⟩
    · cases hf
    · exact hbelow hlt hb

theorem Machine.Step.op {z : Ctx M.img.Site} (hs : M.Step s l s')
    (hz : ctxAt (s'.thr t).stack d = some z) (hf : z.frame = .op c site) :
    OpStep M t d c site (s.thr t).area.rseqCs (ctxAt (s.thr t).stack d) l z := by
  cases hs with
  | @move u a m x hm hfree =>
    by_cases hu : t = u
    · subst hu
      have hx : (Function.update s.thr t x t).stack = x.stack := by rw [Function.update_self]
      exact hm.op (hx ▸ hz) hf
    · have hx : (Function.update s.thr u x t).stack = (s.thr t).stack := by
        rw [Function.update_of_ne hu]
      exact .keep (hx ▸ hz) (Label.own_of_ne (Or.inl (Ne.symm hu)))
  | @fenceRun u f pc pc' ev p hit hr hfr hrun =>
    by_cases hu : t = u
    · subst hu
      -- the caller's running context is in its fence
      have hstack : ∃ y, ((M.fenced s t f pc' p hit).thr t).stack = y :: (s.thr t).below ∧
          y.frame = .fence f pc' := by
        simp only [Machine.fenced, if_true]
        split <;> exact ⟨_, rfl, rfl⟩
      obtain ⟨y, hy, hyf⟩ := hstack
      rw [hy] at hz
      rcases ctxAt_cons hz with ⟨_, rfl⟩ | ⟨hlt, hb⟩
      · rw [hyf] at hf; cases hf
      · exact .keep ((ctxAt_cons_of_lt hlt).trans hb) (Label.own_fenceRun_of_ne (Or.inr hlt.ne'))
    · have hown : (Label.fenceRun u (s.thr u).depth ev hit).own t d = false :=
        Label.own_fenceRun_of_ne (Or.inl (Ne.symm hu))
      by_cases hh : hit t = true
      · have hstack : ((M.fenced s u f pc' p hit).thr t).stack =
            ((s.thr t).event M.img).top :: (s.thr t).below := by
          simp only [Machine.fenced, if_neg hu, if_pos hh]
          rfl
        rw [hstack] at hz
        rcases ctxAt_cons hz with ⟨rfl, rfl⟩ | ⟨hlt, hb⟩
        · exact .event ctxAt_cons_self hown hh
        · exact .keep ((ctxAt_cons_of_lt hlt).trans hb) hown
      · have hstack : ((M.fenced s u f pc' p hit).thr t).stack = (s.thr t).stack := by
          simp only [Machine.fenced, if_neg hu, if_neg hh]
        rw [hstack] at hz
        exact .keep hz hown
  | write a v => exact .keep hz rfl

/-- What is not the context's own step is no instruction of its call. -/
theorem instrCount_keep (hl : l.own t d = false) : instrCount t d (l :: h) = instrCount t d h := by
  rw [instrCount, sinceCall_cons_of_not_calls (Label.calls_of_not_own hl),
    Label.instr_of_not_own hl]
  exact Nat.zero_add _

theorem eventCount_cons (hl : l.calls t d = false) :
    eventCount t d (l :: h) = (if l.event t d then 1 else 0) + eventCount t d h :=
  sinceCall_cons_of_not_calls hl

omit [DecidableEq Tid] in
/-- The number of instructions of a block bounds the slot of a context in it. -/
theorem Sys.Rel.slot_le {a : Stage.Sys Tid} (hrel : s.Rel M a) {x : Ctx M.img.Site}
    (hx : ctxAt (s.thr t).stack d = some x) (hf : x.frame = .op c site) :
    M.img.block site = c.op.block M.img.arch ∧
      ∃ i, x.ip = M.img.ip site i ∧ i ≤ (M.img.block site).len := by
  obtain ⟨w, _, hxw⟩ := (hrel.thr t).ctx hx
  obtain ⟨st, log, i, _, hc⟩ := hxw.works hf
  exact ⟨hc.block_eq, i, hc.ip, hc.slot.1⟩

/-- **The bound**: since its last restart a call has made no more instructions
than the slots it has passed. -/
theorem instrCount_run (hi : M.Initial s₀) (hr : LTS.Run M.Step s₀ h s) :
    ∀ t d x c site i, ctxAt (s.thr t).stack d = some x → x.frame = .op c site →
      x.ip = M.img.ip site i → i ≤ (M.img.block site).len →
      instrCount t d h ≤ eventCount t d h * (M.img.block site).len + i := by
  -- induction on the run: the slot of the context says how far this pass has come
  induction hr with
  | nil =>
    intro t d x c site i _ _ _ _
    exact Nat.zero_le _
  | @cons h s s' l hr hs ih =>
    intro t d x' c site i' hx' hf hip' hle'
    obtain ⟨b, _, hrel⟩ := refine_run hi hr
    have hstep := hs.op hx' hf
    generalize hcs : (s.thr t).area.rseqCs = cs at hstep
    generalize hbef : ctxAt (s.thr t).stack d = before at hstep
    cases hstep with
    | call => rw [instrCount, sinceCall_call]; exact Nat.zero_le _
    | @exec x _ o i v ins hx hfx hip hins hip' =>
      subst hx
      -- the blocks only jump forward, so each instruction gains a slot
      have hb := (hrel.slot_le hbef hfx).1
      have hfwd : (M.img.block site).forward = true := hb ▸ c.op.block_forward M.img.arch
      have hlt := Block.lt_len_of_fetch hins
      obtain ⟨hnext, hnle⟩ := Block.next_pc_of_forward (c := x.core i) hfwd hins
        (M.img.desc site) v
      obtain rfl : _ = i' := Image.ip_inj hnle hle' (hip'.symm.trans ‹x'.ip = M.img.ip site i'›)
      have hold := ih t d x c site i hbef hfx hip hlt.le
      have hinstr : instrCount t d (.act t d (.exec o) :: h) = 1 + instrCount t d h := by
        rw [instrCount, sinceCall_cons_of_not_calls rfl]
        simp [Label.instr]
      have hevent : eventCount t d (.act t d (.exec o) :: h) = eventCount t d h :=
        (eventCount_cons rfl).trans (Nat.zero_add _)
      have hpc : (x.core i).pc = i := rfl
      rw [hinstr, hevent]
      omega
    | keep hx hown =>
      subst hx
      have hold := ih t d x' c site i' hbef hf hip' hle'
      rw [instrCount_keep hown, eventCount_cons (Label.calls_of_not_own hown), Nat.add_mul]
      omega
    | @event _ x hx hown hev =>
      -- a restart forfeits at most the instructions of one pass through the block
      subst hx
      obtain ⟨_, i, hip, hle⟩ := hrel.slot_le hbef hf
      have hold := ih t d x c site i hbef hf hip hle
      rw [instrCount_keep hown, eventCount_cons (Label.calls_of_not_own hown), hev, if_pos rfl,
        Nat.add_mul]
      omega

end Instructions

/-! ### The result -/

variable {Tid : Type} [DecidableEq Tid]

/-- What holds of the calls of a process in state `s` with the history `h`. -/
structure ExactlyOnce (M : Machine Tid) (h : List (Label Tid)) (s : Sys Tid M.img.Site) :
    Prop where
  /-- a call commits at most once -/
  once : ∀ t d, commitCount t d h ≤ 1
  /-- it returns `Ok` if and only if it committed -/
  ok_iff : ∀ t d c r s', M.Step s (.act t d (.ret c r)) s' →
    ((∃ v, r = .ok v) ↔ commitCount t d h = 1)
  /-- `Ok` carries the value its final attempt loaded and computed from -/
  value : ∀ t d c v s', M.Step s (.act t d (.ret c (.ok v))) s' →
    c.op.Committed v (attempt t d h)
  /-- with `k` kernel events it returns within `(k + 1) * L` instructions, `L` the
  number of instructions of its block; an `xadd` counts as two in both -/
  bound : ∀ t d x c site, ctxAt (s.thr t).stack d = some x → x.frame = .op c site →
    instrCount t d h ≤ (eventCount t d h + 1) * (c.op.block M.img.arch).len
  /-- and it is never stuck before the end of its block -/
  progress : ∀ t c site, (s.thr t).running = true → (s.thr t).top.frame = .op c site →
    (s.thr t).top.ip = M.img.ip site (M.img.block site).len ∨
      ∃ o s', M.Step s (.act t (s.thr t).depth (.exec o)) s'

/-- A constant number of instructions for each op, whatever its operands. -/
theorem Op.block_len_le {K : Index} (arch : Arch) (op : Op K) : (op.block arch).len ≤ 22 := by
  cases arch <;> cases op <;> simp only [Op.block, Op.section, Index.dispatch_eq] <;>
    exact Nat.le_of_ble_eq_true rfl

variable {M : Machine Tid} {s₀ s : Sys Tid M.img.Site} {h : List (Label Tid)}

/-- **Exactly once**, in every reachable state, with any writes from outside. -/
theorem exactly_once (hi : M.Initial s₀) (hr : LTS.Run M.Step s₀ h s) : ExactlyOnce M h s := by
  obtain ⟨b, hb, hrel⟩ := refine_run hi hr
  have hcom := Stage.committed_run s₀.initial_stages hb
  have hinv := Stage.inv_run s₀.initial_stages hb
  refine ⟨Stage.commitCount_le_one s₀.initial_stages hb, ?_, ?_, ?_, ?_⟩
  · -- the result is there since the commit, or without one since the failure
    intro t d c r s' hs
    obtain ⟨rfl, ⟨log, htop⟩ | ⟨htop, rfl⟩⟩ := hrel.ret hs
    · have hn := hcom t _ _ (htop ▸ b.ctx_depth t)
      cases r with
      | ok v => exact iff_of_true ⟨v, rfl⟩ hn
      | error e =>
        obtain hn : commitCount t _ h = 0 := hn
        exact iff_of_false nofun (by omega)
    · have hn := hcom t _ _ (htop ▸ b.ctx_depth t)
      obtain hn : commitCount t _ h = 0 := hn
      exact iff_of_false nofun (by omega)
  · intro t d c v s' hs
    obtain ⟨rfl, ⟨log, htop⟩ | ⟨_, he⟩⟩ := hrel.ret hs
    · have hok := hinv.top t
      rw [htop] at hok
      obtain ⟨rfl, _, hends⟩ := hok
      exact Op.committed_of_ends hends
    · cases he
  · intro t d x c site hx hf
    obtain ⟨hblock, i, hip, hle⟩ := hrel.slot_le hx hf
    have hn := instrCount_run hi hr t d x c site i hx hf hip hle
    rw [← hblock, Nat.add_mul]
    omega
  · intro t c site hrun hf
    obtain ⟨st, log, i, _, hc⟩ := (hrel.thr t).top.works hf
    -- the machine answers every request of a block
    refine (hc.progress (s.thr t).area s.mem).imp id fun ⟨hloc, hans⟩ => ?_
    obtain ⟨⟨o, v, area, m⟩, hans⟩ := Option.isSome_iff_exists.mp hans
    exact ⟨o, _, .move (.exec hrun hf hloc hans) nofun⟩

/-- A call of `compare_exchange` that has reached the end of its block. -/
def casDone : List (Label Unit) × Sys Unit casMachine.img.Site :=
  (casMachine.alone (fun _ => 0) () 0 0 casCall soleSite 12).get rfl

theorem casDone_run :
    LTS.Run casMachine.Step (casMachine.boot fun _ => 0)
      (casDone.1 ++ [.act () 0 (.call casCall), .act () 0 (.resume 0 0)]) casDone.2 :=
  casMachine.alone_run soleSite rfl rfl (Option.some_get _).symm

/-- It has committed once, and is about to return `Ok`. -/
theorem exactly_once_casDone :
    commitCount () 0 (casDone.1 ++ [.act () 0 (.call casCall), .act () 0 (.resume 0 0)]) = 1 ∧
      (∃ s', casMachine.Step casDone.2 (.act () 0 (.ret casCall (.ok 0))) s') ∧
      ExactlyOnce casMachine
        (casDone.1 ++ [.act () 0 (.call casCall), .act () 0 (.resume 0 0)]) casDone.2 :=
  ⟨by decide +kernel, casMachine.step_returned soleSite (by decide +kernel) rfl
    (by decide +kernel) casMachine_outside_zero (by decide +kernel),
    exactly_once (casMachine_initial _) casDone_run⟩

end RseqRs
