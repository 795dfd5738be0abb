import RseqRs.Model.Registration
import RseqRs.Proof.Confirmed

/-!
# After the registration is dropped

Once the destructor of `SLOT` has unregistered the area, `cpu_id` is the
sentinel, which no `CpuId` can hold: a word op keyed by a `CpuId` aborts. But
`mm_cid` is `0`, and `Cid` admits `0`. `unregisteredSafe_iff` is the exact
condition under which a call is refused, and the accessors return `None`.

A `Thread` exists only once `bind` has succeeded, so an area that is unregistered
while a `Thread` is about is one whose slot is destroyed: it stays as it is, and
no call straddles the drop.
-/

namespace RseqRs

/-- A step that does not end the call `c` in the context at depth `d`. -/
def Machine.LifeWithin (M : Machine Unit) (cid : Bool) (d : ℕ) (c : Call)
    (s : Life M.img.Site) (l : Life.Label) (s' : Life M.img.Site) : Prop :=
  M.LifeStep cid s l s' ∧ ∀ r, l ≠ .act d (.ret c r)

/-- The instructions of word ops that a history has in the context at depth `d`. -/
def Life.execs (d : ℕ) : List Life.Label → ℕ
  | [] => 0
  | .act e (.exec _) :: g => (if e = d then 1 else 0) + execs d g
  | _ :: g => execs d g

/-- In the state `s`, in which the context at depth `d` is in the call `c`, that
call changes no memory and returns `Abort`, whatever else happens. -/
structure CallAborts (M : Machine Unit) (cid : Bool) (d : ℕ) (c : Call)
    (s : Life M.img.Site) : Prop where
  /-- it stores nothing -/
  stores : ∀ g s', LTS.Run (M.LifeWithin cid d c) s g s' →
    ∀ a last, Life.Label.act d (.exec (.acc a last)) ∈ g → a.written = none
  /-- it returns nothing but `Abort` -/
  result : ∀ g s', LTS.Run (M.LifeWithin cid d c) s g s' →
    ∀ r s'', M.LifeStep cid s' (.act d (.ret c r)) s'' → r = .error .abort
  /-- it returns within the instructions of its block, and is never stuck -/
  returns : ∀ g s', LTS.Run (M.LifeWithin cid d c) s g s' →
    Life.execs d g ≤ (c.op.block M.img.arch).len ∧
      (s'.thr.running = true → s'.thr.depth = d →
        (∃ o s'', M.LifeStep cid s' (.act d (.exec o)) s'') ∨
          ∃ r s'', M.LifeStep cid s' (.act d (.ret c r)) s'')

/-- The call `c` through `th` is refused in the state `s`, and the accessors of
`th` say that there is no index. -/
structure UnregisteredSafe (M : Machine Unit) (cid : Bool) (th : Thread) (c : Call)
    (s : Life M.img.Site) : Prop where
  aborts : ∀ d s₁, M.LifeStep cid s (.act d (.call c)) s₁ → CallAborts M cid d c s₁
  cpuId : th.cpuId s.thr.area = none
  cid : th.cidOf s.thr.area = none

/-! ### Bodies do not abort -/

section Bodies

/-- No attempt of `u` ends with `Abort`. -/
def NeverAborts (u : Sec) : Prop := ∀ log, ¬ u.Ends log (.error .abort)

theorem NeverAborts.next {u u' : Sec} {a : Acc} (h : NeverAborts u)
    (hn : CritSec.Next u a u') : NeverAborts u' := fun log he => h (a :: log) (.cons hn he)

/-- **Past the index, an op does not abort.** -/
theorem Op.body_neverAborts {K : Index} (op : Op K) :
    NeverAborts op.body := by
  have hcommit (a v r : Usize) : NeverAborts (.commit a v r) := fun _ h => by cases h.of_commit.2
  have hmiss (v : Usize) : NeverAborts (.fail (.miss v)) := fun _ h => by cases h.of_fail.2
  have hload {a : Usize} {k : Usize → Sec} (hk : ∀ v, NeverAborts (k v)) :
      NeverAborts (.load a k) := fun _ h => by
    obtain ⟨v, log, _, h'⟩ := h.of_load
    exact hk v log h'
  have hscratch {a v : Usize} {k : Sec} (hk : NeverAborts k) : NeverAborts (.scratch a v k) :=
    fun _ h => by
      obtain ⟨log, _, h'⟩ := h.of_scratch
      exact hk log h'
  cases op with
  | compareExchange w expect new =>
    refine hload fun v => ?_
    split
    · exact hcommit _ _ _
    · exact hmiss v
  | compareExchangeIf w expect new o otherExpect =>
    refine hload fun v => ?_
    split
    · refine hload fun v' => ?_
      split
      · exact hcommit _ _ _
      · exact hmiss v'
    · exact hmiss v
  | fetchAdd w count => exact hload fun v => hcommit _ _ _
  | loadIfNe w expectNot offset =>
    refine hload fun v => ?_
    split
    · exact hmiss v
    · exact hload fun v' => hcommit _ _ _
  | fetchAddAt p offset count =>
    exact hload fun b => hload fun slot => hload fun v => hcommit _ _ _
  | storeIf w expect new s sideNew =>
    refine hload fun v => ?_
    split
    · exact hscratch (hcommit _ _ _)
    · exact hmiss v

/-- A call that cannot abort any more, on its index. -/
def Stage.Sure (c : Call) : Stage → Prop
  | .entering => True
  | .inside u => u = Stage.tree c ∨ NeverAborts u
  | .finishing r => r ≠ .error .abort

/-- On its index, a sure call stays sure. -/
theorem Stage.Sure.exec {c : Call} {st st' : Stage} {idx : U32} {m m' : Mem}
    {o : Obs} (h : Stage.Sure c st) (hs : Stage.Step (Stage.tree c) idx m st o st' m')
    (hidx : idx = c.key) : Stage.Sure c st' := by
  cases hs with
  | enter => trivial
  | arm => exact Or.inl rfl
  | tau => exact h
  | exit =>
    rcases h with h | h
    · cases h
    · rintro ⟨⟩
      exact h [] (.fail .nil)
  | access hn hr =>
    rcases h with rfl | h
    · -- the index read finds the key
      cases hn with
      | index k j =>
        obtain rfl : j = idx := hr
        refine Or.inr ?_
        show NeverAborts (if j = c.key then _ else _)
        rw [if_pos hidx]
        exact c.op.body_neverAborts
    · exact Or.inr (h.next hn)
  | commit hc => exact nofun
  | leave => exact h

end Bodies

/-! ### The area of a thread -/

/-- No instruction writes an index field. -/
theorem Req.answer_area {ptr v : Usize} {x x' : Area} {m m' : Mem} {last : Bool} {q : Req}
    {o : Obs} (h : q.answer ptr x m last = some (o, v, x', m')) :
    x'.cpuId = x.cpuId ∧ x'.mmCid = x.mmCid := by
  cases q with
  | storeCs base off w =>
    rw [Req.answer] at h
    split at h
    · cases h; exact ⟨rfl, rfl⟩
    · cases h
  | loadId base off =>
    rw [Req.answer] at h
    split at h
    · cases h; exact ⟨rfl, rfl⟩
    · cases h
  | _ => cases h; exact ⟨rfl, rfl⟩

namespace Machine

variable {M : Machine Unit} {cid : Bool} {s s' s₀ : Life M.img.Site} {l : Life.Label}

/-- What the life of a thread keeps: an area that is not registered is as `new` or
a drop left it, and a `Thread` exists only if it is registered or dropped. -/
structure LifeInv (M : Machine Unit) (s : Life M.img.Site) : Prop where
  dead : s.registered = false → s.thr.area.cpuId = cpuUninit ∧ s.thr.area.mmCid = 0
  thread : s.thread.isSome = true → s.registered = true ∨ s.slot = .destroyed

/-- Nor does anything else that the thread does itself. -/
theorem Move.user_area {m m' : Mem} {x x' : Thr M.img.Site} {a : Act} (hm : M.Move () m x a m' x')
    (ha : a.user = true) : x'.area.cpuId = x.area.cpuId ∧ x'.area.mmCid = x.area.mmCid := by
  cases hm with
  | exec hr hf hloc hans =>
    obtain ⟨q, _, hq⟩ := Option.bind_eq_some_iff.mp hans
    exact Req.answer_area hq
  | resume cpu c hr => cases ha
  | signal b g z hr _ ho => cases ha
  | fenceCall f hr hf => cases ha
  | fenceRet hr hf => cases ha
  | _ => exact ⟨rfl, rfl⟩

theorem LifeInitial.inv (h : M.LifeInitial s) : LifeInv M s where
  dead _ := by rw [h.area]; exact ⟨rfl, rfl⟩
  thread ht := by rw [h.thread] at ht; cases ht

/-- A bind that finds the slot destroyed gives no `Thread`, and nothing happens. -/
theorem bound_of_destroyed (h : s.slot = .destroyed) (rc : Option (U32 × U32)) :
    s.bound cid rc = { s with thread := none <|> s.thread } := by
  simp [Life.bound, Life.bind, Life.bindSlot, h]

theorem LifeInv.bound (hi : LifeInv M s) (rc : Option (U32 × U32)) :
    LifeInv M (s.bound cid rc) := by
  by_cases hslot : s.slot = .destroyed
  · rw [bound_of_destroyed hslot]
    exact ⟨hi.dead, hi.thread⟩
  · have hlive : s.thread.isSome = true → s.registered = true := fun ht =>
      (hi.thread ht).resolve_right hslot
    -- the slot is there, and `register` decides
    have hb : s.bindSlot rc = Life.register rc { s with slot := .alive } := by
      unfold Life.bindSlot
      split
      · next h => exact absurd h hslot
      · rfl
      · rfl
    by_cases hcpu : s.thr.area.cpuId ≠ cpuUninit ∧ s.thr.area.cpuId ≠ cpuRegFailed
    · -- registered already
      have hreg : s.registered = true := by
        by_contra hn
        exact hcpu.1 (hi.dead (Bool.not_eq_true _ ▸ hn)).1
      have he : s.bound cid rc = { s with slot := .alive, thread := some ⟨cid⟩ } := by
        simp [Life.bound, Life.bind, hb, Life.register, hcpu]
      rw [he]
      exact ⟨hi.dead, fun _ => Or.inl hreg⟩
    · cases rc with
      | none =>
        have he : s.bound cid none = { s with slot := .alive, thread := none <|> s.thread } := by
          simp [Life.bound, Life.bind, hb, Life.register, hcpu]
        rw [he]
        exact ⟨hi.dead, fun ht => Or.inl (hlive ht)⟩
      | some p =>
        have hreg : (s.bound cid (some p)).registered = true := by
          simp only [Life.bound, Life.bind, hb, Life.register, if_neg hcpu]
          split <;> rfl
        exact ⟨fun hn => absurd hreg (by rw [hn]; exact Bool.false_ne_true), fun _ => Or.inl hreg⟩

theorem LifeInv.step (hi : LifeInv M s) (hs : M.LifeStep cid s l s') : LifeInv M s' := by
  cases hs with
  | user hm ha _ =>
    obtain ⟨hcpu, hcid⟩ := hm.user_area ha
    exact ⟨fun hr => by rw [hcpu, hcid]; exact hi.dead hr, hi.thread⟩
  | event hr hm ha => exact ⟨fun hn => absurd (hr.symm.trans hn) nofun, fun _ => Or.inl hr⟩
  | bind rc hrest => exact hi.bound rc
  | drop ok hrest hb he hslot hreg =>
    cases ok with
    | true => exact ⟨fun _ => ⟨rfl, rfl⟩, fun _ => Or.inr rfl⟩
    | false => exact ⟨hi.dead, fun _ => Or.inr rfl⟩
  | _ => exact ⟨hi.dead, hi.thread⟩

theorem life_inv_run {h : List Life.Label} (hi : M.LifeInitial s₀)
    (hr : LTS.Run (M.LifeStep cid) s₀ h s) : LifeInv M s :=
  hr.invariant (I := fun _ s => LifeInv M s) hi.inv fun _ _ _ _ _ hinv hs => hinv.step hs

/-! ### After the drop -/

/-- The kernel has let go of the area, and will not get it back. -/
structure Gone (s : Life M.img.Site) : Prop where
  registered : s.registered = false
  slot : s.slot = .destroyed

/-- After the drop nothing writes an index field. -/
theorem Gone.step (hg : M.Gone s) (hs : M.LifeStep cid s l s') :
    M.Gone s' ∧ s'.thr.area.cpuId = s.thr.area.cpuId ∧ s'.thr.area.mmCid = s.thr.area.mmCid := by
  cases hs with
  | user hm ha _ => exact ⟨⟨hg.registered, hg.slot⟩, hm.user_area ha⟩
  | event hr hm ha => rw [hg.registered] at hr; cases hr
  | bind rc hrest =>
    rw [bound_of_destroyed hg.slot]
    exact ⟨⟨hg.registered, hg.slot⟩, rfl, rfl⟩
  | drop ok hrest hb he hslot hreg => rw [hg.slot] at hslot; cases hslot
  | _ => exact ⟨⟨hg.registered, hg.slot⟩, rfl, rfl⟩

/-- A context in the call `c` that can only abort: it is refused before its block,
or it is lost, after at most as many instructions as its slot says. -/
def Doomed (M : Machine Unit) (c : Call) (n : ℕ) (x : Ctx M.img.Site) : Prop :=
  (c.op.keysAgree = false ∧ x.frame = .refused c ∧ n = 0) ∨
    (c.op.keysAgree = true ∧ ∃ st log site i,
      x.InCall M.img (M.areaPtr ()) (fun _ => True) c st log site i ∧
      Stage.Lost c .abort (.op c st log) ∧ n ≤ i)

theorem Doomed.frame {c : Call} {n : ℕ} {x : Ctx M.img.Site} (h : M.Doomed c n x) :
    x.frame = .refused c ∨ ∃ site, x.frame = .op c site := by
  rcases h with ⟨_, hf, _⟩ | ⟨_, _, _, site, _, hc, _⟩
  · exact Or.inl hf
  · exact Or.inr ⟨site, hc.frame⟩

/-- **A doomed call stays doomed**, and stores nothing. -/
theorem Doomed.step {d n : ℕ} {c : Call} {x : Ctx M.img.Site} (hg : M.Gone s)
    (hx : ctxAt s.thr.stack d = some x) (hin : M.Doomed c n x)
    (hidx : c.op.keysAgree = true → s.thr.area.index c.K ≠ c.key)
    (hs : M.LifeWithin cid d c s l s') :
    (∃ x', ctxAt s'.thr.stack d = some x' ∧ M.Doomed c (Life.execs d [l] + n) x') ∧
      ∀ a last, l = .act d (.exec (.acc a last)) → a.written = none := by
  obtain ⟨hs, hret⟩ := hs
  have hnot_idle : x.frame ≠ .idle := fun hf => by
    rcases hin.frame with h | ⟨_, h⟩ <;> rw [hf] at h <;> cases h
  -- a step that leaves the context where it is
  have hkeep (hx' : ctxAt s'.thr.stack d = some x) (hl : ∀ o, l ≠ .act d (.exec o)) :
      (∃ x', ctxAt s'.thr.stack d = some x' ∧ M.Doomed c (Life.execs d [l] + n) x') ∧
        ∀ a last, l = .act d (.exec (.acc a last)) → a.written = none := by
    have hzero : Life.execs d [l] = 0 := by
      cases l with
      | act e a =>
        cases a with
        | exec o =>
          have hne : e ≠ d := fun he => hl o (he ▸ rfl)
          simp [Life.execs, hne]
        | _ => rfl
      | _ => rfl
    rw [hzero, Nat.zero_add]
    exact ⟨⟨x, hx', hin⟩, fun a last he => absurd he (hl _)⟩
  cases hs with
  | @user a m y hm ha _ =>
    rcases ctxAt_cons hx with ⟨rfl, rfl⟩ | ⟨hlt, hb⟩
    · -- the running context
      cases hm with
      | @exec c' site i o v area m' hr hf hloc hans =>
        rcases hin with ⟨_, hf', _⟩ | ⟨hk, st, log, site', j, hc, hlost, hn⟩
        · rw [hf] at hf'; cases hf'
        · obtain ⟨rfl, rfl⟩ := Frame.op.inj (hf.symm.trans hc.frame)
          -- the instruction is that of the slot the call is in
          obtain rfl : j = i := Image.ip_inj hc.slot.1 (M.img.ip_locate _ _ _ hloc).2.le
            (hc.ip.symm.trans (M.img.ip_locate _ _ _ hloc).1)
          obtain ⟨st', hstep, hc', _⟩ := hc.exec_any hans
          obtain ⟨hlost', hstore⟩ := hlost.exec (o.extend log) hstep (hidx hk)
          obtain ⟨q, hq, _⟩ := Option.bind_eq_some_iff.mp hans
          obtain ⟨ins, hins, _⟩ := Option.map_eq_some_iff.mp hq
          have hpc := (Block.next_pc_of_forward (c := s.thr.top.core j) hc.forward hins
            (M.img.desc site) v).1
          refine ⟨⟨_, ctxAt_cons_self, Or.inr ⟨hk, st', _, site, _, hc', hlost', ?_⟩⟩,
            fun a last he => hstore a last (by cases he; rfl)⟩
          have hone : Life.execs s.thr.below.length [.act s.thr.depth (.exec o)] = 1 := by
            simp [Life.execs, Thr.depth]
          have hcore : (s.thr.top.core j).pc = j := rfl
          omega
      | ret site b hr hf hip ho =>
        rcases hin.frame with hf' | ⟨_, hf'⟩
        · rw [hf] at hf'; cases hf'
        · obtain ⟨rfl, _⟩ := Frame.op.inj (hf.symm.trans hf')
          exact absurd rfl (hret _)
      | retRefused hr hf =>
        rcases hin.frame with hf' | ⟨_, hf'⟩
        · obtain rfl := Frame.refused.inj (hf.symm.trans hf')
          exact absurd rfl (hret _)
        · rw [hf] at hf'; cases hf'
      | preempt hr => exact hkeep ctxAt_cons_self fun _ he => by cases he
      | call site g z hr hf => exact absurd hf hnot_idle
      | callRefused hr hf => exact absurd hf hnot_idle
      | goto b g z hr hf => exact absurd hf hnot_idle
      | unload hr hf => exact absurd hf hnot_idle
      | sigreturn hr hf => exact absurd hf hnot_idle
      | resume | signal | fenceCall | fenceRet => cases ha
    · -- a context that a signal interrupted
      have hne : s.thr.depth ≠ d := hlt.ne'
      refine hkeep ?_ fun o he => hne (by cases he; rfl)
      cases hm with
      | sigreturn hr hf hb' =>
        rw [hb'] at hb
        exact hb
      | resume | signal | fenceCall | fenceRet => cases ha
      | _ => exact (ctxAt_cons_of_lt hlt).trans hb
  | event hr hm ha => rw [hg.registered] at hr; cases hr
  | resume cpu c' hr hrun => exact hkeep hx fun _ he => by cases he
  | signal b g z hr hrun _ ho =>
    refine hkeep ?_ fun _ he => by cases he
    exact (ctxAt_cons_of_lt (ctxAt_lt hx)).trans hx
  | bind rc hrest => exact hkeep (by rw [bound_of_destroyed hg.slot]; exact hx) fun _ he => by cases he
  | exit hrest hb => exact hkeep hx fun _ he => by cases he
  | drop ok hrest hb he hslot hreg => rw [hg.slot] at hslot; cases hslot
  | write a v => exact hkeep hx fun _ he => by cases he

theorem execs_cons {d : ℕ} {g : List Life.Label} :
    Life.execs d (l :: g) = Life.execs d [l] + Life.execs d g := by
  cases l with
  | act e a => cases a <;> simp [Life.execs]
  | _ => simp [Life.execs]

/-- **Refused, from the call to the return.** -/
theorem callAborts_of_doomed {d : ℕ} {c : Call} {x : Ctx M.img.Site} (hg : M.Gone s)
    (hout : ∃ a, M.img.Outside a) (hx : ctxAt s.thr.stack d = some x) (hin : M.Doomed c 0 x)
    (hidx : c.op.keysAgree = true → s.thr.area.index c.K ≠ c.key) : CallAborts M cid d c s := by
  -- no index field changes any more
  have hindex {s' : Life M.img.Site} (h : s'.thr.area.cpuId = s.thr.area.cpuId ∧
      s'.thr.area.mmCid = s.thr.area.mmCid) : s'.thr.area.index c.K = s.thr.area.index c.K := by
    cases c.K with
    | cpuId => exact h.1
    | cid => exact h.2
  -- what a run from here keeps
  have hrun : ∀ g s', LTS.Run (M.LifeWithin cid d c) s g s' → M.Gone s' ∧
      (s'.thr.area.cpuId = s.thr.area.cpuId ∧ s'.thr.area.mmCid = s.thr.area.mmCid) ∧
      (∃ x', ctxAt s'.thr.stack d = some x' ∧ M.Doomed c (Life.execs d g) x') ∧
      ∀ a last, Life.Label.act d (.exec (.acc a last)) ∈ g → a.written = none := by
    intro g s' hr
    induction hr with
    | nil => exact ⟨hg, ⟨rfl, rfl⟩, ⟨x, hx, hin⟩, fun _ _ hm => absurd hm List.not_mem_nil⟩
    | @cons g s₁ s₂ l _ hs ih =>
      obtain ⟨hg₁, harea₁, ⟨x₁, hx₁, hin₁⟩, hst₁⟩ := ih
      obtain ⟨hg₂, hcpu, hcid⟩ := hg₁.step hs.1
      have hidx₁ : c.op.keysAgree = true → s₁.thr.area.index c.K ≠ c.key := fun hk => by
        rw [hindex harea₁]
        exact hidx hk
      obtain ⟨hx₂, hst₂⟩ := hin₁.step hg₁ hx₁ hidx₁ hs
      rw [execs_cons]
      refine ⟨hg₂, ⟨hcpu.trans harea₁.1, hcid.trans harea₁.2⟩, hx₂, fun a last hm => ?_⟩
      rcases List.mem_cons.mp hm with he | hm
      · exact hst₂ a last he.symm
      · exact hst₁ a last hm
  refine ⟨fun g s' hr => (hrun g s' hr).2.2.2, fun g s' hr r s'' hs => ?_, fun g s' hr => ?_⟩
  · -- what it returns
    obtain ⟨_, _, ⟨x', hx', hin'⟩, _⟩ := hrun g s' hr
    cases hs with
    | event _ _ ha => rcases ha with ⟨_, _, ha⟩ | ha <;> cases ha
    | user hm _ _ =>
      obtain rfl : s'.thr.top = x' := Option.some_inj.mp (ctxAt_cons_self.symm.trans hx')
      cases hm with
      | retRefused => rfl
      | ret site b _ hf hip _ =>
        rcases hin' with ⟨_, hf', _⟩ | ⟨_, st, log, site', i, hc, hlost, _⟩
        · rw [hf] at hf'; cases hf'
        · obtain ⟨-, rfl⟩ := Frame.op.inj (hf.symm.trans hc.frame)
          rw [hc.ret hip] at hlost
          exact hlost.2
  · -- that it returns
    obtain ⟨_, _, ⟨x', hx', hin'⟩, _⟩ := hrun g s' hr
    refine ⟨?_, fun hrun' hd => ?_⟩
    · rcases hin' with ⟨_, _, hn⟩ | ⟨_, st, log, site, i, hc, _, hn⟩
      · omega
      · rw [← hc.block_eq]
        exact hn.trans hc.slot.1
    · subst hd
      obtain rfl : s'.thr.top = x' := Option.some_inj.mp (ctxAt_cons_self.symm.trans hx')
      rcases hin' with ⟨_, hf, _⟩ | ⟨_, st, log, site, i, hc, _, _⟩
      · exact Or.inr ⟨_, _, .user (.retRefused hrun' hf) rfl nofun⟩
      · rcases hc.progress s'.thr.area s'.mem with hend | ⟨hloc, hans⟩
        · obtain ⟨b, hb⟩ := hout
          exact Or.inr ⟨_, _, .user (.ret site b hrun' hc.frame hend hb) rfl nofun⟩
        · obtain ⟨⟨o, v, area, m⟩, hans⟩ := Option.isSome_iff_exists.mp hans
          exact Or.inl ⟨o, _, .user (.exec hrun' hc.frame hloc hans) rfl nofun⟩

/-! ### On the index -/

/-- **A sure call comes back**, with something else than `Abort`, when nothing
comes between its instructions. -/
theorem reaches_return (cid : Bool) {c : Call} {site : M.img.Site} {st : Stage} {log : List Acc} {i : ℕ}
    (hrun : s.thr.running = true)
    (hc : s.thr.top.InCall M.img (M.areaPtr ()) (fun _ => True) c st log site i)
    (hsure : Stage.Sure c st) (hidx : s.thr.area.index c.K = c.key) :
    ∃ g s', LTS.Run (M.LifeWithin cid s.thr.depth c) s g s' ∧ s'.thr.depth = s.thr.depth ∧
      s'.thr.running = true ∧ s'.thr.top.frame = .op c site ∧
      s'.thr.top.ip = M.img.ip site (M.img.block site).len ∧
      c.op.finish (Attempt.fromStatus (s'.thr.top.regs (M.img.block site).status)
        (s'.thr.top.regs (M.img.block site).value)) ≠ .error .abort := by
  -- each instruction goes forward in the block
  induction hn : (M.img.block site).len - i using Nat.strong_induction_on generalizing s st log i with
  | _ n ih =>
    rcases hc.progress s.thr.area s.mem with hend | ⟨hloc, hans⟩
    · refine ⟨[], s, .nil, rfl, hrun, hc.frame, hend, ?_⟩
      rw [hc.ret hend] at hsure
      exact hsure
    · -- the next instruction, and the rest by induction
      obtain ⟨⟨o, v, area, m⟩, hans⟩ := Option.isSome_iff_exists.mp hans
      obtain ⟨st', hstep, hc', _⟩ := hc.exec_any hans
      have hmove := Move.exec (M := M) (t := ()) hrun hc.frame hloc hans
      have harea := hmove.user_area rfl
      obtain ⟨q, hq, _⟩ := Option.bind_eq_some_iff.mp hans
      obtain ⟨ins, hins, _⟩ := Option.map_eq_some_iff.mp hq
      obtain ⟨hpc, hle⟩ := Block.next_pc_of_forward (c := s.thr.top.core i) hc.forward hins
        (M.img.desc site) v
      have hcore : (s.thr.top.core i).pc = i := rfl
      have hidx' : area.index c.K = c.key := by
        rw [← hidx]
        cases c.K with
        | cpuId => exact harea.1
        | cid => exact harea.2
      obtain ⟨g, s', hr, hd, hrest⟩ := ih _ (by omega)
        (s := { s with
          mem := m
          thr := { s.thr with
            area := area
            top := .inOp M.img c site
              ((M.img.block site).next (M.img.desc site) (s.thr.top.core i) v) } })
        hrun hc' (hsure.exec hstep hidx) hidx' rfl
      have hfirst : LTS.Run (M.LifeWithin cid s.thr.depth c) s [.act s.thr.depth (.exec o)] _ :=
        .single ⟨.user hmove rfl nofun, nofun⟩
      exact ⟨_, s', hfirst.append hr, hd, hrest⟩

/-- The state just after a call. -/
theorem LifeStep.called {d : ℕ} {c : Call} (hs : M.LifeStep cid s (.act d (.call c)) s') :
    d = s'.thr.depth ∧ s'.thr.running = true ∧ s'.registered = s.registered ∧
      s'.slot = s.slot ∧ s'.thr.area = s.thr.area ∧ s.thread.isSome = true ∧
      ((c.op.keysAgree = false ∧ s'.thr.top.frame = .refused c) ∨
        (c.op.keysAgree = true ∧ ∃ site,
          s'.thr.top.InCall M.img (M.areaPtr ()) (fun _ => True) c .entering [] site 0)) := by
  cases hs with
  | event _ _ ha => rcases ha with ⟨_, _, ha⟩ | ha <;> cases ha
  | user hm _ hth =>
    cases hm with
    | call site g z hr hf hk hsec =>
      exact ⟨rfl, hr, rfl, rfl, rfl, hth rfl, Or.inr ⟨hk, site, .called hsec g z⟩⟩
    | callRefused hr hf hk => exact ⟨rfl, hr, rfl, rfl, rfl, hth rfl, Or.inl ⟨hk, rfl⟩⟩

/-- **After the drop a call off its index aborts.** -/
theorem Gone.callAborts {d : ℕ} {c : Call} (hg : M.Gone s) (hout : ∃ a, M.img.Outside a)
    (hs : M.LifeStep cid s (.act d (.call c)) s')
    (hidx : c.op.keysAgree = true → s.thr.area.index c.K ≠ c.key) : CallAborts M cid d c s' := by
  obtain ⟨rfl, _, hreg, hslot, harea, _, hin⟩ := hs.called
  have hgone : M.Gone s' := ⟨hreg.trans hg.registered, hslot.trans hg.slot⟩
  have hdoomed : M.Doomed c 0 s'.thr.top := by
    rcases hin with ⟨hk, hf⟩ | ⟨hk, site, hc⟩
    · exact Or.inl ⟨hk, hf, rfl⟩
    · exact Or.inr ⟨hk, _, _, site, 0, hc, ⟨rfl, rfl⟩, le_rfl⟩
  exact callAborts_of_doomed hgone hout ctxAt_cons_self hdoomed (by rwa [harea])

/-- **On its index a call comes back with a commit or a miss.** -/
theorem not_callAborts {d : ℕ} {c : Call} (hout : ∃ a, M.img.Outside a)
    (hs : M.LifeStep cid s (.act d (.call c)) s') (hk : c.op.keysAgree ≠ false)
    (hidx : s.thr.area.index c.K = c.key) : ¬ CallAborts M cid d c s' := by
  intro habort
  obtain ⟨rfl, hrun, _, _, harea, _, hin⟩ := hs.called
  rcases hin with ⟨hk', _⟩ | ⟨_, site, hc⟩
  · exact hk hk'
  · obtain ⟨g, s'', hg, hd, hrun', hf, hip, hne⟩ :=
      reaches_return cid hrun hc trivial (harea ▸ hidx)
    obtain ⟨b, hb⟩ := hout
    have hret : M.LifeStep cid s'' _ _ := .user (.ret site b hrun' hf hip hb) rfl nofun
    rw [hd] at hret
    exact hne (habort.result g s'' hg _ _ hret)

end Machine

/-! ### The result -/

variable {M : Machine Unit} {cid : Bool} {s₀ s : Life M.img.Site} {h : List Life.Label}
  {th : Thread} {c : Call}

/-- The key is not the one that an unregistered area confirms. -/
theorem dead_index_ne {area : Area} (hcpu : area.cpuId = cpuUninit) (hcid : area.mmCid = 0)
    (hc : c.tag ≠ (.cid, 0)) : area.index c.K ≠ c.key := by
  intro he
  obtain ⟨K, op⟩ := c
  cases K with
  | cpuId =>
    -- no `CpuId` holds the sentinel
    exact op.word.key.ne_uninit (he.symm.trans hcpu)
  | cid => exact hc (Prod.ext rfl (he.symm.trans hcid))

/-- **The exact condition.** A thread holds a `Thread` and the kernel does not
hold its area: a call through it, of any op that it can make, is refused and the
accessors return `None` if and only if the key is not `Cid` zero, or the keys of
the call differ, and `cid` reports nothing on this kernel. -/
theorem unregisteredSafe_iff (hi : M.LifeInitial s₀) (hr : LTS.Run (M.LifeStep cid) s₀ h s)
    (hu : s.registered = false) (hth : s.thread = some th)
    (hcall : ∃ d s₁, M.LifeStep cid s (.act d (.call c)) s₁) :
    UnregisteredSafe M cid th c s ↔
      (c.tag ≠ (.cid, 0) ∨ c.op.keysAgree = false) ∧ th.cid = false := by
  have hinv := Machine.life_inv_run hi hr
  obtain ⟨hcpu, hcid⟩ := hinv.dead hu
  have hgone : M.Gone s := by
    refine ⟨hu, (hinv.thread (hth ▸ rfl)).resolve_left ?_⟩
    rw [hu]
    exact Bool.false_ne_true
  constructor
  · intro hsafe
    constructor
    · -- otherwise the call is on its index, which is `0`, and comes back
      by_contra hbad
      obtain ⟨htag, hk⟩ := not_or.mp hbad
      have htag' : c.tag = (.cid, 0) := not_not.mp htag
      have hidx : s.thr.area.index c.K = c.key := by
        rw [show c.key = 0 from congrArg Prod.snd htag',
          show c.K = .cid from congrArg Prod.fst htag']
        exact hcid
      obtain ⟨d, s₁, hs⟩ := hcall
      exact Machine.not_callAborts ⟨_, hi.outside⟩ hs hk hidx (hsafe.aborts d s₁ hs)
    · have hnone := hsafe.cid
      unfold Thread.cidOf at hnone
      split at hnone
      · next hb => simpa using hb
      · cases hnone
  · rintro ⟨hcond, hflag⟩
    refine ⟨fun d s₁ hs => hgone.callAborts ⟨_, hi.outside⟩ hs fun hk => ?_, ?_, ?_⟩
    · -- the keys of the call agree, so its tag is not `Cid` zero
      exact dead_index_ne hcpu hcid (hcond.resolve_right fun hk' => nomatch hk.symm.trans hk')
    · unfold Thread.cpuId CpuId.new
      rw [dif_pos (Or.inl hcpu)]
    · unfold Thread.cidOf
      rw [hflag]
      rfl

section Witness

/-- One thread, and one call site of `fetch_add` with a concurrency-id key. -/
def cidMachine : Machine Unit :=
  .ofSites .x86 (fun _ : Fin 1 => .fetchAdd mmCidOff) Unit one_site

/-- `fetch_add(word, 1)`, the word keyed by `Cid` zero. -/
def cidCall : Call := ⟨.cid, .fetchAdd ⟨0x8000, ⟨0⟩⟩ 1⟩

/-- A thread that has just started. -/
def lifeStart : Life cidMachine.img.Site :=
  ⟨fun _ => 0, ⟨Life.newArea, true, ⟨0, fun _ => 0, false, none, .idle⟩, []⟩, false, .unused, none,
    false⟩

/-- It has bound its area on CPU 1, as the first of the process to run there. -/
def lifeBound : Life cidMachine.img.Site := lifeStart.bound false (some (1, 0))

/-- It exits, and the destructor of `SLOT` has run. -/
def lifeGone : Life cidMachine.img.Site := { lifeBound with exiting := true }.drop true

theorem lifeStart_initial : cidMachine.LifeInitial lifeStart :=
  ⟨rfl, rfl, rfl, rfl, rfl, Image.ofSites_outside_zero .x86 _ one_site, rfl⟩

theorem lifeGone_run :
    LTS.Run (cidMachine.LifeStep false) lifeStart [.drop true, .exit, .bind (some (1, 0))]
      lifeGone :=
  .cons (.cons (.cons .nil (.bind _ ⟨rfl, rfl⟩)) (.exit ⟨by decide, rfl⟩ rfl))
    (.drop true ⟨by decide, rfl⟩ rfl rfl (by decide) (by decide))

theorem lifeGone_call :
    ∃ d s₁, cidMachine.LifeStep false lifeGone (.act d (.call cidCall)) s₁ :=
  ⟨_, _, .user (.call soleSite (fun _ => 0) false (by decide) rfl rfl rfl) rfl
    (by decide)⟩

/-- **A word of `Cid` zero is written through an unregistered area.** -/
theorem not_unregisteredSafe :
    ¬ ∀ (s₀ s : Life cidMachine.img.Site) (h : List Life.Label) (th : Thread) (c : Call),
      cidMachine.LifeInitial s₀ → LTS.Run (cidMachine.LifeStep false) s₀ h s →
      s.registered = false → s.thread = some th →
      (∃ d s₁, cidMachine.LifeStep false s (.act d (.call c)) s₁) →
      UnregisteredSafe cidMachine false th c s := by
  intro hall
  have hsafe := hall _ _ _ ⟨false⟩ cidCall lifeStart_initial lifeGone_run rfl (by decide)
    lifeGone_call
  obtain ⟨d, s₁, hs⟩ := lifeGone_call
  exact Machine.not_callAborts ⟨_, lifeStart_initial.outside⟩ hs (by decide) (by decide)
    (hsafe.aborts d s₁ hs)

/-- The condition fails there, and so does the call. -/
theorem unregisteredSafe_iff_lifeGone :
    lifeGone.registered = false ∧ ¬ UnregisteredSafe cidMachine false ⟨false⟩ cidCall lifeGone := by
  refine ⟨rfl, fun hsafe => ?_⟩
  have hcond := (unregisteredSafe_iff lifeStart_initial lifeGone_run rfl (by decide)
    lifeGone_call).mp hsafe
  exact absurd hcond.1 (by decide)

end Witness

end RseqRs
