import RseqRs.Lib.Run
import RseqRs.Model.Membarrier

/-!
# Concurrent fences in a forked child

Any number of threads of one process call `fence` and `fence_all`, interleaved
at the steps of `Membarrier::run`. The permission to register again is one flag:
a thread that got `EPERM` before another thread registered, and swaps `USED`
after it, finds the flag taken and returns false. `Race.noneFails_iff` says which
schedules are free of this: those that put a `USED.store` between any two swaps.
`used_eq_false` reads the flag off the schedule, and `noneFails_step` says what
one step adds.
-/

namespace RseqRs

namespace Race

variable {Tid : Type} [DecidableEq Tid]

/-- A process whose threads call `fence` and `fence_all`. -/
structure State (Tid : Type) where
  flags : Flags
  /-- the call a thread is in, and where it stands -/
  call : Tid → Option (FenceCall × RunPc)

/-- What a thread does in one step. -/
inductive Act where
  | call (f : FenceCall)
  | run (ev : RunEv)
  | ret (f : FenceCall) (b : Bool)

/-- A step of thread `t`; the kernel accepts every register command and fails no
barrier but with `EPERM`. -/
inductive Step (cpus : U32) : State Tid → Tid × Act → State Tid → Prop
  | call {s : State Tid} (t : Tid) (f : FenceCall) : s.call t = none →
      Step cpus s (t, .call f)
        { flags := s.flags
          call := Function.update s.call t
            (some (f, if (f.barrier cpus).isSome then .ready else .ret false)) }
  | run {s : State Tid} {t : Tid} (f : FenceCall) (pc : RunPc) {pc' : RunPc} {ev : RunEv}
      {p : Flags} :
      s.call t = some (f, pc) → RunStep s.flags pc ev p pc' → ev.Accepting →
      Step cpus s (t, .run ev)
        { flags := p, call := Function.update s.call t (some (f, pc')) }
  | ret {s : State Tid} {t : Tid} {f : FenceCall} {b : Bool} : s.call t = some (f, .ret b) →
      Step cpus s (t, .ret f b) { s with call := Function.update s.call t none }

/-- A child forked from a process whose fence had succeeded directly. -/
def forked : State Tid := ⟨⟨some true, true, false⟩, fun _ => none⟩

/-- No counted call has returned false, or is about to. -/
def NoneFails (cpus : U32) (h : List (Tid × Act)) (s : State Tid) : Prop :=
  (∀ t f, (t, Act.ret f false) ∈ h → ¬ f.Counted cpus) ∧
    ∀ t f, s.call t = some (f, .ret false) → ¬ f.Counted cpus

/-- The step is `USED.swap`. -/
def Act.Swaps : Act → Prop
  | .run (.swap _) => True
  | _ => False

/-- A counted CPU that the step calls with is a `c_int`. -/
def Act.Fits (cpus : U32) : Act → Prop
  | .call f => f.Counted cpus → f.FitsCInt
  | _ => True

/-- Between any two swaps of `USED`, of whichever callers, stands a `USED.store`. -/
def Spaced (h : List (Tid × Act)) : Prop :=
  ∀ (newer between older : List (Tid × Act)) (l l' : Tid × Act),
    h = newer ++ l :: (between ++ l' :: older) → l.2.Swaps → l'.2.Swaps →
      ∃ t, (t, .run .store) ∈ between

/-- A swap of `USED` that no store has followed. -/
def Taken (h : List (Tid × Act)) : Prop :=
  ∃ (newer older : List (Tid × Act)) (l : Tid × Act), h = newer ++ l :: older ∧ l.2.Swaps ∧
    ∀ t, (t, .run .store) ∉ newer

/-- The step is not the one that makes a call fail: a swap of `USED` finds it true,
and a counted CPU that a call names is a `c_int`. -/
def Act.Granted (cpus : U32) : Act → Prop
  | .run (.swap old) => old = true
  | a => a.Fits cpus

theorem Act.granted_run {cpus : U32} {ev : RunEv} :
    Act.Granted cpus (.run ev) ↔ ev ≠ .swap false := by
  cases ev with
  | swap old => cases old <;> simp [Act.Granted]
  | _ => simp [Act.Granted, Act.Fits]

/-- What the steps keep: `READY` stays true, a call before its second barrier has
registered the `mm`, and a call is past its checks or about to fail them. -/
structure Inv (cpus : U32) (s : State Tid) : Prop where
  ready : s.flags.ready = some true
  retry : ∀ t f, s.call t = some (f, .retry) → s.flags.registered = true
  counted : ∀ t f pc, s.call t = some (f, pc) → pc ≠ .ret false →
    f.Counted cpus ∧ f.FitsCInt

variable {cpus : U32} {h : List (Tid × Act)} {s s' : State Tid}

/-- Another thread's call, or the updated one. -/
theorem call_update {c c' : Option (FenceCall × RunPc)} {t t' : Tid}
    (hc : Function.update s.call t c t' = c') :
    (t' = t ∧ c = c') ∨ (t' ≠ t ∧ s.call t' = c') := by
  by_cases ht : t' = t
  · subst ht
    rw [Function.update_self] at hc
    exact Or.inl ⟨rfl, hc⟩
  · rw [Function.update_of_ne ht] at hc
    exact Or.inr ⟨ht, hc⟩

/-- The `mm` stays registered. -/
theorem registered_mono {p p' : Flags} {pc pc' : RunPc} {ev : RunEv}
    (hs : RunStep p pc ev p' pc') (hp : p.registered = true) : p'.registered = true := by
  cases hs <;> simp [hp]

/-- With `READY` true a step of `run` leads to a false return only by the swap
that finds `USED` false. -/
theorem RunStep.ret_false {p p' : Flags} {pc pc' : RunPc} {ev : RunEv}
    (hs : RunStep p pc ev p' pc') (ha : ev.Accepting) (hp : p.ready = some true)
    (hr : pc = .retry → p.registered = true) :
    pc' = .ret false ↔ ev = .swap false := by
  cases hs with
  | ready e =>
    obtain rfl := Option.some_inj.mp (e.symm.trans hp)
    simp
  | init ok e => rw [hp] at e; cases e
  | @barrier rc e =>
    -- it goes on, unless the barrier fails with another error
    refine iff_of_false (fun hpc => ?_) nofun
    cases rc with
    | ok | eperm => cases hpc
    | err => exact ha rfl
  | store => simp
  | swap => cases p.used <;> simp
  | register ok => obtain rfl : ok = true := ha; simp
  | @retry rc e =>
    -- the `mm` is registered by now
    have hrc : rc = .ok := by
      rw [e.eq ha, hr rfl]
      rfl
    rw [hrc]
    exact iff_of_false (by simp) nofun

/-- A call of `run` that leaves for the second barrier has registered the `mm`. -/
theorem RunStep.retry_registered {p p' : Flags} {pc pc' : RunPc} {ev : RunEv}
    (hs : RunStep p pc ev p' pc') (ha : ev.Accepting) (hpc : pc' = .retry) :
    p'.registered = true := by
  cases hs with
  | @ready b e => cases b <;> cases hpc
  | init ok e => cases ok <;> cases hpc
  | @barrier rc e => cases rc <;> cases hpc
  | store => cases hpc
  | swap => revert hpc; cases p.used <;> simp
  | register ok => obtain rfl : ok = true := ha; simp
  | @retry rc e => cases hpc

theorem RunStep.ready_keep {p p' : Flags} {pc pc' : RunPc} {ev : RunEv}
    (hs : RunStep p pc ev p' pc') (hp : p.ready = some true) : p'.ready = some true := by
  cases hs with
  | init ok e =>
    rw [hp] at e
    cases e
  | _ => exact hp

omit [DecidableEq Tid] in
theorem Inv.init : Inv cpus (forked : State Tid) := ⟨rfl, nofun, nofun⟩

/-- What the step of one thread must keep. -/
theorem Inv.update {t : Tid} {p : Flags} {c : Option (FenceCall × RunPc)} (hi : Inv cpus s)
    (hready : p.ready = some true) (hmono : s.flags.registered = true → p.registered = true)
    (hretry : ∀ f, c = some (f, .retry) → p.registered = true)
    (hcounted : ∀ f pc, c = some (f, pc) → pc ≠ .ret false → f.Counted cpus ∧ f.FitsCInt) :
    Inv cpus { flags := p, call := Function.update s.call t c } where
  ready := hready
  retry t' f' hc' := by
    rcases call_update hc' with ⟨_, he⟩ | ⟨_, hc'⟩
    · exact hretry f' he
    · exact hmono (hi.retry t' f' hc')
  counted t' f' pc hc' hpc := by
    rcases call_update hc' with ⟨_, he⟩ | ⟨_, hc'⟩
    · exact hcounted f' pc he hpc
    · exact hi.counted t' f' pc hc' hpc

theorem Inv.step {l : Tid × Act} (hi : Inv cpus s) (hs : Step cpus s l s') : Inv cpus s' := by
  cases hs with
  | call t f hc =>
    refine hi.update hi.ready id (fun f' he => ?_) fun f' pc he hpc => ?_
    · split at he <;> cases he
    · split at he
      · next hb =>
        cases he
        exact FenceCall.barrier_isSome.mp hb
      · cases he
        exact absurd rfl hpc
  | @run t f pc pc' ev p hc hr ha =>
    refine hi.update (RunStep.ready_keep hr hi.ready) (registered_mono hr) (fun f' he => ?_)
      fun f' pc'' he _ => ?_
    · cases he
      exact RunStep.retry_registered hr ha rfl
    · cases he
      -- a call that takes a step has not returned
      exact hi.counted t f pc hc fun hpc' => by subst hpc'; cases hr
  | ret hc => exact hi.update hi.ready id nofun nofun

theorem inv_run (hr : LTS.Run (Step cpus) forked h s) : Inv cpus s :=
  hr.invariant (I := fun _ s => Inv cpus s) Inv.init fun _ _ _ _ _ hi hs => hi.step hs

/-- A thread that is not about to return false takes a step, and does not return false. -/
theorem noneFails_update {t : Tid} {a : Act} {p : Flags} {c : Option (FenceCall × RunPc)}
    (ha : ∀ f, a ≠ .ret f false) (hold : ∀ f, s.call t ≠ some (f, .ret false)) :
    NoneFails cpus ((t, a) :: h) { flags := p, call := Function.update s.call t c } ↔
      NoneFails cpus h s ∧ ∀ f, c = some (f, .ret false) → ¬ f.Counted cpus := by
  constructor
  · rintro ⟨hret, hpc⟩
    refine ⟨⟨fun t' f' hm => hret t' f' (List.mem_cons_of_mem _ hm), fun t' f' hc' => ?_⟩,
      fun f' he => hpc t f' ((Function.update_self ..).trans he)⟩
    have hne : t' ≠ t := by
      rintro rfl
      exact hold f' hc'
    exact hpc t' f' ((Function.update_of_ne hne _ _).trans hc')
  · rintro ⟨⟨hret, hpc⟩, hnew⟩
    refine ⟨fun t' f' hm => ?_, fun t' f' hc' => ?_⟩
    · rcases List.mem_cons.mp hm with he | hm
      · exact absurd (congrArg Prod.snd he).symm (ha f')
      · exact hret t' f' hm
    · rcases call_update hc' with ⟨_, he⟩ | ⟨_, hc'⟩
      · exact hnew f' he
      · exact hpc t' f' hc'

/-- **One step.** A step makes some counted call fail if and only if it is not
granted. -/
theorem noneFails_step {l : Tid × Act} (hi : Inv cpus s) (hs : Step cpus s l s') :
    NoneFails cpus (l :: h) s' ↔ NoneFails cpus h s ∧ l.2.Granted cpus := by
  cases hs with
  | call t f hc =>
    have hold : ∀ f', s.call t ≠ some (f', .ret false) := by
      rw [hc]
      nofun
    refine (noneFails_update (a := .call f) nofun hold).trans (and_congr_right fun _ => ?_)
    -- a counted call is about to fail just if its CPU is no `c_int`
    constructor
    · intro hnew hcount
      by_contra hfit
      refine hnew f ?_ hcount
      rw [if_neg fun hb => hfit (FenceCall.barrier_isSome.mp hb).2]
    · intro hg f' he
      split at he
      · cases he
      · next hb =>
        cases he
        exact fun hcount => hb (FenceCall.barrier_isSome.mpr ⟨hcount, hg hcount⟩)
  | @run t f pc pc' ev p hc hr ha =>
    have hfalse := RunStep.ret_false hr ha hi.ready fun e => hi.retry t f (by rw [hc, e])
    have hne : pc ≠ .ret false := by
      rintro rfl
      cases hr
    have hold : ∀ f', s.call t ≠ some (f', .ret false) := by
      intro f' he
      rw [hc] at he
      cases he
      exact hne rfl
    refine (noneFails_update (a := .run ev) nofun hold).trans (and_congr_right fun _ => ?_)
    rw [Act.granted_run]
    constructor
    · rintro hnew rfl
      exact hnew f (by rw [hfalse.mpr rfl]) (hi.counted t f pc hc hne).1
    · intro hev f' he
      cases he
      exact absurd (hfalse.mp rfl) hev
  | @ret t f b hc =>
    constructor
    · rintro ⟨hret, hpc⟩
      refine ⟨⟨fun t' f' hm => hret t' f' (List.mem_cons_of_mem _ hm), fun t' f' hc' => ?_⟩,
        trivial⟩
      by_cases ht : t' = t
      · subst ht
        rw [hc] at hc'
        cases hc'
        exact hret t' f (List.mem_cons_self ..)
      · exact hpc t' f' ((Function.update_of_ne ht _ _).trans hc')
    · rintro ⟨⟨hret, hpc⟩, _⟩
      refine ⟨fun t' f' hm => ?_, fun t' f' hc' => ?_⟩
      · rcases List.mem_cons.mp hm with he | hm
        · cases he
          exact hpc t f hc
        · exact hret t' f' hm
      · rcases call_update hc' with ⟨_, he⟩ | ⟨_, hc'⟩
        · cases he
        · exact hpc t' f' hc'

/-! ### The flag, read off the schedule -/

omit [DecidableEq Tid] in
theorem not_taken_nil : ¬ Taken ([] : List (Tid × Act)) := by
  rintro ⟨newer, older, l, he, _⟩
  simp at he

omit [DecidableEq Tid] in
/-- The newest step decides, if it swaps or stores. -/
theorem taken_cons {l : Tid × Act} :
    Taken (l :: h) ↔ l.2.Swaps ∨ (l.2 ≠ .run .store ∧ Taken h) := by
  constructor
  · rintro ⟨newer, older, l', he, hl', hst⟩
    cases newer with
    | nil =>
      obtain ⟨rfl, rfl⟩ := List.cons.inj he
      exact Or.inl hl'
    | cons m newer =>
      obtain ⟨rfl, rfl⟩ := List.cons.inj he
      refine Or.inr ⟨fun hm => hst l.1 ?_, newer, older, l', rfl, hl',
        fun t ht => hst t (List.mem_cons_of_mem _ ht)⟩
      rw [← hm]
      exact List.mem_cons_self ..
  · rintro (hl | ⟨hne, newer, older, l', rfl, hl', hst⟩)
    · exact ⟨[], h, l, rfl, hl, fun _ ht => absurd ht List.not_mem_nil⟩
    · refine ⟨l :: newer, older, l', rfl, hl', fun t ht => ?_⟩
      rcases List.mem_cons.mp ht with he | ht
      · exact hne (by rw [← he])
      · exact hst t ht

omit [DecidableEq Tid] in
theorem spaced_nil : Spaced ([] : List (Tid × Act)) := by
  intro newer between older l l' he
  simp at he

omit [DecidableEq Tid] in
/-- A new step leaves the schedule spaced unless it is a swap and the last swap is
still open. -/
theorem spaced_cons {l : Tid × Act} :
    Spaced (l :: h) ↔ Spaced h ∧ (l.2.Swaps → ¬ Taken h) := by
  constructor
  · intro hs
    refine ⟨fun newer between older l₁ l₂ he =>
      hs (l :: newer) between older l₁ l₂ (by rw [he]; rfl), ?_⟩
    rintro hl ⟨between, older, l', rfl, hl', hst⟩
    obtain ⟨t, ht⟩ := hs [] between older l l' rfl hl hl'
    exact hst t ht
  · rintro ⟨hs, hl⟩ newer between older l₁ l₂ he h₁ h₂
    cases newer with
    | nil =>
      -- the newer of the two swaps is the new step
      obtain ⟨rfl, rfl⟩ := List.cons.inj he
      by_contra hno
      exact hl h₁ ⟨between, older, l₂, rfl, h₂, fun t ht => hno ⟨t, ht⟩⟩
    | cons m newer =>
      obtain ⟨rfl, rfl⟩ := List.cons.inj he
      exact hs newer between older l₁ l₂ rfl h₁ h₂

/-- `USED` after one step of `run`. -/
theorem RunStep.used {p p' : Flags} {pc pc' : RunPc} {ev : RunEv}
    (hs : RunStep p pc ev p' pc') :
    p'.used = false ↔ (Act.run ev).Swaps ∨ (Act.run ev ≠ .run .store ∧ p.used = false) := by
  cases hs <;> simp [Act.Swaps]

/-- **The flag.** `USED` is false just if a swap is open. -/
theorem used_eq_false (hr : LTS.Run (Step cpus) forked h s) :
    s.flags.used = false ↔ Taken h := by
  induction hr with
  | nil => exact iff_of_false (by simp [forked]) not_taken_nil
  | cons hr hs ih =>
    rw [taken_cons, ← ih]
    cases hs with
    | call t f hc => simp [Act.Swaps]
    | run f pc hc hrun ha => exact RunStep.used hrun
    | ret hc => simp [Act.Swaps]

/-- What a step needs, in terms of the schedule before it. -/
theorem granted_iff {l : Tid × Act} (hr : LTS.Run (Step cpus) forked h s)
    (hs : Step cpus s l s') :
    l.2.Granted cpus ↔ (l.2.Swaps → ¬ Taken h) ∧ l.2.Fits cpus := by
  rw [← used_eq_false hr]
  cases hs with
  | run f pc hc hrun ha =>
    cases hrun <;> simp [Act.Granted, Act.Swaps, Act.Fits]
  | _ => simp [Act.Granted, Act.Swaps]

/-- **The exact condition.** In a forked child, no counted call fails in a run if
and only if a `USED.store` stands between any two swaps of `USED` and every counted
CPU is a `c_int`. -/
theorem noneFails_iff (hr : LTS.Run (Step cpus) forked h s) :
    NoneFails cpus h s ↔ Spaced h ∧ ∀ l ∈ h, l.2.Fits cpus := by
  induction hr with
  | nil =>
    exact iff_of_true ⟨fun _ _ hm => absurd hm List.not_mem_nil, nofun⟩ ⟨spaced_nil, by simp⟩
  -- each step adds its own condition
  | cons hr hs ih =>
    rw [noneFails_step (inv_run hr) hs, ih, granted_iff hr hs, spaced_cons, List.forall_mem_cons]
    tauto

/-- Two threads of the child both get `EPERM`; the second swaps `USED` after the
first. -/
def lateSwap : List (Bool × Act) :=
  [(false, .run (.swap false)), (true, .run (.swap true)),
    (false, .run (.barrier .eperm)), (true, .run (.barrier .eperm)),
    (false, .run .ready), (true, .run .ready),
    (false, .call .fenceAll), (true, .call .fenceAll)]

theorem lateSwap_run :
    ∃ s, LTS.Run (Step 1) (forked : State Bool) lateSwap s ∧
      s.call false = some (.fenceAll, .ret false) := by
  refine ⟨_, .cons (.cons (.cons (.cons (.cons (.cons (.cons (.cons .nil
    (.call true .fenceAll rfl)) (.call false .fenceAll rfl))
    (.run .fenceAll .ready rfl (.ready rfl) trivial))
    (.run .fenceAll .ready rfl (.ready rfl) trivial))
    (.run .fenceAll .barrier rfl (.barrier (Flags.answers_eperm rfl)) nofun))
    (.run .fenceAll .barrier rfl (.barrier (Flags.answers_eperm rfl)) nofun))
    (.run .fenceAll .swap rfl .swap trivial))
    (.run .fenceAll .swap rfl .swap trivial), rfl⟩

/-- The second thread's fence fails. -/
theorem not_noneFails :
    ¬ ∀ (h : List (Bool × Act)) (s : State Bool), LTS.Run (Step 1) forked h s →
      NoneFails 1 h s := by
  intro hall
  obtain ⟨s, hr, hc⟩ := lateSwap_run
  exact (hall _ s hr).2 false .fenceAll hc trivial

/-- The first thread fences once more before the second one swaps: its store gives
the permission back. -/
def spacedSwap : List (Bool × Act) :=
  [(false, .run (.retry .ok)), (false, .run (.register true)), (false, .run (.swap true)),
    (true, .run .store), (true, .run (.barrier .ok)), (true, .run .ready), (true, .call .fenceAll),
    (true, .ret .fenceAll true), (true, .run (.retry .ok)), (true, .run (.register true)),
    (true, .run (.swap true)),
    (false, .run (.barrier .eperm)), (true, .run (.barrier .eperm)),
    (false, .run .ready), (true, .run .ready),
    (false, .call .fenceAll), (true, .call .fenceAll)]

theorem spacedSwap_run : ∃ s, LTS.Run (Step 1) (forked : State Bool) spacedSwap s := by
  refine ⟨_, .cons (.cons (.cons (.cons (.cons (.cons (.cons (.cons (.cons (.cons (.cons
    (.cons (.cons (.cons (.cons (.cons (.cons .nil
    (.call true .fenceAll rfl)) (.call false .fenceAll rfl))
    (.run .fenceAll .ready rfl (.ready rfl) trivial))
    (.run .fenceAll .ready rfl (.ready rfl) trivial))
    (.run .fenceAll .barrier rfl (.barrier (Flags.answers_eperm rfl)) nofun))
    (.run .fenceAll .barrier rfl (.barrier (Flags.answers_eperm rfl)) nofun))
    -- the first thread registers, and fences again
    (.run .fenceAll .swap rfl .swap trivial))
    (.run .fenceAll .register rfl (.register true) rfl))
    (.run .fenceAll .retry rfl (.retry (Flags.answers_ok rfl)) nofun))
    (.ret rfl)) (.call true .fenceAll rfl))
    (.run .fenceAll .ready rfl (.ready rfl) trivial))
    (.run .fenceAll .barrier rfl (.barrier (Flags.answers_ok rfl)) nofun))
    (.run .fenceAll .store rfl .store trivial))
    -- the second thread finds `USED` true
    (.run .fenceAll .swap rfl .swap trivial))
    (.run .fenceAll .register rfl (.register true) rfl))
    (.run .fenceAll .retry rfl (.retry (Flags.answers_ok rfl)) nofun)⟩

/-- On one run the condition holds, and no call fails; on the other two swaps have
no store between them, and a call fails. -/
theorem noneFails_iff_swaps :
    (∃ s, LTS.Run (Step 1) (forked : State Bool) spacedSwap s ∧ NoneFails 1 spacedSwap s) ∧
      ∃ s, LTS.Run (Step 1) (forked : State Bool) lateSwap s ∧ ¬ NoneFails 1 lateSwap s := by
  constructor
  · obtain ⟨s, hr⟩ := spacedSwap_run
    refine ⟨s, hr, (noneFails_iff hr).mpr ⟨?_, ?_⟩⟩
    · simp [spacedSwap, spaced_cons, taken_cons, Act.Swaps, spaced_nil, not_taken_nil]
    · simp [spacedSwap, Act.Fits, FenceCall.FitsCInt]
  · obtain ⟨s, hr, _⟩ := lateSwap_run
    refine ⟨s, hr, fun hn => ?_⟩
    obtain ⟨t, ht⟩ := ((noneFails_iff hr).mp hn).1 [] [] _ (false, .run (.swap false))
      (true, .run (.swap true)) rfl trivial trivial
    exact List.not_mem_nil ht

end Race

end RseqRs
