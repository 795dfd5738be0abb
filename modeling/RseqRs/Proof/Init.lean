import RseqRs.Model.Init
import RseqRs.Proof.Cpus
import RseqRs.Proof.Tasks

/-!
# A failed `Rseq::new`

`init` registers the thread before it reads the count of CPUs, and what it has registered stays
when there is no count. `failedKeeps_iff` says that this is the only way a call that returns
`None` changes what the kernel holds for its thread: the other failing paths come before the
register command, or it is refused, and a call that finds `STATE` touches nothing.
-/

namespace RseqRs

namespace Tasks

variable {Pid Tid : Type} {sig : U32}

/-! ### `Registration::bind` in one piece -/

namespace Task

variable {T : Task Pid} {id : U32} {rc : Option U32}

theorem bind_of_destroyed (h : T.slot = .destroyed) :
    T.bind sig rc id = (none, { T with pc := .caller }, id) := by
  rw [bind, access_of_destroyed h]
  exact if_neg nofun

theorem bind_of_isCpu (h : T.slot ≠ .destroyed) (hid : IsCpu id) :
    T.bind sig rc id = (some T.area, { T with slot := .alive, pc := .caller }, id) := by
  rw [bind, access_of_ne h, if_pos hid]
  exact if_neg nofun

/-- The register command is made, and refused. -/
theorem bind_refused (h : T.slot ≠ .destroyed) (hid : ¬IsCpu id) :
    T.bind sig none id = (none, { T with slot := .alive, pc := .caller }, id) := by
  rw [bind, access_of_ne h, if_neg hid]
  exact if_pos rfl

/-- The register command is made, and accepted. -/
theorem bind_accepted (h : T.slot ≠ .destroyed) (hid : ¬IsCpu id) (cpu : U32) :
    T.bind sig (some cpu) id = (some T.area,
      { T with slot := .alive, reg := some (T.own sig), pc := .caller }, cpu) := by
  rw [bind, access_of_ne h, if_neg hid]
  exact if_pos rfl

end Task

/-! ### It is a run of the thread -/

section Run

variable [DecidableEq Pid] [DecidableEq Tid] {w : World Pid Tid} {t : Tid} {T A : Task Pid}
  {rc : Option U32}

omit [DecidableEq Pid] in
theorem set_set : (w.set t A).set t T = w.set t T := by
  simp only [World.set, Function.update_idem]

theorem set_write_set {p : Pid} {a : Usize} {id : U32} :
    ((w.set t A).write p a id).set t T = (w.set t T).write p a id := by
  simp only [World.set, World.write, Function.update_idem]

omit [DecidableEq Pid] [DecidableEq Tid] in
/-- The access comes to the syscall, or to a result; the kernel's view is as it was. -/
theorem access_cases (T : Task Pid) (rseq : Bool) (id : U32) :
    (T.access rseq id).reg = T.reg ∧
      ((T.access rseq id).pc = .syscall rseq ∨ ∃ area, (T.access rseq id).pc = .bound rseq area) := by
  by_cases hd : T.slot = .destroyed
  · rw [Task.access_of_destroyed hd]
    exact ⟨rfl, .inr ⟨none, rfl⟩⟩
  · rw [Task.access_of_ne hd]
    refine ⟨rfl, ?_⟩
    by_cases hid : IsCpu id
    · exact .inr ⟨some T.area, if_pos hid⟩
    · exact .inl (if_neg hid)

/-- **`Task.bind` is what the steps of `Registration::bind` do** when nothing comes between. -/
theorem bind_run (hT : w.task t = some T) (hpc : T.pc = .caller) (hf : T.phase ≠ .freed)
    (hrc : ∀ cpu, rc = some cpu → IsCpu cpu ∧ T.reg = none) :
    ∃ k, LTS.Run (Step sig) w
      (.ret t (T.bind sig rc (w.cpuId T.proc T.area)).1 :: k)
      ((w.set t (T.bind sig rc (w.cpuId T.proc T.area)).2.1).write T.proc T.area
        (T.bind sig rc (w.cpuId T.proc T.area)).2.2) := by
  -- the call and the access, then one of the three ways through `register`
  have hcall := LTS.Run.single (@Step.call _ _ _ _ sig w t T false hT hpc hf)
  have haccess := hcall.cons (.access set_task_self rfl)
  rw [set_set] at haccess
  change LTS.Run (Step sig) w _ (w.set t (T.access false (w.cpuId T.proc T.area))) at haccess
  have hproc := T.access_proc false (w.cpuId T.proc T.area)
  have harea := T.access_area false (w.cpuId T.proc T.area)
  obtain ⟨hreg, hpcA⟩ := access_cases T false (w.cpuId T.proc T.area)
  rw [Task.bind]
  -- where the access has come to
  generalize T.access false (w.cpuId T.proc T.area) = A at *
  have hsame : ∀ B : Task Pid, (w.set t B).write T.proc T.area (w.cpuId T.proc T.area) =
      w.set t B := fun B => write_self (w := w.set t B)
  rcases hpcA with hsys | ⟨area, hbound⟩
  · rw [if_pos hsys]
    cases rc with
    | none =>
      have hret := (haccess.cons (.refuse set_task_self hsys)).cons (.ret set_task_self rfl rfl)
      rw [set_set, set_set, ← hsame { A.registered sig false false with pc := .caller }] at hret
      exact ⟨_, hret⟩
    | some cpu =>
      obtain ⟨hcpu, hnone⟩ := hrc cpu rfl
      have hregister := haccess.cons (.register set_task_self hsys (hreg.trans hnone) hcpu)
      rw [set_set, hproc, harea] at hregister
      have hret := hregister.cons (.ret (T := A.registered sig false true) set_task_self rfl rfl)
      rw [set_write_set] at hret
      exact ⟨_, hret⟩
  · have hne : A.pc ≠ .syscall false := by
      rw [hbound]
      nofun
    rw [if_neg hne, hbound]
    have hret := haccess.cons (.ret set_task_self hbound rfl)
    rw [set_set, ← hsame { A with pc := .caller }] at hret
    exact ⟨_, hret⟩

end Run

/-! ### `init` -/

section Init

variable {e : Env} {T T' : Task Pid} {r : Option Rseq} {id id' : U32}

theorem build_eq_none {mode : Mode} {slice : Bool} :
    e.build mode slice = none ↔ Cpus.possible e.file = none := by
  unfold Env.build
  cases Cpus.possible e.file with
  | none => exact iff_of_true rfl rfl
  | some n => exact iff_of_false nofun nofun

/-- **`init` keeps the registration when it fails** unless it has made the registration itself
and then finds no count. -/
theorem init_keeps_iff (hinit : e.init sig T id = (r, T', id'))
    (hrc : ∀ cpu, e.rc = some cpu → IsCpu cpu ∧ T.reg = none) :
    (r = none → T'.reg = T.reg) ↔ (e.glibcAreaInfo = none → T.slot ≠ .destroyed → ¬IsCpu id →
      e.rc.isSome → Cpus.Readable e.file) := by
  unfold Env.init at hinit
  cases hg : e.glibcAreaInfo with
  | some info =>
    -- glibc's area: no register command
    rw [hg] at hinit
    cases hinit
    exact iff_of_true (fun _ => rfl) nofun
  | none =>
    rw [hg] at hinit
    by_cases hd : T.slot = .destroyed
    · rw [Task.bind_of_destroyed hd] at hinit
      cases hinit
      exact iff_of_true (fun _ => rfl) fun _ hne => absurd hd hne
    by_cases hid : IsCpu id
    · rw [Task.bind_of_isCpu hd hid] at hinit
      cases hinit
      exact iff_of_true (fun _ => rfl) fun _ _ hne => absurd hid hne
    cases hc : e.rc with
    | none =>
      rw [hc, Task.bind_refused hd hid] at hinit
      cases hinit
      exact iff_of_true (fun _ => rfl) fun _ _ _ => nofun
    | some cpu =>
      have hreg : T.reg = none := (hrc cpu hc).2
      rw [hc, Task.bind_accepted hd hid] at hinit
      cases hinit
      -- the thread is registered now, and was not before
      have hne : ¬some (T.own sig) = T.reg := by
        rw [hreg]
        nofun
      rw [build_eq_none, ← Option.not_isSome_iff_eq_none, Cpus.possible_isSome]
      constructor
      · intro h _ _ _ _
        by_contra hnone
        exact hne (h hnone)
      · intro h hnone
        exact absurd (h rfl hd hid rfl) hnone

end Init

/-! ### Runs of a process -/

theorem reg_eq {p : Process Tid} {t : Tid} {T : Task Unit} (h : p.world.task t = some T) :
    p.reg t = T.reg := by
  rw [Process.reg, h, Option.bind_some]

variable [DecidableEq Tid]

/-- **One call.** -/
theorem failedKeeps_step {p p' : Process Tid} {a : Act Tid} (hs : ProcStep sig p a p') :
    (Taken.mk p a p').FailedKeeps ↔ (Taken.mk p a p').Counts := by
  cases hs with
  | @init t T T' e r id hstate hT _ _ hrc hinit =>
    have hbefore : p.reg t = T.reg := reg_eq hT
    have hafter : Process.reg ⟨some r, (p.world.set t T').write T.proc T.area id⟩ t = T'.reg :=
      reg_eq set_task_self
    -- the two statements are about the same thread and environment
    constructor
    · intro hk t₁ e₁ r₁ T₁ hact _ hg hT₁ hd hid hc
      cases hact
      cases hT.symm.trans hT₁
      refine (init_keeps_iff hinit hrc).mp (fun hr => ?_) hg hd hid hc
      subst hr
      exact hafter.symm.trans ((hk t e rfl).trans hbefore)
    · intro hc t₁ e₁ hact
      cases hact
      refine hafter.trans (((init_keeps_iff hinit hrc).mpr ?_ rfl).trans hbefore.symm)
      exact fun hg hd hid hacc => hc t e none T rfl hstate hg hT hd hid hacc
  | @cached t T e r hstate _ _ _ =>
    -- nothing changes, and `init` does not run
    have hkeeps : (Taken.mk p (.new t e r) p).FailedKeeps := fun _ _ _ => rfl
    refine iff_of_true hkeeps fun t₁ e₁ r₁ T₁ _ hnone => ?_
    cases hstate.symm.trans hnone
  | @other l w _ =>
    have hkeeps : (Taken.mk p (.other l) { p with world := w }).FailedKeeps :=
      fun _ _ hact => nomatch hact
    exact iff_of_true hkeeps fun _ _ _ _ hact => nomatch hact

/-- Every recorded step of a run is a step of the process. -/
theorem step_of_mem {p₀ p : Process Tid} {h : List (Taken Tid)}
    (hr : LTS.Run (Taken.Leads sig) p₀ h p) :
    ∀ x ∈ h, ProcStep sig x.before x.act x.after := by
  refine hr.invariant (I := fun h _ => ∀ x ∈ h, ProcStep sig x.before x.act x.after)
    (fun x hx => nomatch hx) fun h p y p' _ ih hs x hx => ?_
  rcases List.mem_cons.mp hx with rfl | hx
  · obtain ⟨rfl, rfl, hstep⟩ := hs
    exact hstep
  · exact ih x hx

/-- **A failed `Rseq::new` leaves the registration as it was** in a run if and only if every call
in it that registers its thread finds a count of CPUs. -/
theorem failedKeeps_iff {p₀ p : Process Tid} {h : List (Taken Tid)}
    (hr : LTS.Run (Taken.Leads sig) p₀ h p) :
    (∀ x ∈ h, x.FailedKeeps) ↔ ∀ x ∈ h, x.Counts := by
  have hstep := step_of_mem hr
  exact ⟨fun hk x hx => (failedKeeps_step (hstep x hx)).mp (hk x hx),
    fun hc x hx => (failedKeeps_step (hstep x hx)).mpr (hc x hx)⟩

/-! ### The threads of a process -/

/-- `init` does to its thread what `Registration::bind` does, or nothing. -/
theorem init_cases {e : Env} {T T' : Task Unit} {r : Option Rseq} {id id' : U32}
    (hinit : e.init sig T id = (r, T', id')) :
    T' = T ∧ id' = id ∨ T' = (T.bind sig e.rc id).2.1 ∧ id' = (T.bind sig e.rc id).2.2 := by
  unfold Env.init at hinit
  split at hinit
  · cases hinit
    exact .inl ⟨rfl, rfl⟩
  · split at hinit
    · next hb =>
      cases hinit
      exact .inr ⟨by rw [hb], by rw [hb]⟩
    · next hb =>
      cases hinit
      exact .inr ⟨by rw [hb], by rw [hb]⟩

theorem world_step {p p' : Process Tid} {a : Act Tid} (hs : ProcStep sig p a p') :
    ∃ k, LTS.Run (Step sig) p.world k p'.world := by
  -- a call is the steps of its `bind`; one that finds `STATE`, or glibc's area, is none
  cases hs with
  | @init t T T' e r id hstate hT hpc hf hrc hinit =>
    rcases init_cases hinit with ⟨rfl, rfl⟩ | ⟨rfl, rfl⟩
    · rw [set_of_task hT, write_self]
      exact ⟨[], .nil⟩
    · exact (bind_run hT hpc hf hrc).elim fun _ hk => ⟨_, hk⟩
  | cached _ _ _ _ => exact ⟨[], .nil⟩
  | other hs => exact ⟨_, .single hs⟩

/-- **The threads of a process that calls `Rseq::new` are those of `Step`**: what holds of every
run of theirs, holds of them here. -/
theorem world_run {p₀ p : Process Tid} {h : List (Taken Tid)}
    (hr : LTS.Run (Taken.Leads sig) p₀ h p) : ∃ k, LTS.Run (Step sig) p₀.world k p.world := by
  induction hr with
  | nil => exact ⟨[], .nil⟩
  | cons _ hs ih =>
    obtain ⟨k, hk⟩ := ih
    obtain ⟨rfl, rfl, hstep⟩ := hs
    obtain ⟨k', hk'⟩ := world_step hstep
    exact ⟨_, hk.append hk'⟩

/-- So the kernel holds no thread's `SLOT` but as that thread's, whatever `new` has returned. -/
theorem inv_of_run {p₀ p : Process Tid} {h : List (Taken Tid)} (hi : Initial p₀.world)
    (hr : LTS.Run (Taken.Leads sig) p₀ h p) : Inv sig p.world := by
  obtain ⟨k, hk⟩ := world_run hr
  exact Inv.run hi hk

/-! ### One call of a process that has just started -/

/-- A process with one thread that is not registered. -/
def started : Process ℕ where
  state := none
  world :=
    { task := fun t => if t = 0 then some (.fresh () 0x1000) else none
      cpuId := fun _ _ => cpuUninit }

/-- No glibc area, and no file; the kernel's answer is `rc`. -/
def noFile (rc : Option U32) : Env := ⟨none, none, 0, rc, none⟩

/-- `Rseq::new` fails there, whatever the kernel answers. -/
def failing (sig : U32) (rc : Option U32) : Taken ℕ where
  before := started
  act := .new 0 (noFile rc) none
  after :=
    { state := some none
      world := (started.world.set 0 (Task.bind (.fresh () 0x1000) sig rc cpuUninit).2.1).write
        () 0x1000 (Task.bind (.fresh () 0x1000 : Task Unit) sig rc cpuUninit).2.2 }

theorem failing_leads {rc : Option U32} (hrc : ∀ cpu, rc = some cpu → IsCpu cpu) :
    Taken.Leads sig started (failing sig rc) (failing sig rc).after := by
  have htask : started.world.task 0 = some (.fresh () 0x1000) := rfl
  refine ⟨rfl, rfl, .init rfl htask rfl nofun (fun cpu h => ⟨hrc cpu h, rfl⟩) ?_⟩
  cases rc <;> rfl

/-- The kernel refuses: the thread is not registered, before the call and after it. -/
theorem failedKeeps_iff_refused :
    LTS.Run (Taken.Leads 0x53053053) started [failing 0x53053053 none]
      (failing 0x53053053 none).after ∧ (failing 0x53053053 none).FailedKeeps := by
  have hr := LTS.Run.single (@failing_leads 0x53053053 none nofun)
  refine ⟨hr, (failedKeeps_iff hr).mpr (fun x hx => ?_) _ (List.mem_singleton.mpr rfl)⟩
  rw [List.mem_singleton] at hx
  subst hx
  intro t e r T hact _ _ _ _ _ hacc
  cases hact
  cases hacc

/-- **A failed `Rseq::new` can leave the thread registered**: the kernel accepts, and then there
is no file. -/
theorem not_failedKeeps : ¬∀ (h : List (Taken ℕ)) (p : Process ℕ),
    LTS.Run (Taken.Leads 0x53053053) started h p → ∀ x ∈ h, x.FailedKeeps := by
  intro hall
  have hcpu : ∀ cpu : U32, some 0 = some cpu → IsCpu cpu := by
    rintro _ ⟨⟩
    decide
  have hr := LTS.Run.single (@failing_leads 0x53053053 (some 0) hcpu)
  have hk := hall _ _ hr _ (List.mem_singleton.mpr rfl) 0 _ rfl
  -- not registered before, and registered after
  have hbefore : (failing 0x53053053 (some 0)).before.reg 0 = none := rfl
  cases hk.trans hbefore

end Tasks

end RseqRs
