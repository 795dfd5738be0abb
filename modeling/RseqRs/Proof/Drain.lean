import RseqRs.Stage.Context
import RseqRs.Stage.Refine

/-!
# Drain

After `fence` or `fence_all` returned true, no attempt that accessed anything
before the call commits any more to a word the fence covers.

The barrier that returned `0` is the point of no return. Past it, every attempt
inside its section has made all its accesses since the call, or its thread does
not run (it will be restarted when it does), or its thread is off the index of
the key (it cannot be confirmed). No step brings an old attempt back.
-/

namespace RseqRs

/-- The calls whose commits a fence drains: those keyed by its CPU, or all. -/
def FenceCall.Covers : FenceCall → Call → Prop
  | .fence cpu, c => c.tag = (.cpuId, cpu.id)
  | .fenceAll, _ => True

section History

variable {Tid : Type}

/-- In the history `h` a fence `f` of `t` at depth `d` returned true, and `g` is
what happened since it was called. -/
def ReturnedSince (t : Tid) (d : ℕ) (f : FenceCall) (h g : List (Label Tid)) : Prop :=
  ∃ h₀ h₁ h₂, g = h₂ ++ .act t d (.fenceRet f true) :: h₁ ∧
    h = g ++ .act t d (.fenceCall f) :: h₀ ∧ ∀ f', .act t d (.fenceCall f') ∉ h₁

end History

variable {Tid : Type} [DecidableEq Tid]

/-- **Drained**: whatever a covered op commits in the state `s` after the history
`h`, its attempt has accessed nothing before the fence was called: neither the
index nor a word nor a chased pointer. -/
def Drains (M : Machine Tid) (h : List (Label Tid)) (s : Sys Tid M.img.Site) : Prop :=
  ∀ t d f g, ReturnedSince t d f h g → ∀ u e c site a s',
    (s.thr u).top.frame = .op c site → f.Covers c →
    M.Step s (.act u e (.exec (.acc a true))) s' → attempt u e h = attempt u e g

namespace Stage

variable {M : Machine Tid} {s s' : Sys Tid} {l : Label Tid} {f : FenceCall} {t : Tid} {d : ℕ}
  {g base : List (Label Tid)}

/-- The attempts that may still commit to words `f` covers have accessed nothing
before `g`. -/
def Drained (f : FenceCall) (base g : List (Label Tid)) (s : Sys Tid) : Prop :=
  ∀ t c u log, (s.thr t).running = true → (s.thr t).top = .op c (.inside u) log →
    f.Covers c → (s.thr t).index c.K = c.key →
    attempt t (s.thr t).depth (g ++ base) = attempt t (s.thr t).depth g

/-- **No step brings an old attempt back.** -/
theorem Drained.step (hd : Drained f base g s) (hi : Inv (g ++ base) s)
    (hs : SysStep M s l s') : Drained f base (l :: g) s' := by
  intro u c v log hr htop hf hidx
  obtain ⟨hindex, hdepth, hback⟩ := hi.inside_back hs hr htop
  rw [hindex] at hidx
  rw [hdepth]
  cases hback with
  | kept hr₀ htop₀ hne =>
    -- the step is not the thread's: it makes no access for it
    have hkeep (h : List (Label Tid)) : attempt u (s.thr u).depth (l :: h) =
        attempt u (s.thr u).depth h := by
      cases l with
      | act t d a => exact attempt_of_ne fun ht => hne d a (ht ▸ rfl)
      | _ => rfl
    exact ((hkeep _).trans (hd u c v log hr₀ htop₀ hf hidx)).trans (hkeep g).symm
  | armed _ _ hl =>
    subst hl
    rw [List.cons_append, attempt_self, attempt_self]
    rfl
  | tau hr₀ htop₀ _ hl =>
    subst hl
    rw [List.cons_append, attempt_self, attempt_self]
    exact hd u c v log hr₀ htop₀ hf hidx
  | @access _ log₀ a hr₀ htop₀ _ _ _ _ hl =>
    subst hl
    rw [List.cons_append, attempt_self, attempt_self]
    exact congrArg (· ++ [a]) (hd u c _ log₀ hr₀ htop₀ hf hidx)

/-- **The point of no return**: a barrier of `f` returns `0`. -/
theorem drained_of_fences {pc : RunPc} {ev : RunEv} {p : Flags} {hit : Tid → Bool}
    (hb : (f.barrier M.cpus).isSome) (hev : ev.fences = true) (hre : Reaches M s t f ev hit) :
    Drained f base g (fenced s t f pc p hit) := by
  intro u c v log hr htop hf hidx
  obtain ⟨y, he, hc⟩ := fenced_thr s t u f pc p hit
  rw [he] at hr htop hidx
  rcases hc with ⟨_, rfl⟩ | ⟨hne, ⟨_, rfl⟩ | ⟨hmiss, rfl⟩⟩
  · cases htop
  · exact absurd htop (event_ne_inside _)
  · -- it runs, and on the CPU of the fence: the barrier has reached it
    have hcount := FenceCall.barrier_isSome.mp hb
    have hhit : M.hits f ev (s.thr u).running ((s.thr u).index .cpuId) = true := by
      replace hr : (s.thr u).running = true := hr
      simp only [Machine.hits, hev, hr, FenceCall.barrier, if_pos hcount, Bool.true_and]
      cases f with
      | fenceAll => rfl
      | fence cpu =>
        have hK : c.K = .cpuId := congrArg Prod.fst hf
        have hkey : c.key = cpu.id := congrArg Prod.snd hf
        have hcpu : (s.thr u).index .cpuId = cpu.id := by rw [← hK, ← hkey]; exact hidx
        exact decide_eq_true fun _ => hcpu
    rcases hre u with hu | ⟨rfl, _⟩
    · rw [hmiss, hhit] at hu
      cases hu
    · exact absurd rfl hne

/-- Drained once, drained for good. -/
theorem Drained.run {a₀ a : Sys Tid} {g' : List (Label Tid)} (hi : Initial a₀)
    (hr : LTS.Run (SysStep M) a₀ (g ++ base) s) (hd : Drained f base g s)
    (hg : LTS.Run (SysStep M) s g' a) : Drained f base (g' ++ g) a := by
  -- induction on the steps after the barrier
  induction hg with
  | nil => exact hd
  | @cons g' a a' l hg hs ih =>
    have hinv := inv_run hi (hr.append hg)
    rw [← List.append_assoc] at hinv
    exact ih.step hinv hs

/-- A fence that is about to return true. -/
def Passed : RunPc → Prop
  | .store | .ret true => True
  | _ => False

/-- Every way to return true leads through a barrier that returned `0`: after the
first registration, after an earlier one, and after the one that `EPERM` forces. -/
theorem Passed.of_step {p p' : Flags} {pc pc' : RunPc} {ev : RunEv}
    (hs : RunStep p pc ev p' pc') (hp : Passed pc') : Passed pc ∨ ev.fences = true := by
  cases hs with
  | store => exact Or.inl trivial
  | @barrier rc ha =>
    cases rc with
    | ok => exact Or.inr rfl
    | eperm => exact hp.elim
    | err => exact hp.elim
  | @retry rc ha =>
    cases rc with
    | ok => exact Or.inr rfl
    | eperm => exact hp.elim
    | err => exact hp.elim
  | @ready b hb => cases b <;> exact hp.elim
  | init ok => cases ok <;> exact hp.elim
  | swap => split at hp <;> exact hp.elim
  | register ok => cases ok <;> exact hp.elim

/-- What is known of a fence of `t` at depth `d` since it was called as `f`. -/
def Fencing (M : Machine Tid) (f : FenceCall) (t : Tid) (d : ℕ) (base g : List (Label Tid))
    (s : Sys Tid) : Prop :=
  ∀ f' pc, s.ctx t d = some (.fence f' pc) → f' = f ∧
    (pc ≠ .ret false → (f.barrier M.cpus).isSome) ∧ (Passed pc → Drained f base g s)

theorem Fencing.of_call (hs : SysStep M s (.act t d (.fenceCall f)) s') :
    Fencing M f t d base [] s' := by
  intro f' pc hpc
  obtain ⟨_, _, ht⟩ := hs.turn rfl nofun hpc
  -- a fresh call is before its barrier, or fails its checks
  generalize hw : Work.fence f' pc = w' at ht
  cases ht with
  | fenceCall =>
    cases hw
    refine ⟨rfl, fun hne => ?_, fun hp => ?_⟩
    · by_contra hb
      exact hne (if_neg hb)
    · split at hp <;> exact hp.elim

theorem Fencing.step (hf : Fencing M f t d base g s) (hi : Inv (g ++ base) s)
    (hs : SysStep M s l s') (hl : ∀ f', l ≠ .act t d (.fenceCall f')) :
    Fencing M f t d base (l :: g) s' := by
  intro f' pc hpc
  have hsame {pc'} (hw : s.ctx t d = some (.fence f' pc')) (hp : Passed pc') :
      Drained f base (l :: g) s' := ((hf _ _ hw).2.2 hp).step hi hs
  rcases hs.ctx_back hpc with ⟨w, hw, hstep⟩ | hidle
  · generalize hw' : some (Work.fence f' pc) = o at hstep
    cases hstep with
    | keep hown =>
      cases hw'
      obtain ⟨rfl, hb, _⟩ := hf _ _ hw
      exact ⟨rfl, hb, hsame hw⟩
    | event hown hev =>
      cases w with
      | fence f'' pc'' =>
        cases hw'
        obtain ⟨rfl, hb, _⟩ := hf _ _ hw
        exact ⟨rfl, hb, hsame hw⟩
      | op c st log => cases st <;> cases hw'
      | idle => cases hw'
      | refused c => cases hw'
    | exec => cases hw'
    | turn ht =>
      cases ht with
      | fenceCall f'' => exact absurd rfl (hl f'')
      | _ => cases hw'
    | @fence f'' pc₀ pc' ev p hit hrun =>
      cases hw'
      obtain ⟨rfl, hb, _⟩ := hf _ _ hw
      have hb' : (f'.barrier M.cpus).isSome := hb (by rintro rfl; cases hrun)
      refine ⟨rfl, fun _ => hb', fun hp => ?_⟩
      -- it had passed its barrier before, or this step is the barrier
      rcases Passed.of_step hrun hp with hp₀ | hev
      · exact hsame hw hp₀
      · cases hs with
        | fenceRun hr htop hrun' hre =>
          have htop' := s.ctx_depth t
          rw [hw, htop] at htop'
          cases htop'
          exact drained_of_fences hb' hev hre
    | popped => cases hw'
  · cases hidle

theorem Fencing.run {a₀ a : Sys Tid} (hi : Initial a₀) (hr : LTS.Run (SysStep M) a₀ base s)
    (hf : Fencing M f t d base [] s) (hg : LTS.Run (SysStep M) s g a)
    (hl : ∀ f', .act t d (.fenceCall f') ∉ g) : Fencing M f t d base g a := by
  induction hg with
  | nil => exact hf
  | @cons g a a' l hg hs ih =>
    exact (ih fun f' hm => hl f' (List.mem_cons_of_mem _ hm)).step (inv_run hi (hr.append hg)) hs
      fun f' he => hl f' (he ▸ List.mem_cons_self ..)

/-- A fence that has returned true has drained what it covers. -/
theorem drained_run {a₀ a : Sys Tid} {h : List (Label Tid)} (hi : Initial a₀)
    (hr : LTS.Run (SysStep M) a₀ h a) (hf : ReturnedSince t d f h g) :
    ∃ base, h = g ++ base ∧ Drained f base g a := by
  obtain ⟨h₀, h₁, h₂, rfl, rfl, hcall⟩ := hf
  refine ⟨_, rfl, ?_⟩
  -- the run up to the call and past it, the fence, its return, and the rest
  rw [List.append_assoc, List.cons_append] at hr
  obtain ⟨a₂, hr₂, hrest⟩ := hr.split
  cases hr₂ with
  | @cons _ a₁ _ _ hr₁ hret =>
    obtain ⟨ac, hrc, hrun⟩ := hr₁.split
    have hfence : Fencing M f t d (.act t d (.fenceCall f) :: h₀) h₁ a₁ := by
      cases hrc with
      | cons hr₀ hc => exact Fencing.run hi (.cons hr₀ hc) (.of_call hc) hrun hcall
    have hctx : a₁.ctx t d = some (.fence f (.ret true)) := by
      cases hret with
      | move hm _ =>
        cases hm with
        | turn _ hw ht =>
          cases ht
          rw [a₁.ctx_depth, hw]
    have hpast := ((hfence _ _ hctx).2.2 trivial).step (inv_run hi hr₁) hret
    exact hpast.run hi (.cons hr₁ hret) hrest

end Stage

/-! ### The machine -/

variable {M : Machine Tid} {s₀ s : Sys Tid M.img.Site} {h : List (Label Tid)}

/-- **The drain guarantee**, in every reachable state. -/
theorem fence_drains (hi : M.Initial s₀) (hr : LTS.Run M.Step s₀ h s) : Drains M h s := by
  intro t d f g hf u e c site acc s' hframe hcov hs
  obtain ⟨a, ha, hrel⟩ := refine_run hi hr
  obtain ⟨st, st', log, m, rfl, hrun, htop, hstep⟩ := hrel.exec hframe hs
  -- the attempt that commits is inside its section, and on its index
  obtain ⟨base, rfl, hd⟩ := Stage.drained_run s₀.initial_stages ha hf
  have hok := (Stage.inv_run s₀.initial_stages ha).top u
  rw [htop] at hok
  cases hstep with
  | commit hc =>
    have hkey := (hok.confirmed (.commit (m := a.mem) hc) fun j hj => by subst hj; cases hc).1
    rw [(hrel.thr u).depth]
    exact hd u c _ log hrun htop hcov hkey

section Witness

/-- A thread of `casMachine` that fences all CPUs, step by step. -/
def casFence (pc : RunPc) (s : Sys Unit casMachine.img.Site) : Sys Unit casMachine.img.Site :=
  { s with
    thr := Function.update s.thr () { s.thr () with
      top := { (s.thr ()).top with frame := .fence .fenceAll pc } } }

def casFence₀ : Sys Unit casMachine.img.Site :=
  casMachine.resumed () 0 0 (casMachine.boot fun _ => 0)

/-- The barrier for all CPUs leaves out its caller. -/
def casHit : Unit → Bool := fun _ => false

/-- The fence is the first of the process, and the kernel accepts. -/
def casFence₁ : Sys Unit casMachine.img.Site :=
  casMachine.fenced (casFence .ready casFence₀) () .fenceAll .barrier ⟨some true, false, true⟩
    casHit

def casFence₂ : Sys Unit casMachine.img.Site :=
  casMachine.fenced casFence₁ () .fenceAll .store ⟨some true, false, true⟩ casHit

def casFence₃ : Sys Unit casMachine.img.Site :=
  casMachine.fenced casFence₂ () .fenceAll (.ret true) ⟨some true, true, true⟩ casHit

/-- The fence has returned. -/
def casFenced : Sys Unit casMachine.img.Site :=
  { casFence₃ with
    thr := Function.update casFence₃.thr () { casFence₃.thr () with
      top := { (casFence₃.thr ()).top with frame := .idle } } }

/-- What happened from the resume to the return of the fence. -/
def casFenceSteps : List (Label Unit) :=
  [.fenceRun () 0 .store casHit, .fenceRun () 0 (.barrier .ok) casHit,
    .fenceRun () 0 (.init true) casHit]

theorem casFenced_run :
    LTS.Run casMachine.Step (casMachine.boot fun _ => 0)
      (.act () 0 (.fenceRet .fenceAll true) :: casFenceSteps ++
        [.act () 0 (.fenceCall .fenceAll), .act () 0 (.resume 0 0)]) casFenced := by
  have hresume : casMachine.Step (casMachine.boot fun _ => 0) (.act () 0 (.resume 0 0))
      casFence₀ :=
    casMachine.step_resumed (s := casMachine.boot fun _ => 0) rfl fun _ _ hr => by cases hr
  have hcall : casMachine.Step casFence₀ (.act () 0 (.fenceCall .fenceAll))
      (casFence .ready casFence₀) := .move (.fenceCall .fenceAll rfl rfl) nofun
  have hinit : casMachine.Step (casFence .ready casFence₀) _ casFence₁ :=
    .fenceRun rfl rfl (.init true rfl) (fun _ => Or.inr ⟨rfl, rfl⟩) nofun
  have hbarrier : casMachine.Step casFence₁ _ casFence₂ :=
    .fenceRun (by decide) rfl (.barrier (Flags.answers_ok rfl)) (fun _ => Or.inr ⟨rfl, rfl⟩) nofun
  have hstore : casMachine.Step casFence₂ _ casFence₃ :=
    .fenceRun (by decide) rfl .store (fun _ => Or.inr ⟨rfl, rfl⟩) nofun
  have hret : casMachine.Step casFence₃ (.act () 0 (.fenceRet .fenceAll true)) casFenced :=
    .move (.fenceRet (by decide) rfl) nofun
  exact .cons (.cons (.cons (.cons (.cons (.cons .nil hresume) hcall) hinit) hbarrier) hstore) hret

/-- The thread then calls `compare_exchange`, and is about to commit. -/
def casAfter : List (Label Unit) × Sys Unit casMachine.img.Site :=
  (casMachine.solo () 9 (casMachine.called () casCall soleSite casFenced)).get rfl

/-- What happened since the fence was called. -/
def casSince : List (Label Unit) :=
  (casAfter.1 ++ [.act () 0 (.call casCall)]) ++
    .act () 0 (.fenceRet .fenceAll true) :: casFenceSteps

theorem casAfter_run :
    LTS.Run casMachine.Step (casMachine.boot fun _ => 0)
      (casSince ++ [.act () 0 (.fenceCall .fenceAll), .act () 0 (.resume 0 0)]) casAfter.2 := by
  have hcall : casMachine.Step casFenced (.act () 0 (.call casCall))
      (casMachine.called () casCall soleSite casFenced) :=
    casMachine.step_called (by decide) rfl rfl rfl
  have hrun := (casFenced_run.cons hcall).append
    (casMachine.solo_run (t := ()) (n := 9) (Option.some_get (by decide)).symm)
  rw [casSince, List.append_assoc, List.append_assoc]
  exact hrun

/-- The fence has returned, and the next step commits. -/
theorem fence_drains_casAfter :
    (∃ s', casMachine.Step casAfter.2 (.act () 0 (.exec (.acc (.store 0x8000 1) true))) s') ∧
    ReturnedSince () 0 .fenceAll
      (casSince ++ [.act () 0 (.fenceCall .fenceAll), .act () 0 (.resume 0 0)]) casSince ∧
    Drains casMachine
      (casSince ++ [.act () 0 (.fenceCall .fenceAll), .act () 0 (.resume 0 0)]) casAfter.2 := by
  refine ⟨?_, ⟨_, casFenceSteps, _, rfl, rfl, fun f' => ?_⟩,
    fence_drains (casMachine_initial _) casAfter_run⟩
  · exact casMachine.solo_next rfl
  · simp [casFenceSteps]

end Witness

end RseqRs
