import RseqRs.Model.Program
import RseqRs.Model.Script
import RseqRs.Stage.Context
import RseqRs.Stage.Refine

/-!
# Jobs and contexts

The jobs of a program fit the contexts of the machine in every reachable state (`fits_run`),
and a step of another context leaves a job alone (`Moves.job`).
-/

namespace RseqRs

theorem ctxAt_length {C : Type} {cs : List C} : ctxAt cs cs.length = none := by
  by_contra hne
  obtain ⟨c, hc⟩ := Option.ne_none_iff_exists'.mp hne
  exact lt_irrefl _ (ctxAt_lt hc)

/-! ### The calls of a thread -/

/-- The calls that the contexts of a thread are in, the running one first. -/
def Thr.calls {Site : Type} (x : Thr Site) : List (Option Call) :=
  x.stack.map fun y => y.frame.called

/-- What an act of a thread does to the calls its contexts are in. -/
inductive CallsStep : Act → List (Option Call) → List (Option Call) → Prop
  | turn {a : Act} {o : Option Call} {os : List (Option Call)} : a.turns = true →
      (a.idles = true → o = none) → CallsStep a (o :: os) (a.leaves :: os)
  | idle {a : Act} {os : List (Option Call)} : a.idles = true → a.turns = false →
      CallsStep a os os
  | signal {os : List (Option Call)} : CallsStep .signal os (none :: os)
  | sigreturn {os : List (Option Call)} : CallsStep .sigreturn (none :: os) os

theorem Machine.Move.calls {Tid : Type} {M : Machine Tid} {t : Tid} {m m' : Mem}
    {x x' : Thr M.img.Site} {a : Act} (hm : M.Move t m x a m' x') :
    CallsStep a x.calls x'.calls := by
  -- the contexts below keep their frames, and so does one the kernel interrupts
  have hcons : x.calls = x.top.frame.called :: x.below.map fun y => y.frame.called := rfl
  have hturn {y : Ctx M.img.Site} (ha : a.turns = true)
      (hi : a.idles = true → x.top.frame.called = none) (hy : y.frame.called = a.leaves) :
      CallsStep a x.calls { x with top := y }.calls := by
    show CallsStep a x.calls (y.frame.called :: x.below.map fun y => y.frame.called)
    rw [hcons, hy]
    exact .turn ha hi
  cases hm with
  | exec _ hf _ _ =>
    rw [hcons, hf]
    exact .idle rfl rfl
  | call site g z _ hf _ _ => exact hturn rfl nofun rfl
  | callRefused _ hf _ => exact hturn rfl nofun rfl
  | ret site a _ hf _ _ => exact hturn rfl nofun rfl
  | retRefused _ hf => exact hturn rfl nofun rfl
  | goto a g z _ hf _ => exact hturn rfl (fun _ => by rw [hf]; rfl) rfl
  | unload _ hf =>
    have hself : CallsStep .unload x.calls ({ x with top := x.top }).calls :=
      hturn rfl (fun _ => by rw [hf]; rfl) (by rw [hf]; rfl)
    exact hself
  | preempt _ => exact .idle rfl rfl
  | resume cpu cid _ => exact .idle rfl rfl
  | signal a g z _ _ => exact .signal
  | sigreturn _ hf hb =>
    rw [hcons, hf, hb]
    exact .sigreturn
  | fenceCall f _ hf => exact hturn rfl (fun _ => by rw [hf]; rfl) rfl
  | fenceRet _ hf => exact hturn rfl (fun _ => by rw [hf]; rfl) rfl

/-- A context acts where it is running. -/
theorem Machine.Step.act_depth {Tid : Type} [DecidableEq Tid] {M : Machine Tid}
    {s s' : Sys Tid M.img.Site} {t : Tid} {d : ℕ} {a : Act} (hs : M.Step s (.act t d a) s') :
    d = (s.thr t).depth := by
  cases hs
  rfl

theorem Act.leaves_of_idles {a : Act} (h : a.idles = true) : a.leaves = none := by
  cases a with
  | call c => cases h
  | _ => rfl

/-! ### Refused calls -/

/-- A refused call is one whose keys differ. -/
theorem Stage.refused_run {Tid : Type} [DecidableEq Tid] {M : Machine Tid}
    {a₀ a : Stage.Sys Tid} {h : List (Label Tid)} (hi : Stage.Initial a₀)
    (hr : LTS.Run (Stage.SysStep M) a₀ h a) :
    ∀ t d c, a.ctx t d = some (.refused c) → c.op.keysAgree = false := by
  refine hr.invariant (I := fun _ a => ∀ t d c, a.ctx t d = some (.refused c) →
    c.op.keysAgree = false) (fun t d c hw => ?_) fun h a l a' _ ih hs t d c hw => ?_
  · rcases Stage.Sys.ctx_cases hw with ⟨_, htop⟩ | ⟨_, hb⟩
    · rw [hi.idle t] at htop; cases htop
    · rw [hi.below t] at hb; cases hb
  · rcases hs.ctx_back hw with ⟨w, hw₀, hstep⟩ | hidle
    · generalize ho : some (Work.refused c) = o at hstep
      cases hstep with
      | keep hl => cases ho; exact ih t d c hw₀
      | event hl _ =>
        cases w with
        | refused c' => cases ho; exact ih t d c hw₀
        | op c' st log => cases st <;> cases ho
        | _ => cases ho
      | exec hr htop hst => cases ho
      | turn ht =>
        cases ht with
        | callRefused hk => cases ho; exact hk
        | _ => cases ho
      | fence hr => cases ho
      | popped => cases ho
    · cases hidle

namespace Program

variable {P : Program} {Tid : Type} [DecidableEq Tid] {M : Machine Tid} {area : Tid → Area}
  {m : Mem} {k k' : Tid → List P.Job} {l : Label Tid} {s₀ s s' : Sys Tid M.img.Site}
  {h : List (Label Tid)}

/-! ### A single job -/

/-- What a step does to the job at depth `d` of thread `t`. -/
inductive JobStep (P : Program) (area : Tid → Area) (m : Mem) (t : Tid) (d : ℕ) :
    Label Tid → Option P.Job → Option P.Job → Prop
  | keep {l : Label Tid} {o : Option P.Job} :
      (∀ a, l = .act t d a → a.idles = true ∨ a = .signal) → JobStep P area m t d l o o
  | turn {a : Act} {j j' : P.Job} : P.Turn (area t) m a j j' →
      JobStep P area m t d (.act t d a) (some j) (some j')
  | pushed {e : ℕ} : JobStep P area m t d (.act t e .signal) none (some P.rest)
  | popped {e : ℕ} : JobStep P area m t d (.act t e .sigreturn) (some P.rest) none

/-- Every step, seen by any job. The labels of a thread carry the depth of its running job. -/
theorem Moves.job (hm : P.Moves area m k l k') (t : Tid) (d : ℕ)
    (hdepth : ∀ e a, l = .act t e a → (k t).length = e + 1) :
    JobStep P area m t d l (ctxAt (k t) d) (ctxAt (k' t) d) := by
  cases hm with
  | @turn u e a j j' js hk ht =>
    by_cases hu : t = u
    · subst hu
      have he : js.length = e := by
        have hlen := hdepth e a rfl
        rw [hk, List.length_cons] at hlen
        omega
      rw [Function.update_self, hk]
      by_cases hd : d = js.length
      · subst hd
        rw [ctxAt_cons_self, ctxAt_cons_self, he]
        exact .turn ht
      · rw [ctxAt, if_neg hd, ctxAt, if_neg hd]
        refine .keep fun b hb => ?_
        cases hb
        exact absurd he.symm hd
    · rw [Function.update_of_ne hu]
      refine .keep fun b hb => ?_
      cases hb
      exact absurd rfl hu
  | @idle u e a ha =>
    refine .keep fun b hb => ?_
    cases hb
    exact Or.inl ha
  | @signal u e =>
    by_cases hu : t = u
    · subst hu
      rw [Function.update_self]
      by_cases hd : d = (k t).length
      · subst hd
        rw [ctxAt_cons_self, ctxAt_length]
        exact .pushed
      · rw [ctxAt, if_neg hd]
        refine .keep fun b hb => ?_
        cases hb
        exact Or.inr rfl
    · rw [Function.update_of_ne hu]
      refine .keep fun b hb => ?_
      cases hb
      exact Or.inr rfl
  | @sigreturn u e js hk =>
    by_cases hu : t = u
    · subst hu
      have he : js.length = e := by
        have hlen := hdepth e .sigreturn rfl
        rw [hk, List.length_cons] at hlen
        omega
      rw [Function.update_self, hk]
      by_cases hd : d = js.length
      · subst hd
        rw [ctxAt_cons_self, ctxAt_length]
        exact .popped
      · rw [ctxAt, if_neg hd]
        refine .keep fun b hb => ?_
        cases hb
        exact absurd he.symm hd
    · rw [Function.update_of_ne hu]
      refine .keep fun b hb => ?_
      cases hb
      exact absurd rfl hu
  | fenceRun => exact .keep fun a ha => by cases ha
  | write _ => exact .keep fun a ha => by cases ha

/-! ### The jobs fit -/

/-- The jobs of a thread after an act, by the calls they are in. -/
theorem Moves.fits {t : Tid} {d : ℕ} {a : Act} {os' : List (Option Call)}
    (hm : P.Moves area m k (.act t d a) k')
    (hs : CallsStep a ((k t).map P.calling) os') : (k' t).map P.calling = os' := by
  generalize hos : (k t).map P.calling = os at hs
  cases hm with
  | @turn _ _ _ j j' js hk ht =>
    -- the job on top is in the call that the act leaves, as its context is
    rw [hk, List.map_cons] at hos
    rw [Function.update_self, List.map_cons, P.calling_turn _ _ _ _ _ ht]
    have hturns := P.turns _ _ _ _ _ ht
    cases hs with
    | turn _ _ =>
      obtain ⟨rfl, rfl⟩ := List.cons_eq_cons.mp hos
      rfl
    | idle _ hno => rw [hturns] at hno; cases hno
    | signal => cases hturns
    | sigreturn => cases hturns
  | idle hidle =>
    cases hs with
    | @turn _ o os hturns hnone =>
      -- caller code before and after
      rw [hos, hnone hidle, Act.leaves_of_idles hidle]
    | idle _ _ => exact hos
    | signal => cases hidle
    | sigreturn => cases hidle
  | signal =>
    rw [Function.update_self, List.map_cons, P.calling_rest, hos]
    cases hs with
    | signal => rfl
    | turn ht _ => cases ht
    | idle hi _ => cases hi
  | @sigreturn _ _ js hk =>
    rw [hk, List.map_cons] at hos
    rw [Function.update_self]
    cases hs with
    | sigreturn => exact (List.cons_eq_cons.mp hos).2
    | turn ht _ => cases ht
    | idle hi _ => cases hi

/-- A step of another thread leaves the jobs of a thread alone. -/
theorem Moves.other {t : Tid} (hm : P.Moves area m k l k') (hl : ∀ d a, l ≠ .act t d a) :
    k' t = k t := by
  cases hm with
  | @turn u d a _ _ _ _ _ =>
    exact Function.update_of_ne (fun he => hl d a (by rw [he])) _ _
  | @signal u d => exact Function.update_of_ne (fun he => hl d .signal (by rw [he])) _ _
  | @sigreturn u d _ _ => exact Function.update_of_ne (fun he => hl d .sigreturn (by rw [he])) _ _
  | _ => rfl

/-- **One step** keeps the jobs fitting. -/
theorem Fits.step (hf : P.Fits s k) (hs : M.Step s l s')
    (hm : P.Moves (fun t => (s.thr t).area) s.mem k l k') : P.Fits s' k' := by
  intro t
  show (k' t).map P.calling = (s'.thr t).calls
  have hold : (k t).map P.calling = (s.thr t).calls := hf t
  cases hs with
  | @move u a m x hmove _ =>
    show _ = (Function.update s.thr u x t).calls
    by_cases ht : t = u
    · subst ht
      rw [Function.update_self]
      exact hm.fits (hold ▸ hmove.calls)
    · rw [Function.update_of_ne ht, ← hold, hm.other fun d b he => ht ?_]
      cases he
      rfl
  | @fenceRun u f pc pc' ev p hit _ hframe _ =>
    rw [hm.other nofun, hold]
    -- the thread in the fence stays in it, and the kernel's rule touches no frame
    have hevent (c : Bool) (x : Thr M.img.Site) :
        (if c then x.event M.img else x).calls = x.calls := by
      cases c <;> rfl
    refine Eq.trans ?_ (hevent _ _).symm
    split
    · next he =>
      subst he
      show (s.thr t).top.frame.called :: _ = _
      rw [hframe]
      rfl
    · rfl
  | write x v =>
    rw [hm.other nofun]
    exact hold

/-- A run of a program is one of the machine. -/
theorem run_machine {p₀ p : Sys Tid M.img.Site × (Tid → List P.Job)}
    (hr : LTS.Run (P.Step M) p₀ h p) : LTS.Run M.Step p₀.1 h p.1 := by
  induction hr with
  | nil => exact .nil
  | cons _ hs ih => exact ih.cons hs.1

/-- **The jobs fit**, in every reachable state. -/
theorem fits_run {p₀ p : Sys Tid M.img.Site × (Tid → List P.Job)} (hi : P.Initial M p₀)
    (hr : LTS.Run (P.Step M) p₀ h p) : P.Fits p.1 p.2 := by
  induction hr with
  | nil =>
    intro t
    rw [hi.rest t]
    show [P.calling P.rest] = (p₀.1.thr t).top.frame.called :: (p₀.1.thr t).below.map _
    rw [P.calling_rest, hi.machine.idle t, hi.machine.below t]
    rfl
  | cons _ hs ih => exact ih.step hs.1 hs.2

omit [DecidableEq Tid] in
theorem Fits.forall₂ (hf : P.Fits s k) (t : Tid) :
    List.Forall₂ (fun j y => P.calling j = y.frame.called) (k t) (s.thr t).stack := by
  have h : List.Forall₂ (· = ·) ((k t).map P.calling)
      ((s.thr t).stack.map fun y => y.frame.called) := by
    rw [hf t]
    exact List.forall₂_refl _
  rwa [List.forall₂_map_left_iff, List.forall₂_map_right_iff] at h

omit [DecidableEq Tid] in
/-- The job of a context, by the call it is in. -/
theorem Fits.job (hf : P.Fits s k) {t : Tid} {d : ℕ} {y : Ctx M.img.Site}
    (hy : ctxAt (s.thr t).stack d = some y) :
    ∃ j, ctxAt (k t) d = some j ∧ P.calling j = y.frame.called :=
  ctxAt_forall₂ (hf.forall₂ t).flip hy

omit [DecidableEq Tid] in
/-- The context of a job. -/
theorem Fits.ctx (hf : P.Fits s k) {t : Tid} {d : ℕ} {j : P.Job}
    (hj : ctxAt (k t) d = some j) :
    ∃ y, ctxAt (s.thr t).stack d = some y ∧ P.calling j = y.frame.called :=
  ctxAt_forall₂ (hf.forall₂ t) hj

omit [DecidableEq Tid] in
theorem Fits.length (hf : P.Fits s k) (t : Tid) : (k t).length = (s.thr t).depth + 1 := by
  have hlen := congrArg List.length (hf t)
  rw [List.length_map, List.length_map] at hlen
  exact hlen

/-- Every step of a reachable state, seen by any job. -/
theorem job_step {p₀ p p' : Sys Tid M.img.Site × (Tid → List P.Job)} (hi : P.Initial M p₀)
    (hr : LTS.Run (P.Step M) p₀ h p) (hs : P.Step M p l p') (t : Tid) (d : ℕ) :
    P.JobStep (fun t => (p.1.thr t).area) p.1.mem t d l (ctxAt (p.2 t) d) (ctxAt (p'.2 t) d) := by
  refine hs.2.job t d ?_
  rintro e a rfl
  -- the jobs of a thread are as many as its contexts
  have hdepth := hs.1.act_depth
  rw [hdepth]
  exact (fits_run hi hr).length t

/-- A job in a call whose keys agree is in its op. -/
theorem frame_of_job {p₀ p : Sys Tid M.img.Site × (Tid → List P.Job)} {t : Tid} {d : ℕ}
    {j : P.Job} {c : Call} (hi : P.Initial M p₀) (hr : LTS.Run (P.Step M) p₀ h p)
    (hj : ctxAt (p.2 t) d = some j) (hc : P.calling j = some c) (hk : c.op.keysAgree = true) :
    ∃ y site, ctxAt (p.1.thr t).stack d = some y ∧ y.frame = .op c site := by
  obtain ⟨y, hy, hcall⟩ := (fits_run hi hr).ctx hj
  rw [hc] at hcall
  cases hf : y.frame with
  | op c' site =>
    rw [hf] at hcall
    cases hcall
    exact ⟨y, site, hy, hf⟩
  | refused c' =>
    rw [hf] at hcall
    cases hcall
    obtain ⟨a, ha, hrel⟩ := refine_run hi.machine (run_machine hr)
    obtain ⟨w, hw, hyw⟩ := (hrel.thr t).ctx hy
    obtain ⟨rfl, _⟩ := hyw.works hf
    have hfalse := Stage.refused_run p₀.1.initial_stages ha t d c hw
    rw [hk] at hfalse
    cases hfalse
  | _ =>
    rw [hf] at hcall
    cases hcall

/-! ### Schedules -/

/-- The acts of thread `t` move its job on, and it runs no handlers. -/
theorem Moves.single {jobs : Tid → P.Job} {t : Tid} {d : ℕ} {a : Act} {j : P.Job}
    (ht : P.Turn (area t) m a (jobs t) j) :
    P.Moves area m (fun u => [jobs u]) (.act t d a) fun u => [Function.update jobs t j u] := by
  have hmove : P.Moves area m (fun u => [jobs u]) (.act t d a)
      (Function.update (fun u => [jobs u]) t [j]) := .turn rfl ht
  have he : Function.update (fun u => [jobs u]) t [j] = fun u => [Function.update jobs t j u] := by
    funext u
    by_cases hu : u = t
    · subst hu
      rw [Function.update_self, Function.update_self]
    · rw [Function.update_of_ne hu, Function.update_of_ne hu]
  exact he ▸ hmove

variable (P M) in
/-- The jobs beside the machine, as a bench of its schedules. -/
abbrev bench (s : Sys Tid M.img.Site) : (Tid → List P.Job) → Label Tid → (Tid → List P.Job) →
    Prop :=
  P.Moves (fun t => (s.thr t).area) s.mem

/-- A step that every job may sleep through. -/
def sleeps : Label Tid → Bool
  | .act _ _ a => a.idles
  | .fenceRun _ _ _ _ => true
  | .write _ _ => false

/-- **A schedule of a program** is a run of it. -/
theorem plays_run [DecidableEq M.img.Site] [Fintype Tid] (ho : M.img.Outside 0)
    {ks : List (Cmd Tid M.img.Site)} (hp : Machine.Plays M (P.bench M) sleeps s k ks k') :
    ∃ h s', M.play s ks = some (h, s') ∧ LTS.Run (P.Step M) (s, k) h (s', k') :=
  hp.run ho fun s k l hl => by
    cases l with
    | act t d a => exact .idle hl
    | fenceRun => exact .fenceRun
    | write => cases hl

end Program

end RseqRs
