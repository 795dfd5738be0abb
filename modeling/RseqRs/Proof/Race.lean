import RseqRs.Proof.Drain
import RseqRs.Proof.FenceRace

/-!
# The fences of the machine

`Race` has the fences of a process and nothing else. They are those of the machine, whatever
else runs there: forget the word ops, the caller code and the kernel, and let every context,
handlers included, be a caller of its own. What is left of a run is a run of `Race`.
-/

namespace RseqRs

section Fences

variable {Site : Type}

/-- The fence that a context is in. -/
def Frame.fenceAt : Frame Site → Option (FenceCall × RunPc)
  | .fence f pc => some (f, pc)
  | _ => none

/-- The fences of a stack of contexts, by their depths. -/
def fencesOf (cs : List (Ctx Site)) (d : ℕ) : Option (FenceCall × RunPc) :=
  (ctxAt cs d).bind fun x => x.frame.fenceAt

variable {c c' : Ctx Site} {cs : List (Ctx Site)}

theorem fencesOf_length : fencesOf cs cs.length = none := by
  cases h : ctxAt cs cs.length with
  | none => rw [fencesOf, h]; rfl
  | some x => exact absurd (ctxAt_lt h) (lt_irrefl _)

/-- The running context is on top. -/
theorem fencesOf_cons : fencesOf (c :: cs) = Function.update (fencesOf cs) cs.length
    c.frame.fenceAt := by
  funext d
  by_cases hd : d = cs.length
  · rw [hd, Function.update_self, fencesOf, ctxAt_cons_self]
    rfl
  · rw [Function.update_of_ne hd, fencesOf, ctxAt, if_neg hd]
    rfl

/-- A context that is in no fence does not count. -/
theorem fencesOf_cons_none (h : c.frame.fenceAt = none) : fencesOf (c :: cs) = fencesOf cs := by
  have hlen : c.frame.fenceAt = fencesOf cs cs.length := h.trans fencesOf_length.symm
  rw [fencesOf_cons, hlen, Function.update_eq_self]

variable {x : Thr Site}

theorem fencesOf_depth : fencesOf x.stack x.depth = x.top.frame.fenceAt := by
  rw [Thr.stack, fencesOf_cons]
  exact Function.update_self ..

/-- The running context is replaced. -/
theorem fencesOf_top :
    fencesOf (c :: x.below) = Function.update (fencesOf x.stack) x.depth c.frame.fenceAt := by
  rw [Thr.stack, fencesOf_cons, fencesOf_cons, Thr.depth, Function.update_idem]

/-- It is replaced by one in the same fence, or in none. -/
theorem fencesOf_top_same (h : c.frame.fenceAt = x.top.frame.fenceAt) :
    fencesOf (c :: x.below) = fencesOf x.stack := by
  rw [fencesOf_top, h, ← fencesOf_depth, Function.update_eq_self]

end Fences

/-- A kernel event moves no context out of its fence. -/
theorem fencesOf_event {img : Image} (x : Thr img.Site) :
    fencesOf (x.event img).stack = fencesOf x.stack := by
  have hframe : (x.event img).top.frame.fenceAt = x.top.frame.fenceAt := rfl
  exact fencesOf_top_same hframe

/-! ### Moves -/

/-- What a move leaves of the fences `F` of its thread, of which the running context has
depth `d`. -/
def Act.fences (cpus : U32) (F : ℕ → Option (FenceCall × RunPc)) (d : ℕ) :
    Act → ℕ → Option (FenceCall × RunPc)
  | .fenceCall f =>
    Function.update F d (some (f, if (f.barrier cpus).isSome then .ready else .ret false))
  | .fenceRet _ _ => Function.update F d none
  | _ => F

section Moves

variable {Tid : Type} {M : Machine Tid} {t : Tid} {m m' : Mem} {x y : Thr M.img.Site} {a : Act}
  {f : FenceCall} {b : Bool}

/-- **What a move leaves of the fences** of its thread. -/
theorem Machine.Move.fences (hm : M.Move t m x a m' y) :
    fencesOf y.stack = a.fences M.cpus (fencesOf x.stack) x.depth := by
  -- most moves are made outside fences, and stay there
  have hkeep {c : Ctx M.img.Site} (hf : x.top.frame.fenceAt = none)
      (hc : c.frame.fenceAt = none) : fencesOf (c :: x.below) = fencesOf x.stack :=
    fencesOf_top_same (hc.trans hf.symm)
  have htop {c : Ctx M.img.Site} : fencesOf (c :: x.below) =
      Function.update (fencesOf x.stack) x.depth c.frame.fenceAt := fencesOf_top
  cases hm with
  | exec _ hf _ _ => exact hkeep (by rw [hf]; rfl) rfl
  | call site g z _ hf _ _ => exact hkeep (by rw [hf]; rfl) rfl
  | callRefused _ hf _ => exact hkeep (by rw [hf]; rfl) rfl
  | ret site b _ hf _ _ => exact hkeep (by rw [hf]; rfl) rfl
  | retRefused _ hf => exact hkeep (by rw [hf]; rfl) rfl
  | goto b g z _ hf _ => exact hkeep (by rw [hf]; rfl) rfl
  | unload => rfl
  | preempt => rfl
  | resume => exact fencesOf_event x
  | signal =>
    -- the handler is in no fence
    exact (fencesOf_cons_none rfl).trans (fencesOf_event x)
  | sigreturn _ hf hb =>
    have htop : fencesOf x.stack = fencesOf x.below := fencesOf_cons_none (by rw [hf]; rfl)
    rw [htop, hb]
    rfl
  | fenceCall f _ hf => exact htop (c := { x.top with frame := .fence f _ })
  | fenceRet _ hf => exact htop (c := { x.top with frame := .idle })

theorem Machine.Move.fenceCall_none (hm : M.Move t m x (.fenceCall f) m' y) :
    fencesOf x.stack x.depth = none := by
  cases hm with
  | fenceCall _ _ hf => rw [fencesOf_depth, hf]; rfl

theorem Machine.Move.fenceRet_some (hm : M.Move t m x (.fenceRet f b) m' y) :
    fencesOf x.stack x.depth = some (f, .ret b) := by
  cases hm with
  | fenceRet _ hf => rw [fencesOf_depth, hf]; rfl

end Moves

/-! ### Steps and runs -/

section Machine

variable {Tid : Type}

/-- What `Race` sees of a process. -/
def Sys.race {Site : Type} (s : Sys Tid Site) : Race.State (Tid × ℕ) :=
  ⟨s.flags, fun i => fencesOf (s.thr i.1).stack i.2⟩

/-- What `Race` sees of a step. -/
def Label.race : Label Tid → Option ((Tid × ℕ) × Race.Act)
  | .act t d (.fenceCall f) => some ((t, d), .call f)
  | .act t d (.fenceRet f b) => some ((t, d), .ret f b)
  | .fenceRun t d ev _ => some ((t, d), .run ev)
  | _ => none

/-- The kernel accepts what the step asks of it. -/
def Label.Accepted : Label Tid → Prop
  | .fenceRun _ _ ev _ => ev.Accepting
  | _ => True

variable [DecidableEq Tid] {M : Machine Tid} {s s' s₀ : Sys Tid M.img.Site} {l : Label Tid}
  {h : List (Label Tid)}

/-- One context of one thread has changed. -/
theorem race_update {Site : Type} {thr thr' : Tid → Thr Site} {t : Tid} {d : ℕ}
    {v : Option (FenceCall × RunPc)}
    (hother : ∀ u, u ≠ t → fencesOf (thr' u).stack = fencesOf (thr u).stack)
    (ht : fencesOf (thr' t).stack = Function.update (fencesOf (thr t).stack) d v) :
    (fun i : Tid × ℕ => fencesOf (thr' i.1).stack i.2) =
      Function.update (fun i : Tid × ℕ => fencesOf (thr i.1).stack i.2) (t, d) v := by
  funext i
  obtain ⟨u, e⟩ := i
  by_cases hu : u = t
  · subst hu
    by_cases he : e = d
    · subst he
      rw [Function.update_self, ht]
      exact Function.update_self ..
    · rw [Function.update_of_ne fun hue => he (congrArg Prod.snd hue), ht]
      exact Function.update_of_ne he ..
  · rw [Function.update_of_ne fun hue => hu (congrArg Prod.fst hue), hother u hu]

/-- **One step** of the machine is one of `Race`, or none. -/
theorem race_step (hs : M.Step s l s' ∧ l.Accepted) :
    (∀ e, l.race = some e → Race.Step M.cpus s.race e s'.race) ∧
      (l.race = none → s'.race = s.race) := by
  obtain ⟨hs, hacc⟩ := hs
  cases hs with
  | @move t a m x hm hfree =>
    have hfences := hm.fences
    have hother (u : Tid) (hu : u ≠ t) :
        fencesOf (Function.update s.thr t x u).stack = fencesOf (s.thr u).stack := by
      rw [Function.update_of_ne hu]
    -- a move that is not about fences
    have hkeep (hx : fencesOf x.stack = fencesOf (s.thr t).stack) :
        Sys.race { s with mem := m, thr := Function.update s.thr t x } = s.race := by
      have hthr (u : Tid) :
          fencesOf (Function.update s.thr t x u).stack = fencesOf (s.thr u).stack := by
        by_cases hu : u = t
        · rw [hu, Function.update_self, hx]
        · exact hother u hu
      exact congrArg (Race.State.mk s.flags) (funext fun i => congrFun (hthr i.1) i.2)
    have hchange {d : ℕ} {v : Option (FenceCall × RunPc)}
        (hx : fencesOf x.stack = Function.update (fencesOf (s.thr t).stack) d v) :
        Sys.race { s with mem := m, thr := Function.update s.thr t x } =
          ⟨s.flags, Function.update s.race.call (t, d) v⟩ := by
      have hself : fencesOf (Function.update s.thr t x t).stack =
          Function.update (fencesOf (s.thr t).stack) d v := by
        rw [Function.update_self]
        exact hx
      exact congrArg (Race.State.mk s.flags) (race_update hother hself)
    -- only calls and returns of fences are seen
    cases a with
    | fenceCall f =>
      refine ⟨fun e he => ?_, nofun⟩
      cases he
      rw [hchange hfences]
      exact .call _ f hm.fenceCall_none
    | fenceRet f b =>
      refine ⟨fun e he => ?_, nofun⟩
      cases he
      rw [hchange hfences]
      exact .ret hm.fenceRet_some
    | _ => exact ⟨nofun, fun _ => hkeep hfences⟩
  | @fenceRun t f pc pc' ev p hit hr hf hrun hre =>
    -- a barrier that reaches a thread takes none of its contexts out of a fence
    have hif (u : Tid) (y : Thr M.img.Site) :
        fencesOf (if hit u then y.event M.img else y).stack = fencesOf y.stack := by
      split
      · exact fencesOf_event y
      · rfl
    have htop : fencesOf ({ (s.thr t).top with frame := .fence f pc' } :: (s.thr t).below) =
        Function.update (fencesOf (s.thr t).stack) (s.thr t).depth (some (f, pc')) :=
      fencesOf_top
    have hrace : Sys.race (M.fenced s t f pc' p hit) =
        ⟨p, Function.update s.race.call (t, (s.thr t).depth) (some (f, pc'))⟩ := by
      refine congrArg (Race.State.mk p) (race_update (fun u hu => ?_) ?_)
      · refine (hif u _).trans ?_
        rw [if_neg hu]
      · refine (hif t _).trans ?_
        rw [if_pos rfl]
        exact htop
    refine ⟨fun e he => ?_, nofun⟩
    cases he
    rw [hrace]
    refine .run f pc ?_ hrun hacc
    show fencesOf (s.thr t).stack (s.thr t).depth = _
    rw [fencesOf_depth, hf]
    rfl
  | write b v => exact ⟨nofun, fun _ => rfl⟩

/-- **The fences of the machine are a race**: a run in which the kernel accepts, with everything
but the fences forgotten, is a run of `Race`. -/
theorem fences_race (hr : LTS.Run (fun s l s' => M.Step s l s' ∧ l.Accepted) s₀ h s) :
    LTS.Run (Race.Step M.cpus) s₀.race (h.filterMap Label.race) s.race :=
  hr.project fun _ _ _ => race_step

end Machine

/-- The steps of the process that makes its first fence are all accepted. -/
theorem casFenced_accepted :
    ∀ l ∈ .act () 0 (.fenceRet .fenceAll true) :: casFenceSteps ++
      [.act () 0 (.fenceCall .fenceAll), .act () 0 (.resume 0 0)], Label.Accepted l := by
  intro l hl
  simp only [casFenceSteps, List.cons_append, List.nil_append, List.mem_cons,
    List.not_mem_nil, or_false] at hl
  obtain rfl | rfl | rfl | rfl | rfl | rfl := hl
  · trivial
  · trivial
  · intro h
    cases h
  · exact rfl
  · trivial
  · trivial

/-- Its fence, in `Race`: one caller, five steps. -/
theorem fences_race_casFenced :
    LTS.Run (Race.Step casMachine.cpus) (casMachine.boot fun _ => 0).race
      [(((), 0), .ret .fenceAll true), (((), 0), .run .store), (((), 0), .run (.barrier .ok)),
        (((), 0), .run (.init true)), (((), 0), .call .fenceAll)] casFenced.race :=
  fences_race (casFenced_run.restrict casFenced_accepted)

end RseqRs
