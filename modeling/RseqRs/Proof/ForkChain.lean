import RseqRs.Model.Membarrier

/-!
# Fences down a chain of forks

One single-threaded path down a fork tree, as the list of what its processes do.
The retry after `EPERM` succeeds but, unlike the first barrier, leaves `USED`
false, so the permission to register again is lost unless the same process
fences once more before it forks. `survives_iff` is the exact condition under
which every fence on the path returns true.
-/

namespace RseqRs

/-- An action on a path down the fork tree: a fence, or a fork after which the
path goes on in the child. -/
inductive LineageAct where
  | fence (f : FenceCall)
  | fork

/-- The fences on a path that starts with flags `p`, with their results. -/
def lineage (cpus : U32) : Flags → List LineageAct → List (FenceCall × Bool)
  | _, [] => []
  | p, .fence f :: as => (f, (p.fence cpus f).1) :: lineage cpus (p.fence cpus f).2 as
  | p, .fork :: as => lineage cpus p.fork as

/-- Every counted fence on the path returns true. -/
def Survives (cpus : U32) (p : Flags) (as : List LineageAct) : Prop :=
  ∀ r ∈ lineage cpus p as, r.1.Counted cpus → r.2 = true

instance (cpus : U32) (p : Flags) (as : List LineageAct) : Decidable (Survives cpus p as) :=
  inferInstanceAs (Decidable (∀ _ ∈ _, _))

/-- The number of calls of `Membarrier::run` in each generation of a path. -/
def generations (cpus : U32) : List LineageAct → List ℕ
  | [] => [0]
  | .fork :: as => 0 :: generations cpus as
  | .fence f :: as =>
    match f.barrier cpus with
    | some _ => ((generations cpus as).headD 0 + 1) :: (generations cpus as).tail
    | none => generations cpus as

/-- The generations that fence at all. -/
def fencing (cpus : U32) (as : List LineageAct) : List ℕ :=
  (generations cpus as).filter (· ≠ 0)

/-- No generation strictly between the first and the last that fence makes
exactly one fence. -/
def NoLoneRetry (cpus : U32) (as : List LineageAct) : Prop :=
  1 ∉ (fencing cpus as).tail.dropLast

/-- Every counted CPU the path fences is a `c_int`. -/
def FitsCInt (cpus : U32) (as : List LineageAct) : Prop :=
  ∀ f, .fence f ∈ as → f.Counted cpus → f.FitsCInt

/-! ### The flags between two actions -/

namespace Flags

/-- The mm is registered and a direct barrier succeeded last. -/
def settled : Flags := ⟨some true, true, true⟩

/-- A child that may still register again. -/
def inherited : Flags := ⟨some true, true, false⟩

/-- The retry succeeded last. -/
def retried : Flags := ⟨some true, false, true⟩

/-- A child of a process whose last fence was the retry. -/
def stranded : Flags := ⟨some true, false, false⟩

end Flags

/-! ### `run`, alone -/

/-- Against an accepting kernel a step of `run` has one outcome. -/
theorem RunStep.unique {p p₁ p₂ : Flags} {pc pc₁ pc₂ : RunPc} {ev₁ ev₂ : RunEv}
    (h₁ : RunStep p pc ev₁ p₁ pc₁) (a₁ : ev₁.Accepting)
    (h₂ : RunStep p pc ev₂ p₂ pc₂) (a₂ : ev₂.Accepting) : p₁ = p₂ ∧ pc₁ = pc₂ := by
  cases h₁ with
  | ready e₁ =>
    cases h₂ with
    | ready e₂ =>
      obtain rfl := Option.some_inj.mp (e₁.symm.trans e₂)
      exact ⟨rfl, rfl⟩
    | init ok e₂ => rw [e₁] at e₂; cases e₂
  | init ok e₁ =>
    cases h₂ with
    | ready e₂ => rw [e₁] at e₂; cases e₂
    | init ok' e₂ =>
      obtain rfl : ok = true := a₁
      obtain rfl : ok' = true := a₂
      exact ⟨rfl, rfl⟩
  | barrier e₁ =>
    cases h₂ with
    | barrier e₂ =>
      obtain rfl := (e₁.eq a₁).trans (e₂.eq a₂).symm
      exact ⟨rfl, rfl⟩
  | store => cases h₂; exact ⟨rfl, rfl⟩
  | swap => cases h₂; exact ⟨rfl, rfl⟩
  | register ok =>
    cases h₂ with
    | register ok' =>
      obtain rfl : ok = true := a₁
      obtain rfl : ok' = true := a₂
      exact ⟨rfl, rfl⟩
  | retry e₁ =>
    cases h₂ with
    | retry e₂ =>
      obtain rfl := (e₁.eq a₁).trans (e₂.eq a₂).symm
      exact ⟨rfl, rfl⟩

theorem RunsTo.unique {p p₁ p₂ : Flags} {pc : RunPc} {b₁ b₂ : Bool} (h₁ : RunsTo p pc b₁ p₁)
    (h₂ : RunsTo p pc b₂ p₂) : b₁ = b₂ ∧ p₁ = p₂ := by
  induction h₁ with
  | ret =>
    cases h₂ with
    | ret => exact ⟨rfl, rfl⟩
    | step hs _ _ => cases hs
  | step hs ha _ ih =>
    cases h₂ with
    | ret => cases hs
    | step hs' ha' hr' =>
      obtain ⟨rfl, rfl⟩ := hs.unique ha hs' ha'
      exact ih hr'

/-- From the barrier on, with no other thread, `run` goes as `Flags.run` says. -/
theorem runsTo_barrier (p : Flags) (hp : p.ready = some true) :
    RunsTo p .barrier p.run.1 p.run.2 := by
  obtain ⟨ready, used, registered⟩ := p
  obtain rfl : ready = some true := hp
  -- a registered `mm` answers at once; the others need the permission
  cases registered with
  | true => exact .step (.barrier (Flags.answers_ok rfl)) nofun (.step .store trivial .ret)
  | false =>
    refine .step (.barrier (Flags.answers_eperm rfl)) nofun (.step .swap trivial ?_)
    cases used with
    | false => exact .ret
    | true =>
      exact .step (.register true) rfl (.step (.retry (Flags.answers_ok rfl)) nofun .ret)

/-- **`Flags.run` is `Membarrier::run`** taken step by step with no other thread
between the steps. -/
theorem runsTo_iff (p p' : Flags) (b : Bool) : RunsTo p .ready b p' ↔ p.run = (b, p') := by
  have hrun : RunsTo p .ready p.run.1 p.run.2 := by
    rcases hp : p.ready with _ | _ | _
    · refine .step (.init true hp) rfl ?_
      let q : Flags := { p with ready := some true, registered := p.registered || true }
      have heq : p.run = q.run := by simp only [q, Flags.run, Flags.getReady, hp, Bool.or_true]
      rw [heq]
      exact runsTo_barrier q rfl
    · have heq : p.run = (false, p) := by simp only [Flags.run, Flags.getReady, hp]; rfl
      rw [heq]
      exact .step (.ready hp) trivial .ret
    · exact .step (.ready hp) trivial (runsTo_barrier p hp)
  -- alone, `run` has one outcome
  constructor
  · intro h
    obtain ⟨rfl, rfl⟩ := h.unique hrun
    rfl
  · intro h
    rw [h] at hrun
    exact hrun

/-! ### One action at a time -/

variable {cpus : U32} {p : Flags} {f : FenceCall} {as : List LineageAct}

theorem survives_nil : Survives cpus p [] ↔ True := by
  simp [Survives, lineage]

theorem survives_fork : Survives cpus p (.fork :: as) ↔ Survives cpus p.fork as := Iff.rfl

/-- A fence that reaches `Membarrier::run`. -/
theorem survives_run (h : (f.barrier cpus).isSome) :
    Survives cpus p (.fence f :: as) ↔ p.run.1 = true ∧ Survives cpus p.run.2 as := by
  obtain ⟨b, hb⟩ := Option.isSome_iff_exists.mp h
  have hfence : p.fence cpus f = p.run := by simp only [Flags.fence, hb]
  simp only [Survives, lineage, List.forall_mem_cons, hfence,
    (FenceCall.barrier_isSome.mp h).1, true_imp_iff]

/-- A fence that does not. -/
theorem survives_none (h : f.barrier cpus = none) :
    Survives cpus p (.fence f :: as) ↔ ¬ f.Counted cpus ∧ Survives cpus p as := by
  have hfence : p.fence cpus f = (false, p) := by simp only [Flags.fence, h]
  simp only [Survives, lineage, List.forall_mem_cons, hfence, Bool.false_eq_true, imp_false]

theorem generations_ne_nil (as : List LineageAct) : generations cpus as ≠ [] := by
  induction as with
  | nil => exact List.cons_ne_nil _ _
  | cons a as ih =>
    cases a with
    | fork => exact List.cons_ne_nil _ _
    | fence f =>
      cases hb : f.barrier cpus with
      | some b => simp only [generations, hb]; exact List.cons_ne_nil _ _
      | none => simpa only [generations, hb] using ih

/-! ### The condition, generation by generation -/

/-- No element but the last is `1`. -/
def LoneLast (l : List ℕ) : Prop := 1 ∉ l.dropLast

theorem loneLast_nil : LoneLast [] := List.not_mem_nil

theorem loneLast_cons {n : ℕ} {l : List ℕ} :
    LoneLast (n :: l) ↔ (n = 1 → l = []) ∧ LoneLast l := by
  cases l with
  | nil => simp [LoneLast]
  | cons m l =>
    simp only [LoneLast, List.dropLast_cons_cons, List.mem_cons, not_or, reduceCtorEq, imp_false]
    exact and_congr_left fun _ => ne_comm

theorem loneLast_cons_of_two_le {n : ℕ} {l : List ℕ} (h : 2 ≤ n) :
    LoneLast (n :: l) ↔ LoneLast l := by
  rw [loneLast_cons]
  exact and_iff_right fun h1 => by omega

/-- What the generations `g` still to come must satisfy for all their fences to
return true, from each of the states the flags can be in between two actions. -/
structure Prospects (cpus : U32) (as : List LineageAct) (g : List ℕ) : Prop where
  fresh : Survives cpus .fresh as ↔ LoneLast (g.filter (· ≠ 0)).tail
  settled : Survives cpus .settled as ↔ LoneLast (g.tail.filter (· ≠ 0))
  inherited : Survives cpus .inherited as ↔ LoneLast (g.filter (· ≠ 0))
  /-- the generation at hand has made its retry and no other fence -/
  retried : Survives cpus .retried as ↔
    LoneLast ((g.headD 0 + 1) :: g.tail.filter (· ≠ 0))
  stranded : Survives cpus .stranded as ↔ g.filter (· ≠ 0) = []

theorem Prospects.fork {g : List ℕ} (h : Prospects cpus as g) :
    Prospects cpus (.fork :: as) (0 :: g) where
  fresh := survives_fork.trans h.fresh
  settled := survives_fork.trans h.inherited
  inherited := survives_fork.trans h.inherited
  retried := by
    -- the generation ends right after its retry: no later one may fence
    refine survives_fork.trans (h.stranded.trans ?_)
    rw [List.headD_cons, List.tail_cons, loneLast_cons]
    exact ⟨fun hg => ⟨fun _ => hg, by rw [hg]; exact loneLast_nil⟩, fun hl => hl.1 rfl⟩
  stranded := survives_fork.trans h.stranded

theorem Prospects.run {n : ℕ} {g : List ℕ} (hf : (f.barrier cpus).isSome)
    (h : Prospects cpus as (n :: g)) : Prospects cpus (.fence f :: as) ((n + 1) :: g) := by
  have hcons : ((n + 1) :: g).filter (· ≠ 0) = (n + 1) :: g.filter (· ≠ 0) :=
    List.filter_cons_of_pos (by simp)
  refine ⟨?_, ?_, ?_, ?_, ?_⟩
  · rw [hcons]
    exact (survives_run hf).trans ((and_iff_right rfl).trans h.settled)
  · exact (survives_run hf).trans ((and_iff_right rfl).trans h.settled)
  · rw [hcons]
    exact (survives_run hf).trans ((and_iff_right rfl).trans h.retried)
  · -- a second fence in the generation sets `USED` again
    refine (survives_run hf).trans ((and_iff_right rfl).trans (h.settled.trans ?_))
    exact (loneLast_cons_of_two_le (by simp)).symm
  · rw [hcons, survives_run hf]
    exact iff_of_false (fun hs => absurd hs.1 (by decide)) (List.cons_ne_nil _ _)

theorem Prospects.none {g : List ℕ} (hb : f.barrier cpus = none) (hf : ¬ f.Counted cpus)
    (h : Prospects cpus as g) : Prospects cpus (.fence f :: as) g :=
  have hskip {p : Flags} : Survives cpus p (.fence f :: as) ↔ Survives cpus p as :=
    (survives_none hb).trans (and_iff_right hf)
  ⟨hskip.trans h.fresh, hskip.trans h.settled, hskip.trans h.inherited, hskip.trans h.retried,
    hskip.trans h.stranded⟩

theorem prospects (cpus : U32) (as : List LineageAct) (hw : FitsCInt cpus as) :
    Prospects cpus as (generations cpus as) := by
  -- induction on the path, for all states of the flags at once
  induction as with
  | nil =>
    have hlone : LoneLast [1] := by simp [LoneLast]
    exact ⟨iff_of_true (survives_nil.mpr trivial) loneLast_nil,
      iff_of_true (survives_nil.mpr trivial) loneLast_nil,
      iff_of_true (survives_nil.mpr trivial) loneLast_nil,
      iff_of_true (survives_nil.mpr trivial) hlone,
      iff_of_true (survives_nil.mpr trivial) rfl⟩
  | cons a as ih =>
    have h := ih fun f hf => hw f (List.mem_cons_of_mem _ hf)
    cases a with
    | fork => exact h.fork
    | fence f =>
      cases hb : f.barrier cpus with
      | some b =>
        have hne : generations cpus as ≠ [] := generations_ne_nil as
        -- the fence is one more of the generation at hand
        obtain ⟨n, g, hg⟩ := List.exists_cons_of_ne_nil hne
        rw [hg] at h
        simp only [generations, hb, hg, List.headD_cons, List.tail_cons]
        exact h.run (by rw [hb]; rfl)
      | none =>
        have hf : ¬ f.Counted cpus := fun hc => by
          have hs := FenceCall.barrier_isSome.mpr ⟨hc, hw f (List.mem_cons_self ..) hc⟩
          rw [hb] at hs
          cases hs
        simpa only [generations, hb] using h.none hb hf

/-- A counted CPU that is no `c_int` fails its fence. -/
theorem Survives.fitsCInt (h : Survives cpus p as) : FitsCInt cpus as := by
  induction as generalizing p with
  | nil => exact fun f hf => absurd hf List.not_mem_nil
  | cons a as ih =>
    cases a with
    | fork => exact fun f hf => ih (survives_fork.mp h) f (by simpa using hf)
    | fence f =>
      intro f' hf' hc
      cases hb : f.barrier cpus with
      | some b =>
        rcases List.mem_cons.mp hf' with he | hf'
        · obtain rfl : f' = f := by injection he
          exact (FenceCall.barrier_isSome.mp (by rw [hb]; rfl)).2
        · exact ih ((survives_run (by rw [hb]; rfl)).mp h).2 f' hf' hc
      | none =>
        rcases List.mem_cons.mp hf' with he | hf'
        · obtain rfl : f' = f := by injection he
          exact absurd hc ((survives_none hb).mp h).1
        · exact ih ((survives_none hb).mp h).2 f' hf' hc

/-- **The exact condition.** From a process that has not fenced, every counted
fence down a path of forks returns true if and only if the CPUs are `c_int`s and
no generation strictly between the first and the last that fence makes exactly
one fence. -/
theorem survives_iff (cpus : U32) (as : List LineageAct) :
    Survives cpus .fresh as ↔ FitsCInt cpus as ∧ NoLoneRetry cpus as := by
  constructor
  · intro h
    exact ⟨h.fitsCInt, (prospects cpus as h.fitsCInt).fresh.mp h⟩
  · rintro ⟨hw, hl⟩
    exact (prospects cpus as hw).fresh.mpr hl

/-- Three generations that fence once each: the third fence fails. -/
theorem grandchild_fence_fails :
    ¬ Survives 1 .fresh [.fence .fenceAll, .fork, .fence .fenceAll, .fork, .fence .fenceAll] := by
  decide

end RseqRs
