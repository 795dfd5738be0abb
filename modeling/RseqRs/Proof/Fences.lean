import RseqRs.Proof.Drain

/-!
# One registration

In a process that has not forked, the register command is issued once, by the fence that
comes first to `READY.get_or_init`, and its answer is the answer of all. So no barrier is
refused with `EPERM`, the retry is not reached, and a fence returns what its barrier says.
-/

namespace RseqRs

section History

variable {Tid : Type}

/-- The step issues the register command. -/
def Label.registers : Label Tid → Bool
  | .fenceRun _ _ (.init _) _ | .fenceRun _ _ (.register _) _ => true
  | _ => false

/-- `READY` was initialised with the answer `ok`. -/
def Readied (ok : Bool) (h : List (Label Tid)) : Prop :=
  ∃ t d hit, .fenceRun t d (.init ok) hit ∈ h

/-- Since the context of `t` at depth `d` called a fence, its barrier has answered `rc`. -/
def Answered (t : Tid) (d : ℕ) (rc : Rc) (h : List (Label Tid)) : Prop :=
  ∃ h₁ h₂ hit, h = h₂ ++ .fenceRun t d (.barrier rc) hit :: h₁ ∧
    ∀ f, .act t d (.fenceCall f) ∉ h₂

variable {h : List (Label Tid)} {l : Label Tid} {t : Tid} {d : ℕ} {ok : Bool} {rc : Rc}

theorem readied_cons (hl : ∀ t d hit, l ≠ .fenceRun t d (.init ok) hit) :
    Readied ok (l :: h) ↔ Readied ok h := by
  constructor
  · rintro ⟨t, d, hit, hm⟩
    rcases List.mem_cons.mp hm with rfl | hm
    · exact absurd rfl (hl t d hit)
    · exact ⟨t, d, hit, hm⟩
  · rintro ⟨t, d, hit, hm⟩
    exact ⟨t, d, hit, List.mem_cons_of_mem _ hm⟩

theorem Readied.cons (hr : Readied ok h) : Readied ok (l :: h) := by
  obtain ⟨t, d, hit, hm⟩ := hr
  exact ⟨t, d, hit, List.mem_cons_of_mem _ hm⟩

theorem Answered.cons (ha : Answered t d rc h) (hl : ∀ f, l ≠ .act t d (.fenceCall f)) :
    Answered t d rc (l :: h) := by
  obtain ⟨h₁, h₂, hit, rfl, hno⟩ := ha
  refine ⟨h₁, l :: h₂, hit, rfl, fun f hm => ?_⟩
  rcases List.mem_cons.mp hm with he | hm
  · exact hl f he.symm
  · exact hno f hm

end History

/-- **The fences agree**: on one registration, and with their barriers. -/
structure FencesAgree {Tid : Type} (M : Machine Tid) (h : List (Label Tid)) : Prop where
  /-- the register command is issued at most once -/
  once : h.countP Label.registers ≤ 1
  /-- no barrier is refused for a missing registration -/
  granted : ∀ t d hit, .fenceRun t d (.barrier .eperm) hit ∉ h
  /-- a fence that returns true has passed the checks, and its barrier has answered `0` -/
  passed : ∀ t d f h₁ h₂, h = h₂ ++ .act t d (.fenceRet f true) :: h₁ →
    (f.barrier M.cpus).isSome ∧ Readied true h₁ ∧ Answered t d .ok h₁
  /-- one that returns false has failed a check, or nobody can fence, or its barrier failed -/
  failed : ∀ t d f h₁ h₂, h = h₂ ++ .act t d (.fenceRet f false) :: h₁ →
    (f.barrier M.cpus).isSome → Readied false h₁ ∨ Answered t d .err h₁
  /-- all fences that pass the checks return the same, unless a barrier failed -/
  agree : (∀ t d hit, .fenceRun t d (.barrier .err) hit ∉ h) → ∀ t d f b t' d' f' b',
    .act t d (.fenceRet f b) ∈ h → (f.barrier M.cpus).isSome →
    .act t' d' (.fenceRet f' b') ∈ h → (f'.barrier M.cpus).isSome → b = b'

namespace Stage

variable {Tid : Type} {M : Machine Tid} {s s' s₀ : Sys Tid} {l : Label Tid}
  {t : Tid} {d : ℕ} {h h' : List (Label Tid)} {p p' : Flags} {pc pc' : RunPc} {ev : RunEv}
  {f : FenceCall} {rc : Rc}

/-! ### The flags -/

/-- `READY` says what the one register command has answered, and so does the kernel. -/
structure FlagsOk (h : List (Label Tid)) (p : Flags) : Prop where
  ready : ∀ ok, Readied ok h ↔ p.ready = some ok
  registered : p.registered = true ↔ p.ready = some true
  once : h.countP Label.registers = if p.ready.isSome then 1 else 0

theorem FlagsOk.fresh : FlagsOk ([] : List (Label Tid)) .fresh where
  ready ok := iff_of_false (by rintro ⟨t, d, hit, hm⟩; cases hm) nofun
  registered := iff_of_false nofun nofun
  once := rfl

/-- A step that issues no register command. -/
theorem FlagsOk.keep (hp : FlagsOk h p) (hready : p'.ready = p.ready)
    (hreg : p'.registered = p.registered) (hl : l.registers = false) : FlagsOk (l :: h) p' where
  ready ok := by
    rw [hready, ← hp.ready ok]
    refine readied_cons fun t d hit he => ?_
    subst he
    cases hl
  registered := by rw [hreg, hready]; exact hp.registered
  once := by rw [List.countP_cons, hl, hready]; exact hp.once

/-- **A step of `run`**, if it is not the second `register`. -/
theorem FlagsOk.run {hit : Tid → Bool} (hp : FlagsOk h p) (hr : RunStep p pc ev p' pc')
    (hpc : pc ≠ .register) : FlagsOk (.fenceRun t d ev hit :: h) p' := by
  cases hr with
  | init ok hnone =>
    refine ⟨fun ok' => ?_, ?_, ?_⟩
    · constructor
      · rintro ⟨t', d', hit', hm⟩
        rcases List.mem_cons.mp hm with he | hm
        · cases he
          rfl
        · -- `READY` has not been initialised before
          have hsome := (hp.ready ok').mp ⟨t', d', hit', hm⟩
          rw [hnone] at hsome
          cases hsome
      · intro hok
        cases hok
        exact ⟨t, d, hit, List.mem_cons_self ..⟩
    · have hreg : p.registered = false := by
        refine Bool.eq_false_iff.mpr fun hreg => ?_
        have hsome := hp.registered.mp hreg
        rw [hnone] at hsome
        cases hsome
      show (p.registered || ok) = true ↔ some ok = some true
      rw [hreg, Bool.false_or, Option.some_inj]
    · have hcount := hp.once
      rw [hnone] at hcount
      rw [List.countP_cons, hcount]
      rfl
  | register ok => exact absurd rfl hpc
  | _ => exact hp.keep rfl rfl rfl

/-! ### The contexts -/

/-- Where the fence `f` of a context stands. A fence that passed its checks never comes to
the retry. -/
def Standing (M : Machine Tid) (h : List (Label Tid)) (t : Tid) (d : ℕ) (f : FenceCall) :
    RunPc → Prop
  | .ready => (f.barrier M.cpus).isSome
  | .barrier => (f.barrier M.cpus).isSome ∧ Readied true h
  | .store | .ret true => (f.barrier M.cpus).isSome ∧ Readied true h ∧ Answered t d .ok h
  | .ret false => (f.barrier M.cpus).isSome → Readied false h ∨ Answered t d .err h
  | .swap | .register | .retry => False

theorem Standing.cons (hs : Standing M h t d f pc) (hl : ∀ f, l ≠ .act t d (.fenceCall f)) :
    Standing M (l :: h) t d f pc := by
  cases pc with
  | ready => exact hs
  | barrier => exact ⟨hs.1, hs.2.cons⟩
  | store => exact ⟨hs.1, hs.2.1.cons, hs.2.2.cons hl⟩
  | ret b =>
    cases b with
    | true => exact ⟨hs.1, hs.2.1.cons, hs.2.2.cons hl⟩
    | false =>
      intro hb
      rcases hs hb with hr | ha
      · exact Or.inl hr.cons
      · exact Or.inr (ha.cons hl)
  | _ => exact hs.elim

/-- With the `mm` registered, no barrier answers `EPERM`. -/
theorem FlagsOk.not_eperm (hp : FlagsOk h p) (hr : Readied true h) (ha : p.Answers rc) :
    rc ≠ .eperm := by
  intro he
  have hreg : p.registered = true := hp.registered.mpr ((hp.ready true).mp hr)
  rw [ha.mp he] at hreg
  cases hreg

/-- **A step of `run`** leads from one standing to the next. -/
theorem Standing.run {hit : Tid → Bool} (hs : Standing M h t d f pc) (hp : FlagsOk h p)
    (hr : RunStep p pc ev p' pc') : Standing M (.fenceRun t d ev hit :: h) t d f pc' := by
  have hstays {ev : RunEv} {pc : RunPc} (hst : Standing M h t d f pc) :
      Standing M (.fenceRun t d ev hit :: h) t d f pc := hst.cons nofun
  cases hr with
  | @ready b hb =>
    have hready : Readied b h := (hp.ready b).mpr hb
    cases b with
    | true => exact ⟨hs, hready.cons⟩
    | false => exact fun _ => Or.inl hready.cons
  | init ok hnone =>
    have hready : Readied ok (.fenceRun t d (.init ok) hit :: h) :=
      ⟨t, d, hit, List.mem_cons_self ..⟩
    cases ok with
    | true => exact ⟨hs, hready⟩
    | false => exact fun _ => Or.inl hready
  | @barrier rc ha =>
    have hnow : Answered t d rc (.fenceRun t d (.barrier rc) hit :: h) := ⟨h, [], hit, rfl, nofun⟩
    cases rc with
    | ok => exact ⟨hs.1, hs.2.cons, hnow⟩
    | eperm => exact absurd rfl (hp.not_eperm hs.2 ha)
    | err => exact fun _ => Or.inr hnow
  | store => exact hstays hs
  | _ => exact hs.elim

/-- **The invariant.** -/
structure OneRegistration (M : Machine Tid) (h : List (Label Tid)) (s : Sys Tid) : Prop where
  flags : FlagsOk h s.flags
  standing : ∀ t d f pc, s.ctx t d = some (.fence f pc) → Standing M h t d f pc

variable [DecidableEq Tid]

theorem OneRegistration.step (hi : OneRegistration M h s) (hs : SysStep M s l s') :
    OneRegistration M (l :: h) s' := by
  refine ⟨?_, fun t d f pc hc => ?_⟩
  · cases hs with
    | move hm _ => exact hi.flags.keep rfl rfl rfl
    | @fenceRun t f pc pc' ev p hit hr htop hrun hre =>
      refine hi.flags.run hrun ?_
      -- no fence comes to the second `register`
      rintro rfl
      exact hi.standing t _ f .register (by rw [s.ctx_depth, htop])
    | write a v => exact hi.flags.keep rfl rfl rfl
  · rcases hs.ctx_back hc with ⟨w, hw, hstep⟩ | he
    · have hother (hl : l.own t d = false) (f : FenceCall) : l ≠ .act t d (.fenceCall f) := by
        rintro rfl
        rw [Label.own_self rfl] at hl
        cases hl
      generalize hw' : some (Work.fence f pc) = o at hstep
      cases hstep with
      | keep hl =>
        cases hw'
        exact (hi.standing t d f pc hw).cons (hother hl)
      | event hl _ =>
        cases w with
        | fence f' pc' =>
          cases hw'
          exact (hi.standing t d f pc hw).cons (hother hl)
        | op c st log => cases st <;> cases hw'
        | _ => cases hw'
      | turn ht =>
        cases ht with
        | fenceCall f' =>
          cases hw'
          split
          · next hb => exact hb
          · next hb => exact fun hb' => absurd hb' hb
        | _ => cases hw'
      | fence hr =>
        cases hw'
        exact (hi.standing t d f _ hw).run hi.flags hr
      | _ => cases hw'
    · cases he

theorem oneRegistration_run (hi : Initial s₀) (hf : s₀.flags = .fresh)
    (hr : LTS.Run (SysStep M) s₀ h s) : OneRegistration M h s := by
  refine hr.invariant (I := fun h s => OneRegistration M h s) ⟨hf ▸ .fresh, fun t d f pc hc => ?_⟩
    fun _ _ _ _ _ hone hs => hone.step hs
  rcases Sys.ctx_cases hc with ⟨_, htop⟩ | ⟨_, hb⟩
  · rw [hi.idle t] at htop
    cases htop
  · rw [hi.below t] at hb
    cases hb

/-! ### Returns -/

/-- The fence that returns has stood before its return. -/
theorem SysStep.fenceRet {b : Bool} (hs : SysStep M s (.act t d (.fenceRet f b)) s') :
    s.ctx t d = some (.fence f (.ret b)) := by
  cases hs with
  | move hm _ =>
    rw [s.ctx_depth]
    cases hm with
    | turn _ htop ht =>
      cases ht
      rw [htop]

/-- What holds of a fence that has returned, held when it was about to. -/
theorem standing_of_ret {b : Bool} (hi : Initial s₀) (hf : s₀.flags = .fresh)
    (hr : LTS.Run (SysStep M) s₀ (h' ++ .act t d (.fenceRet f b) :: h) s) :
    Standing M h t d f (.ret b) := by
  obtain ⟨_, hr, _⟩ := hr.split
  cases hr with
  | cons hr hs => exact (oneRegistration_run hi hf hr).standing t d f _ hs.fenceRet

theorem fencesAgree_run (hi : Initial s₀) (hf : s₀.flags = .fresh)
    (hr : LTS.Run (SysStep M) s₀ h s) : FencesAgree M h := by
  have hinv := oneRegistration_run hi hf hr
  have hret (t : Tid) (d : ℕ) (f : FenceCall) (b : Bool) (h₁ h₂ : List (Label Tid))
      (he : h = h₂ ++ .act t d (.fenceRet f b) :: h₁) : Standing M h₁ t d f (.ret b) :=
    standing_of_ret hi hf (he ▸ hr)
  refine ⟨?_, fun t d hit hm => ?_, fun t d f h₁ h₂ => hret t d f true h₁ h₂,
    fun t d f h₁ h₂ => hret t d f false h₁ h₂, fun hno t d f b t' d' f' b' hb hf hb' hf' => ?_⟩
  · rw [hinv.flags.once]
    split
    · exact le_rfl
    · exact Nat.zero_le _
  · -- the barrier was called in a process that is registered
    obtain ⟨h₂, h₁, he⟩ := List.append_of_mem hm
    obtain ⟨_, hr, _⟩ := (he ▸ hr).split
    cases hr with
    | cons hr hs =>
      have hinv₁ := oneRegistration_run hi hf hr
      cases hs with
      | fenceRun _ htop hrun =>
        have hst := hinv₁.standing t _ _ _ (by rw [Sys.ctx_depth, htop])
        cases hrun with
        | barrier ha => exact hinv₁.flags.not_eperm hst.2 ha rfl
  · -- both have returned the answer of the one register command
    have hreadied {t : Tid} {d : ℕ} {f : FenceCall} {b : Bool}
        (hm : .act t d (.fenceRet f b) ∈ h) (hf : (f.barrier M.cpus).isSome) : Readied b h := by
      obtain ⟨h₂, h₁, he⟩ := List.append_of_mem hm
      have hst := hret t d f b h₁ h₂ he
      have hmem {l : Label Tid} (hl : l ∈ h₁) : l ∈ h :=
        he ▸ List.mem_append_right _ (List.mem_cons_of_mem _ hl)
      cases b with
      | true =>
        obtain ⟨_, ⟨t, d, hit, hi⟩, _⟩ := hst
        exact ⟨t, d, hit, hmem hi⟩
      | false =>
        rcases hst hf with ⟨t, d, hit, hi⟩ | ⟨g₁, g₂, hit, he', _⟩
        · exact ⟨t, d, hit, hmem hi⟩
        · refine absurd (hmem ?_) (hno t d hit)
          rw [he']
          exact List.mem_append_right _ (List.mem_cons_self ..)
    have hsome := (hinv.flags.ready b).mp (hreadied hb hf)
    rw [(hinv.flags.ready b').mp (hreadied hb' hf')] at hsome
    exact (Option.some_inj.mp hsome).symm

end Stage

/-! ### The machine -/

section Machine

variable {Tid : Type} [DecidableEq Tid] {M : Machine Tid} {s₀ s : Sys Tid M.img.Site}
  {h : List (Label Tid)}

/-- **One registration**: the fences of a process that has not forked agree, in every run. -/
theorem fences_agree (hi : M.Initial s₀) (hf : s₀.flags = .fresh)
    (hr : LTS.Run M.Step s₀ h s) : FencesAgree M h := by
  obtain ⟨a, ha, _⟩ := refine_run hi hr
  exact Stage.fencesAgree_run s₀.initial_stages hf ha

end Machine

/-- In the process whose first fence has returned true. -/
theorem fences_agree_casFenced :
    Flags.fresh.ready = none ∧ FencesAgree casMachine
      (.act () 0 (.fenceRet .fenceAll true) :: casFenceSteps ++
        [.act () 0 (.fenceCall .fenceAll), .act () 0 (.resume 0 0)]) :=
  ⟨rfl, fences_agree (casMachine_initial _) rfl casFenced_run⟩

end RseqRs
