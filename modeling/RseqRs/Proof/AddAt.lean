import RseqRs.Model.Script
import RseqRs.Stage.Adds

/-!
# Lost adds

A cell that one key's calls of `fetch_add_at` write, and nobody else, loses none of their
adds: what a call has loaded from it is still there when it commits, for whoever wrote in
between would run on the same index. The contract of `fetch_add_at` does not ask for the one
key. Calls that are confirmed by different words and arrive at the same cell run on two CPUs
at once, and one of them is lost: on neither target is the add atomic for other CPUs.
-/

namespace RseqRs

variable {Tid : Type} [DecidableEq Tid] {M : Machine Tid} {s₀ s : Sys Tid M.img.Site}
  {a : Stage.Sys Tid} {h : List (Label Tid)} {x : Usize}

omit [DecidableEq Tid] in
/-- The running word op of the stage machine is that of the machine. -/
theorem Sys.Rel.frame {t : Tid} {c : Call} {st : Stage} {log : List Acc} (hrel : s.Rel M a)
    (htop : (a.thr t).top = .op c st log) : ∃ site, (s.thr t).top.frame = .op c site := by
  have h := (hrel.thr t).top
  rw [htop] at h
  obtain ⟨site, _, hc⟩ := h
  exact ⟨site, hc.frame⟩

omit [DecidableEq Tid] in
/-- No call is in flight where every thread is in caller code, outside any handler. -/
theorem Machine.quiescent_of (hbelow : ∀ t, (s.thr t).below = [])
    (hidle : ∀ t, (s.thr t).top.frame = .idle) : M.Quiescent s := by
  intro t d y c site hy
  rcases ctxAt_cons hy with ⟨_, rfl⟩ | ⟨_, hb⟩
  · rw [hidle]
    nofun
  · rw [hbelow] at hb
    cases hb

/-- Where no call is in flight, nothing is pending. -/
theorem Machine.Quiescent.sum {base : Usize} (hq : M.Quiescent s)
    (hb : Stage.Balanced x base h a) (hrel : s.Rel M a) : s.mem x = base + added x h := by
  obtain ⟨P, hP, hm⟩ := hb
  -- pending adds belong to calls in flight
  have hzero : P = 0 := by
    ext ⟨t, d⟩
    rw [hP, Finsupp.zero_apply]
    cases hw : a.ctx t d with
    | none => rfl
    | some w =>
      cases w with
      | op c st log =>
        obtain ⟨y, site, hy, hf⟩ := (hrel.thr t).frame hw
        exact absurd hf (hq t d y c site hy)
      | _ => rfl
  rw [hrel.mem, hm, hzero, Finsupp.sum_zero_index, add_zero]

/-! ### One key -/

section OneKey

variable {τ : Tag}

omit [DecidableEq Tid] in
/-- One key's calls respect the cell. -/
theorem Machine.UnderKey.respects {l : Label Tid} (hrel : s.Rel M a) (hadd : M.ByAddAt x s l)
    (hkey : M.UnderKey x τ s l) : Stage.Respects (Stage.ownedBy x τ) a l := by
  refine Stage.respects_ownedBy (fun t d b last he hb c st log htop => ?_) fun v he => ?_
  · subst he
    obtain ⟨site, hf⟩ := hrel.frame htop
    exact hkey c site hb hf
  · subst he
    exact hadd rfl

/-- What an add of that key has loaded from the cell is there when it writes it. -/
theorem Machine.UnderKey.adding {l : Label Tid} (hrel : s.Rel M a) (hi : Stage.Inv h a)
    (hl : Stage.LoadsHold (Stage.ownedBy x τ) a) (hadd : M.ByAddAt x s l)
    (hkey : M.UnderKey x τ s l) {a' : Stage.Sys Tid} (hs : Stage.SysStep M a l a') :
    Stage.Adding x a l := by
  refine Stage.adding_of fun t d b last he hb c st log htop => ?_
  subst he
  obtain ⟨site, hf⟩ := hrel.frame htop
  obtain ⟨p, offset, count, hc⟩ := hadd c site hb hf
  have hcount : c.op.count = some count := by rw [hc]; rfl
  refine ⟨by rw [hcount]; nofun, ?_⟩
  rintro u v rfl hv
  obtain ⟨rfl, hr, _⟩ := hs.exec
  have hok := hi.top t
  rw [htop] at hok
  -- its attempt has not written the cell yet, so what it loaded there holds
  have hno := hok.not_wrote (x := x) hcount
  refine hl t c u log hr htop x v hv ?_ fun w hw => ?_
  · rw [hkey c site hb hf]
    exact if_pos rfl
  · exact absurd (decide_eq_true rfl) (List.any_eq_false.mp hno _ hw)

/-- **No add to a cell of one key is lost**, on either target. -/
theorem adds_kept (M : Machine Tid) (x : Usize) (τ : Tag) :
    M.SumsTo (fun s l => M.ByAddAt x s l ∧ M.UnderKey x τ s l) x := by
  intro s₀ h s hi hr hq
  have hrun : ∃ a, s.Rel M a ∧ Stage.Inv h a ∧ Stage.LoadsHold (Stage.ownedBy x τ) a ∧
      Stage.Balanced x (s₀.mem x) h a := by
    -- induction on the run, in the stage machine
    clear hq
    induction hr with
    | nil =>
      have hinit := s₀.initial_stages
      exact ⟨_, hi.rel, hinit.inv, hinit.loadsHold, hinit.balanced⟩
    | @cons h s s' l _ hs ih =>
      obtain ⟨a, hrel, hinv, hload, hbal⟩ := ih
      obtain ⟨hs, hadd, hkey⟩ := hs
      obtain ⟨a', hs', hrel'⟩ := refine_step hrel hs
      refine ⟨a', hrel', hinv.step hs', hload.step hinv hs' (hkey.respects hrel hadd),
        hbal.step hinv hs' (hkey.adding hrel hinv hload hadd hs') ?_⟩
      rintro v rfl
      exact hadd rfl
  obtain ⟨a, hrel, _, _, hbal⟩ := hrun
  exact hq.sum hbal hrel

end OneKey

/-! ### Runs of a few calls -/

/-- The step is no call but one of those, and no write from outside. -/
def Label.callsOnly (p : Call → Bool) : Label Tid → Bool
  | .act _ _ (.call c) => p c
  | .write _ _ => false
  | _ => true

/-- An instruction of one of those calls, or a step that is no instruction and no write. -/
def Machine.InCalls (M : Machine Tid) (p : Call → Bool) (s : Sys Tid M.img.Site) :
    Label Tid → Prop
  | .act t _ (.exec _) => ∀ c site, (s.thr t).top.frame = .op c site → p c = true
  | .write _ _ => False
  | _ => True

theorem inCalls_run {p : Call → Bool} (hi : M.Initial s₀) (hr : LTS.Run M.Step s₀ h s)
    (hall : ∀ l ∈ h, l.callsOnly p = true) :
    LTS.Run (fun s l s' => M.Step s l s' ∧ M.InCalls p s l) s₀ h s := by
  induction hr with
  | nil => exact .nil
  | @cons h s s' l hr hs ih =>
    refine .cons (ih fun l hm => hall l (List.mem_cons_of_mem _ hm)) ⟨hs, ?_⟩
    cases l with
    | act t d act =>
      cases act with
      | exec o =>
        -- an op in flight has been called
        exact fun c site hf =>
          hall _ (List.mem_cons_of_mem _ (frame_called hi hr ctxAt_cons_self hf))
      | _ => trivial
    | fenceRun u e ev hit => trivial
    | write y v => cases hall _ (List.mem_cons_self ..)

/-- A call of `fetch_add_at`. -/
def Call.isAddAt : Call → Bool
  | ⟨_, .fetchAddAt _ _ _⟩ => true
  | _ => false

omit [DecidableEq Tid] in
theorem Machine.InCalls.byAddAt {l : Label Tid} {p : Call → Bool}
    (hp : ∀ c, p c = true → c.isAddAt = true) (hl : M.InCalls p s l) : M.ByAddAt x s l := by
  cases l with
  | act t d act =>
    cases act with
    | exec o =>
      cases o with
      | acc b last =>
        intro c site _ hf
        have hc := hp c (hl c site hf)
        obtain ⟨K, op⟩ := c
        cases op with
        | fetchAddAt p offset count => exact ⟨p, offset, count, rfl⟩
        | _ => cases hc
      | _ => trivial
    | _ => trivial
  | fenceRun u e ev hit => trivial
  | write y v => exact hl.elim

omit [DecidableEq Tid] in
theorem Machine.InCalls.underKey {l : Label Tid} {p : Call → Bool} {τ : Tag}
    (hp : ∀ c, p c = true → c.tag = τ) (hl : M.InCalls p s l) : M.UnderKey x τ s l := by
  cases l with
  | act t d act =>
    cases act with
    | exec o =>
      cases o with
      | acc b last => exact fun c site _ hf => hp c (hl c site hf)
      | _ => trivial
    | _ => trivial
  | _ => trivial

/-! ### Two threads -/

/-- `fetch_add_at(ptr, 0, 1)`, with a `ptr` for the CPU of each thread. -/
def addAtCall (t : Bool) : Call :=
  ⟨.cpuId, .fetchAddAt ⟨if t then 0x8008 else 0x8000, pairCpuId t⟩ 0 1⟩

def addAtPair (arch : Arch) : Machine Bool := pairMachine arch (.fetchAddAt cpuIdOff)

instance (arch : Arch) : DecidableEq (addAtPair arch).img.Site :=
  inferInstanceAs (DecidableEq (Fin 1))

def addAtSite (arch : Arch) : (addAtPair arch).img.Site := soleSite

/-- Both words lead to `0x9000`, through a slot each. -/
def addAtMem : Mem := fun a =>
  if a = 0x8000 then 0xA000 else if a = 0x8008 then 0xB000
  else if a = 0xA000 then 0x9000 else if a = 0xB000 then 0x9000 else 0

/-- What a schedule leads to. -/
def addAtPlay (arch : Arch) (ks : List (Cmd Bool (addAtPair arch).img.Site)) :
    List (Label Bool) × Sys Bool (addAtPair arch).img.Site :=
  ((addAtPair arch).play ((addAtPair arch).boot addAtMem) ks).getD
    ([], (addAtPair arch).boot addAtMem)

theorem addAtPlay_run {arch : Arch} (ks : List (Cmd Bool (addAtPair arch).img.Site))
    {p : Call → Bool} (hall : (addAtPlay arch ks).1.all (Label.callsOnly p) = true) :
    LTS.Run (fun s l s' => (addAtPair arch).Step s l s' ∧ (addAtPair arch).InCalls p s l)
      ((addAtPair arch).boot addAtMem) (addAtPlay arch ks).1 (addAtPlay arch ks).2 := by
  refine inCalls_run (pairMachine_initial ..) ?_ (List.all_eq_true.mp hall)
  unfold addAtPlay
  cases hplay : (addAtPair arch).play ((addAtPair arch).boot addAtMem) ks with
  | none => exact .nil
  | some q => exact (addAtPair arch).play_run (Image.ofSites_outside_zero _ _ one_site) hplay

/-- On one CPU, the second thread adds while the first is between its load and its store; the
first is restarted, and adds. -/
def oneKeySchedule : List (Cmd Bool (addAtPair .aarch64).img.Site) :=
  [.resume false 0 0, .call false (addAtCall false) (addAtSite _), .exec false 12, .preempt false,
    .resume true 0 0, .call true (addAtCall false) (addAtSite _), .exec true 15, .ret true,
    .preempt true, .resume false 0 0, .exec false 14, .ret false]

/-- Its calls are adds under the key of CPU 0. -/
def Call.addsOnZero (c : Call) : Bool := c.isAddAt && decide (c.tag = (.cpuId, 0))

/-- Neither add is lost. -/
theorem adds_kept_oneKey :
    (addAtPlay .aarch64 oneKeySchedule).2.mem 0x9000 = 2 ∧
      added 0x9000 (addAtPlay .aarch64 oneKeySchedule).1 = 2 ∧
      (addAtPlay .aarch64 oneKeySchedule).2.mem 0x9000 =
        addAtMem 0x9000 + added 0x9000 (addAtPlay .aarch64 oneKeySchedule).1 := by
  refine ⟨by decide +kernel, by decide +kernel, ?_⟩
  have hr := addAtPlay_run oneKeySchedule (p := Call.addsOnZero) (by decide +kernel)
  refine adds_kept (addAtPair .aarch64) 0x9000 (.cpuId, 0) _ _ _ (pairMachine_initial ..)
    (hr.mono fun s l s' hs => ⟨hs.1, hs.2.byAddAt fun c hc => ?_, hs.2.underKey fun c hc => ?_⟩)
    (Machine.quiescent_of (fun t => by cases t <;> rfl) fun t => by cases t <;> rfl)
  · exact (Bool.and_eq_true_iff.mp hc).1
  · exact of_decide_eq_true (Bool.and_eq_true_iff.mp hc).2

/-! ### Two keys -/

/-- Each thread loads the target on its CPU, with its instruction `n`, then each stores to it,
and both return. -/
def addAtSchedule (arch : Arch) (n : ℕ) : List (Cmd Bool (addAtPair arch).img.Site) :=
  [.resume false 0 0, .resume true 1 1, .call false (addAtCall false) (addAtSite _),
    .call true (addAtCall true) (addAtSite _), .exec false n, .exec true n, .exec false 3,
    .exec true 3, .ret false, .ret true]

/-- The load of the target. -/
def addAtLoad : Arch → ℕ
  | .x86 => 11
  | .aarch64 => 12

/-- Both calls return `Ok`, and the target has one of their adds. -/
theorem addAtSchedule_loses (arch : Arch) :
    ¬ (addAtPair arch).SumsTo ((addAtPair arch).ByAddAt 0x9000) 0x9000 := by
  intro h
  have hr := addAtPlay_run (addAtSchedule arch (addAtLoad arch)) (p := Call.isAddAt)
    (by cases arch <;> decide +kernel)
  have hsum := h _ _ _ (pairMachine_initial ..)
    (hr.mono fun s l s' hs => ⟨hs.1, hs.2.byAddAt fun _ hc => hc⟩) (by
      cases arch <;>
        exact Machine.quiescent_of (fun t => by cases t <;> rfl) fun t => by cases t <;> rfl)
  have hmem : (addAtPlay arch (addAtSchedule arch (addAtLoad arch))).2.mem 0x9000 = 1 := by
    cases arch <;> decide +kernel
  have hadded : added 0x9000 (addAtPlay arch (addAtSchedule arch (addAtLoad arch))).1 = 2 := by
    cases arch <;> decide +kernel
  rw [hmem, hadded] at hsum
  replace hsum : 1 = addAtMem 0x9000 + 2 := hsum
  exact absurd hsum (by decide)

/-- **Two keys lose an add**, on either target. -/
theorem not_sumsTo_byAddAt :
    (¬ (addAtPair .x86).SumsTo ((addAtPair .x86).ByAddAt 0x9000) 0x9000) ∧
      ¬ (addAtPair .aarch64).SumsTo ((addAtPair .aarch64).ByAddAt 0x9000) 0x9000 :=
  ⟨addAtSchedule_loses .x86, addAtSchedule_loses .aarch64⟩

end RseqRs
