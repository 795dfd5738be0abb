import RseqRs.Proof.Mirror
import RseqRs.Stage.Refine

/-!
# Atomicity of the word ops

Every run of the machine is one of the atomic machine (`Spec/Atomic.lean`), if every
section loads and commits only to cells of its own key. It is not enough that a cell
is written under one key only: two `compare_exchange_if` that guard with each other's
word, each under its own key, both succeed.
-/

namespace RseqRs

/-! ### The machine -/

section Machine

variable {Tid : Type} {M : Machine Tid} {U : Usize → Option Tag} {s₀ s : Sys Tid M.img.Site}
  {a : Stage.Sys Tid} {l : Label Tid} {x : Usize}

theorem Sys.Rel.unshared (hrel : s.Rel M a) {own : Tid → ℕ → Prop} (hs : s.Unshared own x) :
    a.Unshared own x := by
  intro u e c st log hown hc
  obtain ⟨z, site, hz, hf⟩ := (hrel.thr u).frame hc
  exact hs u e z c site hown hz hf

theorem Sys.Rel.ownKeys (hrel : s.Rel M a) (hk : M.OwnKeys U s l) : Stage.OwnKeys U a l := by
  obtain ⟨hfixed, hloads⟩ := hk
  cases l with
  | act t d act =>
    cases act with
    | exec o =>
      cases o with
      | acc b last =>
        intro x c st log htouch htop
        have hx := (hrel.thr t).top
        rw [htop] at hx
        obtain ⟨site, i, hc⟩ := hx
        obtain ⟨hunshared, _, hwritten⟩ := hfixed x c site htouch hc.frame
        exact ⟨hrel.unshared hunshared, fun hw => hloads t d b last x c site rfl htouch hw hc.frame,
          hwritten⟩
      | _ => trivial
    | call c => exact hfixed
    | _ => trivial
  | fenceRun => trivial
  | write x v => exact ⟨hfixed.1, hrel.unshared hfixed.2⟩

/-- A step that is no access loads nothing from a cell of another key. -/
theorem Machine.FixedKeys.own (hk : M.FixedKeys U s l)
    (hl : ∀ t d b last, l ≠ .act t d (.exec (.acc b last))) : M.OwnKeys U s l :=
  ⟨hk, fun t d b last _ _ _ he => absurd he (hl t d b last)⟩

/-- Where no call in flight has its side cell, the memories agree. -/
theorem Sys.Rel.mem_eq {m : Mem} (hrel : s.Rel M a) (hm : Stage.Mirrors U a m)
    (hx : s.Unshared (fun _ _ => False) x) : s.mem x = m x := by
  rw [hrel.mem]
  refine (hm.agrees x).resolve_right ?_
  rintro ⟨t, d, w, hw, howe⟩
  obtain ⟨c, st, log, rfl, hs⟩ := howe.op
  exact hrel.unshared hx t d c st log id hw (Op.sideAddr_of_scratch hs)

variable [DecidableEq Tid]

/-! ### Runs under keys -/

/-- The step is an instruction that touches only cells of the key of `call t`, or, if
not `own`, loads from a cell of some key. -/
def Label.keyed (own : Bool) (U : Usize → Option Tag) (call : Tid → Call) : Label Tid → Bool
  | .act t _ (.exec (.acc a _)) => a.touched.all fun x =>
    decide (U x = some (call t).tag) || !own && a.written.isNone && (U x).isSome
  | .act _ _ (.exec _) => true
  | _ => false

omit [DecidableEq Tid] in
theorem call_of_keyed {own : Bool} {call : Tid → Call} {h g : List (Label Tid)}
    (hcall : ∀ t d c, .act t d (.call c) ∈ h → c = call t) (hg : g.all (Label.keyed own U call))
    {t : Tid} {d : ℕ} {c : Call} (hc : .act t d (.call c) ∈ g ++ h) : c = call t := by
  rcases List.mem_append.mp hc with hmem | hmem
  · have hbad := List.all_eq_true.mp hg _ hmem
    cases hbad
  · exact hcall t d c hmem

/-- A run of such instructions, after one in which each thread has made its one call
and no call has a side cell. -/
theorem keyed_run {own : Bool} {call : Tid → Call} {h g : List (Label Tid)}
    {s' : Sys Tid M.img.Site} (hi : M.Initial s₀) (hr : LTS.Run M.Step s₀ h s)
    (hcall : ∀ t d c, .act t d (.call c) ∈ h → c = call t) (hside : ∀ t, (call t).sideAddr = none)
    (hr' : LTS.Run M.Step s g s') (hg : g.all (Label.keyed own U call)) :
    LTS.Run (fun s l s' => M.Step s l s' ∧ M.FixedKeys U s l ∧ (own = true → M.OwnKeys U s l))
      s g s' := by
  induction hr' with
  | nil => exact .nil
  | @cons g s₁ s₂ l hr₁ hs ih =>
    obtain ⟨hl, hg⟩ := Bool.and_eq_true_iff.mp (List.all_cons.symm.trans hg)
    refine .cons (ih hg) ⟨hs, ?_⟩
    -- whatever is in flight is the call of its thread
    have hframe {u : Tid} {e : ℕ} {z : Ctx M.img.Site} {c : Call} {site : M.img.Site}
        (hz : ctxAt (s₁.thr u).stack e = some z) (hf : z.frame = .op c site) : c = call u :=
      call_of_keyed hcall hg (frame_called hi (hr.append hr₁) hz hf)
    cases l with
    | act t d act =>
      cases act with
      | exec o =>
        cases o with
        | acc a last =>
          have hkey {x : Usize} (hx : a.touched = some x) : U x = some (call t).tag ∨
              own = false ∧ a.written = none ∧ (U x).isSome := by
            simpa [Label.keyed, hx, and_assoc] using hl
          -- no call in flight has a side cell, so none is touched
          have hfixed : M.FixedKeys U s₁ (.act t d (.exec (.acc a last))) := by
            intro x c site hx hf
            have hc : c = call t := hframe ctxAt_cons_self hf
            subst hc
            refine ⟨fun u e z c' site' _ hz hf' => ?_, fun _ => ?_, fun hw => ?_⟩
            · rw [hframe hz hf', hside u]
              nofun
            · rcases hkey hx with he | ⟨_, _, hsome⟩
              · rw [he]
                nofun
              · exact Option.isSome_iff_ne_none.mp hsome
            · rcases hkey hx with he | ⟨_, hnone, _⟩
              · exact Or.inl he
              · rw [hw] at hnone
                cases hnone
          refine ⟨hfixed, fun hown => ⟨hfixed, fun t' d' a' last' x c site he hx _ hf => ?_⟩⟩
          cases he
          have hc : c = call t := hframe ctxAt_cons_self hf
          rcases hkey hx with hU | ⟨hfalse, _⟩
          · rw [hc]
            exact hU
          · rw [hown] at hfalse
            cases hfalse
        | _ => exact ⟨trivial, fun _ => Machine.FixedKeys.own trivial nofun⟩
      | _ => cases hl
    | fenceRun => cases hl
    | write => cases hl

/-! ### The result -/

/-- **The word ops are atomic**, if every section loads and commits only to cells of
its own key. -/
theorem atomic_ownKeys (hi : M.Initial s₀) : M.AtomicUnder (M.OwnKeys U) s₀ := by
  intro h s hr
  have hsim : ∃ k b, LTS.Run Atomic.Step s₀.atomic k b ∧
      k.filterMap id = h.filterMap Label.visible ∧
      ∃ a m, s.Rel M a ∧ Stage.Inv h a ∧ Stage.Mirrors U a m ∧ b = a.atomic m := by
    refine LTS.Run.simulate (R := fun h (s : Sys Tid M.img.Site) b => ∃ a m, s.Rel M a ∧
      Stage.Inv h a ∧ Stage.Mirrors U a m ∧ b = a.atomic m)
      ⟨_, s₀.mem, hi.rel, s₀.initial_stages.inv, s₀.initial_stages.mirrors, rfl⟩ ?_ hr
    rintro h s l s' _ _ ⟨a, m, hrel, hinv, hm, rfl⟩ ⟨hs, hk⟩
    obtain ⟨a', hstep, hrel'⟩ := refine_step hrel hs
    obtain ⟨m', ⟨⟨k, hrun, hvis⟩, _⟩, hm'⟩ := hm.step hinv hstep (hrel.ownKeys hk)
    exact ⟨k, _, hrun, hvis, a', m', hrel', hinv.step hstep, hm', rfl⟩
  obtain ⟨k, b, hrun, hvis, a, m, hrel, _, hm, rfl⟩ := hsim
  exact ⟨k, _, hrun, hvis, fun x hx => hrel.mem_eq hm hx⟩

end Machine

/-- The call of `casDone`, and the resume before it. -/
def casSeen : List (Label Unit) := [.act () 0 (.call casCall), .act () 0 (.resume 0 0)]

theorem casSeen_call {t : Unit} {d : ℕ} {c : Call} (hc : .act t d (.call c) ∈ casSeen) :
    c = casCall := by
  simp only [casSeen, List.mem_cons, Label.act.injEq, Act.call.injEq, reduceCtorEq, and_false,
    List.not_mem_nil, or_false] at hc
  exact hc.2.2

/-- One key for every cell. -/
def casOwner (_ : Usize) : Option Tag := some (.cpuId, 0)

theorem casDone_keyed : casDone.1.all (Label.keyed true casOwner fun _ => casCall) := by decide

theorem casDone_ownKeys :
    LTS.Run (fun s l s' => casMachine.Step s l s' ∧ casMachine.OwnKeys casOwner s l)
      (casMachine.boot fun _ => 0) (casDone.1 ++ casSeen) casDone.2 := by
  have hcalled : LTS.Run (fun s l s' => casMachine.Step s l s' ∧ casMachine.OwnKeys casOwner s l)
      (casMachine.boot fun _ => 0) casSeen (casMachine.called () casCall soleSite
        (casMachine.resumed () 0 0 (casMachine.boot fun _ => 0))) := by
    have hresume : casMachine.OwnKeys casOwner (casMachine.boot fun _ => 0)
        (.act () 0 (.resume 0 0)) := Machine.FixedKeys.own trivial nofun
    have hcall : casMachine.OwnKeys casOwner (casMachine.resumed () 0 0 (casMachine.boot fun _ => 0))
        (.act () 0 (.call casCall)) := Machine.FixedKeys.own nofun nofun
    refine .cons (.single ⟨casMachine.step_resumed (t := ()) rfl ?_, hresume⟩)
      ⟨casMachine.step_called (t := ()) rfl rfl rfl rfl, hcall⟩
    -- no other thread runs
    intro _ _ hr
    cases hr
  have hsolo : LTS.Run casMachine.Step (casMachine.called () casCall soleSite
      (casMachine.resumed () 0 0 (casMachine.boot fun _ => 0))) casDone.1 casDone.2 :=
    casMachine.solo_run (show casMachine.solo () 12 _ = some casDone from (Option.some_get _).symm)
  exact hcalled.append (LTS.Run.mono (fun s l s' hs => ⟨hs.1, hs.2.2 rfl⟩)
    (keyed_run (casMachine_initial _) (hcalled.mono fun s l s' hs => hs.1)
      (fun t d c => casSeen_call) (fun _ => rfl) hsolo casDone_keyed))

/-- The atomic machine has made the exchange too. -/
theorem atomic_ownKeys_casDone :
    ∃ k b, LTS.Run Atomic.Step (casMachine.boot fun _ => 0).atomic k b ∧
      k.filterMap id = casSeen ∧ b.mem 0x8000 = 1 := by
  obtain ⟨k, b, hk, hvis, hmem⟩ := atomic_ownKeys (casMachine_initial _) _ _ casDone_ownKeys
  refine ⟨k, b, hk, hvis, ?_⟩
  have hplain := LTS.Run.mono (fun s l s' hs => hs.1) casDone_ownKeys
  have hsame : casDone.2.mem 0x8000 = b.mem 0x8000 := hmem _ fun u e z c site _ hz hf => by
    rw [call_of_keyed (fun t d c => casSeen_call) casDone_keyed
      (frame_called (casMachine_initial _) hplain hz hf)]
    nofun
  exact hsame.symm

/-! ### Fixed keys are not enough -/

/-- Claimed of cells that are used under fixed keys. -/
def AtomicByKeys : Prop :=
  ∀ (Tid : Type) [DecidableEq Tid] (M : Machine Tid) (U : Usize → Option Tag)
    (s₀ : Sys Tid M.img.Site), M.Initial s₀ → M.AtomicUnder (M.FixedKeys U) s₀

/-- Two threads, and one call site of `compare_exchange_if` with CPU keys. -/
def skewMachine : Machine Bool where
  img := Image.ofSites .x86 (fun _ : Fin 1 => .compareExchangeIf cpuIdOff) one_site
  cpus := 2
  areaPtr t := if t then 0x20000 else 0x10000

instance : DecidableEq skewMachine.img.Site := inferInstanceAs (DecidableEq (Fin 1))

/-- The cell of each thread's word. -/
def skewCell (t : Bool) : Usize := if t then 0x8008 else 0x8000

/-- The CPU of each thread. -/
def skewCpu (t : Bool) : U32 := if t then 1 else 0

theorem skewCpu_valid (t : Bool) : skewCpu t ≠ cpuUninit ∧ skewCpu t ≠ cpuRegFailed := by
  cases t <;> exact ⟨by decide, by decide⟩

/-- The key of each thread. -/
def skewKey (t : Bool) : CpuId := ⟨skewCpu t, (skewCpu_valid t).1, (skewCpu_valid t).2⟩

/-- Each cell is written under the key of its thread. -/
def skewOwner (x : Usize) : Option Tag :=
  if x = 0x8000 then some (.cpuId, 0) else if x = 0x8008 then some (.cpuId, 1) else none

/-- `compare_exchange_if(own, 0, 1, other, 0)`, with the other thread's word as `other`,
under one's own key. -/
def skewOp (t : Bool) : Op .cpuId :=
  .compareExchangeIf ⟨skewCell t, skewKey t⟩ 0 1 ⟨skewCell !t, skewKey t⟩ 0

def skewCall (t : Bool) : Call := ⟨.cpuId, skewOp t⟩

def skewBoot : Sys Bool skewMachine.img.Site := skewMachine.boot fun _ => 0

/-- Both threads have called. -/
def skewStart : Sys Bool skewMachine.img.Site :=
  skewMachine.called true (skewCall true) soleSite
    (skewMachine.called false (skewCall false) soleSite
      (skewMachine.resumed true 1 1 (skewMachine.resumed false 0 0 skewBoot)))

/-- One thread has read both words and is about to commit. -/
def skewRead : List (Label Bool) × Sys Bool skewMachine.img.Site :=
  (skewMachine.solo false 12 skewStart).get rfl

/-- So is the other. -/
def skewReads : List (Label Bool) × Sys Bool skewMachine.img.Site :=
  (skewMachine.solo true 12 skewRead.2).get rfl

/-- One has committed. -/
def skewCommit : List (Label Bool) × Sys Bool skewMachine.img.Site :=
  (skewMachine.solo false 1 skewReads.2).get rfl

/-- So has the other. -/
def skewCommits : List (Label Bool) × Sys Bool skewMachine.img.Site :=
  (skewMachine.solo true 1 skewCommit.2).get rfl

/-- The calls, and the resumes before them. -/
def skewSeen : List (Label Bool) :=
  [.act true 0 (.call (skewCall true)), .act false 0 (.call (skewCall false)),
    .act true 0 (.resume 1 1), .act false 0 (.resume 0 0)]

theorem skewBoot_initial : skewMachine.Initial skewBoot :=
  skewMachine.boot_initial _ (Image.ofSites_outside_zero _ _ one_site)

theorem skewSeen_call {t : Bool} {d : ℕ} {c : Call} (hc : .act t d (.call c) ∈ skewSeen) :
    c = skewCall t := by
  simp only [skewSeen, List.mem_cons, Label.act.injEq, Act.call.injEq, reduceCtorEq, and_false,
    List.not_mem_nil, or_false] at hc
  rcases hc with ⟨rfl, _, rfl⟩ | ⟨rfl, _, rfl⟩ <;> rfl

/-- The instructions of the two calls, to the end of both sections. -/
def skewInstrs : List (Label Bool) :=
  skewCommits.1 ++ (skewCommit.1 ++ (skewReads.1 ++ skewRead.1))

theorem skewInstrs_keyed : skewInstrs.all (Label.keyed false skewOwner skewCall) := by decide

/-- Each step is one that `FixedKeys` allows. -/
theorem skewCommits_run :
    LTS.Run (fun s l s' => skewMachine.Step s l s' ∧ skewMachine.FixedKeys skewOwner s l) skewBoot
      (skewInstrs ++ skewSeen) skewCommits.2 := by
  have hstart : LTS.Run (fun s l s' => skewMachine.Step s l s' ∧
      skewMachine.FixedKeys skewOwner s l) skewBoot skewSeen skewStart := by
    refine .cons (.cons (.cons (.single ⟨skewMachine.step_resumed (t := false) rfl ?_, trivial⟩)
      ⟨skewMachine.step_resumed (t := true) rfl ?_, trivial⟩)
      ⟨skewMachine.step_called (t := false) rfl rfl rfl rfl, nofun⟩)
      ⟨skewMachine.step_called (t := true) rfl rfl rfl rfl, nofun⟩
    · intro u _ hr
      cases hr
    · intro u hu hr
      cases u with
      | true => exact absurd rfl hu
      | false => exact ⟨by decide, by decide⟩
  have hread : LTS.Run skewMachine.Step skewStart skewRead.1 skewRead.2 :=
    skewMachine.solo_run (show skewMachine.solo false 12 _ = some skewRead from
      (Option.some_get _).symm)
  have hreads : LTS.Run skewMachine.Step skewRead.2 skewReads.1 skewReads.2 :=
    skewMachine.solo_run (show skewMachine.solo true 12 _ = some skewReads from
      (Option.some_get _).symm)
  have hcommit : LTS.Run skewMachine.Step skewReads.2 skewCommit.1 skewCommit.2 :=
    skewMachine.solo_run (show skewMachine.solo false 1 _ = some skewCommit from
      (Option.some_get _).symm)
  have hcommits : LTS.Run skewMachine.Step skewCommit.2 skewCommits.1 skewCommits.2 :=
    skewMachine.solo_run (show skewMachine.solo true 1 _ = some skewCommits from
      (Option.some_get _).symm)
  have hsolo : LTS.Run skewMachine.Step skewStart skewInstrs skewCommits.2 :=
    ((hread.append hreads).append hcommit).append hcommits
  refine hstart.append (LTS.Run.mono (fun s l s' hs => ⟨hs.1, hs.2.1⟩)
    (keyed_run skewBoot_initial (hstart.mono fun s l s' hs => hs.1) (fun t d c => skewSeen_call)
      (fun _ => rfl) hsolo skewInstrs_keyed))

/-- What the call of `t` does in one go. -/
theorem skewCall_run (t : Bool) (i : U32) (m : Mem) :
    ((skewCall t).run i m).2 = m ∨
      m (skewCell !t) = 0 ∧ ((skewCall t).run i m).2 = Function.update m (skewCell t) 1 := by
  unfold Call.run
  split
  · show (Op.run m (skewOp t)).2 = m ∨ _ ∧ (Op.run m (skewOp t)).2 = _
    simp only [Op.run, skewOp]
    split
    · split
      · next ho => exact Or.inr ⟨ho, rfl⟩
      · exact Or.inl rfl
    · exact Or.inl rfl
  · exact Or.inl rfl

/-- **In one go, one of the two calls misses**: the cells are never both `1`. -/
theorem skew_atomic {k : List (Option (Label Bool))} {b : Atomic.Sys Bool}
    (hr : LTS.Run Atomic.Step skewBoot.atomic k b) (hk : ∀ l, some l ∈ k → l ∈ skewSeen) :
    (∀ t c, (b.thr t).top = .called c → c = skewCall t) ∧
      ∀ t, b.mem (skewCell t) = 1 → b.mem (skewCell !t) ≠ 1 := by
  induction hr with
  | nil => exact ⟨nofun, fun t h => by cases h⟩
  | @cons k b b' l _ hs ih =>
    obtain ⟨hcalled, hmem⟩ := ih fun l hl => hk l (List.mem_cons_of_mem _ hl)
    cases hs with
    | @move t a x hm _ =>
      refine ⟨fun u c => ?_, hmem⟩
      show (Function.update b.thr t x u).top = _ → _
      by_cases hu : u = t
      · subst hu
        rw [Function.update_self]
        intro hx
        have hl := hk _ (List.mem_cons_self ..)
        cases hm with
        | @call c' hr htop =>
          cases hx
          exact skewSeen_call hl
        | ret hr htop => cases hx
        | preempt hr => exact hcalled u c hx
        | resume cpu cid hr => exact hcalled u c hx
        | signal hr => cases hx
        | sigreturn hr htop hb => simp [skewSeen] at hl
      · rw [Function.update_of_ne hu]
        exact hcalled u c
    | @run t c m' hr htop hleave =>
      refine ⟨fun u c' => ?_, ?_⟩
      · show (Function.update b.thr t _ u).top = _ → _
        by_cases hu : u = t
        · subst hu
          rw [Function.update_self]
          nofun
        · rw [Function.update_of_ne hu]
          exact hcalled u c'
      · obtain rfl := hcalled t c htop
        cases hleave with
        | scratch _ hscr => cases hscr
        | exact =>
          rcases skewCall_run t ((b.thr t).index (skewCall t).K) b.mem with he | ⟨hother, he⟩
          · rw [he]
            exact hmem
          · -- it commits only while the other cell is `0`
            rw [he]
            intro u
            cases t <;> cases u <;> simp_all [skewCell, Function.update]
    | write a v => simpa [skewSeen] using hk _ (List.mem_cons_self ..)

/-- **Fixed keys for the writes are not enough**: two calls of `compare_exchange_if`
both commit, each having read the other's word before. -/
theorem not_atomicByKeys : ¬ AtomicByKeys := by
  intro hatomic
  obtain ⟨k, b, hk, hvis, hmem⟩ :=
    hatomic Bool skewMachine skewOwner skewBoot skewBoot_initial _ _ skewCommits_run
  have hseen : ∀ l, some l ∈ k → l ∈ skewSeen := fun l hl => by
    have hmem : l ∈ k.filterMap id := List.mem_filterMap.mpr ⟨_, hl, rfl⟩
    rw [hvis] at hmem
    exact hmem
  -- no call has a side cell, so the memories are the same
  have hplain := LTS.Run.mono (fun s l s' hs => hs.1) skewCommits_run
  have hsame (x : Usize) : skewCommits.2.mem x = b.mem x := hmem x fun u e z c site _ hz hf => by
    rw [call_of_keyed (fun t d c => skewSeen_call) skewInstrs_keyed
      (frame_called skewBoot_initial hplain hz hf)]
    nofun
  have hboth (t : Bool) : b.mem (skewCell t) = 1 := by
    rw [← hsame]
    cases t <;> rfl
  exact (skew_atomic hk hseen).2 false (hboth false) (hboth true)

end RseqRs
