import RseqRs.Proof.Effect

/-!
# A call alone

Between two kernel events a thread runs alone on its index. Then a call completes, from
wherever it stands, in no more instructions than its block has, and a fresh attempt does what
the op says, in one go, on both targets. What is left of an attempt to do is the same before
and after each of its instructions (`Stage.rest_step`).
-/

namespace RseqRs

/-! ### What is left of an attempt -/

/-- What a context at a stage returns and leaves, if nobody else does anything. -/
def Stage.rest (T : Sec) (i : U32) (m : Mem) : Stage → Except Error Usize × Mem
  | .entering => T.atomic i m
  | .inside u => u.atomic i m
  | .finishing r => (r, m)

/-- **An instruction** takes part of it away, and leaves the rest. -/
theorem Stage.rest_step {T : Sec} {i : U32} {m m' : Mem} {st st' : Stage} {o : Obs}
    (h : Stage.Step T i m st o st' m') : st'.rest T i m' = st.rest T i m := by
  cases h with
  | access hn hr => exact (hn.atomic_eq hr).symm
  | commit hc => exact hc.atomic_eq.symm
  | _ => rfl

section Context

variable {img : Image} {ptr : Usize} {armed : img.Site → Prop} {x : Ctx img.Site} {c : Call}
  {st : Stage} {log : List Acc} {site : img.Site} {i : ℕ}

/-- Before the range the attempt is about to enter. -/
theorem Ctx.InCall.entering (h : x.InCall img ptr armed c st log site i)
    (hi : i < (img.block site).start) : st = .entering := by
  obtain ⟨_, _, hp, hl⟩ := img.block_order site
  have hst := h.stage
  cases st with
  | entering => rfl
  | inside u =>
    have hmem : _ ≤ i ∧ i < _ := Inside.pc_mem hst.1
    omega
  | finishing r =>
    have hmem : _ ≤ i ∧ i ≤ _ := Finishes.pc_mem hst.1 hl.le
    omega

/-- Behind the range its result is there. -/
theorem Ctx.InCall.finishing (h : x.InCall img ptr armed c st log site i)
    (hi : (img.block site).post ≤ i) : ∃ r, st = .finishing r := by
  obtain ⟨_, _, hp, _⟩ := img.block_order site
  have hst := h.stage
  cases st with
  | entering =>
    have hlt : i < _ := Entering.pc_lt hst
    omega
  | inside u =>
    have hmem : _ ≤ i ∧ i < _ := Inside.pc_mem hst.1
    omega
  | finishing r => exact ⟨r, rfl⟩

end Context

/-- What a call at the end of its block returns. -/
def Thr.reports (img : Image) (x : Thr img.Site) (c : Call) (site : img.Site) :
    Except Error Usize :=
  c.op.finish (Attempt.fromStatus (x.top.regs (img.block site).status)
    (x.top.regs (img.block site).value))

variable {Tid : Type}

/-- Only the memory and the running context of `t`, with its area, have changed. -/
structure Aside {Site : Type} (t : Tid) (s s' : Sys Tid Site) : Prop where
  others : ∀ u, u ≠ t → s'.thr u = s.thr u
  below : (s'.thr t).below = (s.thr t).below

theorem Aside.trans {Site : Type} {t : Tid} {s s₁ s' : Sys Tid Site} (h : Aside t s s₁)
    (h' : Aside t s₁ s') : Aside t s s' :=
  ⟨fun u hu => (h'.others u hu).trans (h.others u hu), h'.below.trans h.below⟩

variable [DecidableEq Tid]

theorem Aside.update {Site : Type} {t : Tid} {s : Sys Tid Site} {m : Mem} {x : Thr Site}
    (hb : x.below = (s.thr t).below) :
    Aside t s { s with mem := m, thr := Function.update s.thr t x } := by
  refine ⟨fun u hu => Function.update_of_ne hu .., ?_⟩
  show (Function.update s.thr t x t).below = _
  rw [Function.update_self, hb]

/-- **Alone**: the instructions `g` of the call `c` of thread `t`, with nothing between them,
lead from `s` to `s'`, where the call is at the end of its block. -/
structure Alone (M : Machine Tid) (s : Sys Tid M.img.Site) (t : Tid) (c : Call)
    (site : M.img.Site) (g : List (Label Tid)) (s' : Sys Tid M.img.Site) : Prop where
  run : LTS.Run M.Step s g s'
  own : ∀ l ∈ g, ∃ o, l = .act t (s.thr t).depth (.exec o)
  frame : (s'.thr t).top.frame = .op c site
  done : (s'.thr t).top.ip = M.img.ip site (M.img.block site).len
  aside : Aside t s s'

/-- **A call completes alone**, in no more instructions than its block has. -/
structure CompletesAlone (M : Machine Tid) (s : Sys Tid M.img.Site) (t : Tid) (c : Call)
    (site : M.img.Site) (g : List (Label Tid)) (s' : Sys Tid M.img.Site) : Prop
    extends Alone M s t c site g s' where
  steps : g.length ≤ (c.op.block M.img.arch).len
  /-- an attempt that has not entered its section does what the op says -/
  fresh : (s.thr t).top.ip < M.img.ip site (M.img.block site).start →
    ((s'.thr t).reports M.img c site, s'.mem) = c.run ((s.thr t).area.index c.K) s.mem
  /-- one that is past it writes nothing -/
  past : M.img.ip site (M.img.block site).post ≤ (s.thr t).top.ip → s'.mem = s.mem

/-! ### One instruction after the other -/

section Run

variable {M : Machine Tid} {s s₀ : Sys Tid M.img.Site} {h : List (Label Tid)} {t : Tid} {c : Call}
  {st : Stage} {log : List Acc} {site : M.img.Site} {i : ℕ}

/-- Thread `t` runs, at slot `i` of its call. -/
def RunsAt (s : Sys Tid M.img.Site) (t : Tid) (c : Call) (st : Stage) (log : List Acc)
    (site : M.img.Site) (i : ℕ) : Prop :=
  (s.thr t).running = true ∧
    (s.thr t).top.InCall M.img (M.areaPtr t) (fun σ => (s.thr t).area.rseqCs = M.img.desc σ) c st
      log site i

/-- **The next instruction** of a call that is not at the end of its block. -/
theorem RunsAt.next (hc : RunsAt s t c st log site i)
    (hloc : M.img.locate (s.thr t).top.ip = some (site, i))
    (hans : (M.img.answer (M.areaPtr t) (s.thr t).area s.mem site ((s.thr t).top.core i)).isSome) :
    ∃ o s' st' log' i', M.Step s (.act t (s.thr t).depth (.exec o)) s' ∧ Aside t s s' ∧ i < i' ∧
      RunsAt s' t c st' log' site i' ∧
      (s'.thr t).area.index c.K = (s.thr t).area.index c.K ∧
      Stage.Step c.op.tree ((s.thr t).area.index c.K) s.mem st o st' s'.mem := by
  obtain ⟨hrun, hc⟩ := hc
  obtain ⟨⟨o, v, area, m⟩, hans⟩ := Option.isSome_iff_exists.mp hans
  obtain ⟨st', hstep, hc', harea⟩ := hc.exec hans
  -- the instruction moves on in its block
  obtain ⟨q, hq, _⟩ := Option.bind_eq_some_iff.mp hans
  obtain ⟨ins, hins, _⟩ := Option.map_eq_some_iff.mp hq
  have hpc := (Block.next_pc_of_forward hc.forward hins (M.img.desc site) v).1
  have hmove := Machine.Move.exec hrun hc.frame hloc hans
  have hidx : area.index c.K = (s.thr t).area.index c.K := by
    rw [harea]
    cases o with
    | arm => cases c.K <;> rfl
    | _ => rfl
  refine ⟨o, _, st', o.extend log, _, .move hmove nofun, .update rfl, hpc, ?_⟩
  unfold RunsAt
  simp only [Function.update_self]
  exact ⟨⟨hrun, hc'⟩, hidx, hstep⟩

omit [DecidableEq Tid] in
/-- A call at the end of its block has nothing left to do. -/
theorem RunsAt.rest_eq (hc : RunsAt s t c st log site i)
    (hend : (s.thr t).top.ip = M.img.ip site (M.img.block site).len) :
    ((s.thr t).reports M.img c site, s.mem) =
      st.rest c.op.tree ((s.thr t).area.index c.K) s.mem := by
  rw [hc.2.ret hend]
  rfl

/-- **A call alone** comes to the end of its block, and does what it had left to do. -/
theorem RunsAt.alone (n : ℕ) (hc : RunsAt s t c st log site i)
    (hn : (M.img.block site).len ≤ i + n) :
    ∃ g s', Alone M s t c site g s' ∧ g.length ≤ n ∧
      ((s'.thr t).reports M.img c site, s'.mem) =
        st.rest c.op.tree ((s.thr t).area.index c.K) s.mem := by
  -- induction on the slots that are left
  induction n generalizing s st log i with
  | zero =>
    rcases hc.2.progress (s.thr t).area s.mem with hend | ⟨hloc, _⟩
    · exact ⟨[], s, ⟨.nil, nofun, hc.2.frame, hend, fun _ _ => rfl, rfl⟩, le_rfl, hc.rest_eq hend⟩
    · exact absurd (M.img.ip_locate _ _ _ hloc).2 (Nat.not_lt.mpr hn)
  | succ n ih =>
    rcases hc.2.progress (s.thr t).area s.mem with hend | ⟨hloc, hans⟩
    · exact ⟨[], s, ⟨.nil, nofun, hc.2.frame, hend, fun _ _ => rfl, rfl⟩, Nat.zero_le _,
        hc.rest_eq hend⟩
    · obtain ⟨o, s₁, st₁, log₁, j, hs, haside, hij, hc₁, hidx, hst⟩ := hc.next hloc hans
      obtain ⟨g, s', hg, hlen, hrest⟩ := ih hc₁ (by omega)
      have hdepth : (s₁.thr t).depth = (s.thr t).depth := congrArg List.length haside.below
      refine ⟨g ++ [.act t (s.thr t).depth (.exec o)], s',
        ⟨(LTS.Run.single hs).append hg.run, fun l hl => ?_, hg.frame, hg.done,
          haside.trans hg.aside⟩, ?_, ?_⟩
      · rcases List.mem_append.mp hl with hl | hl
        · rw [← hdepth]
          exact hg.own l hl
        · exact ⟨o, List.mem_singleton.mp hl⟩
      · rw [List.length_append]
        exact Nat.succ_le_succ hlen
      · rw [hrest, hidx]
        exact Stage.rest_step hst

/-- **A call completes alone**, from every reachable state. -/
theorem completes_alone (hi : M.Initial s₀) (hr : LTS.Run M.Step s₀ h s)
    (hrun : (s.thr t).running = true) (hf : (s.thr t).top.frame = .op c site) :
    ∃ g s', CompletesAlone M s t c site g s' := by
  obtain ⟨a, ha, hrel⟩ := refine_run hi hr
  obtain ⟨st, log, i, htop, hc⟩ := (hrel.thr t).top.works hf
  have hok := (Stage.inv_run s₀.initial_stages ha).top t
  rw [htop] at hok
  obtain ⟨g, s', halone, hlen, hrest⟩ :=
    RunsAt.alone (M.img.block site).len ⟨hrun, hc⟩ (Nat.le_add_left _ _)
  obtain ⟨_, _, _, hl⟩ := M.img.block_order site
  refine ⟨g, s', halone, hc.block_eq ▸ hlen, fun hlt => ?_, fun hge => ?_⟩
  · -- it stands before the range
    have hst : i < (M.img.block site).start := by
      by_contra hge
      have hle : M.img.ip site (M.img.block site).start ≤ M.img.ip site i :=
        Image.ip_le (Nat.not_lt.mp hge) hc.slot.1
      exact BitVec.not_lt.mpr hle (hc.ip ▸ hlt)
    rw [hrest, hc.entering hst]
    exact Call.atomic_tree hok.2.1
  · -- it stands behind it
    have hpost : (M.img.block site).post ≤ i := by
      by_contra hlt
      have hlt : M.img.ip site i < M.img.ip site (M.img.block site).post :=
        Image.ip_lt_ip (Nat.not_le.mp hlt) hl.le
      exact BitVec.not_lt.mpr (hc.ip ▸ hge) hlt
    obtain ⟨r, rfl⟩ := hc.finishing hpost
    exact congrArg Prod.snd hrest

end Run

/-- A thread that has just called `compare_exchange`. -/
def casCalled : Sys Unit casMachine.img.Site :=
  casMachine.called () casCall soleSite (casMachine.resumed () 0 0 (casMachine.boot fun _ => 0))

theorem casCalled_run :
    LTS.Run casMachine.Step (casMachine.boot fun _ => 0)
      [.act () 0 (.call casCall), .act () 0 (.resume 0 0)] casCalled :=
  casMachine.alone_run (n := 0) (p := ([], casCalled)) soleSite rfl rfl rfl

/-- Alone, it stores. -/
theorem completes_alone_casCalled :
    ∃ g s', CompletesAlone casMachine casCalled () casCall soleSite g s' ∧ s'.mem 0x8000 = 1 := by
  obtain ⟨g, s', h⟩ := completes_alone (t := ()) (c := casCall) (s := casCalled)
    (casMachine_initial _) casCalled_run rfl rfl
  refine ⟨g, s', h, ?_⟩
  have hmem : s'.mem = (casCall.run 0 fun _ => 0).2 := congrArg Prod.snd (h.fresh (by decide))
  rw [hmem]
  rfl

end RseqRs
