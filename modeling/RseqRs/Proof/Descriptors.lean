import RseqRs.Proof.Armed
import RseqRs.Proof.ExactlyOnce
import RseqRs.Spec.Descriptors

/-!
# What the kernel finds in `rseq_cs`

* `rseqCs_follows`: `rseq_cs` is the descriptor of the op whose section was entered last, until
  the kernel or `prepare_unload` clears it; so after `prepare_unload` descriptors may be
  reclaimed, as long as no section is entered.
* `never_killed`: the kernel accepts what it finds, and the signature is never executed.
-/

namespace RseqRs

/-! ### Descriptors -/

namespace Image

variable {img : Image} {s s' : img.Site}

theorem desc_ne_zero : img.desc s ≠ 0 := by
  intro h
  have hd := img.deref_desc s
  rw [h, img.deref_zero] at hd
  cases hd

/-- Every site has its own descriptor. -/
theorem desc_inj (h : img.desc s = img.desc s') : s = s' := by
  have hd := img.deref_desc s
  rw [h, img.deref_desc] at hd
  have hip : img.ip s' (img.block s').start = img.ip s (img.block s).start :=
    congrArg RseqCs.startIp (Option.some_inj.mp hd)
  obtain ⟨_, _, h₁, h₂⟩ := img.block_order s
  obtain ⟨_, _, h₁', h₂'⟩ := img.block_order s'
  have hl := img.locate_ip s _ (h₁.trans h₂)
  have hl' := img.locate_ip s' _ (h₁'.trans h₂')
  rw [show img.ip s' _ = _ from hip, show img.locate (img.ip s _) = _ from hl] at hl'
  exact congrArg Prod.fst (Option.some_inj.mp hl')

theorem signature_precedes_abort (s : img.Site) :
    (Block.slots (img.block s).lines)[(img.block s).abort - 1]? = some none :=
  Section.signature_precedes_abort _ _

/-- **The kernel accepts** the descriptor of every site. -/
theorem accepts_desc (s : img.Site) : ∃ cs, img.deref (img.desc s) = some cs ∧ img.Accepts cs := by
  refine ⟨_, img.deref_desc s, ?_⟩
  obtain ⟨ha, hs, hp, hl⟩ := img.block_order s
  have hle : img.ip s (img.block s).start ≤ img.ip s (img.block s).post := ip_le hp.le hl.le
  refine ⟨?_, fun hlt => ?_, s, _, img.signature_precedes_abort s, ?_⟩
  · show img.ip s (img.block s).start ≤
      img.ip s (img.block s).start + (img.ip s (img.block s).post - img.ip s (img.block s).start)
    rw [add_sub_cancel]
    exact hle
  · -- the abort label stands before the range
    have hin : img.ip s (img.block s).start ≤ img.ip s (img.block s).abort :=
      ((sub_lt_sub_iff hle).mp hlt).1
    exact absurd (ip_lt_ip hs (hp.trans hl).le) (BitVec.not_lt.mpr hin)
  · -- the label stands four bytes after the signature
    have hip := img.ip_sig s _ (img.signature_precedes_abort s)
    rw [Nat.sub_add_cancel ha] at hip
    exact BitVec.sub_eq_iff_eq_add.mpr hip

end Image

/-! ### Steps and the cell -/

section Cell

variable {Tid : Type} [DecidableEq Tid] {M : Machine Tid} {s s' s₀ : Sys Tid M.img.Site}
  {h : List (Label Tid)} {l : Label Tid} {t : Tid} {d : ℕ} {c : Call} {site : M.img.Site}

/-- What a step leaves in the `rseq_cs` of `t`. -/
inductive CsStep (M : Machine Tid) (s : Sys Tid M.img.Site) (t : Tid) : Label Tid → Usize → Prop
  | arm {c : Call} {site : M.img.Site} : (s.thr t).top.frame = .op c site →
      M.img.sect site = c.op.section →
      CsStep M s t (.act t (s.thr t).depth (.exec .arm)) (M.img.desc site)
  | clear {l : Label Tid} : l.arms t = none → l.clears t = true → CsStep M s t l 0
  | keep {l : Label Tid} : l.arms t = none → l.clears t = false →
      CsStep M s t l (s.thr t).area.rseqCs

theorem Label.arms_of_ne {u : Tid} {act : Act} (hu : u ≠ t) :
    (Label.act u d act).arms t = none := by
  cases act with
  | exec o =>
    cases o with
    | arm => exact if_neg hu
    | _ => rfl
  | _ => rfl

theorem Label.clears_of_ne {u : Tid} {act : Act} (hu : u ≠ t) :
    (Label.act u d act).clears t = false := by
  cases act with
  | unload => exact decide_eq_false hu
  | resume => exact decide_eq_false hu
  | signal => exact decide_eq_false hu
  | _ => rfl

/-- **A step and the cell.** -/
theorem Machine.Step.csStep {a : Stage.Sys Tid} (hs : M.Step s l s') (hrel : s.Rel M a) (t : Tid) :
    CsStep M s t l (s'.thr t).area.rseqCs := by
  cases hs with
  | @move u act m x hm hfree =>
    show CsStep M s t _ (Function.update s.thr u x t).area.rseqCs
    by_cases hu : t = u
    · subst hu
      rw [Function.update_self]
      cases hm with
      | @exec c site i o v area m' hr hf hloc hans =>
        obtain ⟨st, log, j, _, hc⟩ := (hrel.thr t).top.works hf
        obtain ⟨hip, hlt⟩ := M.img.ip_locate _ _ _ hloc
        -- the instruction at `ip` is the one the call is at
        obtain rfl : i = j := Image.ip_inj hlt.le hc.slot.1 (hip.symm.trans hc.ip)
        obtain ⟨_, _, _, rfl⟩ := hc.exec hans
        cases o with
        | arm => exact .arm hf hc.sect
        | tau => exact .keep rfl rfl
        | acc b last => exact .keep rfl rfl
      | unload => exact .clear rfl (decide_eq_true rfl)
      | resume => exact .clear rfl (decide_eq_true rfl)
      | signal => exact .clear rfl (decide_eq_true rfl)
      | _ => exact .keep rfl rfl
    · rw [Function.update_of_ne hu]
      exact .keep (Label.arms_of_ne (Ne.symm hu)) (Label.clears_of_ne (Ne.symm hu))
  | @fenceRun u f pc pc' ev p hit hr hf hrun hre =>
    by_cases hh : hit t = true
    · have hcs : ((M.fenced s u f pc' p hit).thr t).area.rseqCs = 0 := by
        by_cases hu : t = u
        · simp only [Machine.fenced, if_pos hu, if_pos hh]
          rfl
        · simp only [Machine.fenced, if_neg hu, if_pos hh]
          rfl
      rw [hcs]
      exact .clear rfl hh
    · have hcs : ((M.fenced s u f pc' p hit).thr t).area.rseqCs = (s.thr t).area.rseqCs := by
        by_cases hu : t = u
        · simp only [Machine.fenced, if_pos hu, if_neg hh]
        · simp only [Machine.fenced, if_neg hu, if_neg hh]
      rw [hcs]
      exact .keep rfl (Bool.eq_false_iff.mpr hh)
  | write b v => exact .keep rfl rfl

/-- A step that is not the context's own calls nothing there. -/
theorem Label.callee_of_not_own (hl : l.own t d = false) : l.callee t d = none := by
  cases l with
  | act u e a =>
    cases a with
    | call c =>
      refine if_neg fun hue => ?_
      rw [Label.own_act.mpr ⟨hue, rfl⟩] at hl
      cases hl
    | _ => rfl
  | _ => rfl

/-- **The op in a context is the one called there last.** -/
theorem lastCall_run (hi : M.Initial s₀) (hr : LTS.Run M.Step s₀ h s) :
    ∀ d z c site, ctxAt (s.thr t).stack d = some z → z.frame = .op c site →
      lastCall t d h = some c := by
  refine hr.invariant (I := fun h s => ∀ d z c site, ctxAt (s.thr t).stack d = some z →
    z.frame = .op c site → lastCall t d h = some c) (fun d z c site hz hf => ?_)
    fun h s l s' _ ih hs d z c site hz hf => ?_
  · -- no thread is in a word op
    have hstack : (s₀.thr t).stack = [(s₀.thr t).top] := congrArg _ (hi.below t)
    rw [hstack] at hz
    rcases ctxAt_cons hz with ⟨_, rfl⟩ | ⟨_, hb⟩
    · rw [hi.idle t] at hf; cases hf
    · cases hb
  · have hkeep {x : Ctx M.img.Site} (hx : ctxAt (s.thr t).stack d = some x)
        (hxf : x.frame = .op c site) (hl : l.callee t d = none) :
        lastCall t d (l :: h) = some c := by
      rw [lastCall, List.findSome?_cons, hl]
      exact ih d x c site hx hxf
    -- a context in an op has called it now, or was in it before
    have hop := hs.op hz hf
    cases hop with
    | call _ =>
      rw [lastCall, List.findSome?_cons, Label.callee, if_pos ⟨rfl, rfl⟩]
    | exec hx hxf _ _ _ => exact hkeep hx hxf rfl
    | keep hx hl => exact hkeep hx hf (Label.callee_of_not_own hl)
    | event hx hl _ => exact hkeep hx hf (Label.callee_of_not_own hl)

/-! ### The cell follows -/

theorem Thr.Follows.of_zero {img : Image} {x : Thr img.Site} (h : x.area.rseqCs = 0) :
    x.Follows img none where
  clear _ := ⟨h, fun img' => by rw [h]; exact Image.fixup_zero⟩
  armed := nofun
  only site hd := absurd (hd.symm.trans h) Image.desc_ne_zero

theorem Thr.Follows.of_desc {img : Image} {x : Thr img.Site} {c : Call} {site : img.Site}
    (hs : img.sect site = c.op.section) (h : x.area.rseqCs = img.desc site) :
    x.Follows img (some c) where
  clear := nofun
  armed _ hc := Option.some_inj.mp hc ▸ ⟨site, hs, h⟩
  only site' hd := by
    obtain rfl := Image.desc_inj (h.symm.trans hd)
    exact ⟨c, rfl, hs⟩

/-- Only `rseq_cs` and the place of the running context count. -/
theorem Thr.Follows.congr {img : Image} {x y : Thr img.Site} {o : Option Call}
    (h : x.Follows img o) (he : y.area.rseqCs = x.area.rseqCs) : y.Follows img o where
  clear ho := by
    obtain ⟨h₀, _⟩ := h.clear ho
    rw [he, h₀]
    exact ⟨rfl, fun img' => Image.fixup_zero⟩
  armed c hc := he ▸ h.armed c hc
  only site hd := h.only site (he ▸ hd)

/-- **One step** keeps `rseq_cs` following. -/
theorem Thr.Follows.step (hf : (s.thr t).Follows M.img (installed t h)) (hi : M.Initial s₀)
    (hr : LTS.Run M.Step s₀ h s) (hs : M.Step s l s') :
    (s'.thr t).Follows M.img (installed t (l :: h)) := by
  obtain ⟨a, _, hrel⟩ := refine_run hi hr
  have hcs := hs.csStep hrel t
  generalize hv : (s'.thr t).area.rseqCs = v at hcs
  cases hcs with
  | @arm c site hframe hsect =>
    -- the descriptor of the op that runs, which was called last
    have htop : ctxAt (s.thr t).stack (s.thr t).depth = some (s.thr t).top := ctxAt_cons_self
    rw [installed, Label.arms, if_pos rfl]
    show (s'.thr t).Follows M.img (lastCall t (s.thr t).depth h)
    rw [lastCall_run hi hr _ _ c site htop hframe]
    exact .of_desc hsect hv
  | clear ha hc =>
    rw [installed, ha]
    show (s'.thr t).Follows M.img (if l.clears t then none else installed t h)
    rw [if_pos hc]
    exact .of_zero hv
  | keep ha hc =>
    rw [installed, ha]
    show (s'.thr t).Follows M.img (if l.clears t then none else installed t h)
    rw [if_neg (Bool.eq_false_iff.mp hc)]
    exact hf.congr hv

theorem follows_run (hi : M.Initial s₀) (hr : LTS.Run M.Step s₀ h s) (t : Tid) :
    (s.thr t).Follows M.img (installed t h) := by
  induction hr with
  | nil => exact .of_zero (hi.cs t)
  | cons hr hs ih => exact ih.step hi hr hs

/-- **The descriptor is that of the running copy**, and stays as long as it is installed. -/
theorem own_run (hi : M.Initial s₀) (hr : LTS.Run M.Step s₀ h s) (t : Tid) :
    ∀ c, installed t h = some c → ∃ g h₀ s₁ site,
      h = g ++ .act t (s₁.thr t).depth (.exec .arm) :: h₀ ∧ LTS.Run M.Step s₀ h₀ s₁ ∧
        LTS.Run M.Step s₁ (g ++ [.act t (s₁.thr t).depth (.exec .arm)]) s ∧
        (s₁.thr t).top.frame = .op c site ∧ (s.thr t).area.rseqCs = M.img.desc site ∧
        ∀ l ∈ g, l.arms t = none ∧ l.clears t = false := by
  induction hr with
  | nil => nofun
  | @cons h s s' l hr hs ih =>
    intro c hc
    obtain ⟨a, _, hrel⟩ := refine_run hi hr
    have hcs := hs.csStep hrel t
    generalize (s'.thr t).area.rseqCs = v at hcs ⊢
    cases hcs with
    | @arm c' site hframe hsect =>
      -- the op that runs is the one that is installed now
      have htop : ctxAt (s.thr t).stack (s.thr t).depth = some (s.thr t).top := ctxAt_cons_self
      rw [installed, Label.arms, if_pos rfl] at hc
      have hlast := lastCall_run hi hr _ _ c' site htop hframe
      obtain rfl : c' = c := Option.some_inj.mp (hlast.symm.trans hc)
      exact ⟨[], h, s, site, rfl, hr, .single hs, hframe, rfl,
        fun _ hl => absurd hl List.not_mem_nil⟩
    | clear ha hcl =>
      rw [installed, ha] at hc
      replace hc : (if l.clears t then none else installed t h) = some c := hc
      rw [if_pos hcl] at hc
      cases hc
    | keep ha hcl =>
      rw [installed, ha] at hc
      replace hc : (if l.clears t then none else installed t h) = some c := hc
      rw [if_neg (Bool.eq_false_iff.mp hcl)] at hc
      obtain ⟨g, h₀, s₁, site, rfl, hr₀, hg, hf, hd, hall⟩ := ih c hc
      refine ⟨l :: g, h₀, s₁, site, rfl, hr₀, .cons hg hs, hf, hd, fun l' hl' => ?_⟩
      rcases List.mem_cons.mp hl' with rfl | hl'
      · exact ⟨ha, hcl⟩
      · exact hall l' hl'

/-- Nothing is installed if no section has been entered since `prepare_unload`. -/
theorem installed_of_unload {g : List (Label Tid)} (hg : ∀ l ∈ g, l.arms t = none) :
    installed t (g ++ .act t d .unload :: h) = none := by
  induction g with
  | nil => exact if_pos (decide_eq_true rfl)
  | cons l g ih =>
    rw [List.cons_append, installed, hg l (List.mem_cons_self ..)]
    show (if l.clears t then none else _) = none
    rw [ih fun l' hl' => hg l' (List.mem_cons_of_mem _ hl'), ite_self]

/-- **`rseq_cs` follows** the ops of its thread, in every reachable state. -/
theorem rseqCs_follows (hi : M.Initial s₀) (hr : LTS.Run M.Step s₀ h s) (t : Tid) :
    M.Finds s₀ h s t := by
  have hfollows := follows_run hi hr t
  refine ⟨hfollows, own_run hi hr t, fun d g h₀ he hg => hfollows.clear ?_⟩
  rw [he]
  exact installed_of_unload hg

/-! ### The kernel accepts -/

theorem Block.fetch_of_req {b : Block Reg} {core : Core Reg} {q : Req} (h : b.req core = some q) :
    ∃ ins, b.fetch core.pc = some ins := by
  obtain ⟨ins, hins, _⟩ := Option.map_eq_some_iff.mp h
  exact ⟨ins, hins⟩

/-- **No thread is killed** for its sections, in any reachable state. -/
theorem never_killed (hi : M.Initial s₀) (hr : LTS.Run M.Step s₀ h s) (t : Tid) :
    (s.thr t).Sound M.img := by
  obtain ⟨a, _, hrel⟩ := refine_run hi hr
  refine ⟨?_, fun d z c site hz hf => ?_⟩
  · -- `rseq_cs` holds a descriptor of the image, if any
    rcases (hrel.thr t).cs with h₀ | ⟨site, hd⟩
    · exact Or.inl h₀
    · rw [hd]
      exact Or.inr (M.img.accepts_desc site)
  · obtain ⟨w, _, hzw⟩ := (hrel.thr t).ctx hz
    obtain ⟨st, log, i, _, hc⟩ := hzw.works hf
    rcases hc.progress (s.thr t).area s.mem with hend | ⟨hloc, hans⟩
    · exact Or.inl hend
    · -- what is answered has been asked by an instruction
      obtain ⟨ans, hans⟩ := Option.isSome_iff_exists.mp hans
      obtain ⟨q, hq, _⟩ := Option.bind_eq_some_iff.mp hans
      obtain ⟨ins, hins⟩ := Block.fetch_of_req hq
      exact Or.inr ⟨i, ins, hloc, hins⟩

end Cell

/-! ### A thread that is inside -/

/-- The thread that has made four instructions has its descriptor installed. -/
theorem rseqCs_follows_casInside :
    installed () (casInside.1 ++ [.act () 0 (.call casCall), .act () 0 (.resume 0 0)]) =
        some casCall ∧
      casMachine.Finds (casMachine.boot fun _ => 0)
        (casInside.1 ++ [.act () 0 (.call casCall), .act () 0 (.resume 0 0)]) casInside.2 () :=
  ⟨rfl, rseqCs_follows (casMachine_initial _) casInside_run ()⟩

/-- It has not been killed. -/
theorem never_killed_casInside :
    (casInside.2.thr ()).area.rseqCs = casMachine.img.desc soleSite ∧
      (casInside.2.thr ()).Sound casMachine.img :=
  ⟨by decide, never_killed (casMachine_initial _) casInside_run ()⟩

end RseqRs
