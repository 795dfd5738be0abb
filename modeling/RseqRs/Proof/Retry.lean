import RseqRs.Model.Retry
import RseqRs.Proof.Errors
import RseqRs.Proof.Ledger
import RseqRs.Proof.Program

/-!
# Retry loops

A loop tries again only if it was moved. A context is *late* when it has read a key that is no
longer the index of its thread, or has already found that out. An `Abort` is returned by a late
context, and leaves it at the head of its loop, where it is not late; and only a move makes a
context late. So every `Abort` is paid for by a move of its own (`Paid`).
-/

namespace RseqRs

variable {Tid : Type} [DecidableEq Tid] {M : Machine Tid}

namespace Retry

variable {K : Index} {t : Tid} {d : ℕ} {a a' : Stage.Sys Tid} {area : Tid → Area} {m : Mem}
  {h : List (Label Tid)} {l : Label Tid} {o o' : Option (program K).Job} {w w' : Option Work}
  {idx idx' : Index → U32}

/-! ### Late contexts -/

/-- The context has read a key that is no longer the index, or is about to return that. -/
def Late (idx : Index → U32) (w : Option Work) : Option (Job K) → Prop
  | some (.read _ key) => idx K ≠ K.get key
  | some (.calling _ key op _) => idx K ≠ K.get key ∨
    ∃ log, w = some (.op ⟨K, op⟩ (.finishing (.error .abort)) log)
  | _ => False

/-- **Only a move makes a context late.** -/
theorem late_back (hi : Stage.Inv h a) (hs : Stage.SysStep M a l a')
    (hj : (program K).JobStep area m t d l o o') (harea : (area t).index K = (a.thr t).index K)
    (hlate : Late (a'.thr t).index (a'.ctx t d) o') :
    Late (a.thr t).index (a.ctx t d) o ∨ (a'.thr t).index K ≠ (a.thr t).index K := by
  by_cases he : (a'.thr t).index K = (a.thr t).index K
  swap
  · exact Or.inr he
  refine Or.inl ?_
  cases hj with
  | keep _ =>
    cases o with
    | none => exact hlate
    | some j =>
      cases j with
      | rest => exact hlate
      | head p => exact hlate
      | read p key =>
        replace hlate : (a'.thr t).index K ≠ K.get key := hlate
        exact fun h => hlate (he.trans h)
      | calling p key op hp =>
        rcases hlate with hne | ⟨log, hw⟩
        · exact Or.inl fun h => hne (he.trans h)
        · rcases hs.finishing_back hi hw with hold | hne
          · exact Or.inr hold
          · exact Or.inl (p.key_eq _ _ hp ▸ hne)
  | turn ht =>
    cases ht with
    | start p => exact absurd hlate id
    | read hk =>
      -- the key has just been read
      replace hlate : (a'.thr t).index K ≠ K.get _ := hlate
      exact absurd (he.trans (harea.symm.trans (Area.get_key hk))) hlate
    | skip _ => exact absurd hlate id
    | call hp =>
      -- a call that was just made has no `Abort` to return
      rcases hlate with hne | ⟨log, hw⟩
      · exact fun h => hne (he.trans h)
      · obtain ⟨_, _, ht⟩ := hs.turn rfl nofun hw
        cases ht
    | again => exact absurd hlate id
    | done _ => exact absurd hlate id
  | pushed => exact absurd hlate id
  | popped => exact absurd hlate id

/-- **An `Abort` is returned by a late context**, which is not late then. -/
theorem late_of_aborts (hrefused : ∀ c, a.ctx t d = some (.refused c) → c.op.keysAgree = false)
    (hs : Stage.SysStep M a l a') (hj : (program K).JobStep area m t d l o o')
    (hl : l.aborts t d = true) :
    Late (a.thr t).index (a.ctx t d) o ∧ ¬ Late (a'.thr t).index (a'.ctx t d) o' := by
  obtain ⟨c, rfl⟩ : ∃ c, l = .act t d (.ret c (.error .abort)) := by
    unfold Label.aborts at hl
    split at hl
    · obtain ⟨rfl, rfl⟩ := of_decide_eq_true hl
      exact ⟨_, rfl⟩
    · cases hl
  cases hj with
  | keep hno => rcases hno _ rfl with h | h <;> cases h
  | turn ht =>
    cases ht with
    | @again p key op hp =>
      -- its keys agree, so it was not refused but has made an attempt
      refine ⟨Or.inr ?_, id⟩
      obtain ⟨rfl, ⟨log, htop⟩ | ⟨htop, _⟩⟩ := hs.ret
      · exact ⟨log, htop ▸ a.ctx_depth t⟩
      · have hk := hrefused _ (htop ▸ a.ctx_depth t)
        rw [p.keysAgree _ _ hp] at hk
        cases hk
    | done hne => exact absurd rfl hne

/-! ### Every `Abort` is paid for -/

/-- The index a step leaves. -/
theorem newIndex_eq (hs : Stage.SysStep M a l a') (K : Index) (t : Tid) :
    (l.newIndex K t).getD ((a.thr t).index K) = (a'.thr t).index K := by
  cases hs with
  | @move u b m x hm _ =>
    show _ = (Function.update a.thr u x t).index K
    by_cases hu : t = u
    · subst hu
      rw [Function.update_self]
      cases hm with
      | resume cpu cid _ =>
        show (if t = t then some (Area.index ⟨cpu, 0, cid⟩ K) else none).getD _ = _
        rw [if_pos rfl]
        cases K <;> rfl
      | turn _ _ ht => cases ht <;> rfl
      | _ => rfl
    · rw [Function.update_of_ne hu]
      cases b with
      | resume cpu cid =>
        show (if u = t then some (Area.index ⟨cpu, 0, cid⟩ K) else none).getD _ = _
        rw [if_neg (Ne.symm hu)]
        rfl
      | _ => rfl
  | @fenceRun u f pc pc' ev p hit _ _ _ =>
    obtain ⟨w, he, _⟩ := Stage.fenced_thr a u t f pc' p hit
    show (a.thr t).index K = _
    rw [he]
  | write x v => rfl

/-- The history `g` has no more aborts there than moves of the thread, and one less if the
context is late; the index of the thread was `i` before. -/
structure Paid (K : Index) (t : Tid) (d : ℕ) (i : U32) (g : List (Label Tid))
    (a : Stage.Sys Tid) (k : Tid → List (Job K)) : Prop where
  index : indexAfter K t i g = (a.thr t).index K
  le : g.countP (Label.aborts t d) ≤ moves K t i g
  late : Late (a.thr t).index (a.ctx t d) (ctxAt (k t) d) →
    g.countP (Label.aborts t d) + 1 ≤ moves K t i g

/-- **One step**: an abort uses up what a move has paid. -/
theorem Paid.step {i : U32} {g : List (Label Tid)} {k k' : Tid → List (Job K)}
    (hp : Paid K t d i g a k) (hi : Stage.Inv h a)
    (hrefused : ∀ c, a.ctx t d = some (.refused c) → c.op.keysAgree = false)
    (hs : Stage.SysStep M a l a')
    (hj : (program K).JobStep area m t d l (ctxAt (k t) d) (ctxAt (k' t) d))
    (harea : (area t).index K = (a.thr t).index K) : Paid K t d i (l :: g) a' k' := by
  -- what the history says of the index is what the step leaves
  have hindex : indexAfter K t i (l :: g) = (a'.thr t).index K := by
    show (l.newIndex K t).getD (indexAfter K t i g) = _
    rw [hp.index]
    exact newIndex_eq hs K t
  have hmoves : moves K t i (l :: g) =
      (if (a'.thr t).index K ≠ (a.thr t).index K then 1 else 0) + moves K t i g := by
    show (if indexAfter K t i (l :: g) ≠ indexAfter K t i g then 1 else 0) + _ = _
    rw [hindex, hp.index]
  have hge : moves K t i g ≤ moves K t i (l :: g) := by rw [hmoves]; exact Nat.le_add_left _ _
  -- an abort counts one more, and ends what was late
  by_cases hl : l.aborts t d = true
  · obtain ⟨hlate, hnot⟩ := late_of_aborts hrefused hs hj hl
    refine ⟨hindex, ?_, fun h => absurd h hnot⟩
    rw [List.countP_cons_of_pos hl]
    exact (hp.late hlate).trans hge
  · refine ⟨hindex, ?_, fun hlate => ?_⟩
    · rw [List.countP_cons_of_neg hl]
      exact hp.le.trans hge
    · rw [List.countP_cons_of_neg hl]
      rcases late_back hi hs hj harea hlate with hold | hne
      · exact (hp.late hold).trans hge
      · rw [hmoves, if_pos hne, Nat.add_comm 1]
        exact Nat.add_le_add_right hp.le 1

/-! ### Windows -/

variable {i : U32} {g : List (Label Tid)} {p₁ p₂ : Sys Tid M.img.Site × (Tid → List (Job K))}

theorem paid_run (hw : Window K M t d p₁ g p₂) :
    ∃ a, p₂.1.Rel M a ∧ Paid K t d ((p₁.1.thr t).area.index K) g a p₂.2 := by
  obtain ⟨⟨p₀, h, hi, hr₁⟩, hbetween, hrun⟩ := hw
  have hinit := p₀.1.initial_stages
  have hpaid : ∃ a, p₂.1.Rel M a ∧ LTS.Run (Stage.SysStep M) p₀.1.stages (g ++ h) a ∧
      Paid K t d ((p₁.1.thr t).area.index K) g a p₂.2 := by
    -- induction on the window, in the stage machine
    induction hrun with
    | nil =>
      obtain ⟨a, ha, hrel⟩ := refine_run hi.machine (Program.run_machine hr₁)
      refine ⟨a, hrel, ha, (hrel.thr t).index K, Nat.zero_le _, fun hlate => ?_⟩
      -- between two ops no context is late
      cases hj : ctxAt (p₁.2 t) d with
      | none => rw [hj] at hlate; exact absurd hlate id
      | some j =>
        rw [hj] at hlate
        rcases hbetween j hj with rfl | ⟨p, rfl⟩
        · exact absurd hlate id
        · exact absurd hlate id
    | @cons g p p' l hg hs ih =>
      obtain ⟨a, hrel, ha, hpaid⟩ := ih
      obtain ⟨a', hs', hrel'⟩ := refine_step hrel hs.1
      exact ⟨a', hrel', ha.cons hs', hpaid.step (Stage.inv_run hinit ha)
        (Stage.refused_run hinit ha t d) hs' (Program.job_step hi (hr₁.append hg) hs t d)
        ((hrel.thr t).index K)⟩
  obtain ⟨a, hrel, _, hpaid⟩ := hpaid
  exact ⟨a, hrel, hpaid⟩

/-- One, if the context is in an op. -/
def inCall : Option (Job K) → ℕ
  | some (.calling _ _ _ _) => 1
  | _ => 0

omit [DecidableEq Tid] in
/-- A step of its own that a job sleeps through is neither a call nor a return. -/
theorem quiet_of_idles [DecidableEq Tid]
    (hl : ∀ b, l = .act t d b → b.idles = true ∨ b = .signal) :
    l.calls t d = false ∧ l.finishes t d = false ∧ l.aborts t d = false := by
  cases l with
  | act u e b =>
    by_cases hu : u = t ∧ e = d
    · obtain ⟨rfl, rfl⟩ := hu
      rcases hl b rfl with hb | rfl
      · cases b with
        | call c => cases hb
        | ret c r => cases hb
        | _ => exact ⟨rfl, rfl, rfl⟩
      · exact ⟨rfl, rfl, rfl⟩
    · cases b with
      | call c => exact ⟨decide_eq_false hu, rfl, rfl⟩
      | ret c r =>
        cases r with
        | ok v => exact ⟨rfl, decide_eq_false hu, rfl⟩
        | error e =>
          cases e with
          | miss v => exact ⟨rfl, decide_eq_false hu, rfl⟩
          | abort => exact ⟨rfl, rfl, decide_eq_false hu⟩
      | _ => exact ⟨rfl, rfl, rfl⟩
  | _ => exact ⟨rfl, rfl, rfl⟩

/-- Calls and returns take turns. -/
theorem inCall_step (hj : (program K).JobStep area m t d l o o') :
    (if l.calls t d then 1 else 0) + inCall o =
      (if l.finishes t d then 1 else 0) + (if l.aborts t d then 1 else 0) + inCall o' := by
  cases hj with
  | keep hno =>
    obtain ⟨hc, hf, ha⟩ := quiet_of_idles hno
    rw [hc, hf, ha]
    rfl
  | turn ht =>
    cases ht with
    | call hp => simp [Label.calls, Label.finishes, Label.aborts, inCall]
    | again => simp [Label.calls, Label.finishes, Label.aborts, inCall]
    | @done p key op hp r hne =>
      cases r with
      | ok v => simp [Label.calls, Label.finishes, Label.aborts, inCall]
      | error e =>
        cases e with
        | miss v => simp [Label.calls, Label.finishes, Label.aborts, inCall]
        | abort => exact absurd rfl hne
    | _ => rfl
  | pushed => rfl
  | popped => rfl

theorem calls_run (hw : Window K M t d p₁ g p₂) : g.countP (Label.calls t d) =
    g.countP (Label.finishes t d) + g.countP (Label.aborts t d) + inCall (ctxAt (p₂.2 t) d) := by
  obtain ⟨⟨p₀, h, hi, hr₁⟩, hbetween, hrun⟩ := hw
  induction hrun with
  | nil =>
    have hzero : inCall (ctxAt (p₁.2 t) d) = 0 := by
      cases hj : ctxAt (p₁.2 t) d with
      | none => rfl
      | some j =>
        rcases hbetween j hj with rfl | ⟨p, rfl⟩
        · rfl
        · rfl
    rw [hzero]
    rfl
  | @cons g p p' l hg hs ih =>
    have hstep : (if l.calls t d then 1 else 0) + inCall (@ctxAt (Job K) (p.2 t) d) =
        (if l.finishes t d then 1 else 0) + (if l.aborts t d then 1 else 0) +
          inCall (@ctxAt (Job K) (p'.2 t) d) :=
      inCall_step (Program.job_step hi (hr₁.append hg) hs t d)
    simp only [List.countP_cons]
    omega

/-! ### Instructions -/

variable {s₀ s s' : Sys Tid M.img.Site}

/-- An instruction leaves its context in the word op. -/
theorem frame_of_exec {b : Obs} (hs : M.Step s (.act t d (.exec b)) s') :
    ∃ y c site, ctxAt (s'.thr t).stack d = some y ∧ y.frame = .op c site ∧
      (s.thr t).top.frame = .op c site := by
  cases hs with
  | move hm _ =>
    cases hm with
    | @exec c site i o v ar m' hr hf hloc hans =>
      refine ⟨.inOp M.img c site ((M.img.block site).next (M.img.desc site)
        ((s.thr t).top.core i) v), c, site, ?_, rfl, hf⟩
      show ctxAt (Function.update s.thr t _ t).stack _ = _
      rw [Function.update_self]
      exact ctxAt_cons_self

/-- **No call makes more instructions** than a pass through its block, and one more for every
kernel event since it was made; also when it has returned. -/
theorem instrCount_le (hi : M.Initial s₀) (hr : LTS.Run M.Step s₀ h s) (t : Tid) (d : ℕ) :
    instrCount t d h ≤ (eventCount t d h + 1) * 22 := by
  induction hr with
  | nil => exact Nat.zero_le _
  | @cons h s s' l hr hs ih =>
    by_cases hcall : l.calls t d = true
    · obtain ⟨c, rfl⟩ := Label.calls_iff.mp hcall
      rw [instrCount, sinceCall_call]
      exact Nat.zero_le _
    by_cases hinstr : l.instr t d = true
    · obtain ⟨b, rfl⟩ := Label.instr_iff.mp hinstr
      obtain ⟨y, c, site, hy, hf, _⟩ := frame_of_exec hs
      -- the slots it has passed in this pass, and a whole pass for every event before
      obtain ⟨a, _, hrel⟩ := refine_run hi (hr.cons hs)
      obtain ⟨hblock, i, hip, hle⟩ := hrel.slot_le hy hf
      have hn := instrCount_run hi (hr.cons hs) t d y c site i hy hf hip hle
      have hlen : (M.img.block site).len ≤ 22 := hblock ▸ c.op.block_len_le _
      refine hn.trans ?_
      rw [Nat.add_mul, Nat.one_mul]
      exact Nat.add_le_add (Nat.mul_le_mul_left _ hlen) (hle.trans hlen)
    · rw [Bool.not_eq_true] at hcall hinstr
      have hinstr' : instrCount t d (l :: h) = instrCount t d h := by
        rw [instrCount, sinceCall_cons_of_not_calls hcall, hinstr]
        exact Nat.zero_add _
      rw [hinstr', eventCount_cons hcall]
      exact ih.trans (Nat.mul_le_mul_right _ (Nat.add_le_add_right (Nat.le_add_left _ _) 1))

/-- The instructions of a window, by the calls and the kernel events in it. -/
structure Spent (t : Tid) (d : ℕ) (g h : List (Label Tid)) : Prop where
  first : g.countP (Label.calls t d) = 0 → g.countP (Label.instr t d) = 0
  total : 0 < g.countP (Label.calls t d) →
    g.countP (Label.instr t d) + (eventCount t d (g ++ h) + 1) * 22 ≤
      instrCount t d (g ++ h) +
        (g.countP (Label.calls t d) + g.countP (Label.event t d)) * 22

/-- An instruction belongs to a call of the window. -/
theorem calls_pos_of_instr (hw : Window K M t d p₁ g p₂)
    {p : Sys Tid M.img.Site × (Tid → List (Job K))} (hs : (program K).Step M p₂ l p)
    (hl : l.instr t d = true) : 0 < g.countP (Label.calls t d) := by
  obtain ⟨b, rfl⟩ := Label.instr_iff.mp hl
  obtain ⟨⟨p₀, h, hi, hr₁⟩, _, hrun⟩ := id hw
  -- the running context is in a call, and so is its job
  obtain ⟨_, c, site, _, _, hf⟩ := frame_of_exec hs.1
  have hd := hs.1.act_depth
  have htop : ctxAt (p₂.1.thr t).stack d = some (p₂.1.thr t).top := by
    rw [hd]
    exact ctxAt_cons_self
  obtain ⟨j, hj, hc⟩ := (Program.fits_run hi (hr₁.append hrun)).job htop
  have hin : inCall (@ctxAt (Job K) (p₂.2 t) d) = 1 := by
    rw [hf] at hc
    have hj' : @ctxAt (Job K) (p₂.2 t) d = some j := hj
    rw [hj']
    cases j with
    | calling p key op hp => rfl
    | _ => cases hc
  have hcalls := calls_run hw
  omega

/-- **One step**: an instruction or an event adds to both sides, and a call makes room for one
more pass. -/
theorem Spent.step (hp : Spent t d g h) (hle : instrCount t d (g ++ h) ≤
    (eventCount t d (g ++ h) + 1) * 22)
    (hcalled : l.instr t d = true → 0 < g.countP (Label.calls t d)) : Spent t d (l :: g) h := by
  by_cases hcall : l.calls t d = true
  · obtain ⟨c, rfl⟩ := Label.calls_iff.mp hcall
    have hI : (Label.act t d (.call c) :: g).countP (Label.instr t d) =
        g.countP (Label.instr t d) := List.countP_cons_of_neg nofun
    have hC : (Label.act t d (.call c) :: g).countP (Label.calls t d) =
        g.countP (Label.calls t d) + 1 := List.countP_cons_of_pos hcall
    have hE : g.countP (Label.event t d) ≤
        (Label.act t d (.call c) :: g).countP (Label.event t d) :=
      (List.sublist_cons_self _ _).countP_le
    -- a call starts the two counts anew, and makes room for one more pass
    refine ⟨fun h => ?_, fun _ => ?_⟩
    · omega
    · rw [List.cons_append, instrCount, eventCount, sinceCall_call, sinceCall_call, hI, hC]
      by_cases hpos : 0 < g.countP (Label.calls t d)
      · have htotal := hp.total hpos
        omega
      · have hfirst := hp.first (by omega)
        omega
  -- any other step adds to both counts of instructions alike, and of events
  have hinstr : (l :: g).countP (Label.instr t d) + instrCount t d (g ++ h) =
      g.countP (Label.instr t d) + instrCount t d (l :: (g ++ h)) := by
    rw [Bool.not_eq_true] at hcall
    rw [instrCount, sinceCall_cons_of_not_calls hcall, List.countP_cons]
    omega
  have hevent : (l :: g).countP (Label.event t d) + eventCount t d (g ++ h) =
      g.countP (Label.event t d) + eventCount t d (l :: (g ++ h)) := by
    rw [Bool.not_eq_true] at hcall
    rw [eventCount_cons hcall, List.countP_cons]
    omega
  have hC : (l :: g).countP (Label.calls t d) = g.countP (Label.calls t d) :=
    List.countP_cons_of_neg hcall
  refine ⟨fun h => ?_, fun hpos => ?_⟩
  · have hfirst := hp.first (hC ▸ h)
    have hno : l.instr t d = false := by
      by_contra hyes
      have hpos := hcalled (Bool.not_eq_false _ ▸ hyes)
      omega
    rw [List.countP_cons_of_neg (by rw [hno]; exact Bool.false_ne_true), hfirst]
  · have htotal := hp.total (hC ▸ hpos)
    rw [List.cons_append]
    omega

theorem spent_run (hw : Window K M t d p₁ g p₂) :
    ∃ h, Spent t d g h ∧ instrCount t d (g ++ h) ≤ (eventCount t d (g ++ h) + 1) * 22 := by
  obtain ⟨⟨p₀, h, hi, hr₁⟩, hbetween, hrun⟩ := hw
  refine ⟨h, ?_⟩
  induction hrun with
  | nil => exact ⟨⟨fun _ => rfl, nofun⟩, instrCount_le hi.machine (Program.run_machine hr₁) t d⟩
  | @cons g p p' l hg hs ih =>
    have hw : Window K M t d p₁ g p := ⟨⟨p₀, h, hi, hr₁⟩, hbetween, hg⟩
    exact ⟨ih.1.step ih.2 (calls_pos_of_instr hw hs),
      instrCount_le hi.machine (Program.run_machine (hr₁.append (hg.cons hs))) t d⟩

end Retry

/-- **A retry loop tries again only if its thread was moved**, and makes no more calls, and
instructions, than its results, its moves and the kernel events in it account for. -/
theorem retries_bounded (K : Index) (M : Machine Tid) (t : Tid) (d : ℕ)
    (p₁ p₂ : Sys Tid M.img.Site × (Tid → List (Retry.Job K))) (g : List (Label Tid))
    (hw : Retry.Window K M t d p₁ g p₂) :
    Retry.Bounded K t d ((p₁.1.thr t).area.index K) g := by
  obtain ⟨a, _, hpaid⟩ := Retry.paid_run hw
  have hcalls : g.countP (Label.calls t d) ≤
      g.countP (Label.finishes t d) + moves K t ((p₁.1.thr t).area.index K) g + 1 := by
    have hin : Retry.inCall (@ctxAt (Retry.Job K) (p₂.2 t) d) ≤ 1 := by
      unfold Retry.inCall
      split <;> decide
    have hle := hpaid.le
    rw [Retry.calls_run hw]
    omega
  refine ⟨hpaid.le, hcalls, ?_⟩
  obtain ⟨h, hspent, hle⟩ := Retry.spent_run hw
  by_cases hpos : 0 < g.countP (Label.calls t d)
  · have htotal := hspent.total hpos
    omega
  · rw [hspent.first (by omega)]
    exact Nat.zero_le _

/-! #### A thread that is moved -/

def addWords : Words := ⟨0x8000, 2⟩

/-- The word of each CPU, and the add to it. -/
def addCall (t : Bool) : Call := ⟨.cpuId, .fetchAdd ⟨addWords.addr (pairCpu t), pairCpuId t⟩ 1⟩

/-- The thread reads its CPU and is moved to the other one before it calls. The call aborts,
and the loop goes round again. -/
def addSchedule : List (Cmd Bool countPair.img.Site) :=
  [.resume false 0 0, .goto false, .goto false, .preempt false, .resume false 1 1,
    .call false (addCall false) soleSite, .exec false 9, .ret false, .goto false,
    .call false (addCall true) soleSite, .exec false 12, .ret false]

theorem addSchedule_plays : ∃ k, Machine.Plays countPair ((Retry.program .cpuId).bench countPair)
    Program.sleeps (countPair.boot fun _ => 0) (fun _ => [Retry.Job.rest]) addSchedule k := by
  have hread (t : Bool) : CpuId.new (pairCpu t) = some (pairCpuId t) := by cases t <;> rfl
  exact ⟨_, .quiet (by decide +kernel) <|
    .turn rfl (Program.Moves.single (.start (.add addWords 1))) <|
    .turn rfl (Program.Moves.single (.read (hread false))) <|
    .quiet (by decide +kernel) <| .quiet (by decide +kernel) <|
    .turn rfl (Program.Moves.single (.call rfl)) <| .quiet (by decide +kernel) <|
    .turn (show _ = some [.act false 0 (.ret (addCall false) (.error .abort))] from rfl)
      (Program.Moves.single .again) <|
    .turn rfl (Program.Moves.single (.read (hread true))) <|
    .turn rfl (Program.Moves.single (.call rfl)) <| .quiet (by decide +kernel) <|
    .turn (show _ = some [.act false 0 (.ret (addCall true) (.ok 0))] from rfl)
      (Program.Moves.single (.done nofun)) .nil⟩

def addEnd : List (Label Bool) × Sys Bool countPair.img.Site :=
  (countPair.play (countPair.boot fun _ => 0) addSchedule).get rfl

/-- Two calls for one result. -/
theorem retries_bounded_addEnd : Retry.Bounded .cpuId false 0 0 addEnd.1 ∧
    addEnd.1.countP (Label.calls false 0) = 2 ∧ addEnd.1.countP (Label.finishes false 0) = 1 := by
  obtain ⟨k, hplays⟩ := addSchedule_plays
  obtain ⟨h, s, hplay, hr⟩ := Program.plays_run (Image.ofSites_outside_zero _ _ one_site) hplays
  have hend : addEnd = (h, s) := Option.get_of_eq_some _ hplay
  refine ⟨?_, by decide +kernel, by decide +kernel⟩
  rw [hend]
  refine retries_bounded .cpuId countPair false 0 _ _ _ ⟨⟨_, [], ?_, .nil⟩, ?_, hr⟩
  · exact ⟨pairMachine_initial .., fun _ => rfl⟩
  · exact fun j hj => Or.inl (Option.some_inj.mp hj).symm

end RseqRs
