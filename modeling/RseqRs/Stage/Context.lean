import RseqRs.Stage.Invariant

/-!
# One context of the stage machine

What any step of any thread does to the context of `t` at depth `d`: nothing,
the kernel's rule, one of its own instructions, or a turn of its own. Every
result about one call or one fence, whatever else runs, is an induction over
`CtxStep`.
-/

namespace RseqRs

namespace Label

variable {Tid : Type} [DecidableEq Tid] {t u : Tid} {d e : ℕ} {a : Act}

theorem own_act : (Label.act u e a).own t d = true ↔ (u = t ∧ e = d) ∧ a.own = true := by
  simp only [own, Bool.and_eq_true, decide_eq_true_eq]

theorem own_fenceRun {ev : RunEv} {hit : Tid → Bool} :
    (Label.fenceRun u e ev hit).own t d = true ↔ u = t ∧ e = d := decide_eq_true_iff

/-- What a context does itself is its own. -/
theorem own_self (ha : a.own = true) : (Label.act t d a).own t d = true :=
  own_act.mpr ⟨⟨rfl, rfl⟩, ha⟩

/-- What the kernel does is no context's own. -/
theorem own_of_kernel (ha : a.own = false) : (Label.act u e a).own t d = false := by
  rw [own, ha, Bool.and_false]

theorem own_of_ne (h : u ≠ t ∨ e ≠ d) : (Label.act u e a).own t d = false := by
  rw [Bool.eq_false_iff]
  intro hown
  obtain ⟨⟨hu, he⟩, _⟩ := own_act.mp hown
  exact h.elim (· hu) (· he)

theorem own_fenceRun_of_ne {ev : RunEv} {hit : Tid → Bool} (h : u ≠ t ∨ e ≠ d) :
    (Label.fenceRun u e ev hit).own t d = false := by
  rw [Bool.eq_false_iff]
  intro hown
  obtain ⟨hu, he⟩ := own_fenceRun.mp hown
  exact h.elim (· hu) (· he)

variable {l : Label Tid}

theorem calls_iff : l.calls t d = true ↔ ∃ c, l = .act t d (.call c) := by
  constructor
  · intro h
    cases l with
    | act u e a =>
      cases a with
      | call c =>
        obtain ⟨rfl, rfl⟩ := of_decide_eq_true h
        exact ⟨c, rfl⟩
      | _ => cases h
    | _ => cases h
  · rintro ⟨c, rfl⟩
    exact decide_eq_true ⟨rfl, rfl⟩

theorem instr_iff : l.instr t d = true ↔ ∃ o, l = .act t d (.exec o) := by
  constructor
  · intro h
    cases l with
    | act u e a =>
      cases a with
      | exec o =>
        obtain ⟨rfl, rfl⟩ := of_decide_eq_true h
        exact ⟨o, rfl⟩
      | _ => cases h
    | _ => cases h
  · rintro ⟨o, rfl⟩
    exact decide_eq_true ⟨rfl, rfl⟩

/-- A commit is an instruction. -/
theorem commits_iff :
    l.commits t d = true ↔ ∃ o, l = .act t d (.exec o) ∧ o.commits = true := by
  constructor
  · intro h
    cases l with
    | act u e a =>
      cases a with
      | exec o =>
        rw [commits, Bool.and_eq_true, decide_eq_true_iff] at h
        obtain ⟨⟨rfl, rfl⟩, ho⟩ := h
        exact ⟨o, rfl, ho⟩
      | _ => cases h
    | _ => cases h
  · rintro ⟨o, rfl, ho⟩
    rw [commits, ho]
    exact Bool.and_eq_true_iff.mpr ⟨decide_eq_true ⟨rfl, rfl⟩, rfl⟩

/-! Calls and instructions are the context's own steps. -/

theorem calls_of_not_own (hl : l.own t d = false) : l.calls t d = false := by
  rw [Bool.eq_false_iff] at hl ⊢
  intro h
  obtain ⟨c, rfl⟩ := calls_iff.mp h
  exact hl (own_self rfl)

theorem instr_of_not_own (hl : l.own t d = false) : l.instr t d = false := by
  rw [Bool.eq_false_iff] at hl ⊢
  intro h
  obtain ⟨o, rfl⟩ := instr_iff.mp h
  exact hl (own_self rfl)

theorem commits_of_not_own (hl : l.own t d = false) : l.commits t d = false := by
  rw [Bool.eq_false_iff] at hl ⊢
  intro h
  obtain ⟨o, rfl, _⟩ := commits_iff.mp h
  exact hl (own_self rfl)

end Label

namespace Stage

section Lookup

variable {Tid : Type} {t : Tid} {d : ℕ} {w : Work}

/-- The context of `t` at depth `d`. -/
def Sys.ctx (s : Sys Tid) (t : Tid) (d : ℕ) : Option Work := ctxAt (s.thr t).stack d

theorem Sys.ctx_depth (s : Sys Tid) (t : Tid) :
    s.ctx t (s.thr t).depth = some (s.thr t).top := ctxAt_cons_self

/-- A context is the running one of its thread, or lies below it. -/
theorem Sys.ctx_cases {s : Sys Tid} (h : s.ctx t d = some w) :
    (d = (s.thr t).depth ∧ (s.thr t).top = w) ∨
      (d < (s.thr t).depth ∧ ctxAt (s.thr t).below d = some w) := ctxAt_cons h

end Lookup

variable {Tid : Type} [DecidableEq Tid] (M : Machine Tid)

/-- What the step `l` from `s` does to the context of `t` at depth `d`. -/
inductive CtxStep (s : Sys Tid) (t : Tid) (d : ℕ) : Label Tid → Work → Option Work → Prop
  | keep {l : Label Tid} {w : Work} : l.own t d = false → CtxStep s t d l w (some w)
  | event {l : Label Tid} {w : Work} : l.own t d = false → l.event t d = true →
      CtxStep s t d l w (some w.event)
  | exec {c : Call} {st st' : Stage} {log : List Acc} {o : Obs} {m : Mem} :
      (s.thr t).running = true → (s.thr t).top = .op c st log →
      Step (tree c) ((s.thr t).index c.K) s.mem st o st' m →
      CtxStep s t d (.act t d (.exec o)) (.op c st log) (some (.op c st' (o.extend log)))
  | turn {a : Act} {w w' : Work} : Turn M w a w' → CtxStep s t d (.act t d a) w (some w')
  | fence {f : FenceCall} {pc pc' : RunPc} {ev : RunEv} {p : Flags} {hit : Tid → Bool} :
      RunStep s.flags pc ev p pc' →
      CtxStep s t d (.fenceRun t d ev hit) (.fence f pc) (some (.fence f pc'))
  | popped : CtxStep s t d (.act t d .sigreturn) .idle none

variable {M} {s s' : Sys Tid} {t : Tid} {d : ℕ} {l : Label Tid} {w : Work}

/-- A step of `t` seen by a context of `t`. -/
theorem Move.ctx {a : Act} {m : Mem} {x : Thr} (hm : Move M s.mem (s.thr t) a m x)
    (hw : s.ctx t d = some w) :
    CtxStep M s t d (.act t (s.thr t).depth a) w (ctxAt x.stack d) := by
  rcases Sys.ctx_cases hw with ⟨rfl, rfl⟩ | ⟨hlt, hb⟩
  · -- the running context itself
    have hself {w' : Work} : ctxAt (w' :: (s.thr t).below) (s.thr t).depth = some w' :=
      ctxAt_cons_self
    cases hm with
    | exec hr hw hs =>
      show CtxStep M s t _ _ _ (ctxAt (_ :: (s.thr t).below) _)
      rw [hself, hw]
      exact .exec hr hw hs
    | turn hr hw ht =>
      show CtxStep M s t _ _ _ (ctxAt (_ :: (s.thr t).below) _)
      rw [hself, hw]
      exact .turn ht
    | preempt hr =>
      show CtxStep M s t _ _ _ (ctxAt (_ :: (s.thr t).below) _)
      rw [hself]
      exact .keep (Label.own_of_kernel rfl)
    | resume cpu cid hr =>
      show CtxStep M s t _ _ _ (ctxAt (_ :: (s.thr t).below) _)
      rw [hself]
      exact .event (Label.own_of_kernel rfl) (decide_eq_true ⟨rfl, rfl⟩)
    | signal hr =>
      show CtxStep M s t _ _ _ (ctxAt (_ :: (_ :: (s.thr t).below)) _)
      rw [ctxAt_cons_of_lt (Nat.lt_succ_self _), hself]
      exact .event (Label.own_of_kernel rfl) (decide_eq_true ⟨rfl, rfl⟩)
    | @sigreturn y ys hr hw hb =>
      have hnone : ctxAt (y :: ys) (s.thr t).depth = none := by
        by_contra hne
        obtain ⟨w', hw'⟩ := Option.ne_none_iff_exists'.mp hne
        have hlt := ctxAt_lt hw'
        rw [← hb] at hlt
        exact lt_irrefl _ hlt
      show CtxStep M s t _ _ _ (ctxAt (y :: ys) _)
      rw [hnone, hw]
      exact .popped
  · -- an interrupted context
    have hown : (Label.act t (s.thr t).depth a).own t d = false := Label.own_of_ne (Or.inr hlt.ne')
    have hkeep {w' : Work} : ctxAt (w' :: (s.thr t).below) d = some w := by
      rw [ctxAt_cons_of_lt hlt]; exact hb
    cases hm with
    | signal hr =>
      show CtxStep M s t _ _ _ (ctxAt (_ :: (_ :: (s.thr t).below)) _)
      rw [ctxAt_cons_of_lt (hlt.trans (Nat.lt_succ_self _)), hkeep]
      exact .keep hown
    | @sigreturn y ys hr hw hb' =>
      show CtxStep M s t _ _ _ (ctxAt (y :: ys) _)
      rw [← hb', hb]
      exact .keep hown
    | _ =>
      show CtxStep M s t _ _ _ (ctxAt (_ :: (s.thr t).below) _)
      rw [hkeep]
      exact .keep hown

/-- **Every step**, seen by any context. -/
theorem SysStep.ctx (hs : SysStep M s l s') (hw : s.ctx t d = some w) :
    CtxStep M s t d l w (s'.ctx t d) := by
  cases hs with
  | @move u a m x hm hfree =>
    by_cases hu : t = u
    · subst hu
      have hx : Sys.ctx { s with mem := m, thr := Function.update s.thr t x } t d =
          ctxAt x.stack d := by
        show ctxAt (Function.update s.thr t x t).stack d = _
        rw [Function.update_self]
      rw [hx]
      exact hm.ctx hw
    · have hx : Sys.ctx { s with mem := m, thr := Function.update s.thr u x } t d = some w := by
        show ctxAt (Function.update s.thr u x t).stack d = _
        rw [Function.update_of_ne hu]
        exact hw
      rw [hx]
      exact .keep (Label.own_of_ne (Or.inl (Ne.symm hu)))
  | @fenceRun u f pc pc' ev p hit hr hf hrun =>
    obtain ⟨w', he, hc⟩ := fenced_thr s u t f pc' p hit
    have hx : (fenced s u f pc' p hit).ctx t d = ctxAt (w' :: (s.thr t).below) d := by
      show ctxAt ((fenced s u f pc' p hit).thr t).stack d = _
      rw [he]
      rfl
    rw [hx]
    -- the fence may be this context, hit it, or miss it
    rcases Sys.ctx_cases hw with ⟨rfl, rfl⟩ | ⟨hlt, hb⟩
    · show CtxStep M s t _ _ _ (ctxAt (w' :: (s.thr t).below) (s.thr t).below.length)
      rw [ctxAt_cons_self]
      rcases hc with ⟨rfl, rfl⟩ | ⟨hne, ⟨hh, rfl⟩ | ⟨_, rfl⟩⟩
      · rw [hf]
        exact .fence hrun
      · exact .event (Label.own_fenceRun_of_ne (Or.inl (Ne.symm hne))) hh
      · exact .keep (Label.own_fenceRun_of_ne (Or.inl (Ne.symm hne)))
    · rw [ctxAt_cons_of_lt hlt, hb]
      refine .keep (Label.own_fenceRun_of_ne ?_)
      by_cases hu : u = t
      · subst hu
        exact Or.inr hlt.ne'
      · exact Or.inl hu
  | write a v =>
    have hx : Sys.ctx { s with mem := Function.update s.mem a v } t d = some w := hw
    rw [hx]
    exact .keep rfl

/-- An instruction step is one of the stage of the running context. -/
theorem SysStep.exec {o : Obs} (hs : SysStep M s (.act t d (.exec o)) s') :
    d = (s.thr t).depth ∧ (s.thr t).running = true ∧ ∃ c st st' log,
      (s.thr t).top = .op c st log ∧
      s'.thr = Function.update s.thr t { s.thr t with top := .op c st' (o.extend log) } ∧
      Step (tree c) ((s.thr t).index c.K) s.mem st o st' s'.mem ∧
      s'.ctx t d = some (.op c st' (o.extend log)) := by
  cases hs with
  | move hm _ =>
    cases hm with
    | @exec c st st' log o m hr htop hst =>
      refine ⟨rfl, hr, c, st, st', log, htop, rfl, hst, ?_⟩
      show ctxAt (Function.update s.thr t _ t).stack _ = _
      rw [Function.update_self]
      exact ctxAt_cons_self
    | turn _ _ ht => cases ht

/-- A context in a step of its own is the running one. -/
theorem SysStep.own_step (hs : SysStep M s l s') (hl : l.own t d = true) :
    d = (s.thr t).depth ∧ CtxStep M s t d l (s.thr t).top (s'.ctx t d) := by
  have hctx (hd : d = (s.thr t).depth) : CtxStep M s t d l (s.thr t).top (s'.ctx t d) :=
    hs.ctx (hd ▸ s.ctx_depth t)
  cases hs with
  | move hm _ =>
    obtain ⟨⟨rfl, rfl⟩, -⟩ := Label.own_act.mp hl
    exact ⟨rfl, hctx rfl⟩
  | fenceRun =>
    obtain ⟨rfl, rfl⟩ := Label.own_fenceRun.mp hl
    exact ⟨rfl, hctx rfl⟩
  | write => cases hl

/-- What a context does itself between instructions, by what it has come to. -/
theorem SysStep.turn {a : Act} {w' : Work} (hs : SysStep M s (.act t d a) s')
    (ha : a.own = true) (hexec : ∀ o, a ≠ .exec o) (hw' : s'.ctx t d = some w') :
    ∃ w, (s.thr t).top = w ∧ Turn M w a w' := by
  obtain ⟨_, hstep⟩ := hs.own_step (Label.own_self ha)
  rw [hw'] at hstep
  generalize hl : Label.act t d a = l at hstep
  generalize (s.thr t).top = w at hstep ⊢
  cases hstep with
  | keep hown =>
    subst hl
    rw [Label.own_self ha] at hown
    cases hown
  | event hown _ =>
    subst hl
    rw [Label.own_self ha] at hown
    cases hown
  | exec =>
    cases hl
    exact absurd rfl (hexec _)
  | turn ht =>
    cases hl
    exact ⟨w, rfl, ht⟩
  | fence => cases hl

/-- A step pushes no context but an idle one. -/
theorem SysStep.ctx_new {w' : Work} (hs : SysStep M s l s') (hw : s.ctx t d = none)
    (hw' : s'.ctx t d = some w') : w' = .idle := by
  -- there was no context at this depth
  have hge : (s.thr t).depth < d := by
    by_contra hle
    rcases Nat.eq_or_lt_of_le (not_lt.mp hle) with rfl | hlt
    · rw [s.ctx_depth] at hw; cases hw
    · have hsome : (ctxAt (s.thr t).stack d).isSome := ctxAt_isSome (by
        show d < (s.thr t).below.length + 1
        exact hlt.trans (Nat.lt_succ_self _))
      rw [show ctxAt (s.thr t).stack d = none from hw] at hsome
      cases hsome
  cases hs with
  | @move u a m x hm hfree =>
    by_cases hu : t = u
    · subst hu
      have hx : ctxAt x.stack d = some w' := by
        have he : (Function.update s.thr t x t).stack = x.stack := by rw [Function.update_self]
        rw [← he]
        exact hw'
      have hlt : d < x.below.length + 1 := ctxAt_lt hx
      -- only a signal makes the stack longer
      cases hm with
      | signal hr =>
        have hd : d = (s.thr t).below.length + 1 := Nat.le_antisymm (Nat.lt_succ_iff.mp hlt) hge
        subst hd
        have hself : ctxAt (Work.idle :: (s.thr t).top.event :: (s.thr t).below)
            ((s.thr t).below.length + 1) = some .idle := ctxAt_cons_self
        exact (Option.some_inj.mp (hself.symm.trans hx)).symm
      | @sigreturn y ys hr hw'' hb =>
        have hdep : (s.thr t).depth = ys.length + 1 := by rw [Thr.depth, hb]; rfl
        have hlt' : d < ys.length + 1 := hlt
        omega
      | _ =>
        have hlt' : d < (s.thr t).depth + 1 := hlt
        omega
    · have hx : (Function.update s.thr u x t).stack = (s.thr t).stack := by
        rw [Function.update_of_ne hu]
      have hsame : ctxAt (s.thr t).stack d = some w' := hx ▸ hw'
      rw [show ctxAt (s.thr t).stack d = none from hw] at hsame
      cases hsame
  | @fenceRun u f pc pc' ev p hit hr hf hrun =>
    obtain ⟨w'', he, _⟩ := fenced_thr s u t f pc' p hit
    have hlt : d < ((fenced s u f pc' p hit).thr t).below.length + 1 := ctxAt_lt hw'
    rw [he] at hlt
    have hlt' : d < (s.thr t).depth + 1 := hlt
    omega
  | write a v =>
    rw [show s.ctx t d = some w' from hw'] at hw
    cases hw

/-- **Where a context comes from**: a step of one that was there, or a signal. -/
theorem SysStep.ctx_back {w' : Work} (hs : SysStep M s l s') (hw' : s'.ctx t d = some w') :
    (∃ w, s.ctx t d = some w ∧ CtxStep M s t d l w (some w')) ∨ w' = .idle := by
  cases hw : s.ctx t d with
  | none => exact Or.inr (hs.ctx_new hw hw')
  | some w => exact Or.inl ⟨w, rfl, hw' ▸ hs.ctx hw⟩

/-- A word op in flight was in flight before, or has just been called. -/
theorem SysStep.op_back {c : Call} {st : Stage} {log : List Acc} (hs : SysStep M s l s')
    (hc : s'.ctx t d = some (.op c st log)) :
    (∃ st' log', s.ctx t d = some (.op c st' log')) ∨ l = .act t d (.call c) := by
  rcases hs.ctx_back hc with ⟨w, hw, hstep⟩ | he
  · rw [hw]
    generalize hw' : some (Work.op c st log) = o at hstep
    cases hstep with
    | keep hl => cases hw'; exact Or.inl ⟨_, _, rfl⟩
    | event hl _ =>
      cases w with
      | op c' st' log' => cases st' <;> cases hw' <;> exact Or.inl ⟨_, _, rfl⟩
      | _ => cases hw'
    | exec hr htop hst => cases hw'; exact Or.inl ⟨_, _, rfl⟩
    | turn ht =>
      cases ht with
      | call _ => cases hw'; exact Or.inr rfl
      | _ => cases hw'
    | fence hr => cases hw'
    | popped => cases hw'
  · cases he

/-- **A word op in flight has been called.** -/
theorem called_run {s₀ : Sys Tid} {h : List (Label Tid)} (hi : Initial s₀)
    (hr : LTS.Run (SysStep M) s₀ h s) : ∀ t d c st log, s.ctx t d = some (.op c st log) →
      .act t d (.call c) ∈ h := by
  refine hr.invariant (I := fun h s => ∀ t d c st log, s.ctx t d = some (.op c st log) →
    .act t d (.call c) ∈ h) (fun t d c st log hc => ?_) fun h s l s' _ ih hs t d c st log hc => ?_
  · rcases Sys.ctx_cases hc with ⟨_, htop⟩ | ⟨_, hb⟩
    · rw [hi.idle t] at htop; cases htop
    · rw [hi.below t] at hb; cases hb
  · rcases hs.op_back hc with ⟨st', log', hc'⟩ | rfl
    · exact List.mem_cons_of_mem _ (ih t d c st' log' hc')
    · exact List.mem_cons_self ..

end Stage

end RseqRs
