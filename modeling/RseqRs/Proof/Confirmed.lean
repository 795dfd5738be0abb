import RseqRs.Proof.ExactlyOnce

/-!
# No store on the wrong index

The index is compared once, several instructions before the stores. It stays the
key up to each of them: the kernel writes the index fields only where it also
restarts the section. A call that has lost its index before it committed stores
nothing more; it can only abort, unless it is already on its miss exit.
-/

namespace RseqRs

variable {Tid : Type} [DecidableEq Tid]

/-- Every store a word op makes in state `s`, committing or scratch, is made while
the confirmed field of the thread's area is the key of the word, and of the side. -/
def StoresOnIndex (M : Machine Tid) (s : Sys Tid M.img.Site) : Prop :=
  ∀ t d c site a last s', (s.thr t).top.frame = .op c site →
    M.Step s (.act t d (.exec (.acc a last))) s' → a.written ≠ none →
    (s.thr t).area.index c.K = c.K.get c.op.word.key ∧
      ∀ side, c.op.side = some side → (s.thr t).area.index c.K = c.K.get side.key

/-- A step after which the index of `t` is not the key of `c`, and which does not
end the call in the context of `t` at depth `d`. -/
def Machine.StepAway (M : Machine Tid) (t : Tid) (d : ℕ) (c : Call) (s : Sys Tid M.img.Site)
    (l : Label Tid) (s' : Sys Tid M.img.Site) : Prop :=
  M.Step s l s' ∧ (s'.thr t).area.index c.K ≠ c.key ∧ ∀ r, l ≠ .act t d (.ret c r)

/-- As long as the index of `t` stays away from the key, the call in the context of
`t` at depth `d` stores nothing, and what it returns satisfies `P`. -/
def StoresNothingAway (M : Machine Tid) (t : Tid) (d : ℕ) (c : Call)
    (P : Except Error Usize → Prop) (s : Sys Tid M.img.Site) : Prop :=
  ∀ g s', LTS.Run (M.StepAway t d c) s g s' →
    (∀ a last, Label.act t d (.exec (.acc a last)) ∈ g → a.written = none) ∧
      ∀ r s'', M.Step s' (.act t d (.ret c r)) s'' → P r

/-- A call that is off its index, stays off it, and has not committed returns
`Abort`. -/
def UncommittedAborts (M : Machine Tid) (h : List (Label Tid)) (s : Sys Tid M.img.Site) : Prop :=
  ∀ t d x c site, ctxAt (s.thr t).stack d = some x → x.frame = .op c site →
    commitCount t d h = 0 → (s.thr t).area.index c.K ≠ c.key →
    StoresNothingAway M t d c (· = .error .abort) s

/-- The same, but for a call that has left its section already, which may return
the miss it left with. -/
def MigratedAborts (M : Machine Tid) (h : List (Label Tid)) (s : Sys Tid M.img.Site) : Prop :=
  ∀ t d x c site i, ctxAt (s.thr t).stack d = some x → x.frame = .op c site →
    x.ip = M.img.ip site i → i ≤ (M.img.block site).len →
    commitCount t d h = 0 → (s.thr t).area.index c.K ≠ c.key →
    StoresNothingAway M t d c
      (fun r => r = .error .abort ∨ (M.img.block site).post ≤ i ∧ ∃ v, r = .error (.miss v)) s

/-! ### Stores -/

namespace Stage

variable {M : Machine Tid} {s s' : Sys Tid} {t : Tid} {d : ℕ} {c : Call} {w : Work}

/-- A call that can only fail any more, with `e`: it has failed already, or its
attempt cannot be confirmed. -/
def Lost (c : Call) (e : Error) : Work → Prop
  | .op c' st _ => c' = c ∧
    match st with
    | .entering => e = .abort
    | .inside u => e = .abort ∧ (u = tree c ∨ u = .fail .abort)
    | .finishing r => r = .error e
  | _ => False

variable {e : Error}

omit [DecidableEq Tid] in
theorem Lost.event (h : Lost c e w) : Lost c e w.event := by
  cases w with
  | op c' st log =>
    cases st with
    | inside u => exact ⟨h.1, h.2.1⟩
    | entering => exact h
    | finishing r => exact h
  | _ => exact h

omit [DecidableEq Tid] in
/-- Off its index, a lost call stays lost, and stores nothing. -/
theorem Lost.exec {st st' : Stage} {log : List Acc} {idx : U32} {m m' : Mem} {o : Obs}
    (h : Lost c e (.op c st log)) (log' : List Acc) (hs : Step (tree c) idx m st o st' m')
    (hidx : idx ≠ c.key) :
    Lost c e (.op c st' log') ∧ ∀ a last, o = .acc a last → a.written = none := by
  obtain ⟨-, hst⟩ := h
  cases hs with
  | enter => exact ⟨⟨rfl, hst⟩, nofun⟩
  | arm => exact ⟨⟨rfl, hst, Or.inl rfl⟩, nofun⟩
  | tau => exact ⟨⟨rfl, hst⟩, nofun⟩
  | exit =>
    refine ⟨⟨rfl, ?_⟩, nofun⟩
    obtain ⟨rfl, hu | hu⟩ := hst
    · cases hu
    · cases hu; rfl
  | access hn hr =>
    obtain ⟨rfl, rfl | rfl⟩ := hst
    · cases hn with
      | index k j =>
        obtain rfl : j = idx := hr
        refine ⟨⟨rfl, rfl, Or.inr (if_neg hidx)⟩, fun a last he => ?_⟩
        cases he
        rfl
    · cases hn
  | commit hc =>
    obtain ⟨_, rfl | rfl⟩ := hst
    · cases hc
    · cases hc
  | leave => exact ⟨⟨rfl, hst⟩, nofun⟩

/-- A lost context after any step that leaves its index off the key. -/
theorem Lost.step {l : Label Tid} (hw : s.ctx t d = some w) (h : Lost c e w)
    (hs : SysStep M s l s') (hidx : (s.thr t).index c.K ≠ c.key)
    (hret : ∀ r, l ≠ .act t d (.ret c r)) :
    (∃ w', s'.ctx t d = some w' ∧ Lost c e w') ∧
      ∀ a last, l = .act t d (.exec (.acc a last)) → a.written = none := by
  have hstep := hs.ctx hw
  generalize hw' : s'.ctx t d = o at hstep
  cases hstep with
  | keep hl =>
    refine ⟨⟨w, rfl, h⟩, fun a last he => ?_⟩
    subst he
    exact absurd (Label.own_self rfl) (Bool.eq_false_iff.mp hl)
  | event hl _ =>
    refine ⟨⟨_, rfl, h.event⟩, fun a last he => ?_⟩
    subst he
    exact absurd (Label.own_self rfl) (Bool.eq_false_iff.mp hl)
  -- its own instruction: it may be the read of the index, which finds another one
  | @exec c' st st' log o m hr htop hst =>
    obtain rfl : c' = c := h.1
    obtain ⟨hl, hstore⟩ := h.exec (o.extend log) hst hidx
    exact ⟨⟨_, rfl, hl⟩, fun a last he => hstore a last (by cases he; rfl)⟩
  | turn ht =>
    cases ht with
    | ret =>
      obtain ⟨rfl, _⟩ := h
      exact absurd rfl (hret _)
    | _ => exact absurd h id
  | fence hr => exact absurd h id
  | popped => exact absurd h id

omit [DecidableEq Tid] in
/-- A call off its index that has not committed is lost. -/
theorem Ok.lost {idx : Index → U32} {acc log : List Acc} {st : Stage} {n : ℕ}
    (h : Ok idx acc (.op c st log)) (hidx : idx c.K ≠ c.key)
    (hn : Work.committed (.op c st log) n) (hzero : n = 0) :
    ∃ e, Lost c e (.op c st log) ∧ (e = .abort ∨ ∃ r, st = .finishing r) := by
  obtain ⟨-, -, hok⟩ := h
  cases st with
  | entering => exact ⟨.abort, ⟨rfl, rfl⟩, Or.inl rfl⟩
  | finishing r =>
    cases r with
    | error e => exact ⟨e, ⟨rfl, rfl⟩, Or.inr ⟨_, rfl⟩⟩
    | ok v =>
      obtain hn : n = 1 := hn
      omega
  | inside u =>
    refine ⟨.abort, ⟨rfl, rfl, ?_⟩, Or.inl rfl⟩
    -- a confirmed attempt would be on its index
    rcases CritSec.Path.confirm_cases (i := c.key) (e := Error.abort)
      c.op.body_indexFree hok.1 with ⟨_, hu⟩ | ⟨_, _, _, hu⟩ | ⟨_, hlog, _⟩
    · exact Or.inl hu
    · exact Or.inr hu
    · exact absurd (hok.2 _ _ hlog) hidx

end Stage

/-! ### The machine -/

variable {M : Machine Tid} {s₀ s : Sys Tid M.img.Site} {h : List (Label Tid)}

theorem storesOnIndex_run (hi : M.Initial s₀) (hr : LTS.Run M.Step s₀ h s) :
    StoresOnIndex M s := by
  intro t d c site a last s' hf hs hw
  obtain ⟨b, hb, hrel⟩ := refine_run hi hr
  obtain ⟨st, st', log, m, _, _, htop, hstep⟩ := hrel.exec hf hs
  have hok := (Stage.inv_run s₀.initial_stages hb).top t
  rw [htop] at hok
  obtain ⟨hkey, _⟩ := hok.confirmed hstep fun j hj => by subst hj; exact hw rfl
  rw [← (hrel.thr t).index] at hkey
  refine ⟨hkey, fun side hside => hkey.trans ?_⟩
  -- the op compared the two keys before it entered
  have hk : c.op.keysAgree = true := hok.2.1
  show c.K.get c.op.word.key = _
  generalize c.op = op at hside hk
  cases op with
  | storeIf w expect new sd sideNew =>
    obtain rfl := Option.some_inj.mp hside
    rw [show sd.key = w.key from of_decide_eq_true hk]
    rfl
  | _ => cases hside

theorem migratedAborts_run (hi : M.Initial s₀) (hr : LTS.Run M.Step s₀ h s) :
    MigratedAborts M h s := by
  intro t d x c site i hx hf hip hle hzero hoff g s' hg
  obtain ⟨b, hb, hrel⟩ := refine_run hi hr
  have hinv := Stage.inv_run s₀.initial_stages hb
  -- in `s` the call can only fail
  obtain ⟨w, hw, hxw⟩ := (hrel.thr t).ctx hx
  obtain ⟨st, log, j, rfl, hc⟩ := hxw.works hf
  obtain rfl : j = i := Image.ip_inj hc.slot.1 hle (hc.ip.symm.trans hip)
  have hcom := Stage.committed_run s₀.initial_stages hb t d _ hw
  obtain ⟨e, hlost, hfin⟩ : ∃ e, Stage.Lost c e (.op c st log) ∧
      (e = .abort ∨ ∃ r, st = .finishing r) := by
    rw [(hrel.thr t).index] at hoff
    rcases Stage.Sys.ctx_cases hw with ⟨rfl, htop⟩ | ⟨_, hbelow⟩
    · have hok := hinv.top t
      rw [htop] at hok
      exact hok.lost hoff hcom hzero
    · exact (hinv.below t d _ hbelow).2.lost hoff hcom hzero
  -- and so it stays along the run
  have hrun : ∃ b', s'.Rel M b' ∧ (s'.thr t).area.index c.K ≠ c.key ∧
      (∃ w', b'.ctx t d = some w' ∧ Stage.Lost c e w') ∧
      ∀ a last, Label.act t d (.exec (.acc a last)) ∈ g → a.written = none := by
    -- induction on the steps off the index
    induction hg with
    | nil => exact ⟨b, hrel, hoff, ⟨_, hw, hlost⟩, fun _ _ hm => absurd hm List.not_mem_nil⟩
    | cons _ hs ih =>
      obtain ⟨b₁, hrel₁, hoff₁, ⟨w₁, hw₁, hlost₁⟩, hstores⟩ := ih
      obtain ⟨b₂, hstep, hrel₂⟩ := refine_step hrel₁ hs.1
      rw [(hrel₁.thr t).index] at hoff₁
      obtain ⟨hl₂, hstore⟩ := hlost₁.step hw₁ hstep hoff₁ hs.2.2
      refine ⟨b₂, hrel₂, hs.2.1, hl₂, fun a last hm => ?_⟩
      rcases List.mem_cons.mp hm with he | hm
      · exact hstore a last he.symm
      · exact hstores a last hm
  obtain ⟨b', hrel', _, ⟨w', hw', hlost'⟩, hstores⟩ := hrun
  refine ⟨hstores, fun r s'' hs => ?_⟩
  obtain rfl : r = .error e := by
    obtain ⟨rfl, ⟨log', htop⟩ | ⟨htop, _⟩⟩ := hrel'.ret hs <;>
      rw [b'.ctx_depth, htop] at hw' <;> cases hw'
    · exact hlost'.2
    · exact absurd hlost' id
  -- a call that can return a miss had left its section
  rcases hfin with rfl | ⟨r, rfl⟩
  · exact Or.inl rfl
  · cases e with
    | abort => exact Or.inl rfl
    | miss v =>
      have hmem : _ ≤ j ∧ j ≤ _ :=
        Finishes.pc_mem hc.stage.1 (M.img.block_order site).2.2.2.le
      exact Or.inr ⟨hmem.1, v, rfl⟩

/-- **No store on the wrong index**, in any reachable state; and a call that is off
its index before it has committed, and stays off it, stores nothing more and
returns `Abort`, or the miss with which it had left its section already. -/
theorem no_wrong_index (hi : M.Initial s₀) (hr : LTS.Run M.Step s₀ h s) :
    StoresOnIndex M s ∧ MigratedAborts M h s :=
  ⟨storesOnIndex_run hi hr, migratedAborts_run hi hr⟩

/-- A thread about to commit, in `compare_exchange`. -/
def casCommit : List (Label Unit) × Sys Unit casMachine.img.Site :=
  (casMachine.alone (fun _ => 0) () 0 0 casCall soleSite 9).get rfl

theorem casCommit_run :
    LTS.Run casMachine.Step (casMachine.boot fun _ => 0)
      (casCommit.1 ++ [.act () 0 (.call casCall), .act () 0 (.resume 0 0)]) casCommit.2 :=
  casMachine.alone_run soleSite rfl rfl (Option.some_get _).symm

/-- Its next instruction is the store, and its index is the key. -/
theorem no_wrong_index_casCommit :
    (∃ s', casMachine.Step casCommit.2 (.act () 0 (.exec (.acc (.store 0x8000 1) true))) s') ∧
      StoresOnIndex casMachine casCommit.2 ∧
      MigratedAborts casMachine
        (casCommit.1 ++ [.act () 0 (.call casCall), .act () 0 (.resume 0 0)]) casCommit.2 := by
  exact ⟨casMachine.solo_next rfl, no_wrong_index (casMachine_initial _) casCommit_run⟩

/-- A thread on the miss exit of `compare_exchange`. -/
def casMiss : List (Label Unit) × Sys Unit casMachine.img.Site :=
  (casMachine.alone (fun _ => 5) () 0 0 casCall soleSite 9).get rfl

theorem casMiss_run :
    LTS.Run casMachine.Step (casMachine.boot fun _ => 5)
      (casMiss.1 ++ [.act () 0 (.call casCall), .act () 0 (.resume 0 0)]) casMiss.2 :=
  casMachine.alone_run soleSite rfl rfl (Option.some_get _).symm

/-- The thread is migrated to CPU 1, and goes on to the end of the block. -/
def casMoved : Sys Unit casMachine.img.Site :=
  casMachine.resumed () 1 1 (casMachine.preempted () casMiss.2)

def casMoved₁ : List (Label Unit) × Sys Unit casMachine.img.Site :=
  (casMachine.solo () 1 casMoved).get rfl

def casMoved₂ : List (Label Unit) × Sys Unit casMachine.img.Site :=
  (casMachine.solo () 1 casMoved₁.2).get rfl

/-- **An uncommitted call may return `Miss` off its index**: it had already missed
when it was migrated. -/
theorem not_uncommittedAborts :
    ¬ ∀ (s₀ s : Sys Unit casMachine.img.Site) (h : List (Label Unit)), casMachine.Initial s₀ →
      LTS.Run casMachine.Step s₀ h s →
      StoresOnIndex casMachine s ∧ UncommittedAborts casMachine h s := by
  intro hall
  have hpre : casMachine.Step casMiss.2 (.act () 0 .preempt) (casMachine.preempted () casMiss.2) :=
    casMachine.step_preempted (by decide +kernel) (by decide +kernel)
  have hmove : casMachine.Step (casMachine.preempted () casMiss.2) (.act () 0 (.resume 1 1))
      casMoved :=
    casMachine.step_resumed rfl fun t' hne => absurd (Subsingleton.elim t' ()) hne
  have haway := (hall _ _ _ (casMachine_initial _) (.cons (.cons casMiss_run hpre) hmove)).2
    () 0 _ casCall soleSite rfl rfl (by decide) (by decide)
  -- two instructions lead to the return, off the index, of the miss
  obtain ⟨o₁, _, h₁⟩ := casMachine.solo_one (p := casMoved₁) (Option.some_get _).symm
  obtain ⟨o₂, _, h₂⟩ := casMachine.solo_one (p := casMoved₂) (Option.some_get _).symm
  have hrun := (haway _ _ (.cons (.cons .nil ⟨h₁, by decide, nofun⟩) ⟨h₂, by decide, nofun⟩)).2
  obtain ⟨_, hmiss⟩ := casMachine.step_returned (s := casMoved₂.2) (t := ()) (c := casCall)
    (r := .error (.miss 5)) soleSite (by decide +kernel) rfl (by decide +kernel)
    casMachine_outside_zero (by decide +kernel)
  exact absurd (hrun _ _ hmiss) (by decide)

end RseqRs
