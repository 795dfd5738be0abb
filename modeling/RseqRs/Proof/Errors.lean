import RseqRs.Proof.Failure
import RseqRs.Spec.Errors

/-!
# Errors are explained

An attempt that ends with a failure has made only loads on the way, and which ones its error
tells (`Op.sees_of_ends`). Each was an instruction of the call, so it read what was there. That
the thread was moved before an abort is an induction over the steps of the call: as long as no
resume writes another index, an attempt that reads the index finds the key
(`Stage.Called.onKey`).
-/

namespace RseqRs

/-- **What an error means**, for each op on both targets. -/
theorem Op.sees_of_ends {K : Index} {op : Op K} {log : List Acc} {e : Error}
    (h : op.tree.Ends log (.error e)) : op.Sees e log := by
  obtain ⟨i, log₁, rfl, h₁⟩ := h.of_index
  by_cases hi : i = K.get op.word.key
  swap
  · -- another index: the attempt ends there
    rw [if_neg hi] at h₁
    obtain ⟨rfl, he⟩ := h₁.of_fail
    cases he
    exact ⟨i, hi, rfl⟩
  rw [if_pos hi] at h₁
  subst hi
  -- past the check of the index; then the loads of each op, to its miss
  cases op with
  | compareExchange w expect new =>
    obtain ⟨x, log₂, rfl, h₂⟩ := h₁.of_load
    split at h₂
    · cases h₂.of_commit.2
    · next hne =>
      obtain ⟨rfl, he⟩ := h₂.of_fail
      cases he
      exact ⟨hne, rfl⟩
  | compareExchangeIf w expect new o otherExpect =>
    obtain ⟨x, log₂, rfl, h₂⟩ := h₁.of_load
    split at h₂
    · next hx =>
      subst hx
      obtain ⟨y, log₃, rfl, h₃⟩ := h₂.of_load
      split at h₃
      · cases h₃.of_commit.2
      · next hne =>
        obtain ⟨rfl, he⟩ := h₃.of_fail
        cases he
        exact Or.inr ⟨hne, rfl⟩
    · next hne =>
      obtain ⟨rfl, he⟩ := h₂.of_fail
      cases he
      exact Or.inl ⟨hne, rfl⟩
  | fetchAdd w count =>
    obtain ⟨x, log₂, _, h₂⟩ := h₁.of_load
    cases h₂.of_commit.2
  | loadIfNe w expectNot offset =>
    obtain ⟨x, log₂, rfl, h₂⟩ := h₁.of_load
    split at h₂
    · next hx =>
      obtain ⟨rfl, he⟩ := h₂.of_fail
      cases he
      exact ⟨hx, rfl⟩
    · obtain ⟨y, log₃, _, h₃⟩ := h₂.of_load
      cases h₃.of_commit.2
  | fetchAddAt p offset count =>
    obtain ⟨base, log₂, _, h₂⟩ := h₁.of_load
    obtain ⟨slot, log₃, _, h₃⟩ := h₂.of_load
    obtain ⟨x, log₄, _, h₄⟩ := h₃.of_load
    cases h₄.of_commit.2
  | storeIf w expect new s sideNew =>
    obtain ⟨x, log₂, rfl, h₂⟩ := h₁.of_load
    split at h₂
    · obtain ⟨log₃, _, h₃⟩ := h₂.of_scratch
      cases h₃.of_commit.2
    · next hne =>
      obtain ⟨rfl, he⟩ := h₂.of_fail
      cases he
      exact ⟨hne, rfl⟩

/-- What an attempt that fails has seen begins with the index, and has it nowhere else. -/
theorem Op.Sees.index_first {K : Index} {op : Op K} {e : Error} {log : List Acc}
    (h : op.Sees e log) : ∃ i rest, log = .index i :: rest ∧ ∀ j, .index j ∉ rest := by
  cases e with
  | abort =>
    -- it has read the index and nothing else
    obtain ⟨j, _, rfl⟩ := h
    exact ⟨j, [], rfl, fun _ => List.not_mem_nil⟩
  | miss v =>
    cases op with
    | compareExchange w expect new => exact ⟨_, _, h.2, by simp⟩
    | compareExchangeIf w expect new o otherExpect =>
      rcases h with ⟨_, rfl⟩ | ⟨_, rfl⟩
      · exact ⟨_, _, rfl, by simp⟩
      · exact ⟨_, _, rfl, by simp⟩
    | fetchAdd w count => exact absurd h id
    | loadIfNe w expectNot offset => exact ⟨_, _, h.2, by simp⟩
    | fetchAddAt p offset count => exact absurd h id
    | storeIf w expect new s sideNew => exact ⟨_, _, h.2, by simp⟩

variable {Tid : Type} [DecidableEq Tid] {M : Machine Tid}

namespace Stage

variable {D : Sys Tid → Label Tid → Prop} {t : Tid} {d : ℕ} {c : Call} {s₁ s s' : Sys Tid}
  {g : List (Label Tid)}

/-- An access of a call reads what is there, and the index of its thread is the one that the
attempt has read. -/
theorem Called.access {a : Acc} {last : Bool} (h : Called M D t d c s₁ g s)
    (hs : SysStep M s (.act t d (.exec (.acc a last))) s') :
    a.Reads ((s.thr t).index c.K) s.mem ∧
      ∀ j, .index j ∈ attempt t d g ++ [a] → (s.thr t).index c.K = j := by
  obtain ⟨_, _, st, st', log, _, hst, hok⟩ := h.exec hs
  generalize s'.mem = m at hst
  -- the access is a step inside the section
  obtain ⟨hread, u, rfl⟩ : a.Reads ((s.thr t).index c.K) s.mem ∧ ∃ u, st = .inside u := by
    cases hst with
    | access _ hr => exact ⟨hr, _, rfl⟩
    | commit hc => cases hc; exact ⟨trivial, _, rfl⟩
  refine ⟨hread, fun j hj => ?_⟩
  rcases List.mem_append.mp hj with hj | hj
  · exact (hok.index_eq (hok.1 ▸ hj)).symm
  · obtain rfl := List.mem_singleton.mp hj
    exact hread.symm

/-- The last attempt of a call that fails has seen what the error says. -/
theorem Called.failed_sees {e : Error} (h : Called M D t d c s₁ g s)
    (hs : SysStep M s (.act t d (.ret c (.error e))) s') (hk : c.op.keysAgree = true) :
    c.op.Sees e (attempt t d g) := by
  rcases h.failed hs with ⟨_, _, hends⟩ | hw
  · exact Op.sees_of_ends hends
  · exact absurd (h.refused hw) (by rw [hk]; decide)

/-- Only a resume writes an index field. -/
theorem SysStep.index_step {l : Label Tid} (hs : SysStep M s l s') :
    (s'.thr t).index = (s.thr t).index ∨ ∃ e cpu cid, l = .act t e (.resume cpu cid) ∧
      (s'.thr t).index = fields cpu cid := by
  cases hs with
  | @move u a m x hm _ =>
    by_cases hu : t = u
    · subst hu
      show (Function.update s.thr t x t).index = _ ∨ ∃ e cpu cid, _ ∧
        (Function.update s.thr t x t).index = _
      rw [Function.update_self]
      cases hm with
      | resume cpu cid _ => exact Or.inr ⟨_, cpu, cid, rfl, rfl⟩
      | _ => exact Or.inl rfl
    · refine Or.inl ?_
      show (Function.update s.thr u x t).index = _
      rw [Function.update_of_ne hu]
  | @fenceRun u f pc pc' ev p hit _ _ _ =>
    obtain ⟨w, he, _⟩ := fenced_thr s u t f pc' p hit
    exact Or.inl (by rw [he])
  | write a v => exact Or.inl rfl

omit [DecidableEq Tid] in
/-- An attempt that is about to leave its section with an `Abort` has found another index. -/
theorem exit_ne {idx : Index → U32} {log acc : List Acc}
    (hok : Ok idx acc (.op c (.inside (.fail .abort)) log)) : idx c.K ≠ c.key := by
  obtain ⟨j, hj, hlog⟩ := Op.sees_of_ends (.fail hok.2.2.1)
  have hidx : idx c.K = j := hok.2.2.2 j [] hlog
  exact hidx ▸ hj

/-- A context that is about to return an `Abort` after a step was so before, or is in the
attempt that has found another index. -/
theorem SysStep.finishing_back {h : List (Label Tid)} {l : Label Tid} {log : List Acc}
    (hs : SysStep M s l s') (hi : Inv h s)
    (hw : s'.ctx t d = some (.op c (.finishing (.error .abort)) log)) :
    (∃ log, s.ctx t d = some (.op c (.finishing (.error .abort)) log)) ∨
      (s.thr t).index c.K ≠ c.key := by
  rcases hs.ctx_back hw with ⟨w, hw₀, hstep⟩ | hidle
  swap
  · cases hidle
  generalize ho : some (Work.op c (.finishing (.error .abort)) log) = o at hstep
  cases hstep with
  | keep hl => cases ho; exact Or.inl ⟨_, hw₀⟩
  | event hl hev =>
    -- an event makes a context enter its section again, if it was inside
    cases w with
    | op c' st₀ log₀ => cases st₀ <;> cases ho; exact Or.inl ⟨_, hw₀⟩
    | _ => cases ho
  | @exec c' st₀ st' log₀ o m hr htop hst =>
    cases ho
    cases hst with
    | exit =>
      have hok := hi.top t
      rw [htop] at hok
      exact Or.inr (exit_ne hok)
    | leave => exact Or.inl ⟨_, hw₀⟩
  | turn ht => cases ht <;> cases ho
  | fence hr => cases ho
  | popped => cases ho

/-- **As long as no resume writes another index**, a call that was made with the index of its
thread for its key has that index still, and is not about to abort. -/
theorem Called.onKey (h : Called M D t d c s₁ g s) (hidx : (s₁.thr t).index c.K = c.key)
    (hstay : ∀ e cpu cid, .act t e (.resume cpu cid) ∈ g → fields cpu cid c.K = c.key) :
    (s.thr t).index c.K = c.key ∧
      ∀ log, s.ctx t d ≠ some (.op c (.finishing (.error .abort)) log) := by
  induction h with
  | @call s₀ s h₁ hi hr hs =>
    refine ⟨?_, fun log hw => ?_⟩
    · rcases hs.index_step (t := t) with he | ⟨_, _, _, he, _⟩
      · rw [he, hidx]
      · cases he
    · -- a call that has just been made has not finished
      obtain ⟨_, _, ht⟩ := hs.turn rfl nofun hw
      cases ht
  | @step g s s' l h₁ hs _ _ ih =>
    -- the index fields are still those of the key before the step
    obtain ⟨hkey, hfin⟩ := ih fun e cpu cid hm => hstay e cpu cid (List.mem_cons_of_mem _ hm)
    refine ⟨?_, fun log hw => ?_⟩
    · rcases hs.index_step (t := t) with he | ⟨e, cpu, cid, rfl, he⟩
      · rw [he, hkey]
      · rw [he]
        exact hstay e cpu cid (List.mem_cons_self ..)
    · obtain ⟨_, _, hi, hrun⟩ := h₁.run
      rcases hs.finishing_back (inv_run hi hrun) hw with ⟨log, hold⟩ | hne
      · exact hfin log hold
      · exact hne hkey

end Stage

/-! ### The machine -/

/-- A step of a call, from a state that the call has reached. -/
theorem Machine.During.split {D : Sys Tid M.img.Site → Label Tid → Prop} {t : Tid} {d : ℕ}
    {c : Call} {s₁ s₂ : Sys Tid M.img.Site} {g₁ : List (Label Tid)} {l : Label Tid}
    (g₂ : List (Label Tid)) (h : M.During D t d c s₁ (g₂ ++ l :: g₁) s₂) :
    ∃ s s', M.During D t d c s₁ g₁ s ∧ M.Step s l s' := by
  have hrun := h.run
  rw [List.append_assoc] at hrun
  obtain ⟨s', hrun', _⟩ := hrun.split
  cases hrun' with
  | cons hrun₁ hs =>
    exact ⟨_, s', ⟨h.reachable, hrun₁, fun c' hm => h.once c' (by simp [hm])⟩, hs.1⟩

/-- **Errors are explained**, in every run and whatever else happens. -/
theorem errors_explained (M : Machine Tid) : M.ErrorsExplained := by
  intro t d c e s₁ g s₂ hf
  obtain ⟨a₁, a, a₂, _, _, hc, hs⟩ := hf.called
  refine ⟨fun hk => ⟨?_, fun o hm => ?_⟩, fun hk => ?_⟩
  · -- a refused call returns without an attempt
    obtain ⟨rfl, ⟨log, htop⟩ | ⟨_, he⟩⟩ := hs.ret
    · -- a call that has finished an attempt was not refused
      obtain ⟨_, hok⟩ := hc.ok (htop ▸ a.ctx_depth t)
      exact absurd hok.2.1 (by rw [hk]; decide)
    · cases he
      rfl
  · exact absurd (hc.keysAgree hm) (by rw [hk]; decide)
  have hsees := hc.failed_sees hs hk
  refine ⟨hsees, fun b hb => ?_⟩
  obtain ⟨log₁, log₂, hlog⟩ := List.append_of_mem hb
  -- back to the state in which this access was made
  obtain ⟨g₂, last, g₁, rfl, hlog₁⟩ := attempt_split hlog
  obtain ⟨s, s', hduring, hstep⟩ :=
    Machine.During.split (.act t d (.ret c (.error e)) :: g₂) hf
  obtain ⟨b₁, b₂, _, hrel, hc₁⟩ := hduring.called (fun _ _ => True) fun _ _ _ _ _ => trivial
  obtain ⟨b₃, hs₁, _⟩ := refine_step hrel hstep
  obtain ⟨hread, hindex⟩ := hc₁.access hs₁
  rw [hlog₁] at hindex
  refine ⟨g₂, last, g₁, s, rfl, hduring.run.mono fun _ _ _ h => h.1, ?_, fun j hj => ?_⟩
  · rw [(hrel.thr t).index, hrel.mem]
    exact hread
  · rw [(hrel.thr t).index]
    refine hindex j ?_
    -- the index is what the attempt has read first
    obtain ⟨i, rest, hrest, hnot⟩ := hsees.index_first
    rw [hlog] at hj hrest
    cases log₁ with
    | nil =>
      obtain ⟨rfl, rfl⟩ := List.cons_eq_cons.mp hrest
      exact (List.mem_cons.mp hj).elim (fun h => h ▸ List.mem_cons_self ..) fun h =>
        absurd h (hnot j)
    | cons _ log₁ =>
      obtain ⟨rfl, rfl⟩ := List.cons_eq_cons.mp hrest
      refine (List.mem_cons.mp hj).elim (fun h => h ▸ List.mem_cons_self ..) fun h =>
        absurd h (hnot j)

/-- A `store_if` that has missed 5 has loaded 5, on its CPU. -/
theorem errors_explained_storeReturned :
    (storeCall 9 0x9000).op.Sees (.miss 5) (attempt false 0 storeMissed.1) ∧
      storePair.Saw false 0 (storeCall 9 0x9000) storeBefore.2 storeMissed.1
        (attempt false 0 storeMissed.1) :=
  (errors_explained storePair false 0 _ _ _ _ _ storeReturned_fails).2 rfl

/-- **An abort means that the thread was moved** during the call. -/
theorem aborts_moved (M : Machine Tid) : M.AbortsMoved := by
  intro t d c s₁ g s₂ hf hk hidx
  obtain ⟨a₁, a, a₂, hrel₁, hrel₂, hc, hs⟩ := hf.called
  rw [(hrel₁.thr t).index] at hidx
  -- if it was not moved, it stays on its key and cannot abort
  by_contra hno
  have hstay : ∀ e cpu cid, .act t e (.resume cpu cid) ∈ g → Area.index ⟨cpu, 0, cid⟩ c.K = c.key :=
    fun e cpu cid hm => by_contra fun hne => hno ⟨e, cpu, cid, hm, hne⟩
  have hfields (cpu cid : U32) : Area.index ⟨cpu, 0, cid⟩ c.K = Stage.fields cpu cid c.K := by
    cases c.K <;> rfl
  obtain ⟨_, hfin⟩ := hc.onKey hidx fun e cpu cid hm => by
    rw [← hfields]
    exact hstay e cpu cid hm
  rcases hc.failed hs with ⟨log, hw, _⟩ | hw
  · exact hfin log hw
  · exact absurd (hc.refused hw) (by rw [hk]; decide)

/-- A `load_if_ne` that was moved to CPU 1 aborts. -/
theorem aborts_moved_loadReturned : ∃ e cpu cid,
    .act false e (.resume cpu cid) ∈ loadAborted.1 ∧
      Area.index ⟨cpu, 0, cid⟩ loadCall.K ≠ loadCall.key :=
  aborts_moved loadPair false 0 _ _ _ _ loadReturned_fails rfl rfl

end RseqRs
