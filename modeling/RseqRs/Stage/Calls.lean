import RseqRs.Proof.ExactlyOnce
import RseqRs.Spec.Calls

/-!
# One call of the stage machine

`Called` follows a single call from its first step, among everything else that runs. Its
history starts with the call, so what its attempts have accessed is a function of that
history alone. Two facts carry the results about failed calls:

* an attempt that got far enough for `P` is still there, past the commit, or was cut by a
  kernel event while `P` held of it (`Called.reached`);
* what an attempt accessed, it accessed by one of the instructions of the history
  (`attempt_split`).
-/

namespace RseqRs

/-! ### The attempts of a history -/

section History

variable {Tid : Type} [DecidableEq Tid] {t : Tid} {d : ℕ}

/-- Some attempt of the history `g` got as far as `P`. -/
def Reached (t : Tid) (d : ℕ) (P : List Acc → Prop) (g : List (Label Tid)) : Prop :=
  ∃ g₁ g₂, g = g₂ ++ g₁ ∧ P (attempt t d g₁)

/-- The attempts of a call do not depend on what was before it. -/
theorem attempt_since {c : Call} {g h : List (Label Tid)} :
    attempt t d (g ++ .act t d (.call c) :: h) = attempt t d g := by
  induction g with
  | nil => exact attempt_self
  | cons l g ih =>
    cases l with
    | act u e a =>
      show (if u = t ∧ e = d then _ else _) = if u = t ∧ e = d then _ else _
      rw [List.append_eq, ih]
    | fenceRun u e ev hit => exact ih
    | write x v => exact ih

/-- A step that is not the context's own leaves its attempt as it was. -/
theorem attempt_of_not_own {l : Label Tid} {g : List (Label Tid)} (hl : l.own t d = false) :
    attempt t d (l :: g) = attempt t d g := by
  cases l with
  | act u e a =>
    by_cases h : u = t ∧ e = d
    · obtain ⟨rfl, rfl⟩ := h
      rw [attempt_self]
      cases a with
      | preempt | resume _ _ | signal => rfl
      | _ =>
        rw [Label.own_self rfl] at hl
        cases hl
    · exact if_neg h
  | fenceRun u e ev hit => rfl
  | write x v => rfl

/-- **Every access of an attempt** is one of the instructions of its history, made when the
attempt had the accesses before it. -/
theorem attempt_split {g : List (Label Tid)} {l r : List Acc} {a : Acc}
    (h : attempt t d g = l ++ a :: r) :
    ∃ g₂ last g₁, g = g₂ ++ .act t d (.exec (.acc a last)) :: g₁ ∧ attempt t d g₁ = l := by
  induction g generalizing r with
  | nil => exact absurd h.symm (by simp [attempt])
  | cons b g ih =>
    -- a step that leaves the attempt as it was
    have hkeep (hb : attempt t d (b :: g) = attempt t d g) :
        ∃ g₂ last g₁, b :: g = g₂ ++ .act t d (.exec (.acc a last)) :: g₁ ∧
          attempt t d g₁ = l := by
      obtain ⟨g₂, last, g₁, rfl, hl⟩ := ih (hb.symm.trans h)
      exact ⟨b :: g₂, last, g₁, rfl, hl⟩
    -- only a step of the context itself changes its attempt
    by_cases hown : b.own t d = true
    · cases b with
      | act u e act =>
        obtain ⟨rfl, rfl⟩ : u = t ∧ e = d := by
          exact (Label.own_act.mp hown).1
        rw [attempt_self] at h
        cases act with
        | exec o =>
          cases o with
          | tau => exact hkeep attempt_self
          | arm => exact absurd h.symm (by simp [Act.extend, Obs.extend])
          | acc b last =>
            -- the newest access is `a`, or `a` is older
            replace h : attempt u e g ++ [b] = l ++ a :: r := h
            rcases List.eq_nil_or_concat r with rfl | ⟨r, b', rfl⟩
            · obtain ⟨rfl, hb⟩ := List.append_inj' h rfl
              obtain rfl := List.singleton_inj.mp hb
              exact ⟨[], last, g, rfl, rfl⟩
            · rw [List.concat_eq_append, ← List.cons_append, ← List.append_assoc] at h
              obtain ⟨g₂, last', g₁, rfl, hl⟩ := ih (List.append_inj' h rfl).1
              exact ⟨_ :: g₂, last', g₁, rfl, hl⟩
        | call c => exact absurd h.symm (by simp [Act.extend])
        | _ => exact hkeep attempt_self
      | fenceRun u e ev hit => exact hkeep rfl
      | write x v => exact hkeep rfl
    · exact hkeep (attempt_of_not_own (Bool.eq_false_iff.mpr hown))

/-- An attempt that got anywhere executed something. -/
theorem Reached.exec {P : List Acc → Prop} {g : List (Label Tid)} (hnil : ¬ P [])
    (h : Reached t d P g) : ∃ o, .act t d (.exec o) ∈ g := by
  obtain ⟨g₁, g₂, rfl, hP⟩ := h
  generalize hlog : attempt t d g₁ = log at hP
  cases log with
  | nil => exact absurd hP hnil
  | cons a log =>
    have hsplit : attempt t d g₁ = [] ++ a :: log := hlog
    obtain ⟨g₃, last, g₄, rfl, _⟩ := attempt_split hsplit
    exact ⟨.acc a last, by simp⟩

end History

namespace Stage

variable {Tid : Type} [DecidableEq Tid] {M : Machine Tid}

/-- `Called M D t d c s₁ g s`: in the reachable state `s₁` the context of `t` at depth `d`
has called `c`, and the steps `g` since, each allowed by `D`, have led to `s`. -/
inductive Called (M : Machine Tid) (D : Sys Tid → Label Tid → Prop) (t : Tid) (d : ℕ) (c : Call)
    (s₁ : Sys Tid) : List (Label Tid) → Sys Tid → Prop
  | call {s₀ s : Sys Tid} {h : List (Label Tid)} : Initial s₀ → LTS.Run (SysStep M) s₀ h s₁ →
      SysStep M s₁ (.act t d (.call c)) s → Called M D t d c s₁ [] s
  | step {g : List (Label Tid)} {s s' : Sys Tid} {l : Label Tid} : Called M D t d c s₁ g s →
      SysStep M s l s' → D s l → (∀ c', l ≠ .act t d (.call c')) →
      Called M D t d c s₁ (l :: g) s'

namespace Called

variable {D : Sys Tid → Label Tid → Prop} {t : Tid} {d : ℕ} {c : Call} {s₁ s s' : Sys Tid}
  {g : List (Label Tid)}

/-- The whole history, from the start of the process. -/
theorem run (h : Called M D t d c s₁ g s) :
    ∃ s₀ h₁, Initial s₀ ∧ LTS.Run (SysStep M) s₀ (g ++ .act t d (.call c) :: h₁) s := by
  induction h with
  | call hi hr hs => exact ⟨_, _, hi, hr.cons hs⟩
  | step _ hs _ _ ih =>
    obtain ⟨s₀, h₁, hi, hr⟩ := ih
    exact ⟨s₀, h₁, hi, hr.cons hs⟩

/-- Every step of the call is one from a state that the call has reached. -/
theorem split {l : Label Tid} {g₁ g₂ : List (Label Tid)}
    (h : Called M D t d c s₁ (g₂ ++ l :: g₁) s) :
    ∃ s' s'', Called M D t d c s₁ g₁ s' ∧ SysStep M s' l s'' ∧ D s' l := by
  induction g₂ generalizing s with
  | nil =>
    cases h with
    | step h hs hD _ => exact ⟨_, _, h, hs, hD⟩
  | cons _ g₂ ih =>
    cases h with
    | step h _ _ _ => exact ih h

/-- What is known of the context, and that its attempt is that of the history. -/
theorem ok {st : Stage} {log : List Acc} {c' : Call} (h : Called M D t d c s₁ g s)
    (hw : s.ctx t d = some (.op c' st log)) :
    ∃ idx, Ok idx (attempt t d g) (.op c' st log) := by
  obtain ⟨s₀, h₁, hi, hr⟩ := h.run
  have hinv := inv_run hi hr
  rcases Sys.ctx_cases hw with ⟨rfl, htop⟩ | ⟨_, hb⟩
  · have hok := hinv.top t
    rw [htop, attempt_since] at hok
    exact ⟨_, hok⟩
  · have hok := (hinv.below t d _ hb).2
    rw [attempt_since] at hok
    exact ⟨_, hok⟩

theorem log_eq {st : Stage} {log : List Acc} {c' : Call} (h : Called M D t d c s₁ g s)
    (hw : s.ctx t d = some (.op c' st log)) : log = attempt t d g := by
  obtain ⟨_, hok⟩ := h.ok hw
  exact hok.1

/-- The word op in the context is the one that was called, and a refused call is. -/
theorem call_eq (h : Called M D t d c s₁ g s) :
    ∀ c' st log, s.ctx t d = some (.op c' st log) → c' = c := by
  induction h with
  | @call s₀ s h₁ hi hr hs =>
    intro c' st log hw
    obtain ⟨_, _, ht⟩ := hs.turn rfl nofun hw
    cases ht
    rfl
  | step h₁ hs _ honce ih =>
    intro c' st log hw
    rcases hs.op_back hw with ⟨st', log', hw'⟩ | rfl
    · exact ih c' st' log' hw'
    · exact absurd rfl (honce c')

/-- A call that has returned is not in flight. -/
theorem returned (h : Called M D t d c s₁ g s) {c' : Call} {r : Except Error Usize}
    (hret : .act t d (.ret c' r) ∈ g) : ∀ c'' st log, s.ctx t d ≠ some (.op c'' st log) := by
  induction h with
  | call _ _ _ => cases hret
  | @step g s s' l h₁ hs _ honce ih =>
    intro c'' st log hw
    rcases hs.op_back hw with ⟨st', log', hw'⟩ | rfl
    · rcases List.mem_cons.mp hret with rfl | hret
      · -- the step of the return itself leaves caller code
        obtain ⟨_, _, ht⟩ := hs.turn rfl nofun hw
        cases ht
      · exact ih hret _ _ _ hw'
    · exact honce c'' rfl

/-- **How far an attempt got.** If some attempt of the call got as far as `P`, which no access
takes back, then an attempt was cut there, or the attempt at hand has got there. -/
theorem reached {P : List Acc → Prop} (hnil : ¬ P []) (hmore : ∀ log a, P log → P (log ++ [a]))
    (h : Called M D t d c s₁ g s) : ∀ st log, s.ctx t d = some (.op c st log) →
      Reached t d P g → CutWhen t d P g ∨ (st ≠ .entering ∧ P log) := by
  induction h with
  | call _ _ _ =>
    rintro st log - ⟨g₁, g₂, he, hP⟩
    obtain ⟨rfl, rfl⟩ := List.append_eq_nil_iff.mp he.symm
    exact absurd hP hnil
  | @step g s s' l h₁ hs _ honce ih =>
    intro st log hw hreach
    have hlog : log = attempt t d (l :: g) := (h₁.step hs ‹_› honce).log_eq hw
    -- either the attempt got there earlier, or it has just got there
    have hcases : Reached t d P g ∨ P log := by
      obtain ⟨g₁, g₂, he, hP⟩ := hreach
      rcases List.cons_eq_append_iff.mp he with ⟨rfl, rfl⟩ | ⟨g₃, rfl, rfl⟩
      · exact Or.inr (hlog ▸ hP)
      · exact Or.inl ⟨g₁, g₃, rfl, hP⟩
    have hback {st₀ : Stage} {log₀ : List Acc} (hw₀ : s.ctx t d = some (.op c st₀ log₀))
        (hr : Reached t d P g) : CutWhen t d P (l :: g) ∨ (st₀ ≠ .entering ∧ P log₀) := by
      refine (ih st₀ log₀ hw₀ hr).imp_left ?_
      rintro ⟨g₁, k, g₂, rfl, hk, hP⟩
      exact ⟨g₁, k, l :: g₂, rfl, hk, hP⟩
    have hnow {st₀ : Stage} {log₀ : List Acc} (hw₀ : s.ctx t d = some (.op c st₀ log₀))
        (hP : P log₀) : Reached t d P g := ⟨g, [], rfl, h₁.log_eq hw₀ ▸ hP⟩
    rcases hs.ctx_back hw with ⟨w, hw₀, hstep⟩ | hidle
    · generalize ho : some (Work.op c st log) = o at hstep
      cases hstep with
      | keep hl =>
        cases ho
        exact hback hw₀ (hcases.elim id (hnow hw₀))
      | event hl hev =>
        cases w with
        | op c' st₀ log₀ =>
          cases st₀ with
          | inside u =>
            -- the attempt is cut: with `P`, or it never got there
            cases ho
            rcases hback hw₀ (hcases.elim id (hnow hw₀)) with hcut | ⟨_, hP⟩
            · exact Or.inl hcut
            · exact Or.inl ⟨g, l, [], rfl, hev, h₁.log_eq hw₀ ▸ hP⟩
          | entering => cases ho; exact hback hw₀ (hcases.elim id (hnow hw₀))
          | finishing r => cases ho; exact hback hw₀ (hcases.elim id (hnow hw₀))
        | _ => cases ho
      | @exec c' st₀ st' log₀ o m hr htop hst =>
        cases ho
        have hmove (hne : st ≠ .entering) (ho : P log₀ → P (o.extend log₀)) :
            CutWhen t d P (.act t d (.exec o) :: g) ∨ (st ≠ .entering ∧ P (o.extend log₀)) := by
          rcases hcases with hr | hP
          · exact (hback hw₀ hr).imp_right fun ⟨_, hP⟩ => ⟨hne, ho hP⟩
          · exact Or.inr ⟨hne, hP⟩
        cases hst with
        | enter => exact hback hw₀ (hcases.elim id (hnow hw₀))
        | arm =>
          -- a new attempt: the one before it has been cut
          rcases hcases with hr | hP
          · exact (hback hw₀ hr).imp_right fun ⟨hne, _⟩ => absurd rfl hne
          · exact absurd hP hnil
        | tau => exact hmove nofun id
        | exit => exact hmove nofun id
        | access _ _ => exact hmove nofun (hmore _ _)
        | commit _ => exact hmove nofun (hmore _ _)
        | leave => exact hmove nofun id
      | turn ht =>
        cases ht with
        | call _ => exact absurd rfl (honce _)
        | _ => cases ho
      | fence hr => cases ho
      | popped => cases ho
    · cases hidle

/-- An instruction of the call, as the step of a stage. -/
theorem exec {o : Obs} (h : Called M D t d c s₁ g s)
    (hs : SysStep M s (.act t d (.exec o)) s') :
    d = (s.thr t).depth ∧ (s.thr t).running = true ∧ ∃ st st' log,
      (s.thr t).top = .op c st log ∧
      Step (tree c) ((s.thr t).index c.K) s.mem st o st' s'.mem ∧
      Ok (s.thr t).index (attempt t d g) (.op c st log) := by
  obtain ⟨rfl, hr, c', st, st', log, htop, _, hst, _⟩ := hs.exec
  obtain rfl := h.call_eq _ _ _ (htop ▸ s.ctx_depth t)
  obtain ⟨s₀, h₁, hi, hrun⟩ := h.run
  have hok := (inv_run hi hrun).top t
  rw [htop, attempt_since] at hok
  exact ⟨rfl, hr, st, st', log, htop, hst, hok⟩

/-- A call that has returned executes nothing more. -/
theorem returned_exec {c' : Call} {r : Except Error Usize} {o : Obs} {g₁ g₂ : List (Label Tid)}
    (h : Called M D t d c s₁ (g₂ ++ .act t d (.ret c' r) :: g₁) s) :
    .act t d (.exec o) ∉ g₂ := by
  intro hm
  obtain ⟨g₄, g₃, rfl⟩ := List.append_of_mem hm
  rw [List.append_assoc] at h
  obtain ⟨a, a', ha, hs, _⟩ := h.split
  obtain ⟨rfl, _, st, st', log, htop, _⟩ := ha.exec hs
  have hret : Label.act t (a.thr t).depth (.ret c' r) ∈
      g₃ ++ .act t (a.thr t).depth (.ret c' r) :: g₁ :=
    List.mem_append_right _ (List.mem_cons_self ..)
  exact ha.returned hret c st log (htop ▸ a.ctx_depth t)

/-- What the call writes is scratch, or its commit. -/
theorem wrote {a : Acc} {last : Bool} {x : Usize} (h : Called M D t d c s₁ g s)
    (hs : SysStep M s (.act t d (.exec (.acc a last))) s') (ha : a.written = some x) :
    s'.mem = a.apply s.mem ∧ ((last = false ∧ ∃ v, a = .store x v ∧ (tree c).Scratches x v) ∨
      (last = true ∧ ∃ r, (tree c).Ends (attempt t d g ++ [a]) (.ok r))) := by
  obtain ⟨_, _, st, st', log, _, hst, rfl, -, hok⟩ := h.exec hs
  generalize s'.mem = m at hst
  cases hst with
  | access hn hr =>
    refine ⟨rfl, Or.inl ⟨rfl, ?_⟩⟩
    cases hn with
    | index k i => cases ha
    | load b k v => cases ha
    | scratch b v k =>
      obtain rfl := Option.some_inj.mp ha
      exact ⟨v, rfl, hok.1.scratches (.scratch ..)⟩
  | commit hc => exact ⟨rfl, Or.inr ⟨rfl, _, .commit hok.1 hc⟩⟩

/-- A call about to return `Err` has an attempt that ended so. -/
theorem failed {e : Error} (h : Called M D t d c s₁ g s)
    (hs : SysStep M s (.act t d (.ret c (.error e))) s') :
    (∃ log, s.ctx t d = some (.op c (.finishing (.error e)) log) ∧
      (tree c).Ends (attempt t d g) (.error e)) ∨
      s.ctx t d = some (.refused c) := by
  cases hs with
  | move hm _ =>
    cases hm with
    | turn hr htop ht =>
      cases ht with
      | @ret c r log =>
        have hw : s.ctx t (s.thr t).depth = some (.op c (.finishing (.error e)) log) :=
          htop ▸ s.ctx_depth t
        obtain ⟨idx, rfl, -, hends⟩ := h.ok hw
        exact Or.inl ⟨_, hw, hends⟩
      | retRefused => exact Or.inr (htop ▸ s.ctx_depth t)

/-- A call that executes an instruction has not been refused. -/
theorem keysAgree {o : Obs} (h : Called M D t d c s₁ g s) (ho : .act t d (.exec o) ∈ g) :
    c.op.keysAgree = true := by
  induction h with
  | call _ _ _ => cases ho
  | step h₁ hs _ _ ih =>
    rcases List.mem_cons.mp ho with rfl | ho
    · obtain ⟨_, _, _, _, _, _, _, -, hk, -⟩ := h₁.exec hs
      exact hk
    · exact ih ho

/-- A refused call is one whose keys differ. -/
theorem refused {c' : Call} (h : Called M D t d c s₁ g s)
    (hw : s.ctx t d = some (.refused c')) : c'.op.keysAgree = false := by
  induction h with
  | call _ _ hs =>
    obtain ⟨_, _, ht⟩ := hs.turn rfl nofun hw
    cases ht with
    | callRefused hk => exact hk
  | step h₁ hs _ honce ih =>
    -- no step but the call refuses it
    rcases hs.ctx_back hw with ⟨w, hw₀, hstep⟩ | hidle
    · generalize ho : some (Work.refused c') = o at hstep
      cases hstep with
      | keep hl => cases ho; exact ih hw₀
      | event hl _ =>
        cases w with
        | refused c'' => cases ho; exact ih hw₀
        | op c'' st log => cases st <;> cases ho
        | _ => cases ho
      | exec hr htop hst => cases ho
      | turn ht =>
        cases ht with
        | callRefused _ => exact absurd rfl (honce _)
        | _ => cases ho
      | fence hr => cases ho
      | popped => cases ho
    · cases hidle

/-- **A failed call got as far as `P` just if an attempt was cut there**, where no attempt
that ends with a failure gets that far. -/
theorem failed_reached {P : List Acc → Prop} {e : Error} (hnil : ¬ P [])
    (hmore : ∀ log a, P log → P (log ++ [a]))
    (hfail : ∀ log, (tree c).Ends log (.error e) → ¬ P log)
    (h : Called M D t d c s₁ g s) (hs : SysStep M s (.act t d (.ret c (.error e))) s') :
    Reached t d P g ↔ CutWhen t d P g := by
  refine ⟨fun hr => ?_, ?_⟩
  · rcases h.failed hs with ⟨log, hw, hends⟩ | hw
    · exact (h.reached hnil hmore _ _ hw hr).resolve_right fun ⟨_, hP⟩ =>
        hfail _ hends (h.log_eq hw ▸ hP)
    · -- a refused call executes nothing
      obtain ⟨o, ho⟩ := hr.exec hnil
      exact absurd (h.refused hw) (by rw [h.keysAgree ho]; decide)
  · rintro ⟨g₁, l, g₂, rfl, _, hP⟩
    exact ⟨g₁, g₂ ++ [l], by simp, hP⟩

/-! ### Commits of the call -/

theorem once (h : Called M D t d c s₁ g s) (c' : Call) : .act t d (.call c') ∉ g := by
  induction h with
  | call _ _ _ => exact List.not_mem_nil
  | step _ _ _ honce ih =>
    intro hm
    rcases List.mem_cons.mp hm with he | hm
    · exact honce c' he.symm
    · exact ih hm

/-- The commits of the call at hand are those of its history. -/
theorem commitCount_eq {h₁ : List (Label Tid)} (hg : ∀ c', .act t d (.call c') ∉ g) :
    commitCount t d (g ++ .act t d (.call c) :: h₁) = g.countP (Label.commits t d) := by
  induction g with
  | nil => exact sinceCall_call
  | cons l g ih =>
    have hl : l.calls t d = false := by
      cases l with
      | act u e a =>
        cases a with
        | call c' =>
          refine decide_eq_false fun he => hg c' ?_
          rw [he.1, he.2]
          exact List.mem_cons_self ..
        | _ => rfl
      | _ => rfl
    rw [List.cons_append, commitCount, sinceCall_cons_of_not_calls hl, List.countP_cons,
      ← ih fun c' hm => hg c' (List.mem_cons_of_mem _ hm), Nat.add_comm]
    rfl

/-- The call commits at most once. -/
theorem commits_le_one (h : Called M D t d c s₁ g s) : g.countP (Label.commits t d) ≤ 1 := by
  obtain ⟨s₀, h₁, hi, hr⟩ := h.run
  rw [← commitCount_eq h.once]
  exact commitCount_le_one hi hr t d

/-- A call about to return `Err` has not committed. -/
theorem failed_commits {e : Error} (h : Called M D t d c s₁ g s)
    (hs : SysStep M s (.act t d (.ret c (.error e))) s') : g.countP (Label.commits t d) = 0 := by
  obtain ⟨s₀, h₁, hi, hr⟩ := h.run
  rw [← commitCount_eq h.once]
  rcases h.failed hs with ⟨log, hw, _⟩ | hw
  · exact committed_run hi hr t d _ hw
  · exact committed_run hi hr t d _ hw

end Called

end Stage

end RseqRs
