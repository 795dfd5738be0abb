import Mathlib.Data.Fintype.Basic
import RseqRs.Model.Machine

/-!
# Schedules

A schedule written down as a list of commands, and the run of the machine it makes:
`Machine.play` computes the labels and the state, and `Machine.play_run` says that they are
those of a run. A command that the machine does not allow gives nothing.
-/

namespace RseqRs

instance (K : Index) : DecidableEq K.Key :=
  match K with
  | .cpuId => inferInstanceAs (DecidableEq CpuId)
  | .cid => inferInstanceAs (DecidableEq Cid)

deriving instance DecidableEq for Word, Op, Call

instance resultDecidableEq : DecidableEq (Except Error Usize)
  | .ok a, .ok b => decidable_of_iff (a = b) ⟨congrArg _, Except.ok.inj⟩
  | .error a, .error b => decidable_of_iff (a = b) ⟨congrArg _, Except.error.inj⟩
  | .ok _, .error _ => .isFalse nofun
  | .error _, .ok _ => .isFalse nofun

deriving instance DecidableEq for Act

/-- The label is this act. -/
def Label.isAct {Tid : Type} [DecidableEq Tid] (t : Tid) (d : ℕ) (a : Act) : Label Tid → Bool
  | .act t' d' a' => decide (t' = t ∧ d' = d ∧ a' = a)
  | _ => false

/-- One line of a schedule. -/
inductive Cmd (Tid Site : Type) where
  /-- `n` instructions of the word op that `t` is in -/
  | exec (t : Tid) (n : ℕ)
  | call (t : Tid) (c : Call) (site : Site)
  /-- the op of `t` is at its end and returns -/
  | ret (t : Tid)
  | goto (t : Tid)
  | preempt (t : Tid)
  | resume (t : Tid) (cpu cid : U32)
  | fenceCall (t : Tid) (f : FenceCall)
  /-- one step of the fence that `t` is in; a barrier that reaches its caller interrupts it -/
  | fenceRun (t : Tid) (ev : RunEv)
  | fenceRet (t : Tid)
  | write (a v : Usize)

instance (p : Flags) (rc : Rc) : Decidable (p.Answers rc) := inferInstanceAs (Decidable (_ ↔ _))

/-- What the step `ev` of a fence does to the flags and where it leads, if it can be made. -/
def RunPc.after (p : Flags) : RunPc → RunEv → Option (Flags × RunPc)
  | .ready, .ready => p.ready.map fun b => (p, if b then .barrier else .ret false)
  | .ready, .init ok =>
    if p.ready = none then
      some ({ p with ready := some ok, registered := p.registered || ok },
        if ok then .barrier else .ret false)
    else none
  | .barrier, .barrier rc =>
    if p.Answers rc then
      some (p, match rc with | .ok => .store | .eperm => .swap | .err => .ret false)
    else none
  | .store, .store => some ({ p with used := true }, .ret true)
  -- the flag is read and cleared at once
  | .swap, .swap old =>
    if old = p.used then some ({ p with used := false }, if p.used then .register else .ret false)
    else none
  | .register, .register ok =>
    some ({ p with registered := p.registered || ok }, if ok then .retry else .ret false)
  | .retry, .retry rc => if p.Answers rc then some (p, .ret (rc = .ok)) else none
  | _, _ => none

/-- `RunPc.after` computes the steps of a fence. -/
theorem RunPc.runStep {p p' : Flags} {pc pc' : RunPc} {ev : RunEv}
    (h : pc.after p ev = some (p', pc')) : RunStep p pc ev p' pc' := by
  unfold RunPc.after at h
  split at h
  · obtain ⟨b, hb, he⟩ := Option.map_eq_some_iff.mp h
    cases he
    exact .ready hb
  · split at h
    · next hn => cases h; exact .init _ hn
    · cases h
  · split at h
    · next ha => cases h; exact .barrier ha
    · cases h
  · cases h; exact .store
  · split at h
    · next ho => cases h; subst ho; exact .swap
    · cases h
  · cases h; exact .register _
  · split at h
    · next ha => cases h; exact .retry ha
    · cases h
  · cases h

namespace Machine

variable {Tid : Type} (M : Machine Tid) [DecidableEq M.img.Site] [DecidableEq Tid] [Fintype Tid]

/-- Thread `t` replaced by `x`. -/
def withThr (s : Sys Tid M.img.Site) (t : Tid) (x : Thr M.img.Site) : Sys Tid M.img.Site :=
  { s with thr := Function.update s.thr t x }

instance (s : Sys Tid M.img.Site) (t : Tid) (cpu cid : U32) : Decidable (M.Free s t cpu cid) :=
  inferInstanceAs (Decidable (∀ _, _))

/-- The threads that a barrier reaches, its caller among them. -/
def reached (s : Sys Tid M.img.Site) (f : FenceCall) (ev : RunEv) (u : Tid) : Bool :=
  M.hits f ev (s.thr u).running (s.thr u).area.cpuId

/-- What a command does: its labels, newest first, and the state after it. -/
def command (s : Sys Tid M.img.Site) :
    Cmd Tid M.img.Site → Option (List (Label Tid) × Sys Tid M.img.Site)
  | .exec t n => M.solo t n s
  | .call t c site =>
    match (s.thr t).top.frame with
    | .idle =>
      if (s.thr t).running = true ∧ c.op.keysAgree = true ∧ M.img.sect site = c.op.section then
        some ([.act t (s.thr t).depth (.call c)], M.called t c site s)
      else none
    | _ => none
  | .ret t =>
    match (s.thr t).top.frame with
    | .op c site =>
      if (s.thr t).running = true ∧ (s.thr t).top.ip = M.img.ip site (M.img.block site).len then
        some ([.act t (s.thr t).depth (.ret c (c.op.finish (Attempt.fromStatus
            ((s.thr t).top.regs (M.img.block site).status)
            ((s.thr t).top.regs (M.img.block site).value))))],
          M.withThr s t { s.thr t with top := { (s.thr t).top with ip := 0, frame := .idle } })
      else none
    | _ => none
  | .goto t =>
    match (s.thr t).top.frame with
    | .idle =>
      if (s.thr t).running = true then
        some ([.act t (s.thr t).depth .goto],
          M.withThr s t { s.thr t with top := ⟨0, fun _ => 0, false, none, .idle⟩ })
      else none
    | _ => none
  | .preempt t =>
    if (s.thr t).running = true ∧ (s.thr t).top.latch = none then
      some ([.act t (s.thr t).depth .preempt], M.preempted t s)
    else none
  | .resume t cpu cid =>
    if (s.thr t).running = false ∧ M.Free s t cpu cid then
      some ([.act t (s.thr t).depth (.resume cpu cid)], M.resumed t cpu cid s)
    else none
  | .fenceCall t f =>
    match (s.thr t).top.frame with
    | .idle =>
      if (s.thr t).running = true then
        some ([.act t (s.thr t).depth (.fenceCall f)],
          M.withThr s t { s.thr t with
            top := { (s.thr t).top with
              frame := .fence f (if (f.barrier M.cpus).isSome then .ready else .ret false) } })
      else none
    | _ => none
  | .fenceRun t ev =>
    match (s.thr t).top.frame with
    | .fence f pc =>
      if (s.thr t).running = true ∧ ∀ u, M.reached s f ev u = true → (s.thr u).top.latch = none then
        (pc.after s.flags ev).map fun (p, pc') =>
          ([.fenceRun t (s.thr t).depth ev (M.reached s f ev)],
            M.fenced s t f pc' p (M.reached s f ev))
      else none
    | _ => none
  | .fenceRet t =>
    match (s.thr t).top.frame with
    | .fence f (.ret b) =>
      if (s.thr t).running = true then
        some ([.act t (s.thr t).depth (.fenceRet f b)],
          M.withThr s t { s.thr t with top := { (s.thr t).top with frame := .idle } })
      else none
    | _ => none
  | .write a v => some ([.write a v], { s with mem := Function.update s.mem a v })

/-- What a schedule does. -/
def play (s : Sys Tid M.img.Site) :
    List (Cmd Tid M.img.Site) → Option (List (Label Tid) × Sys Tid M.img.Site)
  | [] => some ([], s)
  | k :: ks => (M.command s k).bind fun (h, s') =>
    (play s' ks).map fun (h', s'') => (h' ++ h, s'')

variable {M} {s s' : Sys Tid M.img.Site} {h : List (Label Tid)}

/-- **A command** is a run of the machine. -/
theorem command_run (ho : M.img.Outside 0) {k : Cmd Tid M.img.Site}
    (hk : M.command s k = some (h, s')) : LTS.Run M.Step s h s' := by
  cases k with
  | exec t n => exact M.solo_run hk
  | call t c site =>
    simp only [command] at hk
    split at hk
    · next hf =>
      split at hk
      · next hc =>
        cases hk
        exact .single (M.step_called hc.1 hf hc.2.1 hc.2.2)
      · cases hk
    · cases hk
  | ret t =>
    simp only [command] at hk
    split at hk
    · next c site hf =>
      split at hk
      · next hc =>
        cases hk
        exact .single (.move (.ret site 0 hc.1 hf hc.2 ho) nofun)
      · cases hk
    · cases hk
  | goto t =>
    simp only [command] at hk
    split at hk
    · next hf =>
      split at hk
      · next hr =>
        cases hk
        exact .single (.move (.goto 0 _ _ hr hf ho) nofun)
      · cases hk
    · cases hk
  | preempt t =>
    simp only [command] at hk
    split at hk
    · next hr =>
      cases hk
      exact .single (M.step_preempted hr.1 hr.2)
    · cases hk
  | resume t cpu cid =>
    simp only [command] at hk
    split at hk
    · next hc =>
      cases hk
      exact .single (M.step_resumed hc.1 hc.2)
    · cases hk
  | fenceCall t f =>
    simp only [command] at hk
    split at hk
    · next hf =>
      split at hk
      · next hr =>
        cases hk
        exact .single (.move (.fenceCall f hr hf) nofun)
      · cases hk
    · cases hk
  | fenceRun t ev =>
    simp only [command] at hk
    split at hk
    · next f pc hf =>
      split at hk
      · next hr =>
        obtain ⟨⟨p, pc'⟩, ha, he⟩ := Option.map_eq_some_iff.mp hk
        cases he
        exact .single (.fenceRun hr.1 hf (RunPc.runStep ha) (fun _ => Or.inl rfl) hr.2)
      · cases hk
    · cases hk
  | fenceRet t =>
    simp only [command] at hk
    split at hk
    · next f b hf =>
      split at hk
      · next hr =>
        cases hk
        exact .single (.move (.fenceRet hr hf) nofun)
      · cases hk
    · cases hk
  | write a v =>
    cases hk
    exact .single (.write a v)

/-- **A schedule** is a run of the machine. -/
theorem play_run (ho : M.img.Outside 0) {ks : List (Cmd Tid M.img.Site)}
    (hk : M.play s ks = some (h, s')) : LTS.Run M.Step s h s' := by
  induction ks generalizing s h s' with
  | nil => cases hk; exact .nil
  | cons k ks ih =>
    obtain ⟨⟨h₁, s₁⟩, h₁s, hk⟩ := Option.bind_eq_some_iff.mp hk
    obtain ⟨⟨h₂, s₂⟩, h₂s, hk⟩ := Option.map_eq_some_iff.mp hk
    cases hk
    exact (command_run ho h₁s).append (ih h₂s)

/-! ### Schedules of a bench -/

section Bench

variable (M)

/-- The labels of a command. -/
def labels (s : Sys Tid M.img.Site) (k : Cmd Tid M.img.Site) : Option (List (Label Tid)) :=
  (M.command s k).map Prod.fst

/-- The state after a command. -/
def after (s : Sys Tid M.img.Site) (k : Cmd Tid M.img.Site) : Sys Tid M.img.Site :=
  ((M.command s k).map Prod.snd).getD s

variable {Bench : Type} (moves : Sys Tid M.img.Site → Bench → Label Tid → Bench → Prop)
  (quiet : Label Tid → Bool)

/-- `Plays s b ks b'`: the schedule `ks`, started in `s`, takes a bench that moves with the
machine from `b` to `b'`. The labels that are `quiet` leave it as it is. -/
inductive Plays : Sys Tid M.img.Site → Bench → List (Cmd Tid M.img.Site) → Bench → Prop
  | nil {s : Sys Tid M.img.Site} {b : Bench} : Plays s b [] b
  | quiet {s : Sys Tid M.img.Site} {b b' : Bench} {k : Cmd Tid M.img.Site}
      {ks : List (Cmd Tid M.img.Site)} : (M.labels s k).any (List.all · quiet) = true →
      Plays (M.after s k) b ks b' → Plays s b (k :: ks) b'
  | turn {s : Sys Tid M.img.Site} {b b₁ b' : Bench} {k : Cmd Tid M.img.Site}
      {ks : List (Cmd Tid M.img.Site)} {l : Label Tid} : M.labels s k = some [l] →
      moves s b l b₁ → Plays (M.after s k) b₁ ks b' → Plays s b (k :: ks) b'

variable {M moves quiet}

theorem after_eq {k : Cmd Tid M.img.Site} (hk : M.labels s k = some h) :
    M.command s k = some (h, M.after s k) := by
  obtain ⟨⟨h', s'⟩, hc, rfl⟩ := Option.map_eq_some_iff.mp hk
  rw [after, hc]
  rfl

/-- Whether a command makes one act, by evaluation. -/
theorem labels_act {t : Tid} {d : ℕ} {a : Act} {k : Cmd Tid M.img.Site}
    (h : (M.labels s k).any (fun ls => ls.length == 1 && ls.all (Label.isAct t d a)) = true) :
    M.labels s k = some [.act t d a] := by
  obtain ⟨ls, hls, h⟩ := (Option.any_eq_true ..).mp h
  obtain ⟨hlen, hall⟩ := Bool.and_eq_true_iff.mp h
  obtain ⟨l, rfl⟩ := List.length_eq_one_iff.mp (beq_iff_eq.mp hlen)
  have hl : l.isAct t d a = true := List.all_eq_true.mp hall l (List.mem_singleton_self l)
  cases l with
  | act t' d' a' =>
    obtain ⟨rfl, rfl, rfl⟩ := of_decide_eq_true hl
    exact hls
  | _ => cases hl

/-- **A schedule of a bench** is a run of the machine with the bench. -/
theorem Plays.run (ho : M.img.Outside 0) (hquiet : ∀ s b l, quiet l = true → moves s b l b)
    {b b' : Bench} {ks : List (Cmd Tid M.img.Site)} (hp : Plays M moves quiet s b ks b') :
    ∃ h s', M.play s ks = some (h, s') ∧
      LTS.Run (fun x l y => M.Step x.1 l y.1 ∧ moves x.1 x.2 l y.2) (s, b) h (s', b') := by
  have hcons {s : Sys Tid M.img.Site} {k : Cmd Tid M.img.Site} {ks : List (Cmd Tid M.img.Site)}
      {h h' : List (Label Tid)} {s' : Sys Tid M.img.Site} (hk : M.labels s k = some h)
      (hp : M.play (M.after s k) ks = some (h', s')) : M.play s (k :: ks) = some (h' ++ h, s') := by
    rw [play, after_eq hk, Option.bind_some]
    exact congrArg (Option.map fun r : List (Label Tid) × Sys Tid M.img.Site => (r.1 ++ h, r.2)) hp
  induction hp with
  | nil => exact ⟨[], _, rfl, .nil⟩
  | @quiet s b b' k ks hq _ ih =>
    obtain ⟨h', s', hplay, hr⟩ := ih
    obtain ⟨h, hk, hall⟩ := (Option.any_eq_true ..).mp hq
    refine ⟨h' ++ h, s', hcons hk hplay, .append ?_ hr⟩
    exact (command_run ho (after_eq hk)).beside fun s l hl =>
      hquiet s b l (List.all_eq_true.mp hall l hl)
  | @turn s b b₁ b' k ks l hk hm _ ih =>
    obtain ⟨h', s', hplay, hr⟩ := ih
    refine ⟨h' ++ [l], s', hcons hk hplay, .append (.single ⟨?_, hm⟩) hr⟩
    exact (command_run ho (after_eq hk)).step_of_single

end Bench

end Machine

end RseqRs
