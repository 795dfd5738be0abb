import RseqRs.Lib.Run
import RseqRs.Stage.Machine

/-!
# The invariant of the stage machine

* What a context has accessed is what the history says its current attempt has
  accessed, and that is a path of its tree.
* An attempt inside its section is confirmed: the index it read is still the
  index of its thread, since only a resume writes the field and a resume starts
  the attempt again.
* Two running threads differ in both index fields.
-/

namespace RseqRs

/-! ### Contexts by depth -/

section CtxAt

variable {C : Type} {c c' : C} {cs : List C} {d : ℕ}

theorem ctxAt_lt (h : ctxAt cs d = some c) : d < cs.length := by
  induction cs with
  | nil => cases h
  | cons c' cs ih =>
    by_cases hd : d = cs.length
    · rw [hd]; exact Nat.lt_succ_self _
    · rw [ctxAt, if_neg hd] at h
      exact (ih h).trans (Nat.lt_succ_self _)

theorem ctxAt_cons_self : ctxAt (c :: cs) cs.length = some c := if_pos rfl

theorem ctxAt_cons_of_lt (h : d < cs.length) : ctxAt (c :: cs) d = ctxAt cs d :=
  if_neg h.ne

theorem ctxAt_cons (h : ctxAt (c' :: cs) d = some c) :
    (d = cs.length ∧ c' = c) ∨ (d < cs.length ∧ ctxAt cs d = some c) := by
  by_cases hd : d = cs.length
  · rw [ctxAt, if_pos hd] at h
    exact Or.inl ⟨hd, Option.some_inj.mp h⟩
  · rw [ctxAt, if_neg hd] at h
    exact Or.inr ⟨ctxAt_lt h, h⟩

theorem ctxAt_isSome (h : d < cs.length) : (ctxAt cs d).isSome := by
  induction cs with
  | nil => cases h
  | cons c' cs ih =>
    rcases Nat.eq_or_lt_of_le (Nat.lt_succ_iff.mp h) with rfl | hlt
    · rw [ctxAt_cons_self]; rfl
    · rw [ctxAt_cons_of_lt hlt]; exact ih hlt

end CtxAt

/-! ### Attempts by history -/

section Attempt

variable {Tid : Type} [DecidableEq Tid] {t u : Tid} {d e : ℕ} {a : Act} {h : List (Label Tid)}

theorem attempt_self : attempt t d (.act t d a :: h) = a.extend (attempt t d h) :=
  if_pos ⟨rfl, rfl⟩

theorem attempt_of_depth_ne (hd : e ≠ d) : attempt t d (.act u e a :: h) = attempt t d h :=
  if_neg fun hc => hd hc.2

theorem attempt_of_ne (hu : u ≠ t) : attempt t d (.act u e a :: h) = attempt t d h :=
  if_neg fun hc => hu hc.1

end Attempt

namespace Stage

/-- What is known of a context of a thread with index fields `idx`, whose current
attempt has made the accesses `acc`. -/
def Ok (idx : Index → U32) (acc : List Acc) : Work → Prop
  | .op c st log => log = acc ∧ c.op.keysAgree = true ∧
    match st with
    | .entering => True
    | .inside u => (tree c).Path log u ∧ ∀ j l, log = .index j :: l → idx c.K = j
    | .finishing r => (tree c).Ends log r
  | _ => True

/-- A context that a signal interrupted is not inside its section. -/
def Interrupted (w : Work) : Prop := w.event = w

variable {Tid : Type} {M : Machine Tid} {idx idx' : Index → U32} {acc : List Acc} {w : Work}

/-- The kernel's rule leaves nothing that depends on the index. -/
theorem Ok.event (hw : Ok idx acc w) : Ok idx' acc w.event := by
  cases w with
  | op c st log =>
    cases st with
    | inside u => exact ⟨hw.1, hw.2.1, trivial⟩
    | entering => exact hw
    | finishing r => exact hw
  | _ => exact hw

theorem Ok.of_interrupted (hw : Ok idx acc w) (hi : Interrupted w) : Ok idx' acc w := by
  have he : Ok idx' acc w.event := hw.event
  rwa [hi] at he

theorem event_interrupted (w : Work) : Interrupted w.event := by
  cases w with
  | op c st log => cases st <;> rfl
  | _ => rfl

theorem not_interrupted_inside {c : Call} {u : Sec} {log : List Acc} :
    ¬ Interrupted (.op c (.inside u) log) := nofun

theorem event_ne_inside {c : Call} {u : Sec} {log : List Acc} (w : Work) :
    w.event ≠ .op c (.inside u) log := fun h =>
  not_interrupted_inside (h ▸ event_interrupted w)

/-- **An instruction** extends the path of the attempt by what it accessed. -/
theorem Ok.exec {c : Call} {st st' : Stage} {log : List Acc} {o : Obs} {m m' : Mem}
    (hw : Ok idx acc (.op c st log)) (hs : Step (tree c) (idx c.K) m st o st' m') :
    Ok idx (o.extend acc) (.op c st' (o.extend log)) := by
  obtain ⟨rfl, hk, hst⟩ := hw
  refine ⟨rfl, hk, ?_⟩
  cases hs with
  | enter => trivial
  | arm => exact ⟨.nil, nofun⟩
  | tau => exact hst
  | exit => exact .fail hst.1
  | @access u u' a hn hr =>
    refine ⟨hst.1.snoc hn, fun j l hl => ?_⟩
    cases log with
    | nil =>
      obtain ⟨rfl, rfl⟩ := List.cons_eq_cons.mp hl
      exact hr.symm
    | cons a' log =>
      obtain ⟨rfl, _⟩ := List.cons_eq_cons.mp hl
      exact hst.2 j log rfl
  | commit hc => exact .commit hst.1 hc
  | leave => exact hst

/-- **Confirmed.** Every access after the index read is made by an attempt that
read its own key, and the key is still the index of the thread. -/
theorem Ok.confirmed {c : Call} {st st' : Stage} {log : List Acc} {a : Acc} {last : Bool}
    {m m' : Mem} (hw : Ok idx acc (.op c st log))
    (hs : Step (tree c) (idx c.K) m st (.acc a last) st' m') (ha : ∀ j, a ≠ .index j) :
    idx c.K = c.key ∧ ∃ log' u, st = .inside u ∧ log = .index c.key :: log' ∧
      c.op.body.Path log' u ∧ u.IndexFree := by
  obtain ⟨-, -, hst⟩ := hw
  -- inside, an attempt is about to read the index, about to fail, or in the body of the op
  have hcases {u : Sec} (hp : (tree c).Path log u) :=
    CritSec.Path.confirm_cases (i := c.key) (e := Error.abort) c.op.body_indexFree hp
  cases hs with
  | @access u u' a hn hr =>
    rcases hcases hst.1 with ⟨_, rfl⟩ | ⟨_, _, _, rfl⟩ | ⟨log', rfl, hp, hf⟩
    · cases hn
      exact absurd rfl (ha _)
    · cases hn
    · exact ⟨hst.2 _ _ rfl, log', u, rfl, rfl, hp, hf⟩
  | @commit u a r hc =>
    rcases hcases hst.1 with ⟨_, rfl⟩ | ⟨_, _, _, rfl⟩ | ⟨log', rfl, hp, hf⟩
    · cases hc
    · cases hc
    · exact ⟨hst.2 _ _ rfl, log', u, rfl, rfl, hp, hf⟩

theorem Ok.turn {a : Act} {w' : Work} (ht : Turn M w a w') : Ok idx (a.extend acc) w' := by
  cases ht with
  | call hk => exact ⟨rfl, hk, trivial⟩
  | _ => trivial

/-- An instruction or call writes no index field, and starts no thread. -/
theorem Move.index_eq {a : Act} {m m' : Mem} {x x' : Thr} (hm : Move M m x a m' x')
    (hr : x'.running = true) :
    (x.running = true ∧ x'.index = x.index) ∨ ∃ cpu cid, a = .resume cpu cid ∧
      x'.index = fields cpu cid := by
  cases hm with
  | exec h => exact Or.inl ⟨h, rfl⟩
  | turn h => exact Or.inl ⟨h, rfl⟩
  | preempt h => cases hr
  | resume cpu cid h => exact Or.inr ⟨cpu, cid, rfl, rfl⟩
  | signal h => exact Or.inl ⟨h, rfl⟩
  | sigreturn h => exact Or.inl ⟨h, rfl⟩

variable [DecidableEq Tid]

/-- The invariant, after the history `h`. -/
structure Inv (h : List (Label Tid)) (s : Sys Tid) : Prop where
  top : ∀ t, Ok (s.thr t).index (attempt t (s.thr t).depth h) (s.thr t).top
  below : ∀ t d w, ctxAt (s.thr t).below d = some w →
    Interrupted w ∧ Ok (s.thr t).index (attempt t d h) w
  /-- no two running threads share an index of either kind -/
  apart : ∀ t t', t ≠ t' → (s.thr t).running = true → (s.thr t').running = true →
    ∀ K, (s.thr t).index K ≠ (s.thr t').index K

variable {h : List (Label Tid)} {s s' : Sys Tid}

/-- What a move does to the contexts of its thread. -/
theorem Inv.move {t : Tid} {a : Act} {m m' : Mem} {x : Thr} (hi : Inv h s)
    (hm : Move M m (s.thr t) a m' x) :
    Ok x.index (attempt t x.depth (.act t (s.thr t).depth a :: h)) x.top ∧
      ∀ d w, ctxAt x.below d = some w → Interrupted w ∧
        Ok x.index (attempt t d (.act t (s.thr t).depth a :: h)) w := by
  have htop := hi.top t
  -- the step is one of the running context, so the attempts below it are as they were
  have hbelow : ∀ d w, ctxAt (s.thr t).below d = some w → Interrupted w ∧
      Ok (s.thr t).index (attempt t d (.act t (s.thr t).depth a :: h)) w := by
    intro d w hw
    have hne : (s.thr t).depth ≠ d := (ctxAt_lt hw).ne'
    rw [attempt_of_depth_ne hne]
    exact hi.below t d w hw
  cases hm with
  | exec hr hw hs =>
    rw [hw] at htop
    exact ⟨attempt_self (t := t) ▸ htop.exec hs, hbelow⟩
  | turn hr hw ht => exact ⟨attempt_self (t := t) ▸ Ok.turn ht, hbelow⟩
  | preempt hr => exact ⟨attempt_self (t := t) ▸ htop, hbelow⟩
  | resume cpu cid hr =>
    refine ⟨attempt_self (t := t) ▸ htop.event, fun d w hw => ?_⟩
    obtain ⟨hint, hok⟩ := hbelow d w hw
    exact ⟨hint, hok.of_interrupted hint⟩
  | signal hr =>
    refine ⟨trivial, fun d w hw => ?_⟩
    rcases ctxAt_cons hw with ⟨rfl, rfl⟩ | ⟨_, hw⟩
    · exact ⟨event_interrupted _, attempt_self (t := t) ▸ htop.event⟩
    · exact hbelow d w hw
  | @sigreturn y ys hr hw hb =>
    rw [hb] at hbelow
    refine ⟨(hbelow _ y ctxAt_cons_self).2, fun d w hw => hbelow d w ?_⟩
    rw [ctxAt_cons_of_lt (ctxAt_lt hw)]
    exact hw

/-- Running threads stay apart when one moves. -/
theorem Inv.move_apart {t u : Tid} {a : Act} {m m' : Mem} {x : Thr} (hi : Inv h s)
    (hm : Move M m (s.thr t) a m' x)
    (hfree : ∀ cpu cid, a = .resume cpu cid → Free s t (fields cpu cid)) (hu : u ≠ t)
    (hx : x.running = true) (hur : (s.thr u).running = true) (K : Index) :
    (s.thr u).index K ≠ x.index K := by
  rcases hm.index_eq hx with ⟨hr, he⟩ | ⟨cpu, cid, ha, he⟩
  · rw [he]; exact hi.apart u t hu hur hr K
  · rw [he]; exact hfree cpu cid ha u hu hur K

/-- The thread after a step of a fence: the caller's frame is a fence, and a
thread that was reached starts its attempt again. -/
theorem fenced_thr (s : Sys Tid) (t u : Tid) (f : FenceCall) (pc : RunPc) (p : Flags)
    (hit : Tid → Bool) : ∃ w, (fenced s t f pc p hit).thr u = { s.thr u with top := w } ∧
      ((u = t ∧ w = .fence f pc) ∨ (u ≠ t ∧
        ((hit u = true ∧ w = (s.thr u).top.event) ∨ (hit u = false ∧ w = (s.thr u).top)))) := by
  by_cases hu : u = t
  · subst hu
    refine ⟨.fence f pc, ?_, Or.inl ⟨rfl, rfl⟩⟩
    simp only [fenced, if_true]
    split <;> rfl
  · simp only [fenced, if_neg hu]
    cases hh : hit u with
    | true => exact ⟨_, rfl, Or.inr ⟨hu, Or.inl ⟨rfl, rfl⟩⟩⟩
    | false => exact ⟨_, rfl, Or.inr ⟨hu, Or.inr ⟨rfl, rfl⟩⟩⟩

theorem Initial.inv (hs : Initial s) : Inv [] s where
  top t := by rw [hs.idle t]; trivial
  below t d w hw := by rw [hs.below t] at hw; cases hw
  apart t t' _ hr := by rw [hs.running t] at hr; cases hr

theorem Inv.step {l : Label Tid} (hi : Inv h s) (hs : SysStep M s l s') :
    Inv (l :: h) s' := by
  cases hs with
  | @move t a m x hm hfree =>
    obtain ⟨htop, hbelow⟩ := hi.move hm
    refine ⟨?_, ?_, fun u u' hne => ?_⟩
    · refine (Function.forall_update_iff s.thr (p := fun u x =>
        Ok x.index (attempt u x.depth _) x.top)).mpr ⟨htop, fun u hu => ?_⟩
      rw [attempt_of_ne (Ne.symm hu)]
      exact hi.top u
    · refine (Function.forall_update_iff s.thr (p := fun u x => ∀ d w,
        ctxAt x.below d = some w → Interrupted w ∧ Ok x.index (attempt u d _) w)).mpr
        ⟨hbelow, fun u hu d w hw => ?_⟩
      rw [attempt_of_ne (Ne.symm hu)]
      exact hi.below u d w hw
    · -- the thread that moves is one of the two, or neither
      show (Function.update s.thr t x u).running = true →
        (Function.update s.thr t x u').running = true → ∀ K,
        (Function.update s.thr t x u).index K ≠ (Function.update s.thr t x u').index K
      by_cases hu : u = t
      · subst hu
        rw [Function.update_self, Function.update_of_ne hne.symm]
        exact fun hr hr' K => (hi.move_apart hm hfree hne.symm hr hr' K).symm
      · by_cases hu' : u' = t
        · subst hu'
          rw [Function.update_self, Function.update_of_ne hu]
          exact fun hr hr' => hi.move_apart hm hfree hne hr' hr
        · rw [Function.update_of_ne hu, Function.update_of_ne hu']
          exact hi.apart u u' hne
  | @fenceRun t f pc pc' ev p hit hr hw hrun =>
    refine ⟨fun u => ?_, fun u d w hd => ?_, fun u u' hne => ?_⟩
    · obtain ⟨w, he, hc⟩ := fenced_thr s t u f pc' p hit
      rw [he]
      rcases hc with ⟨_, rfl⟩ | ⟨_, ⟨_, rfl⟩ | ⟨_, rfl⟩⟩
      · trivial
      · exact (hi.top u).event
      · exact hi.top u
    · obtain ⟨w', he, _⟩ := fenced_thr s t u f pc' p hit
      rw [he] at hd ⊢
      exact hi.below u d w hd
    · obtain ⟨w, he, _⟩ := fenced_thr s t u f pc' p hit
      obtain ⟨w', he', _⟩ := fenced_thr s t u' f pc' p hit
      rw [he, he']
      exact hi.apart u u' hne
  | write a v => exact ⟨hi.top, hi.below, hi.apart⟩

/-! ### Attempts inside their section -/

/-- How the attempt of thread `t` came to be inside its section, at `v` with the
accesses `log`, by the step `l` from `s` to memory `m`. -/
inductive InsideStep (s : Sys Tid) (l : Label Tid) (m : Mem) (t : Tid) (c : Call) (v : Sec)
    (log : List Acc) : Prop
  /-- it was there, and the step was not its own -/
  | kept : (s.thr t).running = true → (s.thr t).top = .op c (.inside v) log →
      (∀ d a, l ≠ .act t d a) → InsideStep s l m t c v log
  /-- it has just entered -/
  | armed : log = [] → m = s.mem → l = .act t (s.thr t).depth (.exec .arm) →
      InsideStep s l m t c v log
  | tau : (s.thr t).running = true → (s.thr t).top = .op c (.inside v) log → m = s.mem →
      l = .act t (s.thr t).depth (.exec .tau) → InsideStep s l m t c v log
  /-- it has made the access `a` -/
  | access {u : Sec} {log₀ : List Acc} {a : Acc} : (s.thr t).running = true →
      (s.thr t).top = .op c (.inside u) log₀ → CritSec.Next u a v →
      a.Reads ((s.thr t).index c.K) s.mem → log = log₀ ++ [a] → m = a.apply s.mem →
      l = .act t (s.thr t).depth (.exec (.acc a false)) → InsideStep s l m t c v log

/-- **Where an attempt inside its section comes from.** Nothing but its own
instructions takes it there. -/
theorem Inv.inside_back {l : Label Tid} {t : Tid} {c : Call} {v : Sec} {log : List Acc}
    (hi : Inv h s) (hs : SysStep M s l s') (hr : (s'.thr t).running = true)
    (htop : (s'.thr t).top = .op c (.inside v) log) :
    (s'.thr t).index = (s.thr t).index ∧ (s'.thr t).depth = (s.thr t).depth ∧
      InsideStep s l s'.mem t c v log := by
  cases hs with
  | @move u a m x hm hfree =>
    by_cases hu : t = u
    · subst hu
      have hx : Function.update s.thr t x t = x := Function.update_self ..
      replace hr : x.running = true := hx ▸ hr
      replace htop : x.top = .op c (.inside v) log := hx ▸ htop
      show (Function.update s.thr t x t).index = _ ∧ (Function.update s.thr t x t).depth = _ ∧ _
      rw [hx]
      cases hm with
      | @exec c' st st' log' o m' hr' htop' hst' =>
        obtain ⟨rfl, rfl, rfl⟩ := Work.op.inj htop
        refine ⟨rfl, rfl, ?_⟩
        cases hst' with
        | arm => exact .armed rfl rfl rfl
        | tau => exact .tau hr' htop' rfl rfl
        | access hn hread => exact .access hr' htop' hn hread rfl rfl rfl
      -- no turn leaves a context inside its section
      | turn hr' htop' ht => cases ht <;> cases htop
      | preempt hr' => cases hr
      | resume cpu cid hr' => exact absurd htop (event_ne_inside _)
      | signal hr' => cases htop
      | @sigreturn y ys hr' htop' hb =>
        -- a context that was interrupted is not inside its section
        obtain rfl : y = _ := htop
        exact absurd (hi.below t _ _ (hb ▸ ctxAt_cons_self)).1 not_interrupted_inside
    · have hx : Function.update s.thr u x t = s.thr t := Function.update_of_ne hu ..
      refine ⟨congrArg Thr.index hx, congrArg Thr.depth hx, .kept (hx ▸ hr) ?_ ?_⟩
      · exact (congrArg Thr.top hx).symm.trans htop
      · rintro d a' ⟨⟩
        exact hu rfl
  | @fenceRun u f pc pc' ev p hit hr' hf hrun =>
    obtain ⟨y, he, hc⟩ := fenced_thr s u t f pc' p hit
    rw [he] at hr htop ⊢
    rcases hc with ⟨_, rfl⟩ | ⟨_, ⟨_, rfl⟩ | ⟨_, rfl⟩⟩
    · cases htop
    · exact absurd htop (event_ne_inside _)
    · exact ⟨rfl, rfl, .kept hr htop nofun⟩
  | write a w => exact ⟨rfl, rfl, .kept hr htop nofun⟩

/-- **The invariant** holds at the end of every run. -/
theorem inv_run {s₀ : Sys Tid} (hi : Initial s₀) (hr : LTS.Run (SysStep M) s₀ h s) :
    Inv h s :=
  hr.invariant hi.inv fun _ _ _ _ _ hinv hs => hinv.step hs

end Stage

end RseqRs
