import RseqRs.Model.Script
import RseqRs.Proof.Effect
import RseqRs.Stage.Owned
import RseqRs.Stage.Calls

/-!
# Failed calls

What a call that returns `Miss` or `Abort` has left behind. Its last attempt ended with the
failure, and did nothing on the way; but an earlier attempt may have been cut by the kernel
after it stored to its side, or after it chased the pointer, and what it did is not undone.
So a failed `store_if` leaves its side as it was just if no attempt was cut between the two
stores (`side_kept_iff`), and a failed `load_if_ne` has dereferenced nothing just if none was
cut between the chase and the commit (`derefs_nothing_iff`).

The word is another matter. `store_if` writes it in its committing instruction alone, and
what the attempt compared is still there (`commits_word`), provided that the side is a
different cell: the scratch store goes wherever the caller points it.
-/

namespace RseqRs

variable {Tid : Type} [DecidableEq Tid] {M : Machine Tid} {t : Tid} {d : ℕ} {c : Call}
  {s₁ s₂ : Sys Tid M.img.Site} {g : List (Label Tid)} {e : Error}

/-- A call of the machine is one of the stage machine. -/
theorem Machine.During.called {D : Sys Tid M.img.Site → Label Tid → Prop}
    (D' : Stage.Sys Tid → Label Tid → Prop)
    (hD : ∀ s a l, s.Rel M a → D s l → D' a l) (h : M.During D t d c s₁ g s₂) :
    ∃ a₁ a₂, s₁.Rel M a₁ ∧ s₂.Rel M a₂ ∧ Stage.Called M D' t d c a₁ g a₂ := by
  obtain ⟨⟨s₀, h₁, hi, hr₁⟩, hrun, honce⟩ := h
  obtain ⟨a₁, ha₁, hrel₁⟩ := refine_run hi hr₁
  -- the oldest step is the call; the stage machine follows it, and each step after it
  obtain ⟨s, hcall, hg⟩ := hrun.split
  clear hrun
  cases hcall with
  | cons hnil hs =>
    cases hnil
    obtain ⟨b, hb, hrel⟩ := refine_step hrel₁ hs.1
    refine ⟨a₁, ?_⟩
    -- the steps after the call
    induction hg with
    | nil => exact ⟨b, hrel₁, hrel, .call s₀.initial_stages ha₁ hb⟩
    | cons _ hs ih =>
      obtain ⟨a, -, hrela, hc⟩ := ih fun c' hm => honce c' (List.mem_cons_of_mem _ hm)
      obtain ⟨a', ha', hrel'⟩ := refine_step hrela hs.1
      refine ⟨a', hrel₁, hrel', hc.step ha' (hD _ _ _ hrela hs.2) ?_⟩
      rintro c' rfl
      exact honce c' (List.mem_cons_self ..)

/-- A failed call, up to its return and with it. -/
theorem Machine.Fails.called (h : M.Fails t d c e s₁ g s₂) :
    ∃ a₁ a a₂, s₁.Rel M a₁ ∧ s₂.Rel M a₂ ∧ Stage.Called M (fun _ _ => True) t d c a₁ g a ∧
      Stage.SysStep M a (.act t d (.ret c (.error e))) a₂ := by
  obtain ⟨a₁, a₂, hrel₁, hrel₂, hc⟩ :=
    Machine.During.called (fun _ _ => True) (fun _ _ _ _ _ => trivial) h
  cases hc with
  | step hc hs _ _ => exact ⟨a₁, _, a₂, hrel₁, hrel₂, hc, hs⟩

/-! ### `store_if` and its side -/

/-- No attempt that fails has stored anything. -/
theorem Op.not_stored {K : Index} {op : Op K} {x : Usize} {log : List Acc}
    (h : op.tree.Ends log (.error e)) : ¬ Stored x log := by
  rintro ⟨v, hv⟩
  cases h with
  | fail hp =>
    obtain ⟨_, _, _, _, _, _, _, hu⟩ := Op.path_of_store hp hv
    cases hu

theorem reached_stored_iff {x : Usize} : Reached t d (Stored x) g ↔
    ∃ v last, .act t d (.exec (.acc (.store x v) last)) ∈ g := by
  constructor
  · rintro ⟨g₁, g₂, rfl, v, hv⟩
    -- the store is an instruction of the history
    obtain ⟨l, r, hlr⟩ := List.append_of_mem hv
    obtain ⟨g₃, last, g₄, rfl, _⟩ := attempt_split hlr
    exact ⟨v, last, by simp⟩
  · rintro ⟨v, last, hm⟩
    obtain ⟨g₂, g₁, rfl⟩ := List.append_of_mem hm
    refine ⟨_, g₂, rfl, v, ?_⟩
    rw [attempt_self]
    exact List.mem_append_right _ (List.mem_singleton_self _)

/-- A step that a context makes itself and that writes is an instruction of a word op. -/
theorem Label.exec_of_writes {l : Label Tid} {x : Usize} (hw : l.writes = some x)
    (ho : l.own t d = true) : ∃ a last, l = .act t d (.exec (.acc a last)) ∧ a.written = some x := by
  cases l with
  | act u e a =>
    obtain ⟨⟨rfl, rfl⟩, -⟩ := Label.own_act.mp ho
    cases a with
    | exec o =>
      cases o with
      | acc a last => exact ⟨a, last, rfl, hw⟩
      | _ => cases hw
    | _ => cases hw
  | fenceRun u e ev hit => cases hw
  | write y v => cases ho

namespace Stage

variable {D : Sys Tid → Label Tid → Prop} {a₁ a a' : Sys Tid} {x v : Usize}

/-- A cell that a step does not write is as it was. -/
theorem SysStep.mem_of_writes {l : Label Tid} (hs : SysStep M a l a') (hl : l.writes ≠ some x) :
    a'.mem x = a.mem x :=
  hs.mem_eq (fun _ _ _ _ he ha => hl (by rw [he]; exact ha)) fun _ he => hl (by rw [he]; rfl)

/-- What a call with a scratch store writes: that, or in its commit the word. -/
theorem Called.wrote_scratch {b : Acc} {last : Bool} {y : Usize} (hc : c.op.scratch = some (x, v))
    (h : Called M D t d c a₁ g a) (hs : SysStep M a (.act t d (.exec (.acc b last))) a')
    (hb : b.written = some y) : a'.mem = b.apply a.mem ∧
      ((b = .store x v ∧ last = false) ∨ (last = true ∧ y = c.op.word.word)) := by
  obtain ⟨hm, ⟨rfl, w, rfl, hw⟩ | ⟨rfl, r, hends⟩⟩ := h.wrote hs hb
  · cases (Op.scratch_of_scratches hw).symm.trans hc
    exact ⟨hm, Or.inl ⟨rfl, rfl⟩⟩
  · refine ⟨hm, Or.inr ⟨rfl, ?_⟩⟩
    have hcom := Op.committed_of_ends hends
    generalize c.op = op at hc hcom
    cases op with
    | storeIf w expect new s sideNew =>
      have happ : attempt t d g ++ [b] = [_, _, _] ++ [_] := hcom.2
      obtain rfl := List.singleton_inj.mp (List.append_inj' happ rfl).2
      exact (Option.some_inj.mp hb).symm
    | _ => cases hc

/-- **The side of a call** that nobody else writes: the call has stored to it, or it is as
it was. -/
theorem Called.side (hc : c.op.scratch = some (x, v)) (hne : x ≠ c.op.word.word)
    (h : Called M D t d c a₁ g a) (hq : ∀ l ∈ g, l.writes = some x → l.own t d = true) :
    (Reached t d (Stored x) g ∧ a.mem x = v) ∨
      (¬ Reached t d (Stored x) g ∧ a.mem x = a₁.mem x) := by
  simp only [reached_stored_iff]
  induction h with
  | call _ _ hs => exact Or.inr ⟨fun ⟨_, _, hm⟩ => (by cases hm), hs.mem_of_writes nofun⟩
  -- induction on the steps since the call: nobody but the call writes the side
  | @step g a a' l h₁ hs _ _ ih =>
    replace ih := ih fun l' hm => hq l' (List.mem_cons_of_mem _ hm)
    by_cases hl : l.writes = some x
    · -- its own store
      obtain ⟨b, last, rfl, hb⟩ := Label.exec_of_writes hl (hq l (List.mem_cons_self ..) hl)
      obtain ⟨hm, ⟨rfl, rfl⟩ | ⟨_, he⟩⟩ := h₁.wrote_scratch hc hs hb
      · refine Or.inl ⟨⟨v, false, List.mem_cons_self ..⟩, ?_⟩
        rw [hm]
        exact Function.update_self ..
      · exact absurd he hne
    · rw [hs.mem_of_writes hl]
      refine ih.imp (fun ⟨⟨w, last, hm⟩, he⟩ => ⟨⟨w, last, List.mem_cons_of_mem _ hm⟩, he⟩)
        fun ⟨hn, he⟩ => ⟨fun ⟨w, last, hm⟩ => ?_, he⟩
      rcases List.mem_cons.mp hm with rfl | hm
      · exact hl rfl
      · exact hn ⟨w, last, hm⟩

end Stage

/-- **The side of a failed `store_if`** that nobody else writes, and that is not its word, is
as it was just if no attempt of the call was cut by the kernel between the two stores, or it
held the value stored there already. -/
theorem side_kept_iff {K : Index} {w side : Word K} {expect new sideNew : Usize}
    (hf : M.Fails t d ⟨K, .storeIf w expect new side sideNew⟩ e s₁ g s₂)
    (hne : side.word ≠ w.word)
    (hq : ∀ l ∈ g, l.writes = some side.word → l.own t d = true) :
    s₂.mem side.word = s₁.mem side.word ↔
      s₁.mem side.word = sideNew ∨ ¬ CutWhen t d (Stored side.word) g := by
  obtain ⟨a₁, a, a₂, hrel₁, hrel₂, hc, hs⟩ := hf.called
  have hreach := hc.failed_reached (P := Stored side.word) (fun ⟨_, hm⟩ => by cases hm)
    (fun _ _ ⟨v, hm⟩ => ⟨v, List.mem_append_left _ hm⟩) (fun _ => Op.not_stored) hs
  rw [hrel₁.mem, hrel₂.mem, hs.mem_of_writes nofun, ← hreach]
  -- what was stored to the side stays there, also if the attempt was cut
  rcases hc.side rfl hne hq with ⟨hr, hm⟩ | ⟨hr, hm⟩
  · rw [hm]
    exact ⟨fun h => Or.inl h.symm, fun h => h.elim Eq.symm fun hn => absurd hr hn⟩
  · exact iff_of_true hm (Or.inr hr)

/-! ### `load_if_ne` and its chase -/

section Chase

variable {K : Index} {w : Word K} {expectNot offset : Usize} {log : List Acc}

/-- How far an attempt of `load_if_ne` can be. -/
theorem Op.loadIfNe_path {u : Sec}
    (hp : ((Op.loadIfNe w expectNot offset).tree).Path log u) :
    (log = [] ∨ (∃ j, log = [.index j]) ∨ ∃ j v, log = [.index j, .load w.word v]) ∨
      ∃ j v x, log = [.index j, .load w.word v, .load (v + offset) x] ∧
        u = .commit w.word x v := by
  rcases CritSec.Path.confirm_cases (i := K.get w.key) (e := Error.abort)
    (Op.body_indexFree _) hp with ⟨rfl, _⟩ | ⟨j, _, rfl, _⟩ | ⟨log, rfl, hp, _⟩
  · exact Or.inl (Or.inl rfl)
  · exact Or.inl (Or.inr (Or.inl ⟨j, rfl⟩))
  -- it is confirmed
  rcases hp.head with ⟨rfl, _⟩ | ⟨_, _, log, hn, rfl, hp⟩
  · exact Or.inl (Or.inr (Or.inl ⟨_, rfl⟩))
  cases hn with
  | load _ _ v =>
    replace hp : CritSec.Path (if v = expectNot then .fail (.miss v) else
      .load (v + offset) fun chase => .commit w.word chase v) log u := hp
    split at hp
    · rcases hp.head with ⟨rfl, _⟩ | ⟨_, _, _, hn, _⟩
      · exact Or.inl (Or.inr (Or.inr ⟨_, v, rfl⟩))
      · cases hn
    · rcases hp.head with ⟨rfl, _⟩ | ⟨_, _, log, hn, rfl, hp⟩
      · exact Or.inl (Or.inr (Or.inr ⟨_, v, rfl⟩))
      cases hn with
      | load _ _ x =>
        rcases hp.head with ⟨rfl, rfl⟩ | ⟨_, _, _, hn, _⟩
        · exact Or.inr ⟨_, v, x, rfl, rfl⟩
        · cases hn

/-- An attempt that has loaded the word and then the cell it points at has chased. -/
theorem Op.chased_of_path {u : Sec} {v x : Usize}
    (hp : ((Op.loadIfNe w expectNot offset).tree).Path (log ++ [.load (v + offset) x]) u)
    (hv : .load w.word v ∈ log) : Chased w.word offset (log ++ [.load (v + offset) x]) := by
  rcases Op.loadIfNe_path hp with (he | ⟨j, he⟩ | ⟨j, y, he⟩) | ⟨j, y, z, he, _⟩
  · simp at he
  · obtain ⟨rfl, _⟩ := List.append_inj' (show _ = [] ++ [_] from he) rfl
    cases hv
  · obtain ⟨rfl, _⟩ := List.append_inj' (show _ = [_] ++ [_] from he) rfl
    simp at hv
  · exact ⟨j, y, z, [], he⟩

/-- No attempt that fails has chased. -/
theorem Op.not_chased (h : ((Op.loadIfNe w expectNot offset).tree).Ends log (.error e)) :
    ¬ Chased w.word offset log := by
  rintro ⟨j, v, x, rest, hlog⟩
  cases h with
  | fail hp =>
    subst hlog
    rcases Op.loadIfNe_path hp with (he | ⟨_, he⟩ | ⟨_, _, he⟩) | ⟨_, _, _, _, hu⟩
    · cases he
    · cases he
    · cases he
    · cases hu

/-- What a call has dereferenced, an attempt of it has chased. -/
theorem Stage.Called.derefs_iff {D : Sys Tid → Label Tid → Prop} {a₁ a : Sys Tid}
    (h : Called M D t d ⟨K, .loadIfNe w expectNot offset⟩ a₁ g a) :
    Derefs t d w.word offset g ↔ Reached t d (Chased w.word offset) g := by
  constructor
  · rintro ⟨g₁, g₂, v, x, last, rfl, hv⟩
    obtain ⟨b, b', hb, hs, _⟩ := h.split
    obtain ⟨_, _, st, st', log, _, hst, rfl, -, hok⟩ := hb.exec hs
    refine ⟨_, g₂, rfl, ?_⟩
    rw [attempt_self]
    -- a chase is no commit
    generalize b'.mem = m at hst
    cases hst with
    | access hn hr => exact Op.chased_of_path (hok.1.snoc hn) hv
    | commit hc => cases hc
  · rintro ⟨g₁, g₂, rfl, j, v, x, rest, hlog⟩
    have hsplit : attempt t d g₁ = [.index j, .load w.word v] ++ .load (v + offset) x :: rest :=
      hlog
    obtain ⟨g₃, last, g₄, rfl, he⟩ := attempt_split hsplit
    refine ⟨g₄, g₂ ++ g₃, v, x, last, by simp, ?_⟩
    rw [he]
    simp

/-- **A failed `load_if_ne` has dereferenced nothing** just if no attempt of the call was cut
by the kernel between the chase and the commit. -/
theorem derefs_nothing_iff
    (hf : M.Fails t d ⟨K, .loadIfNe w expectNot offset⟩ e s₁ g s₂) :
    ¬ Derefs t d w.word offset g ↔ ¬ CutWhen t d (Chased w.word offset) g := by
  obtain ⟨a₁, a, a₂, _, _, hc, hs⟩ := hf.called
  -- the attempt that fails has not chased, so an earlier one has, and was cut
  have hfail : ∀ log, (Stage.tree ⟨K, .loadIfNe w expectNot offset⟩).Ends log (.error e) →
      ¬ Chased w.word offset log := fun _ h => Op.not_chased h
  rw [hc.derefs_iff]
  exact not_congr <| hc.failed_reached (fun ⟨_, _, _, _, h⟩ => by cases h)
    (fun _ b ⟨j, v, x, rest, h⟩ => ⟨j, v, x, rest ++ [b], by rw [h]; rfl⟩) hfail hs

end Chase

/-! ### `store_if` and its word -/

namespace Stage

/-- While the context of `t` at depth `d` runs, nobody else writes `x`. -/
def Quiet (t : Tid) (d : ℕ) (x : Usize) (s : Sys Tid) (l : Label Tid) : Prop :=
  l.writes = some x → l.own t d = true ∨ ¬ ((s.thr t).running = true ∧ (s.thr t).depth = d)

variable {a₁ a a' : Sys Tid} {x v : Usize}

/-- **What an attempt has loaded is still there**, in a cell that the call stores to in its
commit only and that nobody else writes while it runs. -/
theorem Called.loads (hscratch : ∀ v, ¬ (tree c).Scratches x v)
    (h : Called M (Quiet t d x) t d c a₁ g a) : ∀ u log, (a.thr t).running = true →
      (a.thr t).depth = d → (a.thr t).top = .op c (.inside u) log →
      .load x v ∈ log → a.mem x = v := by
  induction h with
  | call hi hr hs =>
    intro u log hrun hd htop hv
    -- a call that has just been made has loaded nothing
    obtain ⟨_, _, hback⟩ := (inv_run hi hr).inside_back hs hrun htop
    cases hback with
    | kept _ _ hl => exact absurd rfl (hl _ _)
    | armed hnil => rw [hnil] at hv; cases hv
    | tau _ _ _ hl => cases hl
    | access _ _ _ _ _ _ hl => cases hl
  | @step g a a' l h₁ hs hquiet _ ih =>
    intro u log hrun hd htop hv
    obtain ⟨s₀, h₀, hi, hr⟩ := h₁.run
    obtain ⟨_, hdep, hback⟩ := (inv_run hi hr).inside_back hs hrun htop
    rw [hdep] at hd
    cases hback with
    | kept hrun₀ htop₀ hl =>
      -- while the call waits, the others leave the cell alone; while it runs, only it writes
      rw [hs.mem_of_writes ?_]
      · exact ih u log hrun₀ hd htop₀ hv
      intro hw
      rcases hquiet hw with hown | hoff
      · obtain ⟨b, last, rfl, _⟩ := Label.exec_of_writes hw hown
        exact hl _ _ rfl
      · exact hoff ⟨hrun₀, hd⟩
    | armed hnil => rw [hnil] at hv; cases hv
    | tau hrun₀ htop₀ hm _ => rw [hm]; exact ih u log hrun₀ hd htop₀ hv
    | @access u₀ log₀ b hrun₀ htop₀ hn hread hlog hm _ =>
      subst hlog
      rw [hm]
      have hw₀ : a.ctx t d = some (.op c (.inside u₀) log₀) := by
        rw [← hd, a.ctx_depth, htop₀]
      rcases List.mem_append.mp hv with hv | hv
      · -- an earlier load; this access does not write the cell
        have hold := ih u₀ log₀ hrun₀ hd htop₀ hv
        obtain ⟨_, _, _, hp, _⟩ := h₁.ok hw₀
        cases hn with
        | index k i => exact hold
        | load b k y => exact hold
        | scratch b y k =>
          refine (Function.update_of_ne (fun he => ?_) _ _).trans hold
          exact hscratch y (he ▸ hp.scratches (.scratch b y _))
      · -- this load
        obtain rfl := List.mem_singleton.mp hv
        exact hread

end Stage

section Word

variable {K : Index} {w side : Word K} {expect new sideNew : Usize}

/-- An instruction of `store_if` that writes its word is the commit, and finds `expect`
there. -/
theorem Stage.Called.writes_word {a₁ a a' : Sys Tid} {b : Acc} {last : Bool}
    (hne : side.word ≠ w.word)
    (h : Called M (Quiet t d w.word) t d ⟨K, .storeIf w expect new side sideNew⟩ a₁ g a)
    (hs : SysStep M a (.act t d (.exec (.acc b last))) a') (hb : b.written = some w.word) :
    last = true ∧ a.mem w.word = expect ∧ a'.mem = Function.update a.mem w.word new := by
  -- the scratch store goes to the side
  have hscratch : ∀ v, ¬ (tree ⟨K, .storeIf w expect new side sideNew⟩).Scratches w.word v := by
    intro v hv
    have hside := Op.sideAddr_of_scratch (Op.scratch_of_scratches hv)
    exact hne (Option.some_inj.mp hside)
  obtain ⟨hm, ⟨_, v, _, hv⟩ | ⟨rfl, r, hends⟩⟩ := h.wrote hs hb
  · exact absurd hv (hscratch v)
  · obtain ⟨rfl, happ⟩ := Op.committed_of_ends hends
    replace happ : attempt t d g ++ [b] = [_, _, _] ++ [_] := happ
    obtain ⟨hlog, hb'⟩ := List.append_inj' happ rfl
    obtain rfl := List.singleton_inj.mp hb'
    obtain ⟨hd, hrun, st, st', log, htop, hst, rfl, _⟩ := h.exec hs
    generalize a'.mem = m at hst hm
    cases hst with
    | commit hc =>
      refine ⟨rfl, h.loads hscratch _ _ hrun hd.symm htop ?_, hm⟩
      rw [hlog]
      simp

/-- A call of `store_if` has written its word in its commit only, just if its side is another
cell or no attempt has made the scratch store. -/
theorem Stage.Called.inCommit_iff {D : Sys Tid → Label Tid → Prop} {a₁ a : Sys Tid}
    (h : Called M D t d ⟨K, .storeIf w expect new side sideNew⟩ a₁ g a) :
    WritesInCommit t d w.word g ↔
      (side.word = w.word → .act t d (.exec (.acc (.store w.word sideNew) false)) ∉ g) := by
  constructor
  · intro hw _ hm
    -- the scratch store is not the commit
    have hcom := hw _ hm (Label.own_self rfl) rfl
    obtain ⟨o, ho, hlast⟩ := Label.commits_iff.mp hcom
    cases ho
    cases hlast
  · intro hns l hl hown hw
    obtain ⟨b, last, rfl, hb⟩ := Label.exec_of_writes hw hown
    obtain ⟨g₂, g₁, hg⟩ := List.append_of_mem hl
    subst hg
    obtain ⟨a, a', ha, hs, _⟩ := h.split
    obtain ⟨_, ⟨rfl, rfl⟩ | ⟨rfl, _⟩⟩ := ha.wrote_scratch rfl hs hb
    · -- a scratch store that hits the word
      have hside : side.word = w.word := Option.some_inj.mp hb
      have hno := hns hside
      rw [← hside] at hno
      exact absurd hl hno
    · exact Label.commits_iff.mpr ⟨_, rfl, rfl⟩

/-- A call that writes `x` in its commit only writes it once at most, and not if it fails. -/
theorem Stage.Called.once_of_inCommit {D : Sys Tid → Label Tid → Prop} {a₁ a : Sys Tid}
    {x : Usize} (h : Called M D t d c a₁ g a) (hw : WritesInCommit t d x g) :
    (g.countP fun l => l.own t d && decide (l.writes = some x)) ≤ 1 ∧
      ∀ e, .act t d (.ret c (.error e)) ∈ g → ∀ l ∈ g, l.own t d = true → l.writes ≠ some x := by
  refine ⟨?_, fun e hret l hl hown hx => ?_⟩
  · -- there are no more writes than commits
    refine (List.countP_mono_left fun l hl hp => ?_).trans h.commits_le_one
    simp only [Bool.and_eq_true, decide_eq_true_eq] at hp
    exact hw l hl hp.1 hp.2
  · -- before the return nothing is committed, after it nothing is executed
    have hcom := hw l hl hown hx
    obtain ⟨o, rfl, _⟩ := Label.commits_iff.mp hcom
    obtain ⟨g₂, g₁, rfl⟩ := List.append_of_mem hret
    rcases List.mem_append.mp hl with hl | hl
    · exact h.returned_exec hl
    · obtain ⟨a, a', ha, hs, _⟩ := h.split
      have hzero := List.countP_eq_zero.mp (ha.failed_commits hs)
      rcases List.mem_cons.mp hl with he | hl
      · cases he
      · exact hzero _ hl hcom

/-- **When `store_if` has written its word in its commit only**: its side is another cell, or
no attempt of the call has made its scratch store. -/
theorem Machine.During.inCommit_iff {D : Sys Tid M.img.Site → Label Tid → Prop}
    (h : M.During D t d ⟨K, .storeIf w expect new side sideNew⟩ s₁ g s₂) :
    WritesInCommit t d w.word g ↔
      (side.word = w.word → .act t d (.exec (.acc (.store w.word sideNew) false)) ∉ g) := by
  obtain ⟨a₁, a₂, _, _, hc⟩ := h.called (fun _ _ => True) fun _ _ _ _ _ => trivial
  exact hc.inCommit_iff

/-- **`store_if` changes its word only by its commit**, if its side is another cell. -/
theorem commits_word (M : Machine Tid) (w side : Word K) (expect new sideNew : Usize)
    (hne : side.word ≠ w.word) : M.CommitsWord w expect new side sideNew := by
  intro t d s₁ g s₂ hcall
  obtain ⟨a₁, a₂, hrel₁, hrel₂, hc⟩ :=
    hcall.called (Stage.Quiet t d w.word) fun s a l hrel hq hw => by
      refine (hq hw).imp_right fun hoff hon => hoff ?_
      rw [(hrel.thr t).running, (hrel.thr t).depth]
      exact hon
  have hin : WritesInCommit t d w.word g := hc.inCommit_iff.mpr fun he => absurd he hne
  refine ⟨fun b last s₃ hs hb => ?_, hc.once_of_inCommit hin⟩
  obtain ⟨a₃, hs', hrel₃⟩ := refine_step hrel₂ hs
  rw [hrel₂.mem, hrel₃.mem]
  exact hc.writes_word hne hs' hb

end Word

/-! ### Two threads on one CPU -/

/-- A call that a schedule has led up to, and a run since. -/
theorem Machine.during_of_run [DecidableEq M.img.Site] [Fintype Tid] {s₀ b : Sys Tid M.img.Site}
    {h : List (Label Tid)} {ks : List (Cmd Tid M.img.Site)} {site : M.img.Site}
    (ho : M.img.Outside 0) (hi : M.Initial s₀) (h₁ : M.play s₀ ks = some (h, s₁))
    (hc : M.command s₁ (.call t c site) = some ([.act t d (.call c)], b))
    (hg : LTS.Run M.Step b g s₂) (honce : g.all (fun l => !l.calls t d) = true) :
    M.During (fun _ _ => True) t d c s₁ g s₂ where
  reachable := ⟨s₀, h, hi, M.play_run ho h₁⟩
  run := ((M.command_run ho hc).append hg).mono fun _ _ _ hs => ⟨hs, trivial⟩
  once c' hm := by
    have hl := List.all_eq_true.mp honce _ hm
    rw [Label.calls_iff.mpr ⟨c', rfl⟩] at hl
    cases hl

/-- A failed call, from a schedule. -/
theorem Machine.fails_of_play [DecidableEq M.img.Site] [Fintype Tid] {s₀ b b' : Sys Tid M.img.Site}
    {h : List (Label Tid)} {ks ks' : List (Cmd Tid M.img.Site)} {site : M.img.Site}
    (ho : M.img.Outside 0) (hi : M.Initial s₀) (h₁ : M.play s₀ ks = some (h, s₁))
    (hc : M.command s₁ (.call t c site) = some ([.act t d (.call c)], b))
    (hg : M.play b ks' = some (g, b'))
    (hr : M.command b' (.ret t) = some ([.act t d (.ret c (.error e))], s₂))
    (honce : g.all (fun l => !l.calls t d) = true) : M.Fails t d c e s₁ g s₂ := by
  have hrun := (M.play_run ho hg).append (M.command_run ho hr)
  have hret : (.act t d (.ret c (.error e)) :: g).all (fun l : Label Tid => !l.calls t d) = true :=
    honce
  exact Machine.during_of_run ho hi h₁ hc hrun hret

/-- Nobody else writes `x` in a schedule. -/
theorem own_of_all {x : Usize}
    (h : g.all (fun l => decide (l.writes ≠ some x) || l.own t d) = true) :
    ∀ l ∈ g, l.writes = some x → l.own t d = true := by
  intro l hl hw
  simpa [hw] using List.all_eq_true.mp h l hl

/-- A call during which nobody else writes its word. -/
theorem Machine.During.quiet {x : Usize} (h : M.During (fun _ _ => True) t d c s₁ g s₂)
    (hq : ∀ l ∈ g, l.writes = some x → l.own t d = true) :
    M.During (M.Quiet t d x) t d c s₁ g s₂ where
  reachable := h.reachable
  run := by
    refine (h.run.restrict (P := fun l => l.writes = some x → l.own t d = true) ?_).mono
      fun s l s' hs => ⟨hs.1.1, fun hw => Or.inl (hs.2 hw)⟩
    intro l hl hw
    rcases List.mem_append.mp hl with hl | hl
    · exact hq l hl hw
    · obtain rfl := List.mem_singleton.mp hl
      cases hw
  once := h.once

/-- `store_if(word, 0, new, side, 7)`. -/
def storeCall (new side : Usize) : Call :=
  ⟨.cpuId, .storeIf (cpu0Word 0x8000) 0 new (cpu0Word side) 7⟩

def storePair : Machine Bool := pairMachine .x86 (.storeIf cpuIdOff)

instance : DecidableEq storePair.img.Site := inferInstanceAs (DecidableEq (Fin 1))

/-- One thread on CPU 0, about to call. -/
def storeBefore : List (Label Bool) × Sys Bool storePair.img.Site :=
  (storePair.play (storePair.boot fun _ => 0) [.resume false 0 0]).get rfl

def storeCalled : List (Label Bool) × Sys Bool storePair.img.Site :=
  (storePair.command storeBefore.2 (.call false (storeCall 9 0x9000) soleSite)).get rfl

/-- It makes the scratch store and is preempted; the other thread stores to the word; it
restarts, and misses. -/
def storeSchedule : List (Cmd Bool storePair.img.Site) :=
  [.exec false 10, .preempt false, .resume true 0 0, .call true (storeCall 5 0xA000) soleSite,
    .exec true 13, .ret true, .preempt true, .resume false 0 0, .exec false 10]

def storeMissed : List (Label Bool) × Sys Bool storePair.img.Site :=
  (storePair.play storeCalled.2 storeSchedule).get rfl

def storeReturned : List (Label Bool) × Sys Bool storePair.img.Site :=
  (storePair.command storeMissed.2 (.ret false)).get rfl

theorem storeReturned_fails :
    storePair.Fails false 0 (storeCall 9 0x9000) (.miss 5) storeBefore.2 storeMissed.1
      storeReturned.2 := by
  have hcall : storePair.command storeBefore.2 (.call false (storeCall 9 0x9000) soleSite) =
      some ([.act false 0 (.call (storeCall 9 0x9000))], storeCalled.2) := rfl
  have hbefore : storePair.play (storePair.boot fun _ => 0) [.resume false 0 0] =
      some storeBefore := (Option.some_get _).symm
  have hplay : storePair.play storeCalled.2 storeSchedule = some storeMissed :=
    (Option.some_get _).symm
  have hret : storePair.command storeMissed.2 (.ret false) =
      some ([.act false 0 (.ret (storeCall 9 0x9000) (.error (.miss 5)))], storeReturned.2) := rfl
  exact Machine.fails_of_play (Image.ofSites_outside_zero _ _ one_site) (pairMachine_initial ..)
    hbefore hcall hplay hret rfl

/-- Nobody else has written the side. -/
theorem storeReturned_quiet : ∀ l ∈ storeMissed.1, l.writes = some 0x9000 →
    l.own false 0 = true := own_of_all rfl

theorem side_kept_iff_storeReturned :
    storeReturned.2.mem 0x9000 = storeBefore.2.mem 0x9000 ↔
      storeBefore.2.mem 0x9000 = 7 ∨ ¬ CutWhen false 0 (Stored 0x9000) storeMissed.1 := by
  have hfails : storePair.Fails false 0
      ⟨.cpuId, .storeIf (cpu0Word 0x8000) 0 9 (cpu0Word 0x9000) 7⟩ (.miss 5) storeBefore.2
      storeMissed.1 storeReturned.2 := storeReturned_fails
  exact side_kept_iff hfails (by decide) storeReturned_quiet

/-- **A call that returns `Miss` may have written its side.** -/
theorem not_keepsSide : ¬ storePair.KeepsSide (storeCall 9 0x9000) := by
  intro h
  have hsame := h false 0 _ _ _ _ 0x9000 storeReturned_fails rfl (by decide) storeReturned_quiet
  have hwritten : storeReturned.2.mem 0x9000 = 7 := rfl
  have hbefore : storeBefore.2.mem 0x9000 = 0 := rfl
  rw [hwritten, hbefore] at hsame
  exact absurd hsame (by decide)

/-! #### A chase that is cut -/

/-- `load_if_ne(word, 0, 8)`. -/
def loadCall : Call := ⟨.cpuId, .loadIfNe (cpu0Word 0x8000) 0 8⟩

def loadPair : Machine Bool := pairMachine .x86 (.loadIfNe cpuIdOff)

instance : DecidableEq loadPair.img.Site := inferInstanceAs (DecidableEq (Fin 1))

/-- One thread on CPU 0, about to call; the word points at `0x9000`. -/
def loadBefore : List (Label Bool) × Sys Bool loadPair.img.Site :=
  (loadPair.play (loadPair.boot fun a => if a = 0x8000 then 0x9000 else 0)
    [.resume false 0 0]).get rfl

def loadCalled : List (Label Bool) × Sys Bool loadPair.img.Site :=
  (loadPair.command loadBefore.2 (.call false loadCall soleSite)).get rfl

/-- It chases the pointer, is moved to CPU 1 before it commits, and aborts. -/
def loadSchedule : List (Cmd Bool loadPair.img.Site) :=
  [.exec false 12, .preempt false, .resume false 1 1, .exec false 7]

def loadAborted : List (Label Bool) × Sys Bool loadPair.img.Site :=
  (loadPair.play loadCalled.2 loadSchedule).get rfl

def loadReturned : List (Label Bool) × Sys Bool loadPair.img.Site :=
  (loadPair.command loadAborted.2 (.ret false)).get rfl

theorem loadReturned_fails :
    loadPair.Fails false 0 loadCall .abort loadBefore.2 loadAborted.1 loadReturned.2 := by
  have hbefore : loadPair.play (loadPair.boot fun a => if a = 0x8000 then 0x9000 else 0)
      [.resume false 0 0] = some loadBefore := (Option.some_get _).symm
  have hcall : loadPair.command loadBefore.2 (.call false loadCall soleSite) =
      some ([.act false 0 (.call loadCall)], loadCalled.2) := rfl
  have hplay : loadPair.play loadCalled.2 loadSchedule = some loadAborted :=
    (Option.some_get _).symm
  have hret : loadPair.command loadAborted.2 (.ret false) =
      some ([.act false 0 (.ret loadCall (.error .abort))], loadReturned.2) := rfl
  exact Machine.fails_of_play (Image.ofSites_outside_zero _ _ one_site) (pairMachine_initial ..)
    hbefore hcall hplay hret rfl

theorem derefs_nothing_iff_loadReturned :
    ¬ Derefs false 0 0x8000 8 loadAborted.1 ↔
      ¬ CutWhen false 0 (Chased 0x8000 8) loadAborted.1 :=
  derefs_nothing_iff (w := cpu0Word 0x8000) loadReturned_fails

/-- **A call that returns `Abort` may have dereferenced.** -/
theorem not_derefsNothing : ¬ loadPair.DerefsNothing (cpu0Word 0x8000) 0 8 := by
  intro h
  refine h false 0 .abort _ _ _ loadReturned_fails
    ⟨(loadAborted.1.drop 10), loadAborted.1.take 9, 0x9000, 0, false, rfl, ?_⟩
  show Access.load 0x8000 0x9000 ∈ [_, Access.load 0x8000 0x9000]
  simp

/-! #### A side that is the word -/

def aliasCalled : List (Label Bool) × Sys Bool storePair.img.Site :=
  (storePair.command storeBefore.2 (.call false (storeCall 9 0x8000) soleSite)).get rfl

/-- It makes the scratch store, is moved to CPU 1 before it commits, and aborts. -/
def aliasSchedule : List (Cmd Bool storePair.img.Site) :=
  [.exec false 10, .preempt false, .resume false 1 1, .exec false 7]

def aliasAborted : List (Label Bool) × Sys Bool storePair.img.Site :=
  (storePair.play aliasCalled.2 aliasSchedule).get rfl

def aliasReturned : List (Label Bool) × Sys Bool storePair.img.Site :=
  (storePair.command aliasAborted.2 (.ret false)).get rfl

theorem aliasReturned_fails :
    storePair.Fails false 0 (storeCall 9 0x8000) .abort storeBefore.2 aliasAborted.1
      aliasReturned.2 := by
  have hbefore : storePair.play (storePair.boot fun _ => 0) [.resume false 0 0] =
      some storeBefore := (Option.some_get _).symm
  have hcall : storePair.command storeBefore.2 (.call false (storeCall 9 0x8000) soleSite) =
      some ([.act false 0 (.call (storeCall 9 0x8000))], aliasCalled.2) := rfl
  have hplay : storePair.play aliasCalled.2 aliasSchedule = some aliasAborted :=
    (Option.some_get _).symm
  have hret : storePair.command aliasAborted.2 (.ret false) =
      some ([.act false 0 (.ret (storeCall 9 0x8000) (.error .abort))], aliasReturned.2) := rfl
  exact Machine.fails_of_play (Image.ofSites_outside_zero _ _ one_site) (pairMachine_initial ..)
    hbefore hcall hplay hret rfl

/-- Whose side is another cell, and which commits after a restart. -/
def storeCommitted : List (Label Bool) × Sys Bool storePair.img.Site :=
  (storePair.play storeCalled.2 [.exec false 10, .preempt false, .resume false 0 0,
    .exec false 12, .ret false]).get rfl

theorem storeCommitted_during :
    storePair.During (storePair.Quiet false 0 0x8000) false 0 (storeCall 9 0x9000) storeBefore.2
      storeCommitted.1 storeCommitted.2 := by
  have hbefore : storePair.play (storePair.boot fun _ => 0) [.resume false 0 0] =
      some storeBefore := (Option.some_get _).symm
  have hcall : storePair.command storeBefore.2 (.call false (storeCall 9 0x9000) soleSite) =
      some ([.act false 0 (.call (storeCall 9 0x9000))], storeCalled.2) := rfl
  have hplay : storePair.play storeCalled.2 [.exec false 10, .preempt false, .resume false 0 0,
      .exec false 12, .ret false] = some storeCommitted := (Option.some_get _).symm
  have ho : storePair.img.Outside 0 := Image.ofSites_outside_zero _ _ one_site
  have hrun := Machine.play_run ho hplay
  exact (Machine.during_of_run ho (pairMachine_initial ..) hbefore hcall hrun rfl).quiet
    (own_of_all rfl)

theorem commits_word_storePair :
    storePair.During (storePair.Quiet false 0 0x8000) false 0 (storeCall 9 0x9000) storeBefore.2
        storeCommitted.1 storeCommitted.2 ∧
      (storeCommitted.1.countP fun l => l.own false 0 && decide (l.writes = some 0x8000)) ≤ 1 ∧
      storeCommitted.2.mem 0x8000 = 9 := by
  have hword := commits_word storePair (cpu0Word 0x8000) (cpu0Word 0x9000) 0 9 7 (by decide)
  obtain ⟨_, hcount, _⟩ := hword false 0 _ _ _ storeCommitted_during
  exact ⟨storeCommitted_during, hcount, rfl⟩

/-- **A call whose side is its word** may return `Abort` and have written it. -/
theorem not_commitsWord : ¬ storePair.CommitsWord (cpu0Word 0x8000) 0 9 (cpu0Word 0x8000) 7 := by
  intro h
  have hquiet : ∀ l ∈ .act false 0 (.ret (storeCall 9 0x8000) (.error .abort)) :: aliasAborted.1,
      l.writes = some 0x8000 → l.own false 0 = true := own_of_all rfl
  -- the property at this call, and the scratch store that breaks it
  obtain ⟨_, _, hfail⟩ := h false 0 _ _ _ (Machine.During.quiet aliasReturned_fails hquiet)
  have hscratch : aliasAborted.1.any (fun l => l.own false 0 && decide (l.writes = some 0x8000)) =
      true := rfl
  obtain ⟨l, hl, hw⟩ := List.any_eq_true.mp hscratch
  simp only [Bool.and_eq_true, decide_eq_true_eq] at hw
  exact hfail _ (List.mem_cons_self ..) l (List.mem_cons_of_mem _ hl) hw.1 hw.2

end RseqRs
