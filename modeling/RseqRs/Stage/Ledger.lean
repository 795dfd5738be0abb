import Mathlib.Tactic.Abel
import RseqRs.Proof.Effect
import RseqRs.Spec.Ledger
import RseqRs.Stage.Owned

/-!
# Books in the stage machine

A commit is the op done in one go, from a memory that may differ in the side cell only
(`Ok.commit_run`), for what the attempt has loaded is still there. So it changes the value by
what the call is worth, and opens a position; the return closes it (`Books.step`).
-/

namespace RseqRs

namespace Stage

variable {Tid G : Type} [AddCommGroup G] {M : Machine Tid} {U : Usize → Option Tag}
  {val : Mem → G} {gain : Call → Option G}

/-- The memories are the same, but for the side cell of the call. -/
def ButSide (c : Call) (m m' : Mem) : Prop :=
  m = m' ∨ ∃ x v y, c.op.scratch = some (x, v) ∧ m = Function.update m' x y

/-- A `store_if` that finds `expect` in its word. -/
theorem storeIf_run {K : Index} {w s : Word K} {expect new sideNew : Usize} {m : Mem}
    (h : m w.word = expect) : (Op.storeIf w expect new s sideNew).run m =
      (.ok expect, Function.update (Function.update m s.word sideNew) w.word new) := if_pos h

/-- **A commit is the op in one go**, but for the side cell, if what the attempt has loaded is
still there. -/
theorem Ok.commit_run {idx : Index → U32} {acc log : List Acc} {c : Call} {u : Sec} {a : Acc}
    {r : Usize} {m : Mem} (hok : Ok idx acc (.op c (.inside u) log))
    (hc : CritSec.Commits u a r)
    (hload : ∀ x v, .load x v ∈ log → (∀ w, .store x w ∉ log) → m x = v) :
    ∃ m₀ m₁, c.op.run m₀ = (.ok r, m₁) ∧ ButSide c m₀ m ∧ ButSide c m₁ (a.apply m) := by
  by_cases hst : ∃ x v, Access.store x v ∈ log
  · -- a `store_if` that has made its scratch store
    obtain ⟨x, sideNew, hx⟩ := hst
    obtain ⟨w, expect, new, s, hop, rfl, hlog, rfl⟩ := Op.path_of_store hok.2.2.1 hx
    have hside : c.op.scratch = some (s.word, sideNew) := by rw [hop]; rfl
    cases hc
    by_cases hsw : s.word = w.word
    · -- the scratch store went to the word itself, where it found what it expects
      refine ⟨Function.update m w.word r, _,
        hop ▸ storeIf_run (Function.update_self ..), ?_, Or.inl ?_⟩
      · exact Or.inr ⟨s.word, sideNew, r, hside, by rw [hsw]⟩
      · rw [hsw, Function.update_idem, Function.update_idem]
        rfl
    · have hm : m w.word = r := by
        refine hload _ _ (by rw [hlog]; simp) fun v hv => hsw ?_
        rw [hlog] at hv
        have hs : w.word = s.word ∧ v = sideNew := by simpa using hv
        exact hs.1.symm
      refine ⟨m, _, hop ▸ storeIf_run hm, Or.inl rfl, Or.inr ⟨s.word, sideNew, sideNew, hside, ?_⟩⟩
      rw [Function.update_comm hsw]
      rfl
  · -- the attempt has only read
    have hno (x v : Usize) : Access.store x v ∉ log := fun hx => hst ⟨x, v, hx⟩
    have hread : ∀ b ∈ log, b.written = none := by
      intro b hb
      rcases hok.2.2.1.written hb with hw | ⟨x, v, rfl, _⟩
      · exact hw
      · exact absurd hb (hno x v)
    have hstore (x v : Usize) (hx : Access.store x v ∈ log) : m x = v := absurd hx (hno x v)
    obtain ⟨m₁, hcons, _, _, hm₁⟩ :=
      hok.consistent (fun x v hx => hload x v hx (hno x)) hstore
    rw [hm₁ hread] at hcons
    refine ⟨m, a.apply m, ?_, Or.inl rfl, Or.inl rfl⟩
    have hrun : c.run (idx c.K) m = (.ok r, a.apply m) := by
      have htree : (tree c).atomic (idx c.K) m = c.run (idx c.K) m := Call.atomic_tree hok.2.1
      rw [← htree]
      exact (hok.2.2.1.atomic_eq hcons).trans hc.atomic_eq
    unfold Call.run at hrun
    split at hrun
    · exact hrun
    · cases hrun

/-- What a call is worth, it changes the value by, also where the side cell is another. -/
theorem Worth.commit {c : Call} {g : G} (h : c.Worth val g) {m m' m₀ m₁ : Mem} {r : Usize}
    (hrun : c.op.run m₀ = (.ok r, m₁)) (h₀ : ButSide c m₀ m) (h₁ : ButSide c m₁ m') :
    val m' = val m + g := by
  have hside {m m' : Mem} (hb : ButSide c m m') : val m = val m' := by
    rcases hb with rfl | ⟨x, v, y, hs, rfl⟩
    · rfl
    · exact h.scratch x v m' y hs
  rw [← hside h₁, ← hside h₀]
  exact h.ok _ _ _ hrun

/-! ### The cells of the books -/

/-- The cells to which `U` gives a key are touched by the calls in the books, under that key,
and by nobody else; and these calls touch no other cells. -/
def InBooks (U : Usize → Option Tag) (val : Mem → G) (gain : Call → Option G) (s : Sys Tid) :
    Label Tid → Prop
  | .act t _ (.exec (.acc a _)) => ∀ x c st log, a.touched = some x →
    (s.thr t).top = .op c st log → U x = (gain c).map fun _ => c.tag
  | .act _ _ (.call c) => ∀ g, gain c = some g → c.Worth val g
  | .write x _ => U x = none
  | _ => True

omit [AddCommGroup G] in
/-- A cell that a call in the books touches has its key. -/
theorem tag_of_gain {c : Call} {x : Usize} {τ : Tag}
    (h : U x = (gain c).map fun _ => c.tag) (hx : U x = some τ) :
    c.tag = τ ∧ ∃ g, gain c = some g := by
  rw [hx] at h
  obtain ⟨g, hg, he⟩ := Option.map_eq_some_iff.mp h.symm
  exact ⟨he, g, hg⟩

theorem InBooks.respects {s : Sys Tid} {l : Label Tid}
    (hb : InBooks U val gain s l) : Respects U s l := by
  cases l with
  | act t d act =>
    cases act with
    | exec o =>
      cases o with
      | acc a last =>
        intro x c st log τ ha htop hx
        exact (tag_of_gain (hb x c st log (Access.touched_of_written ha) htop) hx).1
      | _ => trivial
    | _ => trivial
  | fenceRun u e ev hit => trivial
  | write x v => exact hb

/-- What a running attempt has loaded are cells of its own key, if its call is in the books,
and else cells of none. -/
def LoadsKeyed (U : Usize → Option Tag) (gain : Call → Option G) (s : Sys Tid) : Prop :=
  ∀ t c u log x v, (s.thr t).running = true → (s.thr t).top = .op c (.inside u) log →
    .load x v ∈ log → U x = (gain c).map fun _ => c.tag

variable [DecidableEq Tid] {h : List (Label Tid)} {s s' : Sys Tid} {l : Label Tid}

theorem LoadsKeyed.step (hl : LoadsKeyed U gain s) (hi : Inv h s) (hs : SysStep M s l s')
    (hb : InBooks U val gain s l) : LoadsKeyed U gain s' := by
  intro t c u log x v hr htop hv
  obtain ⟨_, _, hback⟩ := hi.inside_back hs hr htop
  cases hback with
  | kept hr₀ htop₀ _ => exact hl t c u log x v hr₀ htop₀ hv
  | armed hnil => rw [hnil] at hv; cases hv
  | tau hr₀ htop₀ _ _ => exact hl t c _ log x v hr₀ htop₀ hv
  | @access u₀ log₀ b hr₀ htop₀ hn hread hlog hm he =>
    subst hlog he
    rcases List.mem_append.mp hv with hv | hv
    · exact hl t c u₀ log₀ x v hr₀ htop₀ hv
    · obtain rfl := List.mem_singleton.mp hv
      exact hb x c _ log₀ rfl htop₀

/-! ### The account -/

/-- What a context has earned and not returned yet. -/
def openOf (gain : Call → Option G) : Option Work → G
  | some (.op c (.finishing (.ok _)) _) => (gain c).getD 0
  | _ => 0

omit [DecidableEq Tid] in
theorem openOf_event {w : Work} : openOf gain (some w.event) = openOf gain (some w) := by
  cases w with
  | op c st log => cases st <;> rfl
  | _ => rfl

/-- A context that does not step keeps its position. -/
theorem SysStep.openOf_eq {t : Tid} {d : ℕ} (hs : SysStep M s l s') (hl : l.own t d = false) :
    openOf gain (s'.ctx t d) = openOf gain (s.ctx t d) := by
  cases hw : s.ctx t d with
  | none =>
    cases hw' : s'.ctx t d with
    | none => rfl
    | some w' => cases hs.ctx_new hw hw'; rfl
  | some w =>
    have hstep := hs.ctx hw
    generalize s'.ctx t d = o at hstep
    cases hstep with
    | keep _ => rfl
    | event _ _ => exact openOf_event
    | exec _ _ _ => exact absurd (Label.own_self rfl) (Bool.eq_false_iff.mp hl)
    | turn ht => cases ht <;> exact absurd (Label.own_self rfl) (Bool.eq_false_iff.mp hl)
    | fence _ => exact absurd (Label.own_fenceRun.mpr ⟨rfl, rfl⟩) (Bool.eq_false_iff.mp hl)
    | popped => exact absurd (Label.own_self rfl) (Bool.eq_false_iff.mp hl)

/-- **The invariant** of the books, from `base` on. -/
structure Books (U : Usize → Option Tag) (val : Mem → G) (gain : Call → Option G) (base : G)
    (h : List (Label Tid)) (s : Sys Tid) : Prop where
  worth : ∀ t d c g, .act t d (.call c) ∈ h → gain c = some g → c.Worth val g
  loads : LoadsHold U s
  keyed : LoadsKeyed U gain s
  balance : Balances (fun i : Tid × ℕ => openOf gain (s.ctx i.1 i.2))
    (val s.mem - base - earned gain h)

variable {base : G}

omit [DecidableEq Tid] in
/-- **An instruction** changes the value by what its call has earned with it. -/
theorem Ok.books_exec {idx : Index → U32} {acc log : List Acc} {c : Call} {st st' : Stage}
    {o : Obs} {m m' : Mem} (hok : Ok idx acc (.op c st log))
    (hs : Step (tree c) (idx c.K) m st o st' m')
    (hval : ∀ m x y, U x = none → val (Function.update m x y) = val m)
    (hworth : ∀ g, gain c = some g → c.Worth val g)
    (hkey : ∀ a last x, o = .acc a last → a.touched = some x → U x = (gain c).map fun _ => c.tag)
    (hload : ∀ g u x v, gain c = some g → st = .inside u → .load x v ∈ log →
      (∀ w, .store x w ∉ log) → m x = v) :
    val m' + openOf gain (some (.op c st log)) =
      val m + openOf gain (some (.op c st' (o.extend log))) := by
  -- a write by a call that is not in the books
  have hnone {a : Acc} {last : Bool} (ho : o = .acc a last) (hg : gain c = none) :
      val (a.apply m) = val m := by
    have hu (x : Usize) (hx : a.touched = some x) : U x = none := by
      rw [hkey a last x ho hx, hg]
      rfl
    cases a with
    | index j => rfl
    | load x v => rfl
    | store x v => exact hval m x v (hu x rfl)
  cases hs with
  | enter => rfl
  | arm => rfl
  | tau => rfl
  | exit => rfl
  | leave => cases ‹Except Error Usize› <;> rfl
  | @access u u' a hn hr =>
    have hsame : val (a.apply m) = val m := by
      cases hg : gain c with
      | none => exact hnone rfl hg
      | some g =>
        cases hn with
        | index k i => rfl
        | load b k v => rfl
        | scratch b v k =>
          have hsc : c.op.scratch = some (b, v) :=
            Op.scratch_of_scratches (hok.2.2.1.scratches (.scratch b v _))
          exact (hworth g hg).scratch b v m v hsc
    show val (a.apply m) + 0 = val m + 0
    rw [hsame]
  | @commit u a r hc =>
    show val (a.apply m) + 0 = val m + (gain c).getD 0
    rw [add_zero]
    cases hg : gain c with
    | none =>
      rw [hnone rfl hg]
      exact (add_zero _).symm
    | some g =>
      obtain ⟨m₀, m₁, hrun, h₀, h₁⟩ := hok.commit_run hc fun x v => hload g u x v hg rfl
      exact Worth.commit (hworth g hg) hrun h₀ h₁

omit [DecidableEq Tid] in
/-- A return closes the position of its call. -/
theorem openOf_turn {t : Tid} {d : ℕ} {a : Act} {w w' : Work} (ht : Turn M w a w') :
    earned gain (.act t d a :: h) + openOf gain (some w') =
      earned gain h + openOf gain (some w) := by
  cases ht with
  | @ret c r log =>
    cases r with
    | ok v =>
      show (gain c).getD 0 + earned gain h + 0 = earned gain h + (gain c).getD 0
      rw [add_zero, add_comm]
    | error e => rfl
  | _ => rfl

omit [DecidableEq Tid] in
/-- What the value and the open position of a context gain, is earned. -/
theorem books_change {v v' b e e' p p' : G} (h : v' + p + e = v + p' + e') :
    v' - b - e' + p = v - b - e + p' := by
  have hdiff : v' - b - e' + p - (v - b - e + p') = v' + p + e - (v + p' + e') := by abel
  exact sub_eq_zero.mp (hdiff.trans (sub_eq_zero.mpr h))

omit [AddCommGroup G] in
/-- A step is made by one context at most. -/
theorem Label.own_unique {t u : Tid} {d e : ℕ} (h : l.own u e = true) (h' : l.own t d = true) :
    (u, e) = (t, d) := by
  cases l with
  | act v k a =>
    obtain ⟨⟨rfl, rfl⟩, -⟩ := Label.own_act.mp h
    obtain ⟨⟨rfl, rfl⟩, -⟩ := Label.own_act.mp h'
    rfl
  | fenceRun v k ev hit =>
    obtain ⟨rfl, rfl⟩ := Label.own_fenceRun.mp h
    obtain ⟨rfl, rfl⟩ := Label.own_fenceRun.mp h'
    rfl
  | write x v => cases h

/-- **One step** keeps the books. -/
theorem Books.step (hb : Books U val gain base h s) (hi : Inv h s)
    (hcalls : ∀ t d c st log, s.ctx t d = some (.op c st log) → .act t d (.call c) ∈ h)
    (hval : ∀ m x y, U x = none → val (Function.update m x y) = val m)
    (hs : SysStep M s l s') (hl : InBooks U val gain s l) :
    Books U val gain base (l :: h) s' := by
  refine ⟨fun t d c g hm hg => ?_, hb.loads.step hi hs hl.respects, hb.keyed.step hi hs hl, ?_⟩
  · rcases List.mem_cons.mp hm with rfl | hm
    · exact hl g hg
    · exact hb.worth t d c g hm hg
  -- a step that no instruction makes writes a cell without a key, if any
  have hmem (hno : ∀ t d o, l ≠ .act t d (.exec o)) : val s'.mem = val s.mem := by
    cases hs with
    | move hm _ =>
      cases hm with
      | exec _ _ _ => exact absurd rfl (hno _ _ _)
      | _ => rfl
    | fenceRun _ _ _ => rfl
    | write a v => exact hval _ a v hl
  by_cases hown : ∃ t d, l.own t d = true
  · obtain ⟨t, d, hown⟩ := hown
    -- one context makes the step itself, and every other keeps its position
    obtain ⟨rfl, hstep⟩ := hs.own_step hown
    refine hb.balance.change (t, (s.thr t).depth) (fun i hne => hs.openOf_eq ?_) ?_
    · exact Bool.eq_false_iff.mpr fun ho => hne (Label.own_unique ho hown)
    refine books_change ?_
    have hw := s.ctx_depth t
    by_cases hexec : ∃ o, l = .act t (s.thr t).depth (.exec o)
    · obtain ⟨o, rfl⟩ := hexec
      obtain ⟨_, hr, c, st, st', log, htop, _, hst, hctx⟩ := hs.exec
      have hok := hi.top t
      rw [htop] at hok hw
      have hsum := hok.books_exec hst hval (fun g => hb.worth t _ c g (hcalls t _ c st log hw))
        (fun a last x he ha => by subst he; exact hl x c st log ha htop)
        fun g u x v hg he hx hno => by
          subst he
          -- what it has loaded is keyed, and so still there
          refine hb.loads t c u log hr htop x v hx ?_ hno
          rw [hb.keyed t c u log x v hr htop hx, hg]
          rfl
      rw [hw, hctx]
      exact congrArg (· + earned gain h) hsum
    · have hm : val s'.mem = val s.mem := by
        refine hmem ?_
        rintro u e o rfl
        obtain ⟨⟨rfl, rfl⟩, -⟩ := Label.own_act.mp hown
        exact hexec ⟨o, rfl⟩
      rw [hm, hw]
      have hsame : earned gain (l :: h) + openOf gain (s'.ctx t (s.thr t).depth) =
          earned gain h + openOf gain (some (s.thr t).top) := by
        generalize (s.thr t).top = w at hstep
        generalize s'.ctx t (s.thr t).depth = o at hstep
        cases hstep with
        | keep hl => rw [hown] at hl; cases hl
        | event hl _ => rw [hown] at hl; cases hl
        | exec hr htop hst => exact absurd ⟨_, rfl⟩ hexec
        | turn ht => exact openOf_turn ht
        | fence hr => rfl
        | popped => rfl
      show val s.mem + openOf gain (some (s.thr t).top) + earned gain h =
        val s.mem + openOf gain (s'.ctx t (s.thr t).depth) + earned gain (l :: h)
      rw [add_assoc, add_assoc, add_comm _ (earned gain h), add_comm _ (earned gain (l :: h)),
        hsame]
  · have hown' : ∀ t d, l.own t d = false := fun t d =>
      Bool.eq_false_iff.mpr fun hl => hown ⟨t, d, hl⟩
    have hearned : earned gain (l :: h) = earned gain h := by
      cases l with
      | act u e a =>
        cases a with
        | ret c r => exact absurd (Label.own_self rfl) (Bool.eq_false_iff.mp (hown' u e))
        | _ => rfl
      | _ => rfl
    rw [hearned, hmem]
    · exact hb.balance.congr fun i => hs.openOf_eq (hown' i.1 i.2)
    · rintro t d o rfl
      exact absurd (Label.own_self rfl) (Bool.eq_false_iff.mp (hown' t d))

end Stage

end RseqRs
