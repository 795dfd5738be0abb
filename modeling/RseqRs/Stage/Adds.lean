import Mathlib.Data.BitVec
import Mathlib.Data.Finsupp.Basic
import Mathlib.Tactic.LinearCombination
import RseqRs.Proof.Effect
import RseqRs.Spec.Adds
import RseqRs.Stage.Owned

/-!
# Adds in the stage machine

A cell that only adds write holds, at any time, what it held at first, what the adds that
have returned have added, and what those that have committed and not returned yet have
(`Balanced`). The last is a sum over all contexts of all threads, of which only finitely many
are past a commit. One step changes one term of it, and the cell by as much.
-/

namespace RseqRs

namespace Stage

variable {Tid : Type} {M : Machine Tid} {x : Usize}

/-- What a context has added to `x` and not returned yet. -/
def pending (x : Usize) : Option Work → Usize
  | some (.op c (.finishing (.ok _)) log) => if wrote x log then c.adds else 0
  | _ => 0

theorem pending_event {w : Work} : pending x (some w.event) = pending x (some w) := by
  cases w with
  | op c st log => cases st <;> rfl
  | _ => rfl

/-- The adds to `x` are all accounted for, from `base` on. -/
def Balanced (x base : Usize) (h : List (Label Tid)) [DecidableEq Tid] (s : Sys Tid) : Prop :=
  ∃ P : Tid × ℕ →₀ Usize, (∀ t d, P (t, d) = pending x (s.ctx t d)) ∧
    s.mem x = base + added x h + P.sum fun _ n => n

/-- An add has written nothing before its commit. -/
theorem Ok.not_wrote {idx : Index → U32} {acc log : List Acc} {c : Call} {u : Sec} {n : Usize}
    (h : Ok idx acc (.op c (.inside u) log)) (hc : c.op.count = some n) :
    wrote x log = false := by
  refine List.any_eq_false.mpr fun a ha => ?_
  rcases h.2.2.1.written ha with hw | ⟨b, v, rfl, hs⟩
  · simp [hw]
  · obtain ⟨w, expect, new, s, he, _⟩ := Op.scratches_tree hs
    rw [he] at hc
    cases hc

/-- The commit of an add: it adds to what it has loaded. -/
theorem Op.commit_of_count {K : Index} {op : Op K} {log : List Acc} {a : Acc}
    {r n : Usize} (h : op.tree.Ends (log ++ [a]) (.ok r)) (hc : op.count = some n)
    (ha : a.written = some x) :
    .load x r ∈ log ∧ a = .store x (r + n) := by
  have hcom := Op.committed_of_ends h
  have hlast {l : List Acc} {b : Acc} (he : log ++ [a] = l ++ [b]) : log = l ∧ a = b := by
    obtain ⟨hl, hb⟩ := List.append_inj' he rfl
    exact ⟨hl, List.singleton_inj.mp hb⟩
  cases op with
  | fetchAdd w count =>
    cases hc
    obtain ⟨rfl, rfl⟩ := hlast (l := [_, _]) hcom
    cases ha
    exact ⟨by simp, rfl⟩
  | fetchAddAt p offset count =>
    cases hc
    obtain ⟨base, slot, hcom⟩ := hcom
    obtain ⟨rfl, rfl⟩ := hlast (l := [_, _, _, _]) hcom
    cases ha
    exact ⟨by simp, rfl⟩
  | _ => cases hc

/-- An add writes in its commit only. -/
theorem Ok.commits {i : U32} {m m' : Mem} {c : Call} {st st' : Stage} {a : Acc} {last : Bool}
    {idx : Index → U32} {acc log : List Acc} {n : Usize} (hok : Ok idx acc (.op c st log))
    (hs : Step (tree c) i m st (.acc a last) st' m') (hc : c.op.count = some n)
    (ha : a.written = some x) :
    last = true ∧ m' = a.apply m ∧ ∃ u r, st = .inside u ∧ st' = .finishing (.ok r) ∧
      (tree c).Ends (log ++ [a]) (.ok r) ∧ .load x r ∈ log ∧ a = .store x (r + n) := by
  obtain ⟨-, -, hst⟩ := hok
  cases hs with
  | access hn hr =>
    -- an add has no scratch store
    cases hn with
    | index k i => cases ha
    | load b k v => cases ha
    | scratch b v k =>
      obtain ⟨w, expect, new, s, he, _⟩ := Op.scratches_tree (hst.1.scratches (.scratch b v _))
      rw [he] at hc
      cases hc
  | @commit u _ r hcom =>
    have hends : (tree c).Ends (log ++ [a]) (.ok r) := .commit hst.1 hcom
    exact ⟨rfl, rfl, u, r, rfl, rfl, hends, Op.commit_of_count hends hc ha⟩

/-- **The commit of an add** adds its count, if the cell still holds what it has loaded. -/
theorem Ok.adds {i : U32} {m m' : Mem} {c : Call} {st st' : Stage} {a : Acc} {last : Bool}
    {idx : Index → U32} {acc log : List Acc} {n : Usize} (hok : Ok idx acc (.op c st log))
    (hs : Step (tree c) i m st (.acc a last) st' m') (hc : c.op.count = some n)
    (ha : a.written = some x)
    (hload : ∀ u v, st = .inside u → .load x v ∈ log → m x = v) :
    (∃ u, st = .inside u) ∧ (∃ r, st' = .finishing (.ok r)) ∧ m' x = m x + n := by
  obtain ⟨_, rfl, u, r, rfl, rfl, _, hl, rfl⟩ := hok.commits hs hc ha
  refine ⟨⟨u, rfl⟩, ⟨r, rfl⟩, ?_⟩
  rw [hload u r rfl hl]
  exact Function.update_self ..

variable [DecidableEq Tid] {h : List (Label Tid)} {s s' : Sys Tid} {l : Label Tid} {base : Usize}

theorem Initial.balanced (hi : Initial s) : Balanced x (s.mem x) [] s := by
  refine ⟨0, fun t d => ?_, by simp [added]⟩
  cases hw : s.ctx t d with
  | none => rfl
  | some w =>
    rcases Sys.ctx_cases hw with ⟨_, htop⟩ | ⟨_, hb⟩
    · rw [hi.idle t] at htop; cases htop; rfl
    · rw [hi.below t] at hb; cases hb

/-- One term of the sum changes, and the cell by as much. -/
theorem Balanced.change {base' : Usize} (hb : Balanced x base h s) (u : Tid) (e : ℕ)
    (hne : ∀ t d, (t ≠ u ∨ d ≠ e) → pending x (s'.ctx t d) = pending x (s.ctx t d))
    (hsum : s'.mem x + added x h + pending x (s.ctx u e) + base =
      s.mem x + added x (l :: h) + pending x (s'.ctx u e) + base') :
    Balanced x base' (l :: h) s' := by
  classical
  obtain ⟨P, hP, hm⟩ := hb
  -- the term of this context is replaced
  refine ⟨P.update (u, e) (pending x (s'.ctx u e)), fun t d => ?_, ?_⟩
  · rw [Finsupp.update_apply]
    by_cases hk : (t, d) = (u, e)
    · rw [if_pos hk]
      cases hk
      rfl
    · rw [if_neg hk, hP]
      refine (hne t d ?_).symm
      by_contra hc
      simp only [not_or, not_not] at hc
      exact hk (by rw [hc.1, hc.2])
  · have hup := Finsupp.sum_update_add P (u, e) (pending x (s'.ctx u e)) (fun _ n => n)
      (fun _ => rfl) fun _ _ _ => rfl
    rw [hP] at hup
    linear_combination hsum + hm - hup

/-- Nothing is added, and the cell is as it was. -/
theorem Balanced.keep (hb : Balanced x base h s)
    (hp : ∀ t d, pending x (s'.ctx t d) = pending x (s.ctx t d))
    (hadd : added x (l :: h) = added x h) (hm : s'.mem x = s.mem x) :
    Balanced x base (l :: h) s' := by
  obtain ⟨P, hP, hm'⟩ := hb
  exact ⟨P, fun t d => (hP t d).trans (hp t d).symm, by rw [hadd, hm, hm']⟩

/-- A write from outside: what it takes or puts there is not an add. -/
theorem Balanced.write {v : Usize} (hb : Balanced x base h s)
    (hs : SysStep M s (.write x v) s') :
    Balanced x (base + (v - s.mem x)) (.write x v :: h) s' := by
  obtain ⟨P, hP, hm⟩ := hb
  cases hs
  refine ⟨P, hP, ?_⟩
  show Function.update s.mem x v x = base + (v - s.mem x) + added x h + _
  rw [Function.update_self]
  linear_combination hm

/-- A context that does not step keeps its term. -/
theorem SysStep.pending_eq {t : Tid} {d : ℕ} (hs : SysStep M s l s') (hl : l.own t d = false) :
    pending x (s'.ctx t d) = pending x (s.ctx t d) := by
  cases hw : s.ctx t d with
  | none =>
    cases hw' : s'.ctx t d with
    | none => rfl
    | some w' => cases hs.ctx_new hw hw'; rfl
  | some w =>
    have hstep := hs.ctx hw
    generalize s'.ctx t d = o at hstep
    cases hstep with
    | keep _ => rfl
    | event _ _ => exact pending_event
    | exec _ _ _ => exact absurd (Label.own_self rfl) (Bool.eq_false_iff.mp hl)
    | turn ht => cases ht <;> exact absurd (Label.own_self rfl) (Bool.eq_false_iff.mp hl)
    | fence _ => exact absurd (Label.own_fenceRun.mpr ⟨rfl, rfl⟩) (Bool.eq_false_iff.mp hl)
    | popped => exact absurd (Label.own_self rfl) (Bool.eq_false_iff.mp hl)

/-- The instructions that write `x` are the commits of adds, and what they add to is there. -/
def Adding (x : Usize) (s : Sys Tid) : Label Tid → Prop
  | .act t _ (.exec (.acc a _)) => ∀ c st log, a.written = some x →
    (s.thr t).top = .op c st log → c.op.count ≠ none ∧
      ∀ u v, st = .inside u → .load x v ∈ log → s.mem x = v
  | _ => True

omit [DecidableEq Tid] in
theorem adding_of (h : ∀ t d a last, l = .act t d (.exec (.acc a last)) → a.written = some x →
    ∀ c st log, (s.thr t).top = .op c st log → c.op.count ≠ none ∧
      ∀ u v, st = .inside u → .load x v ∈ log → s.mem x = v) : Adding x s l := by
  cases l with
  | act t d act =>
    cases act with
    | exec o =>
      cases o with
      | acc a last => exact fun c st log ha htop => h t d a last rfl ha c st log htop
      | _ => trivial
    | _ => trivial
  | _ => trivial

omit [DecidableEq Tid] in
/-- An instruction: the commit of an add to `x`, or one that adds nothing to `x`. -/
theorem Ok.pending_exec {idx : Index → U32} {acc log : List Acc} {c : Call} {st st' : Stage}
    {o : Obs} {m m' : Mem} (hok : Ok idx acc (.op c st log))
    (hs : Step (tree c) (idx c.K) m st o st' m')
    (hadd : ∀ a last, o = .acc a last → a.written = some x → c.op.count ≠ none ∧
      ∀ u v, st = .inside u → .load x v ∈ log → m x = v) :
    m' x + pending x (some (.op c st log)) =
      m x + pending x (some (.op c st' (o.extend log))) := by
  -- an instruction that leaves both as they are
  have hsame (hm : m' x = m x) (hp : pending x (some (.op c st' (o.extend log))) =
      pending x (some (.op c st log))) : m' x + pending x (some (.op c st log)) =
        m x + pending x (some (.op c st' (o.extend log))) := by rw [hm, hp]
  -- an instruction that writes `x` is the commit of an add
  by_cases hw : ∃ a last, o = .acc a last ∧ a.written = some x
  · obtain ⟨a, last, rfl, ha⟩ := hw
    obtain ⟨hc, hload⟩ := hadd a last rfl ha
    obtain ⟨n, hn⟩ := Option.ne_none_iff_exists'.mp hc
    obtain ⟨⟨u, rfl⟩, ⟨r, rfl⟩, hm⟩ := hok.adds hs hn ha hload
    have hwrote : wrote x (log ++ [a]) = true := by simp [wrote, ha]
    have hp : pending x (some (.op c (.finishing (.ok r)) (log ++ [a]))) = n := by
      simp [pending, hwrote, Call.adds, hn]
    show m' x + 0 = m x + pending x (some (.op c (.finishing (.ok r)) (log ++ [a])))
    rw [hm, hp, add_zero]
  · have hm : m' x = m x := hs.mem_eq fun a last he ha => hw ⟨a, last, he, ha⟩
    cases hs with
    | @commit u a r hcom =>
      refine hsame hm ?_
      -- the commit of an add to another cell, or of no add
      show (if wrote x (log ++ [a]) then c.adds else 0) = 0
      cases hc : c.op.count with
      | none => simp [Call.adds, hc]
      | some n =>
        have ha : a.written ≠ some x := fun ha => hw ⟨a, true, rfl, ha⟩
        have hno : wrote x (log ++ [a]) = false := by
          have hlog := hok.not_wrote (x := x) hc
          simp only [wrote, List.any_append, List.any_cons, List.any_nil, Bool.or_false] at hlog ⊢
          simp [hlog, ha]
        rw [hno]
        rfl
    | enter => exact hsame hm rfl
    | arm => exact hsame hm rfl
    | tau => exact hsame hm rfl
    | exit => exact hsame hm rfl
    | access hn hr => exact hsame hm rfl
    | leave => exact hsame hm rfl

/-- **One step** keeps the account, unless it writes the cell from outside. -/
theorem Balanced.step (hb : Balanced x base h s) (hi : Inv h s) (hs : SysStep M s l s')
    (hadd : Adding x s l) (hw : ∀ v, l ≠ .write x v) : Balanced x base (l :: h) s' := by
  have hmem (hl : ∀ t d o, l ≠ .act t d (.exec o)) : s'.mem x = s.mem x :=
    hs.mem_eq (fun t d a last he => absurd he (hl t d _)) hw
  by_cases hown : ∃ t d, l.own t d = true
  · obtain ⟨t, d, hown⟩ := hown
    -- one context makes the step itself
    obtain ⟨rfl, hstep⟩ := hs.own_step hown
    -- every other context keeps its term
    refine hb.change t (s.thr t).depth (fun u e hne => hs.pending_eq ?_) ?_
    · cases l with
      | act v k a =>
        obtain ⟨⟨rfl, rfl⟩, -⟩ := Label.own_act.mp hown
        exact Label.own_of_ne (hne.imp Ne.symm Ne.symm)
      | fenceRun v k ev hit =>
        obtain ⟨rfl, rfl⟩ := Label.own_fenceRun.mp hown
        exact decide_eq_false fun hc => hne.elim (fun h => h hc.1.symm) fun h => h hc.2.symm
      | write y v => cases hown
    · rw [s.ctx_depth]
      by_cases hexec : ∃ o, l = .act t (s.thr t).depth (.exec o)
      · obtain ⟨o, rfl⟩ := hexec
        obtain ⟨_, _, c, st, st', log, htop, _, hst, hctx⟩ := hs.exec
        have hok := hi.top t
        rw [htop] at hok
        have hsum := hok.pending_exec hst fun a last he ha => by
          subst he
          exact hadd c st log ha htop
        rw [htop, hctx]
        show s'.mem x + added x h + _ + base = s.mem x + added x h + _ + base
        linear_combination hsum
      · have hm : s'.mem x = s.mem x := by
          refine hmem ?_
          rintro u e o rfl
          obtain ⟨⟨rfl, rfl⟩, -⟩ := Label.own_act.mp hown
          exact hexec ⟨o, rfl⟩
        have hok := hi.top t
        generalize (s.thr t).top = w at hstep hok
        generalize s'.ctx t (s.thr t).depth = o at hstep
        cases hstep with
        | keep hl => rw [hown] at hl; cases hl
        | event hl _ => rw [hown] at hl; cases hl
        | exec hr htop' hst => exact absurd ⟨_, rfl⟩ hexec
        | turn ht =>
          rw [hm]
          cases ht with
          -- what was pending is returned now
          | @ret c r log =>
            obtain ⟨rfl, -, -⟩ := hok
            cases r with
            | ok v =>
              have hret : added x (.act t (s.thr t).depth (.ret c (.ok v)) :: h) =
                  pending x (some (.op c (.finishing (.ok v)) (attempt t (s.thr t).depth h))) +
                    added x h := rfl
              have hidle : pending x (some .idle) = 0 := rfl
              rw [hret, hidle]
              linear_combination
            | error e => rfl
          | _ => rfl
        | fence hr => rw [hm]; rfl
        | popped => rw [hm]; rfl
  · have hown' : ∀ t d, l.own t d = false := fun t d =>
      Bool.eq_false_iff.mpr fun hl => hown ⟨t, d, hl⟩
    refine hb.keep (fun t d => hs.pending_eq (hown' t d)) ?_ (hmem ?_)
    · cases l with
      | act u e a =>
        cases a with
        | ret c r => exact absurd (Label.own_self rfl) (Bool.eq_false_iff.mp (hown' u e))
        | _ => rfl
      | _ => rfl
    · rintro t d o rfl
      exact absurd (Label.own_self rfl) (Bool.eq_false_iff.mp (hown' t d))

end Stage

end RseqRs
