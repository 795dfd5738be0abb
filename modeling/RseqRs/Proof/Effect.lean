import RseqRs.Proof.ExactlyOnce
import RseqRs.Spec.Atomic

/-!
# An attempt in one go

The tree of an op, run in one go, does what `Op.run` says, on both targets. So does
what an attempt has done so far, if all it has loaded is still there: it leads from
the memory to one that differs where the attempt has made its scratch store, and the
rest of the attempt run there is the whole section run now (`CritSec.Path.atomic_eq`).
-/

namespace RseqRs

/-! ### One attempt in one go -/

section Effect

variable {K : Index} {op : Op K} {i : U32} {m : Mem} {u : Sec} {log : List Acc}

/-- The body of an op, run in one go. -/
theorem Op.atomic_body : op.body.atomic i m = op.run m := by
  cases op with
  | compareExchange w expect new =>
    show CritSec.atomic i (if m w.word = expect then _ else _) m = _
    simp only [Op.run]
    by_cases h : m w.word = expect
    · rw [if_pos h, if_pos h, h]
      rfl
    · rw [if_neg h, if_neg h]
      rfl
  | compareExchangeIf w expect new o otherExpect =>
    show CritSec.atomic i (if m w.word = expect then _ else _) m = _
    simp only [Op.run]
    by_cases h : m w.word = expect
    · rw [if_pos h, if_pos h, h]
      show CritSec.atomic i (if m o.word = otherExpect then _ else _) m = _
      by_cases ho : m o.word = otherExpect
      · rw [if_pos ho, if_pos ho]
        rfl
      · rw [if_neg ho, if_neg ho]
        rfl
    · rw [if_neg h, if_neg h]
      rfl
  | fetchAdd w count => rfl
  | loadIfNe w expectNot offset =>
    show CritSec.atomic i (if m w.word = expectNot then _ else _) m = _
    simp only [Op.run]
    by_cases h : m w.word = expectNot
    · rw [if_pos h, if_pos h]
      rfl
    · rw [if_neg h, if_neg h]
      rfl
  | fetchAddAt p offset count => rfl
  | storeIf w expect new s sideNew =>
    show CritSec.atomic i (if m w.word = expect then _ else _) m = _
    simp only [Op.run]
    by_cases h : m w.word = expect
    · rw [if_pos h, if_pos h, h]
      rfl
    · rw [if_neg h, if_neg h]
      rfl

/-- A whole attempt run in one go. -/
theorem Call.atomic_tree {c : Call} (hk : c.op.keysAgree = true) :
    c.op.tree.atomic i m = c.run i m := by
  show CritSec.atomic i (if i = c.key then c.op.body else .fail .abort) m = _
  unfold Call.run
  by_cases h : i = c.key
  · rw [if_pos h, if_pos ⟨hk, h⟩]
    exact Op.atomic_body
  · rw [if_neg h, if_neg fun hc => h hc.2]
    rfl

theorem Op.scratch_of_scratches {x v : Usize} (h : op.tree.Scratches x v) :
    op.scratch = some (x, v) := by
  obtain ⟨w, expect, new, s, rfl, rfl⟩ := Op.scratches_tree h
  rfl

theorem Op.sideAddr_of_scratch {x v : Usize} (h : op.scratch = some (x, v)) :
    op.side.map Word.word = some x := by
  cases op with
  | storeIf w expect new s sideNew => cases h; rfl
  | _ => cases h

/-- How far an attempt of `store_if` can be. -/
theorem Op.storeIf_path {w s : Word K} {expect new sideNew : Usize}
    (hp : ((Op.storeIf w expect new s sideNew).tree).Path log u) :
    log = [] ∨ (∃ j, log = [.index j]) ∨
      (∃ v, log = [.index (K.get w.key), .load w.word v]) ∨
      log = [.index (K.get w.key), .load w.word expect, .store s.word sideNew] ∧
        u = .commit w.word new expect := by
  rcases CritSec.Path.confirm_cases (i := K.get w.key) (e := Error.abort)
    (Op.body_indexFree _) hp with ⟨rfl, _⟩ | ⟨j, _, rfl, _⟩ | ⟨log, rfl, hp, _⟩
  · exact Or.inl rfl
  · exact Or.inr (Or.inl ⟨j, rfl⟩)
  -- it is confirmed
  refine Or.inr ?_
  -- it has loaded the word, or not yet
  rcases hp.head with ⟨rfl, _⟩ | ⟨_, _, log, hn, rfl, hp⟩
  · exact Or.inl ⟨_, rfl⟩
  cases hn with
  | load _ _ v =>
    refine Or.inr ?_
    replace hp : CritSec.Path (if v = expect then .scratch s.word sideNew
      (.commit w.word new v) else .fail (.miss v)) log u := hp
    -- it has found `expect`, or is about to miss
    split at hp
    · next he =>
      rcases hp.head with ⟨rfl, _⟩ | ⟨_, _, log, hn, rfl, hp⟩
      · exact Or.inl ⟨v, rfl⟩
      cases hn
      rcases hp.head with ⟨rfl, rfl⟩ | ⟨_, _, _, hn, _⟩
      · rw [he]
        exact Or.inr ⟨rfl, rfl⟩
      · cases hn
    · rcases hp.head with ⟨rfl, _⟩ | ⟨_, _, _, hn, _⟩
      · exact Or.inl ⟨v, rfl⟩
      · cases hn

/-- An op with a scratch store loads its word only. -/
theorem Op.load_of_scratch {x v b y : Usize} (hs : op.scratch = some (x, v))
    (hp : op.tree.Path log u) (hb : Access.load b y ∈ log) : b = op.word.word := by
  cases op with
  | storeIf w expect new s sideNew =>
    rcases Op.storeIf_path hp with rfl | ⟨j, rfl⟩ | ⟨v, rfl⟩ | ⟨rfl, _⟩
    · cases hb
    · simp at hb
    · simp only [List.mem_cons, reduceCtorEq, Access.load.injEq, List.not_mem_nil, or_false,
        false_or] at hb
      exact hb.1
    · simp only [List.mem_cons, reduceCtorEq, Access.load.injEq, List.not_mem_nil, or_false,
        false_or] at hb
      exact hb.1
  | _ => cases hs

/-- An attempt that has written anything is a `store_if` about to commit. -/
theorem Op.path_of_store {x v : Usize} (hp : op.tree.Path log u)
    (hx : Access.store x v ∈ log) :
    ∃ w expect new s, op = .storeIf w expect new s v ∧ x = s.word ∧
      log = [.index (K.get w.key), .load w.word expect, .store s.word v] ∧
      u = .commit w.word new expect := by
  rcases hp.written hx with hw | ⟨_, _, he, hs⟩
  · cases hw
  cases he
  obtain ⟨w, expect, new, s, rfl, rfl⟩ := Op.scratches_tree hs
  rcases Op.storeIf_path hp with rfl | ⟨j, rfl⟩ | ⟨_, rfl⟩ | ⟨rfl, rfl⟩
  · cases hx
  · simp at hx
  · simp at hx
  · exact ⟨w, expect, new, s, rfl, rfl, rfl, rfl⟩

/-- An op with a scratch store has made it when it commits. -/
theorem Op.store_of_commit {x v r : Usize} {a : Acc} (hs : op.scratch = some (x, v))
    (hp : op.tree.Path log u) (hc : CritSec.Commits u a r) : Access.store x v ∈ log := by
  cases op with
  | storeIf w expect new s sideNew =>
    cases hs
    obtain ⟨_, hcom⟩ := Op.committed_of_ends (.commit hp hc)
    have happ : log ++ [a] = [_, _, _] ++ [_] := hcom
    obtain ⟨rfl, _⟩ := List.append_inj' happ rfl
    simp
  | _ => cases hs

theorem Op.scratch_of_side {x : Usize} (h : op.side.map Word.word = some x) :
    ∃ v, op.scratch = some (x, v) := by
  cases op with
  | storeIf w expect new s sideNew => cases h; exact ⟨_, rfl⟩
  | _ => cases h

end Effect

/-! ### What is known of an attempt -/

namespace Stage

variable {Tid : Type} {M : Machine Tid} {m : Mem} {c : Call} {u : Sec} {log : List Acc}
  {idx : Index → U32} {acc : List Acc}

/-- Where an attempt loads is not its side cell. -/
theorem Ok.sideAddr_ne (hok : Ok idx acc (.op c (.inside u) log))
    (hside : c.sideAddr ≠ some c.op.word.word) {x v : Usize} (hx : Access.load x v ∈ log) :
    c.sideAddr ≠ some x := by
  intro he
  obtain ⟨w, hs⟩ := Op.scratch_of_side he
  rw [Op.load_of_scratch hs hok.2.2.1 hx] at he
  exact hside he

/-- What an attempt has scratched is its side cell. -/
theorem Ok.scratch_of_store (hok : Ok idx acc (.op c (.inside u) log)) {x v : Usize}
    (hx : Access.store x v ∈ log) : c.op.scratch = some (x, v) := by
  rcases hok.2.2.1.written hx with hw | ⟨_, _, he, hs⟩
  · cases hw
  · cases he
    exact Op.scratch_of_scratches hs

/-- The index an attempt has read is that of its thread. -/
theorem Ok.index_eq (hok : Ok idx acc (.op c (.inside u) log)) {j : U32}
    (hj : Access.index j ∈ log) : j = idx c.K := by
  obtain ⟨-, -, hp, hidx⟩ := hok
  rcases CritSec.Path.confirm_cases (i := c.key) (e := Error.abort)
    c.op.body_indexFree hp with ⟨rfl, _⟩ | ⟨i, _, rfl, _⟩ | ⟨log', rfl, hb, _⟩
  · cases hj
  · cases List.mem_singleton.mp hj
    exact (hidx _ _ rfl).symm
  · rcases List.mem_cons.mp hj with he | hj
    · cases he
      exact (hidx _ _ rfl).symm
    · exact absurd hj ((c.op.body_indexFree.not_mem hb).1)

/-- **An attempt so far, in one go**: from a memory `m` that holds what it has loaded,
it leads to one that differs from `m` only where the attempt has scratched. -/
theorem Ok.consistent {m' : Mem} (hok : Ok idx acc (.op c (.inside u) log))
    (hload : ∀ x v, Access.load x v ∈ log → m x = v)
    (hstore : ∀ x v, Access.store x v ∈ log → m' x = v) :
    ∃ m₁, CritSec.Consistent (idx c.K) m log m₁ ∧ (∀ x, m₁ x = m x ∨ m₁ x = m' x) ∧
      (∀ x v, Access.store x v ∈ log → m₁ x = m' x) ∧
      ((∀ a ∈ log, a.written = none) → m₁ = m) := by
  -- accesses that only read are consistent with `m` and leave it as it is
  have hreads {log' : List Acc} (hsub : ∀ a ∈ log', a ∈ log ∧ a.written = none) :
      CritSec.Consistent (idx c.K) m log' m := by
    refine .of_reads fun a ha => ?_
    obtain ⟨ha, hw⟩ := hsub a ha
    refine ⟨hw, ?_⟩
    cases a with
    | index j => exact hok.index_eq ha
    | load x v => exact hload x v ha
    | store x v => cases hw
  by_cases hall : ∀ a ∈ log, a.written = none
  · refine ⟨m, hreads fun a ha => ⟨ha, hall a ha⟩, fun x => Or.inl rfl, fun x v hx => ?_,
      fun _ => rfl⟩
    cases hall _ hx
  · -- it is a `store_if` that has made its scratch store
    obtain ⟨a, ha, hw⟩ : ∃ a ∈ log, a.written ≠ none := by
      simpa only [not_forall, exists_prop] using hall
    obtain ⟨x, v, rfl, _⟩ := (hok.2.2.1.written ha).resolve_left hw
    obtain ⟨w, expect, new, side, _, rfl, rfl, _⟩ := Op.path_of_store hok.2.2.1 ha
    have hc : CritSec.Consistent (idx c.K) m
        ([.index (c.K.get w.key), .load w.word expect] ++ [.store side.word v]) _ :=
      (hreads (by simp [Access.written])).snoc trivial
    refine ⟨_, hc, fun y => ?_, fun y v' hy => ?_, fun h => absurd (h _ ha) nofun⟩
    · by_cases hy : y = side.word
      · subst hy
        exact Or.inr ((Function.update_self ..).trans (hstore _ _ ha).symm)
      · exact Or.inl (Function.update_of_ne hy _ _)
    · have he : y = side.word ∧ v' = v := by simpa using hy
      obtain ⟨rfl, rfl⟩ := he
      exact (Function.update_self ..).trans (hstore _ _ hy).symm

end Stage

end RseqRs
