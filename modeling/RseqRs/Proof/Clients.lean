import RseqRs.Proof.Ledger
import RseqRs.Proof.ListShape
import RseqRs.Proof.Program
import RseqRs.Proof.StalePointer

/-!
# Programs over the words of a region

A program that swaps and adds, on words it has got from a region, keeps books over them: an
access of such an op touches its word only (`Op.plain_access`), and a context is in a call of
the program or in none. So the books of the program balance in every reachable state
(`Program.books_run`), whatever else its jobs remember.
-/

namespace RseqRs

/-! ### Ops on one word -/

/-- The op touches its word only. -/
def Op.plain {K : Index} : Op K → Bool
  | .compareExchange _ _ _ | .fetchAdd _ _ => true
  | _ => false

section Accesses

variable {K : Index} {w : Word K} {u : Sec} {log : List Acc} {a : Acc}

/-- What `compare_exchange` accesses, with the one value it stores. -/
theorem Op.cas_access {expect new : Usize}
    (hp : ((Op.compareExchange w expect new).tree).Path log u) (ha : Accesses u a) :
    (∃ j, a = .index j) ∨ (∃ v, a = .load w.word v) ∨ a = .store w.word new := by
  rcases CritSec.Path.confirm_cases (i := K.get w.key) (e := Error.abort)
    (Op.body_indexFree _) hp with ⟨_, rfl⟩ | ⟨j, _, _, rfl⟩ | ⟨log, _, hp, _⟩
  · exact Or.inl ha.index
  · exact absurd ha Accesses.not_fail
  refine Or.inr ?_
  -- behind the check of the index: the load, then the commit or the miss
  rcases hp.head with ⟨_, rfl⟩ | ⟨_, _, log, hn, _, hp⟩
  · exact Or.inl ha.load
  cases hn with
  | load _ _ v =>
    replace hp :
        CritSec.Path (if v = expect then .commit w.word new v else .fail (.miss v)) log u := hp
    split at hp
    · rcases hp.head with ⟨_, rfl⟩ | ⟨_, _, _, hn, _⟩
      · exact Or.inr ha.commit
      · cases hn
    · rcases hp.head with ⟨_, rfl⟩ | ⟨_, _, _, hn, _⟩
      · exact absurd ha Accesses.not_fail
      · cases hn

/-- `fetch_add` loads and stores. -/
theorem Op.fetchAdd_access {count x : Usize} (hp : ((Op.fetchAdd w count).tree).Path log u)
    (ha : Accesses u a) (hx : a.touched = some x) : x = w.word := by
  rcases CritSec.Path.confirm_cases (i := K.get w.key) (e := Error.abort)
    (Op.body_indexFree _) hp with ⟨_, rfl⟩ | ⟨j, _, _, rfl⟩ | ⟨log, _, hp, _⟩
  · obtain ⟨j, rfl⟩ := ha.index
    cases hx
  · exact absurd ha Accesses.not_fail
  · exact Option.some_inj.mp (hx.symm.trans (fetchAddAt_slot hp ha).1)

theorem Op.plain_access {op : Op K} {x : Usize} (hplain : op.plain = true)
    (hp : op.tree.Path log u) (ha : Accesses u a) (hx : a.touched = some x) :
    x = op.word.word := by
  cases op with
  | compareExchange w expect new =>
    rcases Op.cas_access hp ha with ⟨j, rfl⟩ | ⟨v, rfl⟩ | rfl
    · cases hx
    · cases hx; rfl
    · cases hx; rfl
  | fetchAdd w count => exact Op.fetchAdd_access hp ha hx
  | _ => cases hplain

end Accesses

/-! ### The owners of the words -/

namespace Words

/-- The words of a region belong to their CPUs. -/
noncomputable def owner (ws : Words) (x : Usize) : Option Tag :=
  open Classical in
  if h : ∃ cpu, cpu < ws.cpus ∧ x = ws.addr cpu then some (.cpuId, h.choose) else none

variable {ws : Words}

theorem owner_addr {cpu : U32} (h : cpu < ws.cpus) :
    ws.owner (ws.addr cpu) = some (.cpuId, cpu) := by
  have hex : ∃ c, c < ws.cpus ∧ ws.addr cpu = ws.addr c := ⟨cpu, h, rfl⟩
  unfold owner
  rw [dif_pos hex, ← Words.addr_inj hex.choose_spec.2]

theorem owner_of_ne_none {x : Usize} (h : ws.owner x ≠ none) :
    ∃ cpu, cpu < ws.cpus ∧ x = ws.addr cpu := by
  unfold owner at h
  split at h
  · next hex => exact hex
  · exact absurd rfl h

end Words

/-! ### The books of a program -/

namespace Program

variable {P : Program} {Tid G : Type} [DecidableEq Tid] [AddCommGroup G] {M : Machine Tid}
  {U : Usize → Option Tag} {val : Mem → G} {gain : Call → Option G} {h : List (Label Tid)}
  {l : Label Tid} {p₀ p p' : Sys Tid M.img.Site × (Tid → List P.Job)}

/-- **The program keeps books**: its calls touch one word each, which has their key, and are
worth their gain; and nobody else writes a cell with a key. -/
structure Keeps (P : Program) (U : Usize → Option Tag) (val : Mem → G)
    (gain : Call → Option G) : Prop where
  plain : ∀ j c, P.calling j = some c → c.op.plain = true
  keyed : ∀ j c, P.calling j = some c → U c.op.word.word = some c.tag
  worth : ∀ j c, P.calling j = some c → ∃ g, gain c = some g ∧ c.Worth val g
  owns : ∀ x, U x ≠ none → P.Owns x

/-- An instruction of a program is one of a call of a job. -/
theorem accesses_of_exec {t : Tid} {d : ℕ} {b : Acc} {last : Bool} (hi : P.Initial M p₀)
    (hr : LTS.Run (P.Step M) p₀ h p) (hs : P.Step M p (.act t d (.exec (.acc b last))) p') :
    ∃ j c u log, P.calling j = some c ∧ (p.1.thr t).top.frame.called = some c ∧
      (Stage.tree c).Path log u ∧ Accesses u b ∧ p'.1.mem = b.apply p.1.mem := by
  obtain ⟨a, ha, hrel⟩ := refine_run hi.machine (run_machine hr)
  obtain ⟨a', hs', hrel'⟩ := refine_step hrel hs.1
  rw [hrel.mem, hrel'.mem]
  obtain ⟨_, _, c, st, st', log, htop, _, hst, _⟩ := hs'.exec
  obtain ⟨site, hf⟩ := hrel.frame htop
  have hcalled : (p.1.thr t).top.frame.called = some c := by rw [hf]; rfl
  have htop' : ctxAt (p.1.thr t).stack (p.1.thr t).depth = some (p.1.thr t).top := ctxAt_cons_self
  -- the job on top is in the call of the running context
  obtain ⟨j, _, hj⟩ := (fits_run hi hr).job htop'
  have hok := (Stage.inv_run p₀.1.initial_stages ha).top t
  rw [htop] at hok
  generalize a'.mem = m' at hst
  cases hst with
  | access hn _ =>
    exact ⟨j, c, _, _, hj.trans hcalled, hcalled, hok.2.2.1, Or.inl ⟨_, hn⟩, rfl⟩
  | commit hc =>
    exact ⟨j, c, _, _, hj.trans hcalled, hcalled, hok.2.2.1, Or.inr ⟨_, hc⟩, rfl⟩

/-- **One step** leaves a cell of the program alone, but for the accesses of its calls. -/
theorem mem_step {x : Usize} (hi : P.Initial M p₀) (hr : LTS.Run (P.Step M) p₀ h p)
    (hs : P.Step M p l p') (hx : P.Owns x) : p'.1.mem x = p.1.mem x ∨
      ∃ j c u log b, P.calling j = some c ∧ (Stage.tree c).Path log u ∧ Accesses u b ∧
        b.written = some x ∧ p'.1.mem x = b.apply p.1.mem x := by
  by_cases hw : ∃ t d b last, l = .act t d (.exec (.acc b last)) ∧ b.written = some x
  · obtain ⟨t, d, b, last, rfl, hb⟩ := hw
    obtain ⟨j, c, u, log, hj, _, hpath, hacc, hm⟩ := accesses_of_exec hi hr hs
    exact Or.inr ⟨j, c, u, log, b, hj, hpath, hacc, hb, congrFun hm x⟩
  · obtain ⟨a, ha, hrel⟩ := refine_run hi.machine (run_machine hr)
    obtain ⟨a', hs', hrel'⟩ := refine_step hrel hs.1
    rw [hrel.mem, hrel'.mem]
    -- nobody else writes what the program owns
    refine Or.inl (hs'.mem_eq (fun t d b last he hb => hw ⟨t, d, b, last, he, hb⟩) fun v he => ?_)
    have hm := hs.2
    generalize p'.2 = k' at hm
    subst he
    cases hm with
    | write hno => exact hno hx

/-- **One step** of a program that keeps books is in them. -/
theorem Keeps.inBooks (hk : P.Keeps U val gain) (hi : P.Initial M p₀)
    (hr : LTS.Run (P.Step M) p₀ h p) (hs : P.Step M p l p') : M.InBooks U val gain p.1 l := by
  have hm := hs.2
  cases l with
  | act t d act =>
    cases act with
    | exec o =>
      cases o with
      | acc b last =>
        intro x c site hx hf
        obtain ⟨j, c', u, log, hj, hc, hpath, hacc, _⟩ := accesses_of_exec hi hr hs
        rw [hf] at hc
        cases hc
        -- the op touches its word only, which has the key of the call
        obtain ⟨g, hg, _⟩ := hk.worth j c hj
        rw [Op.plain_access (hk.plain j c hj) hpath hacc hx, hk.keyed j c hj, hg]
        rfl
      | _ => trivial
    | call c =>
      intro g hg
      generalize p'.2 = k' at hm
      cases hm with
      | turn _ ht =>
        obtain ⟨g', hg', hw⟩ := hk.worth _ c (P.calling_turn _ _ _ _ _ ht)
        rw [hg] at hg'
        cases hg'
        exact hw
      | idle hidle => cases hidle
    | _ => trivial
  | fenceRun => trivial
  | write x v =>
    generalize p'.2 = k' at hm
    cases hm with
    | write hown => exact of_not_not fun hU => hown (hk.owns x hU)

theorem Keeps.run (hk : P.Keeps U val gain) (hi : P.Initial M p₀)
    (hr : LTS.Run (P.Step M) p₀ h p) :
    LTS.Run (fun s l s' => M.Step s l s' ∧ M.InBooks U val gain s l) p₀.1 h p.1 := by
  induction hr with
  | nil => exact .nil
  | cons hr hs ih => exact ih.cons ⟨hs.1, hk.inBooks hi hr hs⟩

/-- **The books of a program balance**, in every reachable state. -/
theorem books_run (hk : P.Keeps U val gain)
    (hval : ∀ m x y, U x = none → val (Function.update m x y) = val m) (hi : P.Initial M p₀)
    (hr : LTS.Run (P.Step M) p₀ h p) :
    Balances (M.unreturned gain h p.1) (val p.1.mem - val p₀.1.mem - earned gain h) :=
  unreturned_balances hval hi.machine (hk.run hi hr)

end Program

end RseqRs
