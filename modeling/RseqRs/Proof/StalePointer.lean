import RseqRs.Stage.Owned
import RseqRs.Stage.Refine

/-!
# Pointer chases never follow a stale pointer

`load_if_ne` and `fetch_add_at` dereference what they have loaded. If the cells
they load the pointers from are written only by ops confirmed with the same key,
then at each dereference, of every attempt, the pointer is the current value of
its cell: a node that has been popped is not followed.
-/

namespace RseqRs

variable {Tid : Type} [DecidableEq Tid]

/-- The step writes a cell with an owner in `U` only by a word op confirmed with
that owner. -/
def Machine.Respects (M : Machine Tid) (U : Usize → Option Tag) (s : Sys Tid M.img.Site) :
    Label Tid → Prop
  | .act t _ (.exec (.acc a _)) => ∀ x c site τ, a.written = some x →
    (s.thr t).top.frame = .op c site → U x = some τ → c.tag = τ
  | .write x _ => U x = none
  | _ => True

/-- A step that respects the owners of the cells. -/
def Machine.StepUnder (M : Machine Tid) (U : Usize → Option Tag) (s : Sys Tid M.img.Site)
    (l : Label Tid) (s' : Sys Tid M.img.Site) : Prop :=
  M.Step s l s' ∧ M.Respects U s l

/-- The address a step writes. -/
def Label.written : Label Tid → Option Usize
  | .act _ _ (.exec (.acc a _)) => a.written
  | .write a _ => some a
  | _ => none

/-- An access of `load_if_ne` with memory `m`, by what its attempt has accessed
before. Where it dereferences `p + offset`, `word` still holds `p`. -/
inductive LoadIfNeAccess {K : Index} (m : Mem) (w : Word K) (expectNot offset : Usize) :
    List Acc → Acc → Prop
  | index (i : U32) : LoadIfNeAccess m w expectNot offset [] (.index i)
  | word (i : U32) (p : Usize) :
      LoadIfNeAccess m w expectNot offset [.index i] (.load w.word p)
  | chase (i : U32) (p v : Usize) : m w.word = p → p ≠ expectNot →
      LoadIfNeAccess m w expectNot offset [.index i, .load w.word p] (.load (p + offset) v)
  | commit (i : U32) (p v : Usize) :
      LoadIfNeAccess m w expectNot offset [.index i, .load w.word p, .load (p + offset) v]
        (.store w.word v)

/-- An access of `fetch_add_at` with memory `m`, by what its attempt has accessed
before. Where it dereferences `b + offset`, `ptr` still holds `b`; and where it
reads or adds through `slot`, the cell at `b + offset` still holds `slot`, if it
has the same owner. -/
inductive FetchAddAtAccess {K : Index} (m : Mem) (U : Usize → Option Tag) (ptr : Word K)
    (offset : Usize) : List Acc → Acc → Prop
  | index (i : U32) : FetchAddAtAccess m U ptr offset [] (.index i)
  | ptr (i : U32) (b : Usize) : FetchAddAtAccess m U ptr offset [.index i] (.load ptr.word b)
  | chase (i : U32) (b slot : Usize) : m ptr.word = b →
      FetchAddAtAccess m U ptr offset [.index i, .load ptr.word b] (.load (b + offset) slot)
  | slot (i : U32) (b slot : Usize) (rest : List Acc) (a : Acc) : a.touched = some slot →
      m ptr.word = b → (U (b + offset) = some ptr.tag → m (b + offset) = slot) →
      FetchAddAtAccess m U ptr offset
        (.index i :: .load ptr.word b :: .load (b + offset) slot :: rest) a

/-- In state `s`, after the history `h`, every access the two chasing ops can make
next dereferences only current pointers. -/
structure ChasesCurrent (M : Machine Tid) (U : Usize → Option Tag) (h : List (Label Tid))
    (s : Sys Tid M.img.Site) : Prop where
  loadIfNe : ∀ t d K (w : Word K) expectNot offset site a last s',
    (s.thr t).top.frame = .op ⟨K, .loadIfNe w expectNot offset⟩ site →
    M.Step s (.act t d (.exec (.acc a last))) s' → U w.word = some w.tag →
    LoadIfNeAccess s.mem w expectNot offset (attempt t d h) a
  fetchAddAt : ∀ t d K (ptr : Word K) offset count site a last s',
    (s.thr t).top.frame = .op ⟨K, .fetchAddAt ptr offset count⟩ site →
    M.Step s (.act t d (.exec (.acc a last))) s' → U ptr.word = some ptr.tag →
    FetchAddAtAccess s.mem U ptr offset (attempt t d h) a

/-! ### What the body of a chase does next -/

section Bodies

variable {K : Index} {w : Word K} {u u' : Sec} {a : Acc} {r : Usize}

/-- The next access of what is left of an attempt. -/
def Accesses (u : Sec) (a : Acc) : Prop :=
  (∃ u', CritSec.Next u a u') ∨ ∃ r, CritSec.Commits u a r

theorem Accesses.load {x : Usize} {k : Usize → Sec} (h : Accesses (.load x k) a) :
    ∃ v, a = .load x v := by
  rcases h with ⟨_, hn⟩ | ⟨_, hc⟩
  · cases hn; exact ⟨_, rfl⟩
  · cases hc

theorem Accesses.index {k : U32 → Sec} (h : Accesses (.index k) a) : ∃ i, a = .index i := by
  rcases h with ⟨_, hn⟩ | ⟨_, hc⟩
  · cases hn; exact ⟨_, rfl⟩
  · cases hc

theorem Accesses.commit {x v r : Usize} (h : Accesses (.commit x v r) a) : a = .store x v := by
  rcases h with ⟨_, hn⟩ | ⟨_, hc⟩
  · cases hn
  · cases hc; rfl

theorem Accesses.not_fail {e : Error} : ¬ Accesses (.fail e) a := by
  rintro (⟨_, hn⟩ | ⟨_, hc⟩)
  · cases hn
  · cases hc

/-- What memory `m` still holds of the loads in `log`. -/
def Holds (m : Mem) (U : Usize → Option Tag) (τ : Tag) (log : List Acc) : Prop :=
  ∀ x v, Access.load x v ∈ log → U x = some τ → (∀ w, Access.store x w ∉ log) → m x = v

variable {m : Mem} {U : Usize → Option Tag} {i : U32} {log : List Acc}

theorem loadIfNe_access {expectNot offset : Usize}
    (hp : ((Op.loadIfNe w expectNot offset).body).Path log u) (ha : Accesses u a)
    (hU : U w.word = some w.tag) (hm : Holds m U w.tag log) :
    LoadIfNeAccess m w expectNot offset (.index i :: log) a := by
  rcases hp.head with ⟨rfl, rfl⟩ | ⟨_, _, log, hn, rfl, hp⟩
  · obtain ⟨p, rfl⟩ := ha.load
    exact .word i p
  · cases hn with
    | load _ _ p =>
      -- the pointer is current as long as the attempt has not stored to its cell itself
      have hcur (h : ∀ w', Access.store w.word w' ∉ log) : m w.word = p :=
        hm _ _ (List.mem_cons_self ..) hU (by simpa using h)
      replace hp : CritSec.Path (if p = expectNot then .fail (.miss p)
        else .load (p + offset) fun v => .commit w.word v p) log u := hp
      split at hp
      · rcases hp.head with ⟨rfl, rfl⟩ | ⟨_, _, _, hn, _⟩
        · exact absurd ha Accesses.not_fail
        · cases hn
      · next hne =>
        rcases hp.head with ⟨rfl, rfl⟩ | ⟨_, _, log, hn, rfl, hp⟩
        · obtain ⟨v, rfl⟩ := ha.load
          exact .chase i p v (hcur (by simp)) hne
        · cases hn
          rcases hp.head with ⟨rfl, rfl⟩ | ⟨_, _, _, hn, _⟩
          · obtain rfl := ha.commit
            exact .commit i p _
          · cases hn

/-- What `fetch_add_at` does through `slot`: it reads and then stores. -/
theorem fetchAddAt_slot {slot count : Usize}
    (hp : CritSec.Path (.load slot fun prev => .commit slot (prev + count) prev : Sec) log u)
    (ha : Accesses u a) : a.touched = some slot ∧ ∀ x v, Access.store x v ∉ log := by
  rcases hp.head with ⟨rfl, rfl⟩ | ⟨_, _, log, hn, rfl, hp⟩
  · obtain ⟨v, rfl⟩ := ha.load
    exact ⟨rfl, fun _ _ => List.not_mem_nil⟩
  · cases hn
    rcases hp.head with ⟨rfl, rfl⟩ | ⟨_, _, _, hn, _⟩
    · obtain rfl := ha.commit
      exact ⟨rfl, by simp⟩
    · cases hn

theorem fetchAddAt_access {offset count : Usize}
    (hp : ((Op.fetchAddAt w offset count).body).Path log u) (ha : Accesses u a)
    (hU : U w.word = some w.tag) (hm : Holds m U w.tag log) :
    FetchAddAtAccess m U w offset (.index i :: log) a := by
  rcases hp.head with ⟨rfl, rfl⟩ | ⟨_, _, log, hn, rfl, hp⟩
  · obtain ⟨b, rfl⟩ := ha.load
    exact .ptr i b
  · cases hn with
    | load _ _ b =>
      -- likewise for the base
      have hcur (h : ∀ w', Access.store w.word w' ∉ log) : m w.word = b :=
        hm _ _ (List.mem_cons_self ..) hU (by simpa using h)
      rcases hp.head with ⟨rfl, rfl⟩ | ⟨_, _, log, hn, rfl, hp⟩
      · obtain ⟨v, rfl⟩ := ha.load
        exact .chase i b v (hcur (by simp))
      · cases hn with
        | load _ _ slot =>
          obtain ⟨htouch, hstore⟩ := fetchAddAt_slot hp ha
          refine .slot i b slot log a htouch (hcur (by simp [hstore])) fun hU' => ?_
          exact hm _ _ (List.mem_cons_of_mem _ (List.mem_cons_self ..)) hU' (by simp [hstore])

end Bodies

/-! ### The machine -/

variable {M : Machine Tid} {U : Usize → Option Tag} {s₀ s s' : Sys Tid M.img.Site}
  {h : List (Label Tid)} {a : Stage.Sys Tid} {l : Label Tid}

omit [DecidableEq Tid] in
theorem Sys.Rel.respects (hrel : s.Rel M a) (hr : M.Respects U s l) : Stage.Respects U a l := by
  cases l with
  | act t d act =>
    cases act with
    | exec o =>
      cases o with
      | acc acc last =>
        intro x c st log τ hw htop hU
        have hx := (hrel.thr t).top
        rw [htop] at hx
        obtain ⟨site, i, hc⟩ := hx
        exact hr x c site τ hw hc.frame hU
      | _ => trivial
    | _ => trivial
  | fenceRun => trivial
  | write x v => exact hr

/-- A run that respects the owners, in the stage machine: the loads of every
running attempt hold. -/
theorem owned_run (hi : M.Initial s₀) (hr : LTS.Run (M.StepUnder U) s₀ h s) :
    ∃ a, s.Rel M a ∧ Stage.Inv h a ∧ Stage.LoadsHold U a := by
  -- induction on the run: the stage machine takes the same steps, under the same owners
  induction hr with
  | nil =>
    exact ⟨_, hi.rel, s₀.initial_stages.inv, s₀.initial_stages.loadsHold⟩
  | cons _ hs ih =>
    obtain ⟨a, hrel, hinv, hl⟩ := ih
    obtain ⟨a', hstep, hrel'⟩ := refine_step hrel hs.1
    exact ⟨a', hrel', hinv.step hstep, hl.step hinv hstep (hrel.respects hs.2)⟩

/-- An access of an attempt: the index read, or one inside the body, after what
the memory still holds. -/
theorem access_cases {t : Tid} {d : ℕ} {c : Call} {site : M.img.Site} {acc : Acc} {last : Bool}
    (hrel : s.Rel M a) (hinv : Stage.Inv h a) (hl : Stage.LoadsHold U a)
    (hf : (s.thr t).top.frame = .op c site)
    (hs : M.Step s (.act t d (.exec (.acc acc last))) s') :
    (attempt t d h = [] ∧ ∃ i, acc = .index i) ∨
    ∃ log u, attempt t d h = .index c.key :: log ∧ c.op.body.Path log u ∧
      Accesses u acc ∧ Holds s.mem U c.tag log := by
  obtain ⟨st, st', log, m, rfl, hrun, htop, hstep⟩ := hrel.exec hf hs
  have hok := hinv.top t
  rw [htop, ← (hrel.thr t).depth] at hok
  obtain ⟨hlog, -, hst⟩ := hok
  cases st with
  | entering => cases hstep
  | finishing r => cases hstep
  | inside u =>
    have hacc : Accesses u acc := by
      cases hstep with
      | access hn _ => exact Or.inl ⟨_, hn⟩
      | commit hc => exact Or.inr ⟨_, hc⟩
    rw [← hlog]
    -- before the index, behind a wrong one, or confirmed
    rcases CritSec.Path.confirm_cases (i := c.key) (e := Error.abort)
      c.op.body_indexFree hst.1 with ⟨hnil, rfl⟩ | ⟨_, _, _, rfl⟩ | ⟨log', rfl, hp, _⟩
    · exact Or.inl ⟨hnil, hacc.index⟩
    · exact absurd hacc Accesses.not_fail
    · refine Or.inr ⟨log', u, rfl, hp, hacc, fun x v hm hU hstore => ?_⟩
      rw [hrel.mem]
      exact hl t c u _ hrun htop x v (List.mem_cons_of_mem _ hm) hU fun w hw =>
        hstore w ((List.mem_cons.mp hw).resolve_left nofun)

/-- **Pointer chases never follow a stale pointer**: whatever an attempt of
`load_if_ne` or `fetch_add_at` dereferences next, also one that is aborted later,
is the current value of the cell it was loaded from. -/
theorem chases_current (hi : M.Initial s₀) (hr : LTS.Run (M.StepUnder U) s₀ h s) :
    ChasesCurrent M U h s := by
  obtain ⟨b, hrel, hinv, hl⟩ := owned_run hi hr
  refine ⟨?_, ?_⟩
  · intro t d K w expectNot offset site acc last s' hf hs hU
    rcases access_cases hrel hinv hl hf hs with ⟨hlog, i, rfl⟩ | ⟨log, u, hlog, hp, hacc, hm⟩ <;>
      rw [hlog]
    · exact .index i
    · exact loadIfNe_access hp hacc hU hm
  · intro t d K ptr offset count site acc last s' hf hs hU
    rcases access_cases hrel hinv hl hf hs with ⟨hlog, i, rfl⟩ | ⟨log, u, hlog, hp, hacc, hm⟩ <;>
      rw [hlog]
    · exact .index i
    · exact fetchAddAt_access hp hacc hU hm

/-- Steps that write nothing respect all owners. -/
theorem run_under (hr : LTS.Run M.Step s₀ h s) (hw : h.all fun l => l.written.isNone) :
    LTS.Run (M.StepUnder U) s₀ h s := by
  induction hr with
  | nil => exact .nil
  | @cons h s s' l _ hs ih =>
    obtain ⟨hl, hw⟩ := Bool.and_eq_true_iff.mp (List.all_cons.symm.trans hw)
    refine .cons (ih hw) ⟨hs, ?_⟩
    replace hl : l.written = none := Option.isNone_iff_eq_none.mp hl
    cases l with
    | act t d act =>
      cases act with
      | exec o =>
        cases o with
        | acc acc last => exact fun x _ _ _ hx => by cases hl.symm.trans hx
        | _ => trivial
      | _ => trivial
    | fenceRun => trivial
    | write x v => cases hl

/-- One thread, and one call site of `load_if_ne` with a CPU key. -/
def popMachine : Machine Unit :=
  .ofSites .aarch64 (fun _ : Fin 1 => .loadIfNe cpuIdOff) Unit one_site

instance : DecidableEq popMachine.img.Site := inferInstanceAs (DecidableEq (Fin 1))

/-- `load_if_ne(word, 0, 8)`. -/
def popCall : Call := ⟨.cpuId, .loadIfNe (cpu0Word 0x8000) 0 8⟩

/-- A thread about to dereference the pointer it has loaded. -/
def popChase : List (Label Unit) × Sys Unit popMachine.img.Site :=
  (popMachine.alone (fun _ => 0x9000) () 0 0 popCall soleSite 11).get rfl

theorem popChase_run :
    LTS.Run popMachine.Step (popMachine.boot fun _ => 0x9000)
      (popChase.1 ++ [.act () 0 (.call popCall), .act () 0 (.resume 0 0)]) popChase.2 :=
  popMachine.alone_run soleSite rfl rfl (Option.some_get _).symm

/-- Its pointer is the current one. -/
theorem chases_current_popChase :
    (∃ s', popMachine.Step popChase.2
      (.act () 0 (.exec (.acc (.load 0x9008 0x9000) false))) s') ∧
    ChasesCurrent popMachine (fun _ => some (.cpuId, 0))
      (popChase.1 ++ [.act () 0 (.call popCall), .act () 0 (.resume 0 0)]) popChase.2 := by
  refine ⟨?_, chases_current (Machine.ofSites_initial _ _ _ _) (run_under popChase_run ?_)⟩
  · exact popMachine.solo_next rfl
  · decide

end RseqRs
