import RseqRs.Proof.AddAt
import RseqRs.Stage.Ledger

/-!
# The books balance

From the stage machine to the machine: an open position is a call that has committed once and
is still in flight. Counters are the first use: the stress tests add to the words of a region
with `fetch_add`, and count up with `compare_exchange`, `compare_exchange_if` and `store_if`,
and the sum of the words must be the number of calls that succeeded.
-/

namespace RseqRs

variable {Tid G : Type} [DecidableEq Tid] [AddCommGroup G] {M : Machine Tid}
  {U : Usize → Option Tag} {val : Mem → G} {gain : Call → Option G} {s₀ s : Sys Tid M.img.Site}
  {a : Stage.Sys Tid} {h : List (Label Tid)} {l : Label Tid}

omit [DecidableEq Tid] in
theorem Machine.InBooks.stage (hrel : s.Rel M a) (hl : M.InBooks U val gain s l) :
    Stage.InBooks U val gain a l := by
  cases l with
  | act t d act =>
    cases act with
    | exec o =>
      cases o with
      | acc b last =>
        intro x c st log hx htop
        obtain ⟨site, hf⟩ := hrel.frame htop
        exact hl x c site hx hf
      | _ => trivial
    | call c => exact hl
    | _ => trivial
  | fenceRun u e ev hit => trivial
  | write x v => exact hl

/-- A context in a word op has its call open, from the commit to the return. -/
theorem Machine.unreturned_op {i : Tid × ℕ} {z : Ctx M.img.Site} {c : Call} {site : M.img.Site}
    (hz : ctxAt (s.thr i.1).stack i.2 = some z) (hf : z.frame = .op c site) :
    M.unreturned gain h s i = if commitCount i.1 i.2 h = 1 then (gain c).getD 0 else 0 := by
  unfold unreturned
  rw [hz, Option.map_some, hf]

/-- A context in no word op has nothing open. -/
theorem Machine.unreturned_eq_zero {i : Tid × ℕ}
    (hno : ∀ z c site, ctxAt (s.thr i.1).stack i.2 = some z → z.frame ≠ .op c site) :
    M.unreturned gain h s i = 0 := by
  unfold unreturned
  cases hz : ctxAt (s.thr i.1).stack i.2 with
  | none => rfl
  | some z =>
    rw [Option.map_some]
    cases hf : z.frame with
    | op c site => exact absurd hf (hno z c site hz)
    | _ => rfl

/-- An open position of the stage machine is a call that has committed and not returned. -/
theorem unreturned_eq {a₀ : Stage.Sys Tid} (hi : Stage.Initial a₀)
    (hr : LTS.Run (Stage.SysStep M) a₀ h a) (hrel : s.Rel M a) (i : Tid × ℕ) :
    M.unreturned gain h s i = Stage.openOf gain (a.ctx i.1 i.2) := by
  obtain ⟨t, d⟩ := i
  by_cases hop : ∃ z c site, ctxAt (s.thr t).stack d = some z ∧ z.frame = .op c site
  · obtain ⟨z, c, site, hz, hf⟩ := hop
    rw [Machine.unreturned_op hz hf]
    obtain ⟨w, hw, hrelw⟩ := (hrel.thr t).ctx hz
    obtain ⟨st, log, _, rfl, _⟩ := hrelw.works hf
    have hcom := Stage.committed_run hi hr t d _ hw
    rw [show a.ctx t d = _ from hw]
    show (if commitCount t d h = 1 then (gain c).getD 0 else 0) = _
    -- it has committed just if it is past the commit
    cases st with
    | finishing r =>
      cases r with
      | ok v =>
        have hone : commitCount t d h = 1 := hcom
        exact if_pos hone
      | error e =>
        have hzero : commitCount t d h = 0 := hcom
        exact if_neg (by omega)
    | _ =>
      have hzero : commitCount t d h = 0 := hcom
      exact if_neg (by omega)
  · rw [Machine.unreturned_eq_zero fun z c site hz hf => hop ⟨z, c, site, hz, hf⟩]
    -- no word op is there in the stage machine either
    cases hw : a.ctx t d with
    | none => rfl
    | some w =>
      cases w with
      | op c st log =>
        obtain ⟨z, site, hz, hf⟩ := (hrel.thr t).frame hw
        exact absurd ⟨z, c, site, hz, hf⟩ hop
      | _ => rfl

omit [DecidableEq Tid] in
/-- Nothing is open at first, and nothing earned. -/
theorem Stage.Initial.books (hi : Stage.Initial a) :
    Stage.Books U val gain (val a.mem) ([] : List (Label Tid)) a := by
  refine ⟨nofun, hi.loadsHold, fun t c u log x v hr => ?_, ?_⟩
  · rw [hi.running t] at hr
    cases hr
  · have hzero : val a.mem - val a.mem - earned gain ([] : List (Label Tid)) = 0 := by
      show val a.mem - val a.mem - 0 = 0
      rw [sub_self, sub_zero]
    rw [hzero]
    refine .zero fun i => ?_
    cases hw : a.ctx i.1 i.2 with
    | none => rfl
    | some w =>
      rcases Stage.Sys.ctx_cases hw with ⟨_, htop⟩ | ⟨_, hb⟩
      · rw [hi.idle i.1] at htop; cases htop; rfl
      · rw [hi.below i.1] at hb; cases hb

/-- A run in the books, in the stage machine. -/
theorem stage_books (hval : ∀ m x y, U x = none → val (Function.update m x y) = val m)
    (hi : M.Initial s₀)
    (hr : LTS.Run (fun s l s' => M.Step s l s' ∧ M.InBooks U val gain s l) s₀ h s) :
    ∃ a, s.Rel M a ∧ LTS.Run (Stage.SysStep M) s₀.stages h a ∧
      Stage.Books U val gain (val s₀.mem) h a := by
  have hinit := s₀.initial_stages
  induction hr with
  | nil => exact ⟨_, hi.rel, .nil, hinit.books⟩
  | @cons h s s' l _ hs ih =>
    obtain ⟨a, hrel, ha, hbooks⟩ := ih
    obtain ⟨a', hs', hrel'⟩ := refine_step hrel hs.1
    exact ⟨a', hrel', ha.cons hs', hbooks.step (Stage.inv_run hinit ha)
      (Stage.called_run hinit ha) hval hs' (hs.2.stage hrel)⟩

/-- A run in the books, and what is open at its end. -/
theorem unreturned_balances (hval : ∀ m x y, U x = none → val (Function.update m x y) = val m)
    (hi : M.Initial s₀)
    (hr : LTS.Run (fun s l s' => M.Step s l s' ∧ M.InBooks U val gain s l) s₀ h s) :
    Balances (M.unreturned gain h s) (val s.mem - val s₀.mem - earned gain h) := by
  obtain ⟨a, hrel, ha, hbooks⟩ := stage_books hval hi hr
  rw [hrel.mem]
  exact hbooks.balance.congr fun i => unreturned_eq s₀.initial_stages ha hrel i

/-- **The books balance**, if the value depends on the cells with a key only. -/
theorem books_balance (M : Machine Tid) (U : Usize → Option Tag) (val : Mem → G)
    (gain : Call → Option G)
    (hval : ∀ m x y, U x = none → val (Function.update m x y) = val m) :
    M.BooksBalance U val gain := fun _ _ _ hi hr => unreturned_balances hval hi hr

/-- Where no call is in flight, no position is open. -/
theorem value_of_quiescent (hval : ∀ m x y, U x = none → val (Function.update m x y) = val m)
    (hi : M.Initial s₀)
    (hr : LTS.Run (fun s l s' => M.Step s l s' ∧ M.InBooks U val gain s l) s₀ h s)
    (hq : M.Quiescent s) : val s.mem = val s₀.mem + earned gain h := by
  have hzero := (unreturned_balances hval hi hr).total_eq_zero fun i =>
    Machine.unreturned_eq_zero fun _ _ _ hz => hq _ _ _ _ _ hz
  rw [sub_sub, sub_eq_zero] at hzero
  exact hzero

/-! ### Counters -/

section Counters

variable {A : Finset Usize}

omit [DecidableEq Tid] in
theorem sum_update {m : Mem} {x v : Usize} (hx : x ∈ A) :
    ∑ y ∈ A, Function.update m x v y = ∑ y ∈ A, m y + (v - m x) := sum_update_apply id hx

/-- **What a call adds to its word**, done in one go. -/
theorem Call.worth_increment {c : Call} {n : Usize} (hn : c.increment A = some n)
    (hside : ∀ x, c.sideAddr = some x → x ∉ A) :
    c.Worth (fun m => ∑ x ∈ A, m x) n := by
  obtain ⟨K, op⟩ := c
  have hmem : op.word.word ∈ A ∧ op.delta = some n := by
    unfold Call.increment at hn
    split at hn
    · next h => exact ⟨h, hn⟩
    · cases hn
  obtain ⟨hA, hd⟩ := hmem
  refine ⟨fun m r m' hrun => ?_, fun x v m y hs => ?_⟩
  · cases op with
    | compareExchange w expect new =>
      cases hd
      replace hA : w.word ∈ A := hA
      simp only [Op.run] at hrun
      split at hrun
      · next he =>
        cases hrun
        rw [sum_update hA, ← he]
      · cases hrun
    | compareExchangeIf w expect new o otherExpect =>
      cases hd
      replace hA : w.word ∈ A := hA
      simp only [Op.run] at hrun
      split at hrun
      · next he =>
        split at hrun
        · cases hrun
          rw [sum_update hA, ← he]
        · cases hrun
      · cases hrun
    | fetchAdd w count =>
      cases hd
      replace hA : w.word ∈ A := hA
      cases hrun
      rw [sum_update hA, add_sub_cancel_left]
    | storeIf w expect new side sideNew =>
      cases hd
      replace hA : w.word ∈ A := hA
      have hs : side.word ∉ A := hside _ rfl
      simp only [Op.run] at hrun
      split at hrun
      · next he =>
        cases hrun
        -- the side is no counter, so it is not the word
        have hne : w.word ≠ side.word := fun h => hs (h ▸ hA)
        rw [sum_update hA, Function.update_of_ne hne, Finset.sum_update_of_notMem hs, ← he]
      · cases hrun
    | loadIfNe w expectNot offset => cases hd
    | fetchAddAt p offset count => cases hd
  · exact Finset.sum_update_of_notMem (hside x (Op.sideAddr_of_scratch hs)) _ _

omit [DecidableEq Tid] in
theorem Machine.Counts.inBooks (hl : M.Counts U A s l) :
    M.InBooks U (fun m => ∑ x ∈ A, m x) (Call.increment A) s l := by
  cases l with
  | act t d act =>
    cases act with
    | exec o => cases o <;> exact hl
    | call c =>
      intro n hn
      exact Call.worth_increment hn fun x hx => hl x (by rw [hn]; nofun) hx
    | _ => trivial
  | fenceRun u e ev hit => trivial
  | write x v => exact hl

/-- **No increment is lost and none counts twice**, if the counters are keyed cells. -/
theorem counts_kept (M : Machine Tid) (U : Usize → Option Tag) (A : Finset Usize)
    (hA : ∀ x ∈ A, U x ≠ none) : M.CountsKept U A := by
  intro s₀ h s hi hr hq
  have hval : ∀ (m : Mem) x y, U x = none → ∑ z ∈ A, Function.update m x y z = ∑ z ∈ A, m z :=
    fun m x y hx => Finset.sum_update_of_notMem (fun hm => hA x hm hx) _ _
  exact value_of_quiescent hval hi (hr.mono fun _ _ _ hs => ⟨hs.1, hs.2.inBooks⟩) hq

/-- The step is no call but one under the key `τ` that increments `A` and has no side, and no
write from outside. -/
def Label.increments (A : Finset Usize) (τ : Tag) : Label Tid → Bool
  | .act _ _ (.call c) => decide (c.tag = τ ∧ c.increment A ≠ none ∧ c.sideAddr = none)
  | .write _ _ => false
  | _ => true

/-- A run in which nothing but `A` is used, under one key. -/
theorem counts_run {τ : Tag} (hi : M.Initial s₀) (hr : LTS.Run M.Step s₀ h s)
    (hall : ∀ l ∈ h, l.increments A τ = true) :
    LTS.Run (fun s l s' => M.Step s l s' ∧ M.Counts (fun _ => some τ) A s l) s₀ h s := by
  induction hr with
  | nil => exact .nil
  | @cons h s s' l hr hs ih =>
    have hold := fun l hm => hall l (List.mem_cons_of_mem _ hm)
    have hlast := hall l (List.mem_cons_self ..)
    refine .cons (ih hold) ⟨hs, ?_⟩
    cases l with
    | act t d act =>
      cases act with
      | exec o =>
        cases o with
        | acc a last =>
          -- the op in flight has been called
          intro x c site _ hf
          have hc := of_decide_eq_true (hold _ (frame_called hi hr (ctxAt_cons_self) hf))
          obtain ⟨n, hn⟩ := Option.ne_none_iff_exists'.mp hc.2.1
          rw [hn, ← hc.1]
          rfl
        | _ => trivial
      | call c =>
        intro x _ hx
        rw [(of_decide_eq_true hlast).2.2] at hx
        cases hx
      | _ => trivial
    | fenceRun u e ev hit => trivial
    | write x v => cases hlast

/-! #### Two threads on one counter -/

/-- `fetch_add(word, count)`. -/
def countCall (count : Usize) : Call := ⟨.cpuId, .fetchAdd (cpu0Word 0x8000) count⟩

def countPair : Machine Bool := pairMachine .aarch64 (.fetchAdd cpuIdOff)

instance : DecidableEq countPair.img.Site := inferInstanceAs (DecidableEq (Fin 1))

/-- One thread loads the counter and is preempted; the other adds on the same CPU; the first
restarts. -/
def countSchedule : List (Cmd Bool countPair.img.Site) :=
  [.resume false 0 0, .call false (countCall 1) soleSite, .exec false 9, .preempt false,
    .resume true 0 0, .call true (countCall 5) soleSite, .exec true 12, .ret true, .preempt true,
    .resume false 0 0, .exec false 11, .ret false]

/-- A schedule of these calls, as a run of the counter. -/
theorem count_run {ks : List (Cmd Bool countPair.img.Site)}
    {p : List (Label Bool) × Sys Bool countPair.img.Site}
    (hplay : countPair.play (countPair.boot fun _ => 0) ks = some p)
    (hall : p.1.all (Label.increments {0x8000} (.cpuId, 0)) = true) :
    LTS.Run (fun s l s' => countPair.Step s l s' ∧
      countPair.Counts (fun _ => some (.cpuId, 0)) {0x8000} s l)
      (countPair.boot fun _ => 0) p.1 p.2 :=
  counts_run (pairMachine_initial ..)
    (countPair.play_run (Image.ofSites_outside_zero _ _ one_site) hplay) (List.all_eq_true.mp hall)

/-- Both threads have committed, and one has not returned. -/
def countOpen : List (Label Bool) × Sys Bool countPair.img.Site :=
  (countPair.play (countPair.boot fun _ => 0) countSchedule.dropLast).get rfl

def countReturned : List (Label Bool) × Sys Bool countPair.img.Site :=
  (countPair.play (countPair.boot fun _ => 0) countSchedule).get rfl

theorem books_balance_countOpen :
    Balances (countPair.unreturned (Call.increment {0x8000}) countOpen.1 countOpen.2) 1 := by
  have hrun := count_run (p := countOpen) (Option.some_get _).symm (by decide +kernel)
  have hbooks := books_balance countPair (fun _ => some (.cpuId, 0)) (fun m => m 0x8000)
    (Call.increment {0x8000}) (fun _ _ _ => nofun) _ _ _ (pairMachine_initial ..)
    (hrun.mono fun _ _ _ hs => ⟨hs.1, by simpa using hs.2.inBooks⟩)
  have htotal : countOpen.2.mem 0x8000 - 0 - earned (Call.increment {0x8000}) countOpen.1 = 1 := by
    decide +kernel
  rw [← htotal]
  exact hbooks

theorem countReturned_quiescent : countPair.Quiescent countReturned.2 :=
  Machine.quiescent_of (fun t => by cases t <;> rfl) fun t => by cases t <;> rfl

/-- Both adds are there. -/
theorem counts_kept_countReturned : countReturned.2.mem 0x8000 = 6 := by
  have hrun := count_run (p := countReturned) (Option.some_get _).symm (by decide +kernel)
  have hkept := counts_kept countPair (fun _ => some (.cpuId, 0)) {0x8000} (fun _ _ => nofun)
    _ _ _ (pairMachine_initial ..) hrun countReturned_quiescent
  have hearned : earned (Call.increment {0x8000}) countReturned.1 = 6 := by decide +kernel
  rw [Finset.sum_singleton, Finset.sum_singleton, hearned] at hkept
  exact hkept

end Counters

end RseqRs
