import RseqRs.Model.Steal
import RseqRs.Proof.AddAt
import RseqRs.Proof.ListShape

/-!
# Stealing

The fence that `steal_all` makes before its swap throws away the attempts that are inside
their section on that CPU; it does not keep new ones from starting. So the swap may still fall
between the load and the store of an add, and the store then puts back what was swapped out
(`not_steal_conserves`). Nothing else can go wrong: a word is written only by the adds of its
CPU, of which one runs at a time, and by the swaps. In a run where no add is torn by a swap
every add adds its count to what is there (`Balanced`), and every swap takes what is there.
-/

namespace RseqRs

theorem GoesOn.cons {Tid : Type} {t : Tid} {d : ℕ} {l : Label Tid} {h : List (Label Tid)}
    (h₁ : GoesOn t d h) (harm : l ≠ .act t d (.exec .arm))
    (hcall : ∀ c, l ≠ .act t d (.call c)) : GoesOn t d (l :: h) := by
  refine ⟨fun hm => ?_, fun c hm => ?_⟩
  · rcases List.mem_cons.mp hm with he | hm
    · exact harm he.symm
    · exact h₁.1 hm
  · rcases List.mem_cons.mp hm with he | hm
    · exact hcall c he.symm
    · exact h₁.2 c hm

section

variable {Tid : Type} [DecidableEq Tid] {t : Tid} {d : ℕ} {x v : Usize}

/-- What is torn stays torn. -/
theorem Torn.cons {h : List (Label Tid)} {l : Label Tid} (ht : Torn x h) : Torn x (l :: h) := by
  obtain ⟨h₃, h₂, h₁, t, d, b, v, w, rfl, ht⟩ := ht
  exact ⟨l :: h₃, h₂, h₁, t, d, b, v, w, rfl, ht⟩

/-- What an attempt has done is in the history. -/
theorem mem_of_attempt {a : Acc} {h : List (Label Tid)} (ha : a ∈ attempt t d h) :
    ∃ last, .act t d (.exec (.acc a last)) ∈ h := by
  induction h with
  | nil => cases ha
  | cons l h ih =>
    have hold (ha : a ∈ attempt t d h) : ∃ last, .act t d (.exec (.acc a last)) ∈ l :: h :=
      (ih ha).imp fun _ hm => List.mem_cons_of_mem _ hm
    cases l with
    | act u e act =>
      by_cases hu : u = t ∧ e = d
      · obtain ⟨rfl, rfl⟩ := hu
        rw [attempt_self] at ha
        cases act with
        | exec o =>
          cases o with
          | tau => exact hold ha
          | arm => cases ha
          | acc b last =>
            rcases List.mem_append.mp ha with ha | ha
            · exact hold ha
            · obtain rfl := List.mem_singleton.mp ha
              exact ⟨last, List.mem_cons_self ..⟩
        | call c => cases ha
        | _ => exact hold ha
      · rw [attempt, if_neg hu] at ha
        exact hold ha
    | _ => exact hold ha

end

namespace Steal

variable {Tid : Type} [DecidableEq Tid] {ws : Words} {M : Machine Tid}
  {a a' : Stage.Sys Tid} {k k' : Bench ws Tid} {s s' : Sys Tid M.img.Site}
  {h : List (Label Tid)} {l : Label Tid} {x v : Usize} {t : Tid} {d : ℕ} {τ : Tag}

/-! ### What an attempt has loaded -/

/-- The cell was written from outside since an attempt that still goes on loaded `v` from it,
and `v` is not zero. -/
def Stale (x : Usize) (t : Tid) (d : ℕ) (v : Usize) (h : List (Label Tid)) : Prop :=
  ∃ h₂ h₁ w, h = h₂ ++ .write x w :: h₁ ∧ .load x v ∈ attempt t d h₁ ∧ v ≠ 0 ∧ GoesOn t d h₂

theorem Stale.cons (h₁ : Stale x t d v h) (harm : l ≠ .act t d (.exec .arm))
    (hcall : ∀ c, l ≠ .act t d (.call c)) : Stale x t d v (l :: h) := by
  obtain ⟨h₂, h₁, w, rfl, hv, hne, hgo⟩ := h₁
  exact ⟨l :: h₂, h₁, w, rfl, hv, hne, hgo.cons harm hcall⟩

/-- What a running attempt of the owner has loaded from `x` is there, or is stale. -/
def LoadsOrStale (x : Usize) (τ : Tag) (h : List (Label Tid)) (a : Stage.Sys Tid) : Prop :=
  ∀ t c u log v, (a.thr t).running = true → (a.thr t).top = .op c (.inside u) log → c.tag = τ →
    .load x v ∈ log → (∀ w, .store x w ∉ log) →
      a.mem x = v ∨ Stale x t (a.thr t).depth v h

/-- **One step**: nobody but the owner, who runs, and the swaps write the cell. -/
theorem LoadsOrStale.step (hl : LoadsOrStale x τ h a) (hi : Stage.Inv h a)
    (hs : Stage.SysStep M a l a')
    (hresp : (∀ w, l ≠ .write x w) → Stage.Respects (Stage.ownedBy x τ) a l)
    (hzero : ∀ w, l = .write x w → w = 0) : LoadsOrStale x τ (l :: h) a' := by
  intro t c u log v hr htop htag hv hst
  obtain ⟨_, hdepth, hback⟩ := hi.inside_back hs hr htop
  rw [hdepth]
  cases hback with
  | kept hr₀ htop₀ hne =>
    by_cases hw : ∃ w, l = .write x w
    · obtain ⟨w, rfl⟩ := hw
      obtain rfl := hzero w rfl
      by_cases hv₀ : v = 0
      · -- a swap that puts back what was loaded
        subst hv₀
        cases hs
        exact Or.inl (Function.update_self ..)
      · have hok := hi.top t
        rw [htop₀] at hok
        exact Or.inr ⟨[], h, 0, rfl, hok.1 ▸ hv, hv₀, List.not_mem_nil, fun _ => List.not_mem_nil⟩
    · have hmem := hi.mem_kept hs (hresp fun w he => hw ⟨w, he⟩) hr₀ htop₀ hne hv
        (by rw [htag]; exact if_pos rfl)
      rw [hmem]
      exact (hl t c u log v hr₀ htop₀ htag hv hst).imp_right fun hs =>
        hs.cons (hne _ _) fun c => hne _ _
  -- an attempt that starts has loaded nothing
  | armed hnil => rw [hnil] at hv; cases hv
  | tau hr₀ htop₀ hm he =>
    subst he
    rw [hm]
    exact (hl t c u log v hr₀ htop₀ htag hv hst).imp_right fun hs => hs.cons nofun nofun
  | @access u₀ log₀ b hr₀ htop₀ hn hread hlog hm he =>
    subst hlog he
    rw [hm]
    rcases List.mem_append.mp hv with hv | hv
    · -- an earlier load, from a cell this access does not store to
      have hold := hl t c u₀ log₀ v hr₀ htop₀ htag hv fun w hw => hst w (List.mem_append_left _ hw)
      have hsame : b.apply a.mem x = a.mem x := by
        cases b with
        | store y w =>
          refine Function.update_of_ne (fun he => hst w ?_) _ _
          subst he
          exact List.mem_append_right _ (List.mem_singleton_self _)
        | index j => rfl
        | load y w => rfl
      rw [hsame]
      exact hold.imp_right fun hs => hs.cons nofun nofun
    · obtain rfl := List.mem_singleton.mp hv
      exact Or.inl hread

/-! ### What the adds write -/

section Written

variable {w : ws.Picked} {n y : Usize}

omit [DecidableEq Tid] in
theorem picked_eq (w : ws.Picked) :
    w.1.key.id < ws.cpus ∧ w.1.word = ws.addr w.1.key.id := by
  obtain ⟨w, cpu, hw⟩ := w
  obtain ⟨hlt, rfl⟩ := Words.get_eq_some hw
  exact ⟨hlt, rfl⟩

/-- An add that has committed has written its word, and nothing else. -/
theorem wrote_addCall {log : List Acc} {r : Usize}
    (h : (addCall n w).op.tree.Ends log (.ok r)) : wrote y log = decide (y = w.1.word) := by
  obtain rfl : log = [_, _, _] := Op.committed_of_ends h
  simp [wrote, Access.written, eq_comm]

/-- Every call is an add to a word. -/
def AddsOnly (ws : Words) (h : List (Label Tid)) : Prop :=
  ∀ t d c, .act t d (.call c) ∈ h → ∃ n, ∃ w : ws.Picked, c = addCall n w

theorem AddsOnly.step (hc : AddsOnly ws h) (hm : Moves ws M s k l k') : AddsOnly ws (l :: h) := by
  intro t d c hmem
  rcases List.mem_cons.mp hmem with rfl | hmem
  · cases hm with
    | turn hj ht => cases ht; exact ⟨_, _, rfl⟩
    | idle hi => cases hi
  · exact hc t d c hmem

/-- **Who writes a word**: the commits of the adds of its CPU. -/
theorem AddsOnly.written {s₀ : Stage.Sys Tid} {b : Acc} {last : Bool} {cpu : U32}
    (hc : AddsOnly ws h) (hi : Stage.Initial s₀) (hr : LTS.Run (Stage.SysStep M) s₀ h a)
    (hs : Stage.SysStep M a (.act t d (.exec (.acc b last))) a')
    (hb : b.written = some (ws.addr cpu)) :
    last = true ∧ d = (a.thr t).depth ∧ (a.thr t).running = true ∧ ∃ c u log,
      (a.thr t).top = .op c (.inside u) log ∧ c.op.count ≠ none ∧ c.tag = (.cpuId, cpu) ∧
      wrote (ws.addr cpu) log = false := by
  obtain ⟨rfl, hrun, c, st, st', log, htop, _, hst, _⟩ := hs.exec
  obtain ⟨n, w, rfl⟩ := hc _ _ _ (Stage.called_run hi hr t _ c st log (htop ▸ a.ctx_depth t))
  -- only its commit writes, and it writes its word
  have hok := (Stage.inv_run hi hr).top t
  rw [htop] at hok
  have hcount : (addCall n w).op.count = some n := rfl
  obtain ⟨rfl, _, u, r, rfl, _, hends, _⟩ := hok.commits hst hcount hb
  have hword : ws.addr cpu = w.1.word := by
    have hw := (wrote_addCall (y := ws.addr cpu) hends).symm
    have htrue : wrote (ws.addr cpu) (log ++ [b]) = true := by simp [wrote, hb]
    exact of_decide_eq_true (hw.trans htrue)
  refine ⟨rfl, rfl, hrun, _, u, log, htop, Option.ne_none_iff_exists'.mpr ⟨n, hcount⟩, ?_,
    hok.not_wrote hcount⟩
  obtain rfl : cpu = w.1.key.id := Words.addr_inj (hword.trans (picked_eq w).2)
  rfl

end Written

/-! ### The account -/

/-- The word in a slot. -/
def cell (ws : Words) (i : ℕ) : Usize := ws.addr (BitVec.ofNat 32 i)

omit [DecidableEq Tid] in
theorem ofNat_lt {i : ℕ} (hi : i < ws.cpus.toNat) : BitVec.ofNat 32 i < ws.cpus := by
  have hlt := ws.cpus.isLt
  rw [BitVec.lt_def, BitVec.toNat_ofNat, Nat.mod_eq_of_lt (by omega)]
  exact hi

omit [DecidableEq Tid] in
theorem cell_inj {i j : ℕ} (hi : i < ws.cpus.toNat) (hj : j < ws.cpus.toNat)
    (h : cell ws i = cell ws j) : i = j := by
  have hlt := ws.cpus.isLt
  have he := congrArg BitVec.toNat (Words.addr_inj h)
  rw [BitVec.toNat_ofNat, BitVec.toNat_ofNat, Nat.mod_eq_of_lt (by omega),
    Nat.mod_eq_of_lt (by omega)] at he
  exact he

omit [DecidableEq Tid] in
theorem cell_toNat (cpu : U32) : cell ws cpu.toNat = ws.addr cpu := by
  rw [cell, BitVec.ofNat_toNat, BitVec.setWidth_eq]

/-- **The invariant** of the bench. -/
structure Account (ws : Words) (h : List (Label Tid)) (a : Stage.Sys Tid) (k : Bench ws Tid) :
    Prop where
  calls : AddsOnly ws h
  loads : ∀ cpu, cpu < ws.cpus → LoadsOrStale (ws.addr cpu) (.cpuId, cpu) h a
  /-- each add went to one of the words -/
  sums : ∑ i ∈ Finset.range ws.cpus.toNat, added (cell ws i) h = returned h
  /-- what a word lacks of its adds has been swapped out -/
  balance : ∃ base : ℕ → Usize,
    (∀ i, i < ws.cpus.toNat → Stage.Balanced (cell ws i) (base i) h a) ∧
      k.stolen + ∑ i ∈ Finset.range ws.cpus.toNat, base i = 0

/-- A step swaps a word out, or writes none from outside. -/
theorem Moves.swaps (hm : Moves ws M s k l k') :
    (∃ i, i < ws.cpus.toNat ∧ l = .write (cell ws i) 0 ∧
      k'.stolen = k.stolen + s.mem (cell ws i)) ∨
    ((∀ i, i < ws.cpus.toNat → ∀ v, l ≠ .write (cell ws i) v) ∧ k'.stolen = k.stolen) := by
  cases hm with
  | turn _ _ => exact Or.inr ⟨nofun, rfl⟩
  | idle _ => exact Or.inr ⟨nofun, rfl⟩
  | signal => exact Or.inr ⟨nofun, rfl⟩
  | sigreturn _ => exact Or.inr ⟨nofun, rfl⟩
  | fenceRun => exact Or.inr ⟨nofun, rfl⟩
  | @swap t raw cpu w js _ _ _ hget =>
    obtain ⟨hlt, rfl⟩ := Words.get_eq_some hget
    refine Or.inl ⟨(Index.get .cpuId cpu).toNat, BitVec.lt_def.mp hlt, ?_, ?_⟩
    · rw [cell_toNat]
    · rw [cell_toNat]
  | write hne =>
    refine Or.inr ⟨fun i hi v he => ?_, rfl⟩
    cases he
    exact hne _ (ofNat_lt hi) rfl

/-- What a return adds to the words, it adds to one of them. -/
theorem sum_added (hsum : ∑ i ∈ Finset.range ws.cpus.toNat, added (cell ws i) h = returned h)
    (hret : ∀ t d c r, l = .act t d (.ret c (.ok r)) → ∃ n, ∃ w : ws.Picked, c = addCall n w ∧
      ∀ y, wrote y (attempt t d h) = decide (y = w.1.word)) :
    ∑ i ∈ Finset.range ws.cpus.toNat, added (cell ws i) (l :: h) = returned (l :: h) := by
  cases l with
  | act t d act =>
    cases act with
    | ret c res =>
      cases res with
      | ok r =>
        obtain ⟨n, w, rfl, hw⟩ := hret t d c r rfl
        -- one word is written, the one the add has picked
        obtain ⟨hlt, haddr⟩ := picked_eq w
        have hmem : w.1.key.id.toNat ∈ Finset.range ws.cpus.toNat :=
          Finset.mem_range.mpr (BitVec.lt_def.mp hlt)
        have hone : ∑ i ∈ Finset.range ws.cpus.toNat,
            (if wrote (cell ws i) (attempt t d h) then (addCall n w).adds else 0) = n := by
          rw [Finset.sum_eq_single_of_mem _ hmem]
          · rw [cell_toNat, hw, haddr, decide_eq_true rfl]
            rfl
          · intro i hi hne
            rw [hw, decide_eq_false fun he => hne ?_]
            · rfl
            · rw [haddr, ← cell_toNat] at he
              exact cell_inj (Finset.mem_range.mp hi) (Finset.mem_range.mp hmem) he
        calc ∑ i ∈ Finset.range ws.cpus.toNat,
              ((if wrote (cell ws i) (attempt t d h) then (addCall n w).adds else 0) +
                added (cell ws i) h)
            = n + returned h := by rw [Finset.sum_add_distrib, hone, hsum]
          _ = returned (.act t d (.ret (addCall n w) (.ok r)) :: h) := rfl
      | error e => exact hsum
    | _ => exact hsum
  | _ => exact hsum

/-- **One step** that tears no add keeps the account. -/
theorem Account.step {s₀ : Stage.Sys Tid} (ha : Account ws h a k) (hi : Stage.Initial s₀)
    (hr : LTS.Run (Stage.SysStep M) s₀ h a) (hrel : s.mem = a.mem)
    (hs : Stage.SysStep M a l a') (hm : Moves ws M s k l k')
    (htorn : ∀ cpu, cpu < ws.cpus → ¬ Torn (ws.addr cpu) (l :: h)) :
    Account ws (l :: h) a' k' := by
  have hinv := Stage.inv_run hi hr
  have hswaps := hm.swaps
  have hzero (cpu : U32) (hcpu : cpu < ws.cpus) (w : Usize) (he : l = .write (ws.addr cpu) w) :
      w = 0 := by
    rcases hswaps with ⟨i, _, rfl, _⟩ | ⟨hno, _⟩
    · exact (Label.write.inj he).2.symm
    · rw [← cell_toNat] at he
      exact absurd he (hno _ (BitVec.lt_def.mp hcpu) w)
  -- a word is written by the adds of its CPU, and they find what they have loaded
  have hresp (cpu : U32) (hw : ∀ w, l ≠ .write (ws.addr cpu) w) :
      Stage.Respects (Stage.ownedBy (ws.addr cpu) (.cpuId, cpu)) a l := by
    refine Stage.respects_ownedBy (fun t d b last he hb c st log htop => ?_) hw
    subst he
    obtain ⟨_, _, _, c', u, log', htop', _, htag, _⟩ := ha.calls.written hi hr hs hb
    rw [htop] at htop'
    cases htop'
    exact htag
  have hadding (cpu : U32) (hcpu : cpu < ws.cpus) : Stage.Adding (ws.addr cpu) a l := by
    refine Stage.adding_of fun t d b last he hb c st log htop => ?_
    subst he
    obtain ⟨rfl, rfl, hrun, c', u', log', htop', hcount, htag, hno⟩ := ha.calls.written hi hr hs hb
    rw [htop] at htop'
    cases htop'
    refine ⟨hcount, ?_⟩
    intro u v he hv
    cases he
    have hnost : ∀ w, .store (ws.addr cpu) w ∉ log := fun w hw =>
      absurd (decide_eq_true rfl) (List.any_eq_false.mp hno _ hw)
    -- what it has loaded is there, or the add is torn by the swap that made it stale
    refine (ha.loads cpu hcpu t c u' log v hrun htop htag hv hnost).resolve_right ?_
    rintro ⟨h₂, h₁, w, rfl, hload, hne, hgo⟩
    exact htorn cpu hcpu ⟨[], h₂, h₁, t, _, b, v, w, rfl, hb, hload, hne, hgo⟩
  refine ⟨ha.calls.step hm, fun cpu hcpu => ?_, ?_, ?_⟩
  · exact (ha.loads cpu hcpu).step hinv hs (hresp cpu) (hzero cpu hcpu)
  · refine sum_added ha.sums fun t d c r he => ?_
    subst he
    obtain ⟨rfl, ⟨log, htop⟩ | ⟨_, he⟩⟩ := hs.ret
    swap; · cases he
    obtain ⟨n, w, rfl⟩ :=
      ha.calls _ _ _ (Stage.called_run hi hr t _ c _ log (htop ▸ a.ctx_depth t))
    have hok := hinv.top t
    rw [htop] at hok
    obtain ⟨rfl, _, hends⟩ := hok
    exact ⟨n, w, rfl, fun y => wrote_addCall hends⟩
  · obtain ⟨base, hbal, hsum⟩ := ha.balance
    have hkeep (i : ℕ) (hi' : i < ws.cpus.toNat) (hw : ∀ v, l ≠ .write (cell ws i) v) :
        Stage.Balanced (cell ws i) (base i) (l :: h) a' :=
      (hbal i hi').step hinv hs (hadding _ (ofNat_lt hi')) hw
    -- a swap moves what it finds from the word to the stolen count
    rcases hswaps with ⟨i, hi', rfl, hst⟩ | ⟨hno, hst⟩
    · -- the base of the word that is swapped out goes down by what it held
      refine ⟨Function.update base i (base i + (0 - a.mem (cell ws i))), fun j hj => ?_, ?_⟩
      · by_cases hji : j = i
        · subst hji
          rw [Function.update_self]
          exact (hbal j hj).write hs
        · rw [Function.update_of_ne hji]
          exact hkeep j hj fun v he => hji (cell_inj hj hi' (Label.write.inj he).1.symm)
      · rw [Finset.sum_update_of_mem (Finset.mem_range.mpr hi'), hst, hrel]
        have hsplit := Finset.sum_sdiff_eq_sub
          (Finset.singleton_subset_iff.mpr (Finset.mem_range.mpr hi')) (f := base)
        rw [Finset.sum_singleton] at hsplit
        rw [hsplit]
        linear_combination hsum
    · exact ⟨base, fun i hi' => hkeep i hi' (hno i hi'), by rw [hst]; exact hsum⟩

/-! ### Runs -/

section Runs

variable {s₀ s₁ : Sys Tid M.img.Site × Bench ws Tid}

/-- The account of a run that tears no add. -/
theorem account_run (hi : Initial ws M s₀) (hr : LTS.Run (Step ws M) s₀ h s₁)
    (htorn : ∀ cpu, cpu < ws.cpus → ¬ Torn (ws.addr cpu) h) :
    ∃ a, s₁.1.Rel M a ∧ LTS.Run (Stage.SysStep M) s₀.1.stages h a ∧ Account ws h a s₁.2 := by
  have hinit := s₀.1.initial_stages
  induction hr with
  | nil =>
    refine ⟨_, hi.machine.rel, .nil, ⟨nofun, fun _ _ => ?_, ?_, fun _ => 0, fun i hi' => ?_, ?_⟩⟩
    · intro t _ _ _ _ hr
      -- no thread runs yet
      rw [hinit.running t] at hr
      cases hr
    · simp [added, returned]
    · have hzero : s₀.1.stages.mem (cell ws i) = 0 := hi.zero _ (ofNat_lt hi')
      rw [← hzero]
      exact hinit.balanced
    · simp [hi.stolen]
  | @cons h s₁ s₂ l hr hs ih =>
    obtain ⟨a, hrel, hrun, hacc⟩ := ih fun cpu hcpu ht => htorn cpu hcpu ht.cons
    obtain ⟨a', hs', hrel'⟩ := refine_step hrel hs.1
    exact ⟨a', hrel', hrun.cons hs', hacc.step hinit hrun hrel.mem hs' hs.2 htorn⟩

/-- **Stealing conserves counts** where no add is torn, on either target. -/
theorem steal_conserves (ws : Words) (M : Machine Tid) : Steal.Conserves ws M fun h =>
    ∀ cpu, cpu < ws.cpus → ¬ Torn (ws.addr cpu) h := by
  intro s₀ h s₁ hi hr htorn hq
  obtain ⟨a, hrel, _, hacc⟩ := account_run hi hr htorn
  obtain ⟨base, hbal, hsum⟩ := hacc.balance
  have htotal : ws.total s₁.1.mem =
      ∑ i ∈ Finset.range ws.cpus.toNat, base i +
        ∑ i ∈ Finset.range ws.cpus.toNat, added (cell ws i) h := by
    rw [← Finset.sum_add_distrib]
    exact Finset.sum_congr rfl fun i hi' => hq.sum (hbal i (Finset.mem_range.mp hi')) hrel
  calc s₁.2.stolen + ws.total s₁.1.mem
      = s₁.2.stolen + ∑ i ∈ Finset.range ws.cpus.toNat, base i + returned h := by
        rw [htotal, hacc.sums, add_assoc]
    _ = returned h := by rw [hsum, zero_add]

end Runs

/-! ### A torn add -/

def stealPair (arch : Arch) : Machine Bool := pairMachine arch (.fetchAdd cpuIdOff)

instance (arch : Arch) : DecidableEq (stealPair arch).img.Site :=
  inferInstanceAs (DecidableEq (Fin 1))

def stealSite (arch : Arch) : (stealPair arch).img.Site := soleSite

def stealWords : Words := ⟨0x8000, 2⟩

/-- The word of each CPU. -/
def word0 : stealWords.Picked := ⟨⟨0x8000, pairCpuId false⟩, pairCpuId false, rfl⟩

def word1 : stealWords.Picked := ⟨⟨0x8008, pairCpuId true⟩, pairCpuId true, rfl⟩

/-- Two threads, and what has been swapped out. -/
def stealBench (jobs : Bool → Job stealWords) (stolen : Usize) : Bench stealWords Bool :=
  ⟨fun t => [jobs t], stolen⟩

theorem stealBench_jobs {jobs : Bool → Job stealWords} {t : Bool} {j : Job stealWords} :
    Function.update (fun u => [jobs u]) t [j] = fun u => [Function.update jobs t j u] := by
  funext u
  by_cases hu : u = t
  · subst hu
    rw [Function.update_self, Function.update_self]
  · rw [Function.update_of_ne hu, Function.update_of_ne hu]

section Bench

variable {arch : Arch} {s : Sys Bool (stealPair arch).img.Site} {t : Bool}
  {jobs : Bool → Job stealWords} {n : Usize}

theorem stealBench_turn {d : ℕ} {act : Act} {j : Job stealWords}
    (ht : Turn stealWords (stealPair arch).cpus (s.thr t).area act (jobs t) j) :
    Moves stealWords (stealPair arch) s (stealBench jobs n) (.act t d act)
      (stealBench (Function.update jobs t j) n) := by
  have hm : Moves stealWords (stealPair arch) s (stealBench jobs n) (.act t d act)
      ⟨Function.update (fun u => [jobs u]) t [j], n⟩ := .turn rfl ht
  rwa [stealBench_jobs] at hm

theorem stealBench_swap {raw : U32} {cpu : CpuId} {w : Word .cpuId}
    (hr : (s.thr t).running = true) (hf : (s.thr t).top.frame = .idle)
    (hj : jobs t = .fenced raw cpu) (hw : stealWords.get (K := .cpuId) cpu = some w) :
    Moves stealWords (stealPair arch) s (stealBench jobs n) (.write w.word 0)
      (stealBench (Function.update jobs t (.steal (raw + 1))) (n + s.mem w.word)) := by
  have hm : Moves stealWords (stealPair arch) s (stealBench jobs n) (.write w.word 0)
      ⟨Function.update (fun u => [jobs u]) t [.steal (raw + 1)], n + s.mem w.word⟩ :=
    .swap hr hf (congrArg (fun j => [j]) hj) hw
  rwa [stealBench_jobs] at hm

/-- The bench as it starts. -/
theorem stealBench_initial (arch : Arch) : Initial stealWords (stealPair arch)
    ((stealPair arch).boot (fun _ => 0), stealBench (fun _ => .rest) 0) :=
  ⟨pairMachine_initial .., fun _ => rfl, rfl, fun _ _ => rfl⟩

end Bench

/-- The instructions of an add. -/
def addSteps : Arch → ℕ
  | .x86 => 11
  | .aarch64 => 12

/-- The adder has added once and is inside its section again when the drainer fences its CPU.
It starts over, and after `j` instructions the drainer swaps; then it goes on to its end and
returns. The drainer goes on to the other CPU and is done. -/
def stealSchedule (arch : Arch) (j : ℕ) : List (Cmd Bool (stealPair arch).img.Site) :=
  [.resume false 0 0, .resume true 1 1,
    .goto false, .goto false, .call false (addCall 1 word0) (stealSite arch),
    .exec false (addSteps arch), .ret false,
    .goto false, .goto false, .call false (addCall 1 word0) (stealSite arch), .exec false 4,
    .goto true, .fenceCall true (.fence (pairCpuId false)), .fenceRun true (.init true),
    .fenceRun true (.barrier .ok), .fenceRun true .store, .exec false j, .fenceRet true,
    .write 0x8000 0, .exec false (addSteps arch - 1 - j), .ret false,
    .fenceCall true (.fence (pairCpuId true)), .fenceRun true .ready,
    .fenceRun true (.barrier .ok), .fenceRun true .store, .fenceRet true, .write 0x8008 0,
    .goto true]

/-- The bench follows the schedule and swaps out the first add, be it before the attempt that
the fence has sent back or after its load. -/
theorem stealSchedule_plays (arch : Arch) (torn : Bool) : ∃ k, k.stolen = 1 ∧
    Machine.Plays (stealPair arch) (Moves stealWords (stealPair arch)) Label.idles
      ((stealPair arch).boot fun _ => 0) (stealBench (fun _ => .rest) 0)
      (stealSchedule arch (if torn then 7 else 0)) k := by
  have hpick : CpuId.new 0 = some (pairCpuId false) := rfl
  cases arch <;> cases torn <;>
  exact ⟨stealBench _ 1, rfl, .quiet (by decide +kernel) <| .quiet (by decide +kernel) <|
    -- the first add
    .turn rfl (stealBench_turn (.add 1)) <| .turn rfl (stealBench_turn (.pick hpick rfl)) <|
    .turn rfl (stealBench_turn .addCall) <| .quiet (by decide +kernel) <|
    .turn (show _ = some [.act false 0 (.ret (addCall 1 word0) (.ok _))] from rfl)
      (stealBench_turn .added) <|
    -- the second, up to its descriptor
    .turn rfl (stealBench_turn (.add 1)) <| .turn rfl (stealBench_turn (.pick hpick rfl)) <|
    .turn rfl (stealBench_turn .addCall) <| .quiet (by decide +kernel) <|
    -- the fence, which sends it back
    .turn rfl (stealBench_turn .steal) <|
    .turn rfl (stealBench_turn (.fence (by decide) hpick)) <|
    .quiet (by decide +kernel) <| .quiet (by decide +kernel) <| .quiet (by decide +kernel) <|
    .quiet (by decide +kernel) <|
    -- the swap, and its store
    .turn rfl (stealBench_turn .fenced) <|
    .turn rfl (stealBench_swap (t := true) (w := word0.1) rfl rfl rfl rfl) <|
    .quiet (by decide +kernel) <|
    .turn (show _ = some [.act false 0 (.ret (addCall 1 word0) (.ok _))] from rfl)
      (stealBench_turn .added) <|
    -- the other CPU
    .turn rfl (stealBench_turn (.fence (by decide) rfl)) <| .quiet (by decide +kernel) <|
    .quiet (by decide +kernel) <| .quiet (by decide +kernel) <|
    .turn rfl (stealBench_turn .fenced) <|
    .turn rfl (stealBench_swap (t := true) (w := word1.1) rfl rfl rfl rfl) <|
    .turn rfl (stealBench_turn (.done (by decide))) .nil⟩

/-- Where the schedule ends. -/
def stealEnd (arch : Arch) (torn : Bool) : List (Label Bool) × Sys Bool (stealPair arch).img.Site :=
  ((stealPair arch).play ((stealPair arch).boot fun _ => 0)
    (stealSchedule arch (if torn then 7 else 0))).getD ([], (stealPair arch).boot fun _ => 0)

theorem stealEnd_run (arch : Arch) (torn : Bool) : ∃ k, k.stolen = 1 ∧
    LTS.Run (Step stealWords (stealPair arch))
      ((stealPair arch).boot (fun _ => 0), stealBench (fun _ => .rest) 0)
      (stealEnd arch torn).1 ((stealEnd arch torn).2, k) := by
  obtain ⟨k, hstolen, hplays⟩ := stealSchedule_plays arch torn
  have ho : (stealPair arch).img.Outside 0 := Image.ofSites_outside_zero _ _ one_site
  obtain ⟨h, s, hplay, hr⟩ := hplays.run ho fun _ _ l hl => by
    cases l with
    | act t d a => exact .idle hl
    | fenceRun => exact .fenceRun
    | write => cases hl
  have hend : stealEnd arch torn = (h, s) := by rw [stealEnd, hplay]; rfl
  rw [hend]
  exact ⟨k, hstolen, hr⟩

theorem stealEnd_quiescent (arch : Arch) (torn : Bool) :
    (stealPair arch).Quiescent (stealEnd arch torn).2 := by
  cases arch <;> cases torn <;>
    exact Machine.quiescent_of (fun t => by cases t <;> rfl) fun t => by cases t <;> rfl

/-- Both adds have returned. -/
theorem stealEnd_returned (arch : Arch) (torn : Bool) : returned (stealEnd arch torn).1 = 2 := by
  cases arch <;> cases torn <;> decide +kernel

/-- The two adds have added `2`, `1` was swapped out, and the word of their CPU holds `2`. -/
theorem stealEnd_overcounts (arch : Arch) : ¬ Steal.Conserves stealWords (stealPair arch)
    fun _ => True := by
  intro hcons
  obtain ⟨k, hstolen, hr⟩ := stealEnd_run arch true
  have hsum := hcons _ _ _ (stealBench_initial arch) hr trivial (stealEnd_quiescent arch true)
  have htotal : stealWords.total (stealEnd arch true).2.mem = 2 := by
    cases arch <;> decide +kernel
  rw [stealEnd_returned] at hsum
  replace hsum : k.stolen + stealWords.total (stealEnd arch true).2.mem = 2 := hsum
  rw [hstolen, htotal] at hsum
  exact absurd hsum (by decide)

/-- **A torn add puts back what was swapped out**, on either target. -/
theorem not_steal_conserves : (¬ Steal.Conserves stealWords (stealPair .x86) fun _ => True) ∧
    ¬ Steal.Conserves stealWords (stealPair .aarch64) fun _ => True :=
  ⟨stealEnd_overcounts .x86, stealEnd_overcounts .aarch64⟩

/-! ### An add that is not torn -/

/-- A write to `x` comes after a load of something other than zero from it. -/
def lateWrite (x : Usize) : List (Label Tid) → Bool
  | [] => false
  | .write y _ :: h => (y == x && h.any fun
    | .act _ _ (.exec (.acc (.load z v) _)) => z == x && v != 0
    | _ => false) || lateWrite x h
  | _ :: h => lateWrite x h

omit [DecidableEq Tid] in
theorem lateWrite_append {g : List (Label Tid)} (hw : lateWrite x h = true) :
    lateWrite x (g ++ h) = true := by
  induction g with
  | nil => exact hw
  | cons l g ih =>
    cases l with
    | write y w => rw [List.cons_append, lateWrite, ih, Bool.or_true]
    | _ => exact ih

/-- Only such a write tears an add. -/
theorem lateWrite_of_torn (ht : Torn x h) : lateWrite x h = true := by
  obtain ⟨h₃, h₂, h₁, t, d, b, v, w, rfl, _, hload, hne, _⟩ := ht
  obtain ⟨last, hm⟩ := mem_of_attempt hload
  refine lateWrite_append (lateWrite_append (g := _ :: h₂) ?_)
  rw [lateWrite, Bool.or_eq_true, Bool.and_eq_true]
  refine Or.inl ⟨beq_self_eq_true x, List.any_eq_true.mpr ⟨_, hm, ?_⟩⟩
  exact Bool.and_eq_true_iff.mpr ⟨beq_self_eq_true x, bne_iff_ne.mpr hne⟩

/-- Where the swap comes before its load, the second add starts from zero, and both are counted
once. -/
theorem steal_conserves_fenced : ∃ k : Bench stealWords Bool,
    LTS.Run (Step stealWords (stealPair .x86))
      ((stealPair .x86).boot (fun _ => 0), stealBench (fun _ => .rest) 0)
      (stealEnd .x86 false).1 ((stealEnd .x86 false).2, k) ∧
    k.stolen = 1 ∧ returned (stealEnd .x86 false).1 = 2 ∧
    k.stolen + stealWords.total (stealEnd .x86 false).2.mem = returned (stealEnd .x86 false).1 := by
  obtain ⟨k, hstolen, hr⟩ := stealEnd_run .x86 false
  refine ⟨k, hr, hstolen, stealEnd_returned .x86 false,
    steal_conserves stealWords (stealPair .x86) _ _ _ (stealBench_initial .x86) hr
      (fun cpu hcpu ht => ?_) (stealEnd_quiescent .x86 false)⟩
  have hall : ∀ i ∈ List.range 2, lateWrite (stealWords.addr (BitVec.ofNat 32 i))
      (stealEnd .x86 false).1 = false := by decide +kernel
  have hlate := hall cpu.toNat (List.mem_range.mpr (BitVec.lt_def.mp hcpu))
  rw [BitVec.ofNat_toNat, BitVec.setWidth_eq, lateWrite_of_torn ht] at hlate
  cases hlate

end Steal

end RseqRs
