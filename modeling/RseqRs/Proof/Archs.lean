import RseqRs.Model.BlockRun
import RseqRs.Proof.Armed
import RseqRs.Proof.Effect

/-!
# The two targets implement the same ops

A block under the kernel's events is, seen from outside, its tree: every execution of the
one has an execution of the other with the same events, and the same memory and outcome
(`Op.RunsTo.tree`, `Op.TreeRuns.block`). The two targets have one tree for each op, but the
adds of x86-64 do its load and its store in one `xadd`, which no event interrupts, and those
of aarch64 do not. They write nothing before they commit, so that an attempt can wait until
no event comes any more (`CritSec.Exec.postpone`), and nobody can tell them apart.

The machine runs these blocks: its instructions are those of the block
(`Machine.Move.block`), and so is its rule for events (`Thr.Armed.block`).
-/

namespace RseqRs

/-- The outcome of a block, as a result that keeps all of it. -/
def Attempt.result : Attempt → Except Error Usize
  | .ok v => .ok v
  | .miss v => .error (.miss v)
  | .abort => .error .abort

theorem Attempt.result_injective {a a' : Attempt} (h : a.result = a'.result) : a = a' := by
  cases a <;> cases a' <;> cases h <;> rfl

theorem Attempt.reads_result {b : Bool} : Reads b Attempt.result :=
  ⟨fun _ => rfl, rfl, fun _ _ => rfl⟩

/-- The phase of a stage. -/
def Stage.phase : Stage → CritSec.Phase U32 Usize Error
  | .entering => .out
  | .inside u => .inside u
  | .finishing r => .done r

/-! ### Silent runs of a block -/

namespace Block

variable {b : Block Reg} {cs ptr : Usize} {off : ℕ} {fin : Attempt → Except Error Usize}
  {x x' x'' : BlockState Reg} {core : Core Reg} {area : Area} {m : Mem}

/-- The block gets from `x` to `x'` with no event on the way. -/
def Drives (b : Block Reg) (cs ptr : Usize) (x x' : BlockState Reg) : Prop :=
  ∃ h, LTS.Run (b.Step cs ptr) x h x' ∧ h.filterMap BlockLabel.event? = []

theorem Drives.refl : b.Drives cs ptr x x := ⟨[], .nil, rfl⟩

theorem Drives.trans (h : b.Drives cs ptr x x') (h' : b.Drives cs ptr x' x'') :
    b.Drives cs ptr x x'' := by
  obtain ⟨k, hk, hτ⟩ := h
  obtain ⟨k', hk', hτ'⟩ := h'
  exact ⟨k' ++ k, hk.append hk', by rw [List.filterMap_append, hτ, hτ']; rfl⟩

/-- One instruction, whose request has the answer `v`. -/
theorem Drives.instr {q : Req} {o : Obs} {v : Usize} {area' : Area} {m' : Mem}
    (hq : b.req core = some q)
    (ha : q.answer ptr area m (core.pc + 1 == b.post) = some (o, v, area', m')) :
    b.Drives cs ptr ⟨core, area, m⟩ ⟨b.next cs core v, area', m'⟩ := by
  have hs : b.Step cs ptr ⟨core, area, m⟩ (.exec o) ⟨b.next cs core v, area', m'⟩ := by
    refine .exec ?_
    rw [hq, Option.bind_some]
    exact ha
  exact ⟨[.exec o], .single hs, rfl⟩

theorem Drives.tau (hq : b.req core = some .tau) :
    b.Drives cs ptr ⟨core, area, m⟩ ⟨b.next cs core 0, area, m⟩ := .instr hq rfl

end Block

section Drives

variable {b : Block Reg} {cs ptr : Usize} {off : ℕ} {fin : Attempt → Except Error Usize}
  {core : Core Reg} {area : Area} {m : Mem}

/-- The way into the range. -/
theorem Entering.drives {T : Sec} (h : Entering b cs ptr off fin T core) :
    ∃ core', b.Drives cs ptr ⟨core, area, m⟩ ⟨core', { area with rseqCs := cs }, m⟩ ∧
      Inside b cs ptr off fin core' T := by
  induction h with
  | tau _ hq _ ih =>
    obtain ⟨core', hd, hin⟩ := ih
    exact ⟨core', (Block.Drives.tau hq).trans hd, hin⟩
  | arm _ hq hin => exact ⟨_, .instr hq (by rw [Req.answer, if_pos ⟨rfl, rfl⟩]), hin⟩

/-- The next access of an attempt. -/
theorem Inside.drives {u u' : Sec} {a : Acc} (h : Inside b cs ptr off fin core u)
    (hn : CritSec.Next u a u') (hr : a.Reads (area.load32 off) m) :
    ∃ core', b.Drives cs ptr ⟨core, area, m⟩ ⟨core', area, a.apply m⟩ ∧
      Inside b cs ptr off fin core' u' := by
  induction h with
  | tau _ _ hq _ ih =>
    obtain ⟨core', hd, hin⟩ := ih hn
    exact ⟨core', (Block.Drives.tau hq).trans hd, hin⟩
  | exit => cases hn
  | index _ _ hq hk =>
    cases hn with
    | index k j =>
      obtain rfl : area.load32 off = j := hr.symm
      exact ⟨_, .instr hq (by rw [Req.answer, if_pos rfl]; rfl), hk _⟩
  | @load _ c k _ _ hq hk =>
    cases hn with
    | load _ _ v =>
      obtain rfl : m c = v := hr
      exact ⟨_, .instr hq rfl, hk _⟩
  | scratch _ _ hq hk =>
    cases hn
    exact ⟨_, .instr hq rfl, hk⟩
  | commit => cases hn

/-- The way out of the range, to a failure. -/
theorem Inside.drives_fail {e : Error} (h : Inside b cs ptr off fin core (.fail e)) :
    ∃ core', b.Drives cs ptr ⟨core, area, m⟩ ⟨core', area, m⟩ ∧
      Finishes b cs fin core' (.error e) := by
  generalize hu : (.fail e : Sec) = u at h
  induction h with
  | tau _ _ hq _ ih =>
    obtain ⟨core', hd, hf⟩ := ih hu
    exact ⟨core', (Block.Drives.tau hq).trans hd, hf⟩
  | exit _ _ hq hf =>
    cases hu
    exact ⟨_, .tau hq, hf⟩
  | _ => cases hu

/-- The commit. -/
theorem Inside.drives_commit {u : Sec} {a : Acc} {r : Usize}
    (h : Inside b cs ptr off fin core u) (hc : CritSec.Commits u a r) :
    ∃ core', b.Drives cs ptr ⟨core, area, m⟩ ⟨core', area, a.apply m⟩ ∧
      Finishes b cs fin core' (.ok r) := by
  induction h with
  | tau _ _ hq _ ih =>
    obtain ⟨core', hd, hf⟩ := ih hc
    exact ⟨core', (Block.Drives.tau hq).trans hd, hf⟩
  | commit _ _ hq hf =>
    cases hc
    exact ⟨_, .instr hq rfl, hf⟩
  | _ => cases hc

/-- The way to the end of the block. -/
theorem Finishes.drives {r : Except Error Usize} (h : Finishes b cs fin core r) :
    ∃ core', b.Drives cs ptr ⟨core, area, m⟩ ⟨core', area, m⟩ ∧ core'.pc = b.len ∧
      fin (Attempt.fromStatus (core'.regs b.status) (core'.regs b.value)) = r := by
  induction h with
  | done hpc => exact ⟨_, .refl, hpc, rfl⟩
  | tau _ hq _ ih =>
    obtain ⟨core', hd, hend⟩ := ih
    exact ⟨core', (Block.Drives.tau hq).trans hd, hend⟩

end Drives

/-! ### A block and its tree -/

section Sim

variable {K : Index} {arch : Arch} {op : Op K} {en : Entry} {area : Area} {m : Mem}
  {x x' : BlockState Reg} {y y' : CritSec.Exec U32 Usize Error}
  {τ : List (CritSec.Event Area Usize)} {P : CritSec.Phase U32 Usize Error → Prop}

/-- The block is where the execution of its tree is. -/
structure BlockState.Sim (arch : Arch) (op : Op K) (en : Entry) (x : BlockState Reg)
    (y : CritSec.Exec U32 Usize Error) : Prop where
  mem : x.mem = y.mem
  index : x.area.index K = y.index
  /-- the operands are still in their registers -/
  holds : op.Holds en.ptr x.core.regs
  latched : (op.block arch).Latched x.core
  stage : ∃ (st : Stage) (log : List Acc), st.phase = y.phase ∧
    (st.isInside → x.area.rseqCs = en.cs) ∧
    st.At (op.block arch) en.cs en.ptr K.off Attempt.result op.tree log x.core

/-- The executions of the tree of an op, whose events find it in phases that satisfy `P`. -/
abbrev Op.TreeRuns (P : CritSec.Phase U32 Usize Error → Prop) (op : Op K) (area : Area) (m : Mem)
    (τ : List (CritSec.Event Area Usize)) (y : CritSec.Exec U32 Usize Error) : Prop :=
  CritSec.Exec.Runs op.tree (fun a : Area => a.index K) P ⟨m, area.index K, .out⟩ τ y

/-- In a phase that satisfies `P` the block of the op is between two instructions. -/
def Op.Settles (P : CritSec.Phase U32 Usize Error → Prop) (arch : Arch) (op : Op K) : Prop :=
  ∀ ⦃en : Entry⦄ ⦃x : BlockState Reg⦄ ⦃y : CritSec.Exec U32 Usize Error⦄,
    x.Sim arch op en y → P y.phase → x.core.latch = none

theorem BlockState.Sim.entry : (op.entry en area m).Sim arch op en ⟨m, area.index K, .out⟩ where
  mem := rfl
  index := rfl
  holds := op.holds_enter _ _
  latched := Or.inl rfl
  stage := ⟨.entering, [], rfl, nofun,
    op.entering_zero arch (op.holds_enter _ _) Attempt.reads_result⟩

/-- **Outside its range** it is. -/
theorem Op.settles_outside (arch : Arch) (op : Op K) : op.Settles CritSec.Phase.Outside arch := by
  intro en x y h hP
  refine h.latched.resolve_right fun ⟨i, hi, hpc⟩ => ?_
  obtain ⟨hs, hp⟩ := op.block_adds arch i hi
  obtain ⟨st, log, hph, _, hat⟩ := h.stage
  obtain ⟨_, _, _, hl⟩ := op.section.block_order arch
  cases st with
  | entering =>
    have hlt : x.core.pc < (op.block arch).start := Entering.pc_lt hat
    omega
  | inside u => rw [← hph] at hP; exact hP
  | finishing r =>
    have hge : (op.block arch).post ≤ x.core.pc ∧ _ := Finishes.pc_mem hat.1 (le_of_lt hl)
    omega

/-- An op with a scratch store has no `xadd`. -/
theorem Op.settles_scratches {a v : Usize} (hs : op.tree.Scratches a v) :
    op.Settles (fun _ => True) arch := by
  intro en x y h _
  obtain ⟨w, expect, new, s, he, _⟩ := Op.scratches_tree hs
  refine h.latched.resolve_right fun ⟨i, hi, _⟩ => ?_
  rw [he, Op.storeIf_adds] at hi
  cases hi

/-- A step keeps the operands. -/
theorem Op.Holds.step {cs ptr : Usize} {l : BlockLabel} (h : op.Holds ptr x.core.regs)
    (hs : (op.block arch).Step cs ptr x l x') : op.Holds ptr x'.core.regs := by
  cases hs with
  | exec => exact h.next _
  | event a m' hl =>
    have hregs : ((op.block arch).restart cs x).regs = x.core.regs := by
      unfold Block.restart
      split <;> rfl
    show op.Holds _ ((op.block arch).restart cs x).regs
    rwa [hregs]

theorem Block.Latched.step {b : Block Reg} {cs ptr : Usize} {l : BlockLabel}
    (h : b.Latched x.core) (hs : b.Step cs ptr x l x') : b.Latched x'.core := by
  cases hs with
  | exec => exact h.next _ _
  | event a m' hl =>
    unfold Block.restart
    split <;> exact Or.inl hl

theorem Block.Latched.drives {b : Block Reg} {cs ptr : Usize} (h : b.Latched x.core)
    (hd : b.Drives cs ptr x x') : b.Latched x'.core := by
  obtain ⟨k, hk, _⟩ := hd
  exact hk.invariant (I := fun _ x => b.Latched x.core) h fun _ _ _ _ _ hi hs => hi.step hs

theorem Op.Holds.drives (h : op.Holds en.ptr x.core.regs)
    (hd : (op.block arch).Drives en.cs en.ptr x x') : op.Holds en.ptr x'.core.regs := by
  obtain ⟨k, hk, _⟩ := hd
  exact hk.invariant (I := fun _ x => op.Holds en.ptr x.core.regs) h
    fun _ _ _ _ _ hi hs => hi.step hs

/-- An event, in the block and in its tree. -/
theorem BlockState.Sim.event (h : x.Sim arch op en y) (a : Area) (m' : Mem)
    (hlatch : x.core.latch = none) :
    BlockState.Sim arch op en ⟨(op.block arch).restart en.cs x, a, m'⟩
      ⟨m', a.index K, y.phase.restart⟩ := by
  have hev : (op.block arch).Step en.cs en.ptr x _ _ := .event a m' hlatch
  obtain ⟨st, log, hph, harm, hat⟩ := h.stage
  obtain ⟨_, _, hp, hl⟩ := op.section.block_order arch
  refine ⟨rfl, rfl, h.holds.step hev, h.latched.step hev, ?_⟩
  rw [← hph]
  cases st with
  | entering =>
    have hlt : x.core.pc < _ := Entering.pc_lt hat
    have hkeep : (op.block arch).restart en.cs x = x.core := if_neg fun hc => by omega
    exact ⟨.entering, [], rfl, nofun, hkeep ▸ hat⟩
  | inside u =>
    have hmem := Inside.pc_mem hat.1
    -- the attempt is armed: it goes back to the abort label
    have hback : (op.block arch).restart en.cs x = { x.core with pc := (op.block arch).abort } :=
      if_pos ⟨harm trivial, hmem⟩
    rw [hback]
    exact ⟨.entering, [], rfl, nofun, op.entering arch _ _ _ h.holds Attempt.reads_result⟩
  | finishing r =>
    have hge : _ ≤ x.core.pc ∧ _ := Finishes.pc_mem hat.1 (le_of_lt hl)
    have hkeep : (op.block arch).restart en.cs x = x.core :=
      if_neg fun hc => absurd hc.2.2 (not_lt.mpr hge.1)
    exact ⟨.finishing r, log, rfl, nofun, hkeep ▸ hat⟩

/-- **A step of the block** is one of its tree, or none. -/
theorem BlockState.Sim.step {l : BlockLabel} (h : x.Sim arch op en y)
    (hs : (op.block arch).Step en.cs en.ptr x l x') :
    ∃ y', CritSec.Exec.Runs op.tree (fun a : Area => a.index K) (fun _ => True) y
      l.event?.toList y' ∧ x'.Sim arch op en y' := by
  cases hs with
  | @exec o v a m' ha =>
    obtain ⟨st, log, hph, harm, hat⟩ := h.stage
    obtain ⟨st', hstep, hat', harea⟩ := Stage.At.exec (op.block_forward arch) hat ha
    have hidx : a.index K = x.area.index K := by
      rw [harea]
      cases o <;> cases K <;> rfl
    -- the block after the instruction, wherever its tree is by then
    have hsim {y' : CritSec.Exec U32 Usize Error} (hm : m' = y'.mem) (hi : y'.index = y.index)
        (hp : st'.phase = y'.phase) (hcs : st'.isInside → a.rseqCs = en.cs) :
        BlockState.Sim arch op en ⟨(op.block arch).next en.cs x.core v, a, m'⟩ y' :=
      ⟨hm, hidx.trans (h.index.trans hi.symm), h.holds.next v, h.latched.next _ _, st', _, hp, hcs,
        hat'⟩
    obtain ⟨my, iy, py⟩ := y
    obtain rfl : x.mem = my := h.mem
    obtain rfl : x.area.index K = iy := h.index
    obtain rfl : st.phase = py := hph
    cases hstep with
    | enter => exact ⟨_, .refl, hsim rfl rfl rfl nofun⟩
    | arm => exact ⟨_, .silent .enter, hsim rfl rfl rfl fun _ => by rw [harea]; rfl⟩
    | tau => exact ⟨_, .refl, hsim rfl rfl rfl fun _ => by rw [harea]; exact harm trivial⟩
    | exit => exact ⟨_, .silent .fail, hsim rfl rfl rfl nofun⟩
    | access hn hr =>
      exact ⟨_, .silent (.access hn hr), hsim rfl rfl rfl fun _ => by
        rw [harea]; exact harm trivial⟩
    | commit hc => exact ⟨_, .silent (.commit hc), hsim rfl rfl rfl nofun⟩
    | leave => exact ⟨_, .refl, hsim rfl rfl rfl nofun⟩
  | event a m' hlatch =>
    rw [show BlockLabel.event? (.event ⟨x.mem, a, m'⟩) = some ⟨y.mem, a, m'⟩ by rw [h.mem]; rfl]
    exact ⟨_, .event a m' trivial, h.event a m' hlatch⟩

/-- **A step of the tree** is a run of the block, if an event finds the block between two
instructions. -/
theorem BlockState.Sim.step_back {l : Option (CritSec.Event Area Usize)}
    (h : x.Sim arch op en y)
    (hs : CritSec.Exec.Step op.tree (fun a : Area => a.index K) y l y')
    (hlatch : l ≠ none → x.core.latch = none) :
    ∃ x', (∃ k, LTS.Run ((op.block arch).Step en.cs en.ptr) x k x' ∧
      k.filterMap BlockLabel.event? = l.toList) ∧ x'.Sim arch op en y' := by
  obtain ⟨core, area, m⟩ := x
  -- the instructions on the way keep the operands, and leave nothing else in the latch
  have hold {x' : BlockState Reg} (hd : (op.block arch).Drives en.cs en.ptr ⟨core, area, m⟩ x') :
      op.Holds en.ptr x'.core.regs := h.holds.drives hd
  have hlat {x' : BlockState Reg} (hd : (op.block arch).Drives en.cs en.ptr ⟨core, area, m⟩ x') :
      (op.block arch).Latched x'.core := h.latched.drives hd
  obtain ⟨st, log, hph, harm, hat⟩ := h.stage
  have hmem := h.mem
  have hidx := h.index
  cases hs with
  | enter =>
    cases st with
    | entering =>
      obtain ⟨core', hd, hin⟩ := Entering.drives hat
      exact ⟨_, hd, hmem, by cases K <;> exact hidx, hold hd, hlat hd, .inside _, [], rfl,
        fun _ => rfl, hin, .nil⟩
    | inside u => cases hph
    | finishing r => cases hph
  | @access m' i u u' acc hn hr =>
    obtain rfl : m = m' := hmem
    obtain rfl : area.index K = i := hidx
    cases st with
    | inside v =>
      obtain rfl : v = u := CritSec.Phase.inside.inj hph
      obtain ⟨core', hd, hin⟩ := Inside.drives hat.1 hn hr
      exact ⟨_, hd, rfl, rfl, hold hd, hlat hd, .inside _, _, rfl, harm, hin, hat.2.snoc hn⟩
    | entering => cases hph
    | finishing r => cases hph
  | @fail m' i e =>
    obtain rfl : m = m' := hmem
    cases st with
    | inside v =>
      obtain rfl : v = .fail e := CritSec.Phase.inside.inj hph
      obtain ⟨core', hd, hf⟩ := Inside.drives_fail hat.1
      exact ⟨_, hd, rfl, hidx, hold hd, hlat hd, .finishing _, _, rfl, nofun, hf, .fail hat.2⟩
    | entering => cases hph
    | finishing r => cases hph
  | @commit m' i u acc r hc =>
    obtain rfl : m = m' := hmem
    obtain rfl : area.index K = i := hidx
    cases st with
    | inside v =>
      obtain rfl : v = u := CritSec.Phase.inside.inj hph
      obtain ⟨core', hd, hf⟩ := Inside.drives_commit hat.1 hc
      exact ⟨_, hd, rfl, rfl, hold hd, hlat hd, .finishing _, _, rfl, nofun, hf, .commit hat.2 hc⟩
    | entering => cases hph
    | finishing r => cases hph
  | event a m' =>
    have hl := hlatch nofun
    refine ⟨_, ⟨_, .single (.event a m' hl), ?_⟩, h.event a m' hl⟩
    show [(⟨m, a, m'⟩ : CritSec.Event Area Usize)] = [⟨y.mem, a, m'⟩]
    rw [← hmem]

/-! ### Runs -/

/-- **Every run of the block** is an execution of its tree. -/
theorem Op.RunsTo.tree (h : op.RunsTo arch en area m τ x) :
    ∃ y, op.TreeRuns (fun _ => True) area m τ y ∧ x.Sim arch op en y := by
  obtain ⟨k, hk, rfl⟩ := h
  induction hk with
  | nil => exact ⟨_, .refl, .entry⟩
  | @cons k x₁ x₂ l _ hs ih =>
    obtain ⟨y, hy, hsim⟩ := ih
    obtain ⟨y', hy', hsim'⟩ := hsim.step hs
    refine ⟨y', ?_, hsim'⟩
    have hτ : (l :: k).filterMap BlockLabel.event? =
        l.event?.toList ++ k.filterMap BlockLabel.event? := by
      cases l <;> rfl
    rw [hτ]
    exact hy.trans hy'

/-- Wherever it is interrupted in its range, a block is armed and starts again. -/
theorem Op.RunsTo.restarts (h : op.RunsTo arch en area m τ x)
    (hs : (op.block arch).start ≤ x.core.pc) (hp : x.core.pc < (op.block arch).post) :
    (op.block arch).restart en.cs x = { x.core with pc := (op.block arch).abort } := by
  obtain ⟨_, _, hsim⟩ := h.tree
  obtain ⟨st, log, _, harm, hat⟩ := hsim.stage
  have hl := (op.section.block_order arch).2.2.2
  cases st with
  | entering => exact absurd (Entering.pc_lt hat) (not_lt.mpr hs)
  | inside u => exact if_pos ⟨harm trivial, hs, hp⟩
  | finishing r => exact absurd hp (not_lt.mpr (Finishes.pc_mem hat.1 hl.le).1)

/-- **Every execution of the tree** is a run of the block, if its events find the block
between two instructions. -/
theorem Op.TreeRuns.block (en : Entry) (hP : op.Settles P arch) (h : op.TreeRuns P area m τ y) :
    ∃ x, op.RunsTo arch en area m τ x ∧ x.Sim arch op en y := by
  obtain ⟨k, hk, rfl⟩ := h
  induction hk with
  | nil => exact ⟨_, ⟨[], .nil, rfl⟩, .entry⟩
  | @cons k y₁ y₂ l _ hs ih =>
    obtain ⟨x, ⟨k₁, hk₁, hτ₁⟩, hsim⟩ := ih
    obtain ⟨x', ⟨k₂, hk₂, hτ₂⟩, hsim'⟩ :=
      hsim.step_back hs.1 fun hl => hP hsim (hs.2 hl)
    refine ⟨x', ⟨k₂ ++ k₁, hk₁.append hk₂, ?_⟩, hsim'⟩
    rw [List.filterMap_append, hτ₁, hτ₂]
    cases l <;> rfl

/-- What the block reports is the outcome of the tree. -/
theorem BlockState.Sim.done {a : Attempt} (h : x.Sim arch op en y)
    (hr : (op.block arch).Reports x a) : y.phase = .done a.result := by
  obtain ⟨st, log, hph, _, hat⟩ := h.stage
  obtain ⟨hpc, ha⟩ := hr
  obtain ⟨_, _, hp, hl⟩ := op.section.block_order arch
  rw [← hph]
  -- only a block that has finished can be at its end
  cases st with
  | entering =>
    have hlt : x.core.pc < _ := Entering.pc_lt hat
    have hlen : (op.block arch).start < (op.block arch).len := hp.trans hl
    omega
  | inside u =>
    have hlt : _ ∧ x.core.pc < _ := Inside.pc_mem hat.1
    have hlen : (op.block arch).post < (op.block arch).len := hl
    omega
  | finishing r =>
    cases hat.1 with
    | done => rw [ha]; rfl
    | tau _ hq =>
      obtain ⟨ins, hfetch, _⟩ := Option.map_eq_some_iff.mp hq
      exact absurd (Block.lt_len_of_fetch hfetch) (by omega)

/-- A block whose tree has an outcome gets to its end and reports it. -/
theorem BlockState.Sim.reports {a : Attempt} (h : x.Sim arch op en y)
    (hd : y.phase = .done a.result) : ∃ x', (op.block arch).Drives en.cs en.ptr x x' ∧
      x'.mem = y.mem ∧ (op.block arch).Reports x' a := by
  obtain ⟨core, area, m⟩ := x
  obtain ⟨st, log, hph, _, hat⟩ := h.stage
  rw [hd] at hph
  cases st with
  | finishing r =>
    obtain rfl : r = a.result := CritSec.Phase.done.inj hph
    obtain ⟨core', hdr, hpc, hr⟩ := Finishes.drives hat.1
    exact ⟨_, hdr, h.mem, hpc, Attempt.result_injective hr⟩
  | entering => cases hph
  | inside u => cases hph

end Sim

/-! ### The two targets -/

section Targets

variable {K : Index} {arch arch' : Arch} {op : Op K} {area : Area} {m : Mem}
  {y : CritSec.Exec U32 Usize Error} {τ : List (CritSec.Event Area Usize)}

/-- An execution of the tree has one, with the same events, that a block on `arch` can
follow. -/
theorem Op.TreeRuns.settled (arch : Arch) (h : op.TreeRuns (fun _ => True) area m τ y) :
    ∃ P y', op.Settles P arch ∧ op.TreeRuns P area m τ y' ∧ y'.mem = y.mem ∧
      ∀ r, y.phase = .done r → y'.phase = .done r := by
  by_cases hs : ∃ a v, op.tree.Scratches a v
  · obtain ⟨a, v, hs⟩ := hs
    exact ⟨_, y, Op.settles_scratches hs, h, rfl, fun _ hd => hd⟩
  · -- an attempt that writes nothing before it commits can wait
    obtain ⟨y', hy', hmem, hd⟩ := CritSec.Exec.postpone (fun a v hav => hs ⟨a, v, hav⟩) h
    exact ⟨_, y', op.settles_outside arch, hy', hmem, hd⟩

/-- A run on one target has one on the other, with the same events, in the same memory. -/
theorem Op.RunsTo.transfer {en en' : Entry} {x : BlockState Reg}
    (h : op.RunsTo arch en area m τ x) :
    ∃ x', op.RunsTo arch' en' area m τ x' ∧ x'.mem = x.mem ∧
      ∀ a, (op.block arch).Reports x a → ∃ x'', op.RunsTo arch' en' area m τ x'' ∧
        x''.mem = x.mem ∧ (op.block arch').Reports x'' a := by
  -- from the block to the tree, and from there to the other block
  obtain ⟨y, hy, hsim⟩ := h.tree
  obtain ⟨P, y', hP, hy', hmem, hdone⟩ := hy.settled arch'
  obtain ⟨x', hx', hsim'⟩ := hy'.block en' hP
  have hmem' : x'.mem = x.mem := by rw [hsim'.mem, hmem, hsim.mem]
  refine ⟨x', hx', hmem', fun a ha => ?_⟩
  obtain ⟨x'', ⟨k, hk, hτ⟩, hm'', ha'⟩ := hsim'.reports (hdone _ (hsim.done ha))
  obtain ⟨k', hk', hτ'⟩ := hx'
  refine ⟨x'', ⟨k ++ k', hk'.append hk, ?_⟩, ?_, ha'⟩
  · rw [List.filterMap_append, hτ, hτ']
    rfl
  · rw [hm'', hmem, hsim.mem]

/-- **The two targets implement the same ops.** Whatever the operands, their aliasing and
the memory, and wherever the two copies lie: a run of the one section among the kernel's
events has a run of the other that meets the same events, with the same memory at each of
them, and is in the same memory at its end; and if the one reports an outcome, so does the
other, the same. -/
theorem archs_agree (op : Op K) (en en' : Entry) (area : Area) (m : Mem)
    (τ : List (CritSec.Event Area Usize)) (m' : Mem) :
    ((∃ x, op.RunsTo .x86 en area m τ x ∧ x.mem = m') ↔
      ∃ x, op.RunsTo .aarch64 en' area m τ x ∧ x.mem = m') ∧
    ∀ a, (∃ x, op.RunsTo .x86 en area m τ x ∧ x.mem = m' ∧ (op.block .x86).Reports x a) ↔
      ∃ x, op.RunsTo .aarch64 en' area m τ x ∧ x.mem = m' ∧ (op.block .aarch64).Reports x a := by
  refine ⟨⟨?_, ?_⟩, fun a => ⟨?_, ?_⟩⟩
  · rintro ⟨x, hx, rfl⟩
    obtain ⟨x', hx', hm, _⟩ := hx.transfer
    exact ⟨x', hx', hm⟩
  · rintro ⟨x, hx, rfl⟩
    obtain ⟨x', hx', hm, _⟩ := hx.transfer
    exact ⟨x', hx', hm⟩
  · rintro ⟨x, hx, rfl, ha⟩
    obtain ⟨_, _, _, hrep⟩ := hx.transfer
    exact hrep a ha
  · rintro ⟨x, hx, rfl, ha⟩
    obtain ⟨_, _, _, hrep⟩ := hx.transfer
    exact hrep a ha

end Targets

/-! ### The machine runs the block -/

section Machine

variable {Tid : Type} {M : Machine Tid} {t : Tid} {m m' : Mem} {o : Obs}

/-- The running context of a thread, in slot `i` of its block. -/
def Thr.inBlock {Site : Type} (x : Thr Site) (m : Mem) (i : ℕ) : BlockState Reg :=
  ⟨x.top.core i, x.area, m⟩

/-- An instruction of the machine is one of the block. -/
theorem Machine.Move.block {x x' : Thr M.img.Site} (h : M.Move t m x (.exec o) m' x') :
    ∃ c site i i', x.top.frame = .op c site ∧ x.top.ip = M.img.ip site i ∧
      x'.top.ip = M.img.ip site i' ∧
      (M.img.block site).Step (M.img.desc site) (M.areaPtr t) (x.inBlock m i) (.exec o)
        (x'.inBlock m' i') := by
  cases h with
  | @exec c site i _ v area _ hr hf hloc hans =>
    exact ⟨c, site, i, _, hf, (M.img.ip_locate _ _ _ hloc).1, rfl, .exec hans⟩

/-- The kernel's rule of the machine is that of the block. -/
theorem Thr.Armed.block {img : Image} {x : Thr img.Site} (h : x.Armed img) {site : img.Site}
    {i : ℕ} (hip : x.top.ip = img.ip site i) (hi : i ≤ (img.block site).len) :
    (x.event img).top.ip =
      img.ip site ((img.block site).restart (img.desc site) (x.inBlock m i)).pc := by
  by_cases hin : img.InRange site x.top.ip
  · have hpc := (Image.inRange_ip hi).mp (hip ▸ hin)
    rw [h.restarts site hin]
    unfold Block.restart
    rw [if_pos ⟨h.armed site hin, hpc.2⟩]
  · have hout : ∀ s, ¬ img.InRange s x.top.ip := by
      intro s hs
      obtain rfl : s = site := ((Image.inRange_ip hi).mp (hip ▸ hs)).1
      exact hin hs
    rw [h.undisturbed hout, hip]
    unfold Block.restart
    rw [if_neg fun hc => hin (hip ▸ (Image.inRange_ip hi).mpr ⟨rfl, hc.2⟩)]
    rfl

end Machine

end RseqRs
