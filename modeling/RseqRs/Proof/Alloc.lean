import RseqRs.Model.Alloc
import RseqRs.Proof.Archs

/-!
# Restart is safe under every register allocation

A block with its operands in machine registers does, instruction by instruction and event
by event, what the block with named operands does. Two facts about the twelve blocks carry
the argument (`Op.block_careful`): up to the end of the critical range an instruction writes
an `out` operand only, so whatever shares a register with a `lateout` is still intact when
the kernel restarts the attempt; and past the range no instruction reads an input.
-/

namespace RseqRs

/-! ### Replaced operands -/

section Map

variable {ρ σ : Type} {f : ρ → σ} {b : Block ρ}

theorem Instr.steps_map (i : Instr ρ) : (i.map f).steps = i.steps.map (Instr.map f) := by
  cases i <;> rfl

theorem Block.slots_map (ls : List (Line ρ)) :
    Block.slots (ls.map (Line.map f)) = (Block.slots ls).map (Option.map (Instr.map f)) := by
  induction ls with
  | nil => rfl
  | cons l ls ih =>
    cases l with
    | label n => exact ih
    | sig => exact congrArg (none :: ·) ih
    | ins i =>
      show (i.map f).steps.map some ++ Block.slots (ls.map (Line.map f)) =
        (i.steps.map some ++ Block.slots ls).map (Option.map (Instr.map f))
      rw [ih, Instr.steps_map, List.map_append, List.map_map, List.map_map]
      rfl

theorem Block.place_map (n : ℕ) (ls : List (Line ρ)) :
    Block.place n (ls.map (Line.map f)) = Block.place n ls := by
  induction ls with
  | nil => rfl
  | cons l ls ih =>
    cases l with
    | label k =>
      show (if k = n then 0 else Block.place n (ls.map (Line.map f))) = _
      rw [ih]
      rfl
    | sig => exact congrArg (· + 1) ih
    | ins i =>
      show Block.place n (ls.map (Line.map f)) + (i.map f).steps.length =
        Block.place n ls + i.steps.length
      rw [ih, Instr.steps_map, List.length_map]

@[simp] theorem Block.fetch_map (i : ℕ) : (b.map f).fetch i = (b.fetch i).map (Instr.map f) := by
  unfold Block.fetch
  rw [show (b.map f).lines = b.lines.map (Line.map f) from rfl, Block.slots_map, List.getElem?_map]
  cases (Block.slots b.lines)[i]? <;> rfl

@[simp] theorem Block.target_map (l : ℕ) : (b.map f).target l = b.target l := Block.place_map l _

@[simp] theorem Block.start_map : (b.map f).start = b.start := Block.place_map _ _

@[simp] theorem Block.post_map : (b.map f).post = b.post := Block.place_map _ _

@[simp] theorem Block.abort_map : (b.map f).abort = b.abort := Block.place_map _ _

/-- A request depends on the operands that are read, and on the latch. -/
theorem Instr.req_map {i : Instr ρ} {c : Core ρ} {c' : Core σ} (hl : c'.latch = c.latch)
    (h : ∀ o ∈ i.uses, c'.regs (f o) = c.regs o) : (i.map f).req c' = i.req c := by
  cases i <;> simp_all [Instr.map, Instr.req, Instr.uses]

theorem Instr.dst_map (i : Instr ρ) : (i.map f).dst = i.dst.map f := by
  cases i <;> rfl

variable [DecidableEq ρ] [DecidableEq σ]

/-- So does what an instruction does. -/
theorem Instr.next_map {i : Instr ρ} {c : Core ρ} {c' : Core σ} {cs v : Usize} {tgt : ℕ → ℕ}
    (hpc : c'.pc = c.pc) (hzf : c'.zf = c.zf) (hl : c'.latch = c.latch)
    (h : ∀ o ∈ i.uses, c'.regs (f o) = c.regs o) :
    ((i.map f).next cs tgt c' v).pc = (i.next cs tgt c v).pc ∧
      ((i.map f).next cs tgt c' v).zf = (i.next cs tgt c v).zf ∧
      ((i.map f).next cs tgt c' v).latch = (i.next cs tgt c v).latch ∧
      ∀ d, i.dst = some d → ((i.map f).next cs tgt c' v).regs (f d) =
        (i.next cs tgt c v).regs d := by
  cases i <;> simp_all [Instr.map, Instr.next, Instr.uses, Instr.dst]

end Map

/-! ### Careful blocks -/

/-- In slot `i`, an instruction writes an `out`, or past the range a `lateout`, and reads
outputs and, up to the end of the range, inputs. -/
def Instr.careful (os : Operands) (past : Bool) (ins : Instr Reg) : Bool :=
  (ins.dst.all fun d => decide ((d, .out) ∈ os) || (past && decide ((d, .lateout) ∈ os))) &&
    ins.uses.all fun o => decide ((o, .out) ∈ os) || decide ((o, .lateout) ∈ os) ||
      (!past && decide ((o, .input) ∈ os))

/-- The block is careful with its operands, and reports outputs. -/
def Block.careful (os : Operands) (b : Block Reg) : Bool :=
  ((List.range b.len).all fun i => (b.fetch i).all fun ins =>
    ins.careful os (decide (b.post ≤ i))) &&
  [b.status, b.value].all fun o => decide ((o, .out) ∈ os) || decide ((o, .lateout) ∈ os)

theorem Op.block_careful {K : Index} (arch : Arch) (op : Op K) :
    (op.block arch).careful (op.section.operands arch) = true := by
  cases arch <;> cases op <;> simp only [Op.block, Op.section, Index.dispatch_eq] <;> rfl

/-- The operands a call passes are declared as inputs. -/
theorem Op.input_mem_operands {K : Index} (arch : Arch) (op : Op K) {o : Reg}
    (h : op.isInput o = true) : (o, .input) ∈ op.section.operands arch := by
  cases arch <;> cases op <;> simp only [Op.section, Index.dispatch_eq] <;> cases o <;>
    first
      -- no input of this op
      | (cases h; done)
      | simp [Section.operands, X86.operands, Aarch64.operands]

/-! ### The two runs -/

section Agree

variable {ρ : Type} {os : Operands} {val : Reg → Usize} {alloc : Reg → ρ}
  {b : Block Reg} {cs ptr : Usize} {x y : BlockState Reg} {x' y' : BlockState ρ} {l : BlockLabel}

/-- The machine registers hold what the named operands do; past the range, only the
outputs matter. -/
structure Agree (os : Operands) (alloc : Reg → ρ) (b : Block Reg) (x : BlockState Reg)
    (x' : BlockState ρ) : Prop where
  pc : x'.core.pc = x.core.pc
  zf : x'.core.zf = x.core.zf
  latch : x'.core.latch = x.core.latch
  area : x'.area = x.area
  mem : x'.mem = x.mem
  output : ∀ p ∈ os, p.2 ≠ .input → x'.core.regs (alloc p.1) = x.core.regs p.1
  input : x.core.pc < b.post → ∀ p ∈ os, p.2 = .input →
    x'.core.regs (alloc p.1) = x.core.regs p.1

/-- What a careful block lets an instruction do. -/
theorem Block.careful_instr (hb : b.careful os = true) {i : ℕ} {ins : Instr Reg}
    (hf : b.fetch i = some ins) :
    (∀ d, ins.dst = some d → (d, .out) ∈ os ∨ b.post ≤ i ∧ (d, .lateout) ∈ os) ∧
      ∀ o ∈ ins.uses, (∃ k, k ≠ .input ∧ (o, k) ∈ os) ∨ i < b.post ∧ (o, .input) ∈ os := by
  unfold Block.careful at hb
  rw [Bool.and_eq_true, List.all_eq_true] at hb
  have hi := hb.1 i (List.mem_range.mpr (Block.lt_len_of_fetch hf))
  rw [hf, Option.all_some, Instr.careful, Bool.and_eq_true] at hi
  refine ⟨fun d hd => ?_, fun o ho => ?_⟩
  · -- what it writes
    have hdst := hi.1
    rw [hd, Option.all_some, Bool.or_eq_true, Bool.and_eq_true] at hdst
    simpa only [decide_eq_true_eq] using hdst
  · -- what it reads
    have huse := List.all_eq_true.mp hi.2 o ho
    rw [Bool.or_eq_true, Bool.or_eq_true, Bool.and_eq_true] at huse
    rcases huse with (h | h) | ⟨hpast, h⟩
    · exact Or.inl ⟨.out, nofun, of_decide_eq_true h⟩
    · exact Or.inl ⟨.lateout, nofun, of_decide_eq_true h⟩
    · exact Or.inr ⟨by simpa using hpast, of_decide_eq_true h⟩

namespace Agree

/-- The operands that the next instruction reads are the same. -/
theorem uses (h : Agree os alloc b x x') (hb : b.careful os = true) {ins : Instr Reg}
    (hf : b.fetch x.core.pc = some ins) :
    ∀ o ∈ ins.uses, x'.core.regs (alloc o) = x.core.regs o := by
  intro o ho
  rcases (Block.careful_instr hb hf).2 o ho with ⟨k, hk, hmem⟩ | ⟨hlt, hmem⟩
  · exact h.output _ hmem hk
  · exact h.input hlt _ hmem rfl

theorem fetch (h : Agree os alloc b x x') :
    (b.map alloc).fetch x'.core.pc = (b.fetch x.core.pc).map (Instr.map alloc) := by
  rw [Block.fetch_map, h.pc]

/-- So is the request. -/
theorem req (h : Agree os alloc b x x') (hb : b.careful os = true) :
    (b.map alloc).req x'.core = b.req x.core := by
  unfold Block.req
  rw [h.fetch]
  cases hf : b.fetch x.core.pc with
  | none => rfl
  | some ins => exact congrArg some (Instr.req_map h.latch (h.uses hb hf))

/-- So is the answer. -/
theorem answer (h : Agree os alloc b x x') (hb : b.careful os = true) :
    ((b.map alloc).req x'.core).bind
      (Req.answer ptr x'.area x'.mem (x'.core.pc + 1 == (b.map alloc).post)) =
      (b.req x.core).bind (Req.answer ptr x.area x.mem (x.core.pc + 1 == b.post)) := by
  rw [h.req hb, h.area, h.mem, h.pc, Block.post_map]

/-- **A restart** finds every input in its register. -/
theorem restart (h : Agree os alloc b x x') (area : Area) (m : Mem) :
    Agree os alloc b ⟨b.restart cs x, area, m⟩ ⟨(b.map alloc).restart cs x', area, m⟩ := by
  unfold Block.restart
  rw [Block.start_map, Block.post_map, Block.abort_map, h.area, h.pc]
  by_cases hc : x.area.rseqCs = cs ∧ b.start ≤ x.core.pc ∧ x.core.pc < b.post
  · rw [if_pos hc, if_pos hc]
    exact ⟨rfl, h.zf, h.latch, rfl, rfl, h.output, fun _ => h.input hc.2.2⟩
  · rw [if_neg hc, if_neg hc]
    exact ⟨h.pc, h.zf, h.latch, rfl, rfl, h.output, h.input⟩

variable [DecidableEq ρ]

/-- **One instruction.** What it writes is told apart, by its register, from every operand
that is still needed. -/
theorem next (h : Agree os alloc b x x') (hb : b.careful os = true)
    (hfwd : b.forward = true) (hp : os.Permits val alloc) (v : Usize) (area : Area) (m : Mem) :
    Agree os alloc b ⟨b.next cs x.core v, area, m⟩ ⟨(b.map alloc).next cs x'.core v, area, m⟩ := by
  cases hf : b.fetch x.core.pc with
  | none =>
    have hf' : (b.map alloc).fetch x'.core.pc = none := by rw [h.fetch, hf]; rfl
    have hn : b.next cs x.core v = x.core := by simp only [Block.next, hf]
    have hn' : (b.map alloc).next cs x'.core v = x'.core := by simp only [Block.next, hf']
    rw [hn, hn']
    exact ⟨h.pc, h.zf, h.latch, rfl, rfl, h.output, h.input⟩
  | some ins =>
    have hf' : (b.map alloc).fetch x'.core.pc = some (ins.map alloc) := by rw [h.fetch, hf]; rfl
    have hn : b.next cs x.core v = ins.next cs b.target x.core v := by simp only [Block.next, hf]
    have hn' : (b.map alloc).next cs x'.core v = (ins.map alloc).next cs b.target x'.core v := by
      simp only [Block.next, hf']
      exact congrArg (fun tgt => (ins.map alloc).next cs tgt x'.core v)
        (funext fun l => Block.target_map l)
    have hnext : ((ins.map alloc).next cs b.target x'.core v).pc =
        (ins.next cs b.target x.core v).pc ∧ _ ∧ _ ∧ _ :=
      Instr.next_map h.pc h.zf h.latch (h.uses hb hf)
    obtain ⟨hpc, hzf, hlatch, hdst⟩ := hnext
    have hcare := (Block.careful_instr hb hf).1
    rw [hn, hn']
    -- an operand whose register is not the destination's is the same as before
    have hkeep {o : Reg} (hold : x'.core.regs (alloc o) = x.core.regs o)
        (hne : ∀ d, ins.dst = some d → o ≠ d → alloc o ≠ alloc d) :
        ((ins.map alloc).next cs b.target x'.core v).regs (alloc o) =
          (ins.next cs b.target x.core v).regs o := by
      -- `o` is the destination itself, or neither run writes it
      by_cases ho : ins.dst = some o
      · exact hdst o ho
      · rw [Instr.next_regs_of_ne cs b.target x.core v ho]
        refine (Instr.next_regs_of_ne cs b.target x'.core v ?_).trans hold
        rw [Instr.dst_map]
        intro he
        obtain ⟨d, hd, he⟩ := Option.map_eq_some_iff.mp he
        exact hne d hd (fun e => ho (e ▸ hd)) he.symm
    refine ⟨hpc, hzf, hlatch, rfl, rfl, fun p hpm hk => ?_, fun hlt p hpm hk => ?_⟩
    · refine hkeep (h.output p hpm hk) fun d hd hne => ?_
      rcases hcare d hd with ho | ⟨_, ho⟩
      · exact hp.out _ ho rfl p hpm hne
      · exact hp.lateout _ ho rfl p hpm hk hne
    · -- the range has not been left: the destination is an `out`
      have hlt' : x.core.pc < b.post := by
        have hmono := (Block.next_pc_of_forward hfwd hf cs v).1
        rw [hn] at hmono
        exact hmono.trans hlt
      refine hkeep (h.input hlt' p hpm hk) fun d hd hne => ?_
      rcases hcare d hd with ho | ⟨hge, _⟩
      · exact hp.out _ ho rfl p hpm hne
      · exact absurd hlt' (not_lt.mpr hge)

/-- **A step** with named operands is one in machine registers. -/
theorem step (h : Agree os alloc b x x') (hb : b.careful os = true) (hfwd : b.forward = true)
    (hp : os.Permits val alloc) (hs : b.Step cs ptr x l y) :
    ∃ y', (b.map alloc).Step cs ptr x' l y' ∧ Agree os alloc b y y' := by
  cases hs with
  | exec ha => exact ⟨_, .exec ((h.answer hb).trans ha), h.next hb hfwd hp _ _ _⟩
  | event area m hl =>
    rw [← h.mem]
    exact ⟨_, .event area m (h.latch.trans hl), h.restart area m⟩

/-- And the other way round. -/
theorem step_back (h : Agree os alloc b x x') (hb : b.careful os = true)
    (hfwd : b.forward = true) (hp : os.Permits val alloc)
    (hs : (b.map alloc).Step cs ptr x' l y') :
    ∃ y, b.Step cs ptr x l y ∧ Agree os alloc b y y' := by
  cases hs with
  | exec ha => exact ⟨_, .exec ((h.answer hb).symm.trans ha), h.next hb hfwd hp _ _ _⟩
  | event area m hl =>
    rw [h.mem]
    exact ⟨_, .event area m (h.latch.symm.trans hl), h.restart area m⟩

end Agree

end Agree

/-! ### Runs -/

section Runs

variable {K : Index} {ρ : Type} [DecidableEq ρ] (arch : Arch) (op : Op K) (alloc : Reg → ρ)
  (cs ptr : Usize) (r : ρ → Usize) (z : Bool) (area : Area) (m : Mem)

/-- The block with its operands in machine registers gets to `x` with the history `h`. -/
def Op.AllocRuns (h : List BlockLabel) (x : BlockState ρ) : Prop :=
  LTS.Run (((op.block arch).map alloc).Step cs ptr) ⟨⟨0, r, z, none⟩, area, m⟩ h x

/-- The block with its operands in variables of their own does; these start out with what
the registers hold. -/
def Op.NamedRuns (h : List BlockLabel) (x : BlockState Reg) : Prop :=
  LTS.Run ((op.block arch).Step cs ptr) ⟨⟨0, r ∘ alloc, z, none⟩, area, m⟩ h x

/-- **The same from outside**: the memory, and at the end of the block its status and
value. As long as a restart is still to be expected, every input register holds what it
was entered with. -/
structure Op.SameOutcome (x : BlockState Reg) (x' : BlockState ρ) : Prop where
  mem : x'.mem = x.mem
  pc : x'.core.pc = x.core.pc
  status : x'.core.regs (alloc (op.block arch).status) = x.core.regs (op.block arch).status
  value : x'.core.regs (alloc (op.block arch).value) = x.core.regs (op.block arch).value
  inputs : x'.core.pc < (op.block arch).post → ∀ o, op.isInput o = true →
    x'.core.regs (alloc o) = r (alloc o)

variable {arch op alloc cs ptr r z area m} {val : Reg → Usize}

omit [DecidableEq ρ] in
theorem Agree.sameOutcome {x : BlockState Reg} {x' : BlockState ρ}
    (h : Agree (op.section.operands arch) alloc (op.block arch) x x')
    (hh : ∀ o, op.isInput o = true → x.core.regs o = r (alloc o)) :
    op.SameOutcome arch alloc r x x' := by
  have hout : ∀ o ∈ [(op.block arch).status, (op.block arch).value],
      x'.core.regs (alloc o) = x.core.regs o := by
    intro o ho
    have hc := op.block_careful arch
    unfold Block.careful at hc
    have hmem := List.all_eq_true.mp (Bool.and_eq_true _ _ ▸ hc).2 o ho
    rw [Bool.or_eq_true] at hmem
    rcases hmem with hmem | hmem
    · exact h.output _ (of_decide_eq_true hmem) nofun
    · exact h.output _ (of_decide_eq_true hmem) nofun
  refine ⟨h.mem, h.pc, hout _ (by simp), hout _ (by simp), fun hlt o ho => ?_⟩
  rw [h.pc] at hlt
  rw [h.input hlt _ (op.input_mem_operands arch ho) rfl]
  exact hh o ho

omit [DecidableEq ρ] in
/-- A step keeps the operands of a named run. -/
theorem Op.NamedRuns.inputs {h : List BlockLabel} {x : BlockState Reg}
    (hx : op.NamedRuns arch alloc cs ptr r z area m h x) (o : Reg) (ho : op.isInput o = true) :
    x.core.regs o = r (alloc o) := by
  refine hx.invariant (I := fun _ x => x.core.regs o = r (alloc o)) rfl
    fun _ x _ _ _ hi hs => ?_
  cases hs with
  | exec => exact (Block.next_regs_of_spares (op.block_spares arch) ho ..).trans hi
  | event a m' =>
    unfold Block.restart
    split <;> exact hi

/-- **Restart is safe under every register allocation.** With the operands in any registers
their classes permit, whatever these hold at first, the block makes the same accesses with the
same values, among the same events, as with its operands in variables of their own; it is
in the same memory, and reports the same. -/
theorem alloc_safe (hp : (op.section.operands arch).Permits val alloc)
    (h : List BlockLabel) :
    (∀ x', op.AllocRuns arch alloc cs ptr r z area m h x' →
      ∃ x, op.NamedRuns arch alloc cs ptr r z area m h x ∧ op.SameOutcome arch alloc r x x') ∧
    (∀ x, op.NamedRuns arch alloc cs ptr r z area m h x →
      ∃ x', op.AllocRuns arch alloc cs ptr r z area m h x' ∧
        op.SameOutcome arch alloc r x x') := by
  have hagree : Agree (op.section.operands arch) alloc (op.block arch)
      ⟨⟨0, r ∘ alloc, z, none⟩, area, m⟩ ⟨⟨0, r, z, none⟩, area, m⟩ :=
    ⟨rfl, rfl, rfl, rfl, rfl, fun _ _ _ => rfl, fun _ _ _ _ => rfl⟩
  refine ⟨fun x' hx' => ?_, fun x hx => ?_⟩
  · have hrun : ∃ x, op.NamedRuns arch alloc cs ptr r z area m h x ∧
        Agree (op.section.operands arch) alloc (op.block arch) x x' := by
      induction hx' with
      | nil => exact ⟨_, .nil, hagree⟩
      | cons _ hs ih =>
        obtain ⟨x, hx, ha⟩ := ih
        obtain ⟨y, hy, ha'⟩ := ha.step_back (op.block_careful arch) (op.block_forward arch) hp hs
        exact ⟨y, .cons hx hy, ha'⟩
    obtain ⟨x, hx, ha⟩ := hrun
    exact ⟨x, hx, ha.sameOutcome hx.inputs⟩
  · have hrun : ∃ x', op.AllocRuns arch alloc cs ptr r z area m h x' ∧
        Agree (op.section.operands arch) alloc (op.block arch) x x' := by
      induction hx with
      | nil => exact ⟨_, .nil, hagree⟩
      | cons _ hs ih =>
        obtain ⟨x', hx', ha⟩ := ih
        obtain ⟨y', hy', ha'⟩ := ha.step (op.block_careful arch) (op.block_forward arch) hp hs
        exact ⟨y', .cons hx' hy', ha'⟩
    obtain ⟨x', hx', ha⟩ := hrun
    exact ⟨x', hx', ha.sameOutcome hx.inputs⟩

end Runs

/-! ### A tight allocation -/

/-- `compare_exchange(word, 7, 7)`. -/
def tightOp : Op .cpuId := .compareExchange (cpu0Word 0x8000) 7 7

/-- `expect`, `new` and the late `status` in one register. -/
def tightAlloc : Reg → ℕ
  | .rseq => 0
  | .word => 1
  | .id => 2
  | .got => 4
  | .tmp => 5
  | .current => 6
  | _ => 3

/-- The inputs in their registers. -/
def tightRegs : ℕ → Usize
  | 0 => 0x200
  | 1 => 0x8000
  | 3 => 7
  | _ => 0

theorem tightAlloc_permits :
    (tightOp.section.operands .aarch64).Permits (tightRegs ∘ tightAlloc) tightAlloc :=
  ⟨by decide, by decide, fun p _ _ q _ _ he => congrArg tightRegs he⟩

/-- The block in these registers. -/
def tightBlock : Block ℕ := (tightOp.block .aarch64).map tightAlloc

/-- It has loaded the word, which holds 7. -/
def tightLoaded : List BlockLabel × BlockState ℕ :=
  (tightBlock.solo 0x100 0x200 8 ⟨⟨0, tightRegs, false, none⟩, ⟨0, 0, 0⟩, fun _ => 7⟩).get rfl

/-- Before it commits it is preempted, and goes on on the same CPU. -/
def tightBack : BlockState ℕ :=
  ⟨tightBlock.restart 0x100 tightLoaded.2, ⟨0, 0, 0⟩, tightLoaded.2.mem⟩

/-- It has run from the abort label to its end. -/
def tightDone : List BlockLabel × BlockState ℕ :=
  (tightBlock.solo 0x100 0x200 12 tightBack).get rfl

/-- The event that restarts it. -/
def tightEvent : BlockLabel := .event ⟨tightLoaded.2.mem, ⟨0, 0, 0⟩, tightLoaded.2.mem⟩

theorem tightDone_run :
    tightOp.AllocRuns .aarch64 tightAlloc 0x100 0x200 tightRegs false ⟨0, 0, 0⟩ (fun _ => 7)
      (tightDone.1 ++ tightEvent :: tightLoaded.1) tightDone.2 := by
  have hloaded := tightBlock.solo_run 0x100 0x200 (p := tightLoaded) (Option.some_get _).symm
  have hdone := tightBlock.solo_run 0x100 0x200 (p := tightDone) (Option.some_get _).symm
  exact (LTS.Run.cons hloaded (.event _ _ (by decide +kernel))).append hdone

/-- The restarted attempt finds the inputs where `status` goes in the end, and returns what
it has loaded. -/
theorem alloc_safe_tight :
    tightBack.core.pc = tightBlock.abort ∧ tightBlock.Reports tightDone.2 (.ok 7) ∧
      ∃ x, tightOp.NamedRuns .aarch64 tightAlloc 0x100 0x200 tightRegs false ⟨0, 0, 0⟩
          (fun _ => 7) (tightDone.1 ++ tightEvent :: tightLoaded.1) x ∧
        tightOp.SameOutcome .aarch64 tightAlloc tightRegs x tightDone.2 :=
  ⟨by decide +kernel, ⟨by decide +kernel, by decide +kernel⟩,
    (alloc_safe tightAlloc_permits _).1 _ tightDone_run⟩

end RseqRs
