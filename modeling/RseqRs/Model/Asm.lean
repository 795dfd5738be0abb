import RseqRs.Model.Abi
import Mathlib.Logic.Function.Basic

/-!
# The assembly of the sections

The instructions the `asm!` blocks of `src/x86_64.rs` and `src/aarch64.rs` are
written in, over a type `ρ` of operands, and their meaning. A block is kept line
by line as the source writes it, with the source's numeric labels; an instruction
is addressed by its place among the lines that emit code. An `xadd` has no `lock` prefix,
so it is two steps: it loads and then stores, and other CPUs may write in between.

What an instruction asks of the world outside the registers is its request
(`Req`); the kernel and the memory answer, and `Instr.next` resumes with the
answer. This keeps the meaning of a block separate from who else runs.
-/

namespace RseqRs

variable {ρ : Type}

/-- One instruction. The comment gives the x86-64 and the aarch64 spelling. -/
inductive Instr (ρ : Type) where
  /-- `jmp l` / `b l` -/
  | jmp (l : ℕ)
  /-- `jne l` / `b.ne l` -/
  | jne (l : ℕ)
  /-- `je l` / `b.eq l` -/
  | je (l : ℕ)
  /-- `lea dst, [rip + cs]`, `cs` the block's descriptor -/
  | lea (dst : ρ)
  /-- `adrp dst, cs` -/
  | adrp (dst : ρ)
  /-- `add dst, src, :lo12:cs` -/
  | addLo12 (dst src : ρ)
  /-- `mov qword ptr [base + off], src` / `str src, [base, #off]` -/
  | storeCs (base : ρ) (off : ℕ) (src : ρ)
  /-- `mov dst:e, dword ptr [base + off]` / `ldr dst:w, [base, #off]` -/
  | loadId (dst base : ρ) (off : ℕ)
  /-- `cmp a:e, b:e` / `cmp a:w, b:w` -/
  | cmp32 (a b : ρ)
  /-- `cmp a, b` -/
  | cmp (a b : ρ)
  /-- `mov dst, qword ptr [addr]` / `ldr dst, [addr]` -/
  | load (dst addr : ρ)
  /-- `mov qword ptr [addr], src` / `str src, [addr]` -/
  | store (addr src : ρ)
  /-- `xadd qword ptr [addr], src`; as a step, its load -/
  | xadd (addr src : ρ)
  /-- the second step of the `xadd`, its store; no line of a block -/
  | xaddStore (addr src : ρ)
  /-- `mov dst, src` -/
  | mov (dst src : ρ)
  /-- `mov dst:e, n` / `mov dst, #n` -/
  | movImm (dst : ρ) (n : ℕ)
  /-- `xor dst:e, dst:e` -/
  | xorSelf (dst : ρ)
  /-- `mov dst, xzr` -/
  | movZr (dst : ρ)
  /-- `add dst, src`, which sets the flags -/
  | add (dst src : ρ)
  /-- `add dst, a, b`, which does not -/
  | add3 (dst a b : ρ)
deriving DecidableEq

/-- The steps an instruction is executed in. An `xadd` is a load and a store; any other
instruction accesses memory at most once. -/
def Instr.steps : Instr ρ → List (Instr ρ)
  | .xadd addr src => [.xadd addr src, .xaddStore addr src]
  | i => [i]

/-- A line of an `asm!` block. `sig` is the abort signature, `.long` / `.inst`. -/
inductive Line (ρ : Type) where
  | label (l : ℕ)
  | sig
  | ins (i : Instr ρ)

/-- An `asm!` block: its lines, the three labels its `rseq_cs` descriptor is
built from, and the two operands its outcome is read from. -/
structure Block (ρ : Type) where
  /-- `.quad` of the first label of the range -/
  startLabel : ℕ
  /-- the label just after the commit -/
  endLabel : ℕ
  /-- `.quad` of the restart label -/
  abortLabel : ℕ
  lines : List (Line ρ)
  status : ρ
  value : ρ

namespace Block

/-- The emitted slots, a step of an instruction or the signature word. -/
def slots : List (Line ρ) → List (Option (Instr ρ))
  | [] => []
  | .label _ :: ls => slots ls
  | .sig :: ls => none :: slots ls
  | .ins i :: ls => i.steps.map some ++ slots ls

/-- The slot a label stands before. -/
def place (l : ℕ) : List (Line ρ) → ℕ
  | [] => 0
  | .label n :: ls => if n = l then 0 else place l ls
  | .sig :: ls => place l ls + 1
  | .ins i :: ls => place l ls + i.steps.length

/-- The instruction in slot `i`. -/
def fetch (b : Block ρ) (i : ℕ) : Option (Instr ρ) := ((slots b.lines)[i]?).join

/-- The slot label `l` stands before. -/
def target (b : Block ρ) (l : ℕ) : ℕ := place l b.lines

/-- The first slot of the critical section. -/
def start (b : Block ρ) : ℕ := b.target b.startLabel

/-- The slot just after the commit. -/
def post (b : Block ρ) : ℕ := b.target b.endLabel

/-- The slot the kernel restarts the section from. -/
def abort (b : Block ρ) : ℕ := b.target b.abortLabel

/-- The number of slots; also the slot of the final label. -/
def len (b : Block ρ) : ℕ := (slots b.lines).length

end Block

/-- The registers and the zero flag, and the slot to execute next. -/
structure Core (ρ : Type) where
  pc : ℕ
  regs : ρ → Usize
  zf : Bool
  /-- what an `xadd` under way has loaded; none between two instructions -/
  latch : Option Usize

/-- What an instruction asks of memory. -/
inductive Req where
  /-- nothing -/
  | tau
  /-- store `v` at `base + off`, in the caller's area -/
  | storeCs (base : Usize) (off : ℕ) (v : Usize)
  /-- load 32 bits at `base + off`, in the caller's area -/
  | loadId (base : Usize) (off : ℕ)
  | load (a : Usize)
  | store (a v : Usize)
deriving DecidableEq

/-- The low twelve bits, which `adrp` drops and `:lo12:` restores. -/
def lo12 : Usize := 0xFFF

namespace Instr

/-- The request of an instruction. -/
def req (c : Core ρ) : Instr ρ → Req
  | .storeCs base off src => .storeCs (c.regs base) off (c.regs src)
  | .loadId _ base off => .loadId (c.regs base) off
  | .load _ addr | .xadd addr _ => .load (c.regs addr)
  | .store addr src => .store (c.regs addr) (c.regs src)
  | .xaddStore addr src => .store (c.regs addr) (c.latch.getD 0 + c.regs src)
  | _ => .tau

variable [DecidableEq ρ]

/-- The state after an instruction that got the answer `v`. `cs` is the address
of the block's descriptor, `target` resolves its labels. -/
def next (cs : Usize) (target : ℕ → ℕ) (c : Core ρ) (v : Usize) : Instr ρ → Core ρ
  -- only the comparisons and the x86-64 arithmetic set the flag
  | .jmp l => ⟨target l, c.regs, c.zf, none⟩
  | .jne l => ⟨if c.zf then c.pc + 1 else target l, c.regs, c.zf, none⟩
  | .je l => ⟨if c.zf then target l else c.pc + 1, c.regs, c.zf, none⟩
  | .lea dst => ⟨c.pc + 1, Function.update c.regs dst cs, c.zf, none⟩
  | .adrp dst => ⟨c.pc + 1, Function.update c.regs dst (cs &&& ~~~lo12), c.zf, none⟩
  | .addLo12 dst src =>
    ⟨c.pc + 1, Function.update c.regs dst (c.regs src + (cs &&& lo12)), c.zf, none⟩
  | .storeCs _ _ _ | .store _ _ => ⟨c.pc + 1, c.regs, c.zf, none⟩
  | .loadId dst _ _ | .load dst _ => ⟨c.pc + 1, Function.update c.regs dst v, c.zf, none⟩
  | .cmp32 a b =>
    ⟨c.pc + 1, c.regs, (c.regs a).setWidth 32 == (c.regs b).setWidth 32, none⟩
  | .cmp a b => ⟨c.pc + 1, c.regs, c.regs a == c.regs b, none⟩
  | .xadd _ _ => ⟨c.pc + 1, c.regs, c.zf, some v⟩
  -- the sum is in memory, and `src` has what was loaded
  | .xaddStore _ src =>
    ⟨c.pc + 1, Function.update c.regs src (c.latch.getD 0),
      c.latch.getD 0 + c.regs src == 0, none⟩
  | .mov dst src => ⟨c.pc + 1, Function.update c.regs dst (c.regs src), c.zf, none⟩
  | .movImm dst n => ⟨c.pc + 1, Function.update c.regs dst (BitVec.ofNat 64 n), c.zf, none⟩
  | .xorSelf dst => ⟨c.pc + 1, Function.update c.regs dst 0, true, none⟩
  | .movZr dst => ⟨c.pc + 1, Function.update c.regs dst 0, c.zf, none⟩
  | .add dst src =>
    ⟨c.pc + 1, Function.update c.regs dst (c.regs dst + c.regs src),
      c.regs dst + c.regs src == 0, none⟩
  | .add3 dst a b => ⟨c.pc + 1, Function.update c.regs dst (c.regs a + c.regs b), c.zf, none⟩

/-- The register an instruction writes. -/
def dst : Instr ρ → Option ρ
  | .lea d | .adrp d | .addLo12 d _ | .loadId d _ _ | .load d _ | .mov d _
  | .movImm d _ | .xorSelf d | .movZr d | .add d _ | .add3 d _ _ | .xaddStore _ d => some d
  | .jmp _ | .jne _ | .je _ | .storeCs _ _ _ | .store _ _ | .cmp32 _ _ | .cmp _ _
  | .xadd _ _ => none

/-- The label an instruction may jump to. -/
def jump : Instr ρ → Option ℕ
  | .jmp l | .jne l | .je l => some l
  | _ => none

/-- Only the destination register changes. -/
theorem next_regs_of_ne (cs : Usize) (target : ℕ → ℕ) (c : Core ρ) (v : Usize)
    {i : Instr ρ} {o : ρ} (h : i.dst ≠ some o) : (i.next cs target c v).regs o = c.regs o := by
  cases i <;> first
    | rfl
    | exact Function.update_of_ne (fun e => h (by rw [e]; rfl)) _ _

/-- Only the first step of an `xadd` leaves something in the latch. -/
theorem next_latch (cs : Usize) (target : ℕ → ℕ) (c : Core ρ) (v : Usize) (i : Instr ρ) :
    (i.next cs target c v).latch = none ∨
      (∃ a s, i = .xadd a s) ∧ (i.next cs target c v).pc = c.pc + 1 := by
  cases i with
  | xadd a s => exact Or.inr ⟨⟨a, s, rfl⟩, rfl⟩
  | _ => exact Or.inl rfl

/-- Control falls through or takes the jump. -/
theorem next_pc (cs : Usize) (target : ℕ → ℕ) (c : Core ρ) (v : Usize) (i : Instr ρ) :
    (i.next cs target c v).pc = c.pc + 1 ∨
      ∃ l, i.jump = some l ∧ (i.next cs target c v).pc = target l := by
  cases i <;> first
    | exact Or.inl rfl
    | exact Or.inr ⟨_, rfl, rfl⟩
    | cases hz : c.zf <;> simp [next, jump, hz]

end Instr

namespace Block

/-- The request of the instruction in slot `c.pc`; none at the end of the block
and on the signature word. -/
def req (b : Block ρ) (c : Core ρ) : Option Req := (b.fetch c.pc).map (·.req c)

theorem mem_slots_of_fetch {b : Block ρ} {i : ℕ} {ins : Instr ρ} (h : b.fetch i = some ins) :
    some ins ∈ slots b.lines := by
  unfold fetch at h
  cases hs : (slots b.lines)[i]? with
  | none => rw [hs] at h; cases h
  | some o =>
    rw [hs] at h
    obtain rfl : o = some ins := h
    exact List.mem_of_getElem? hs

theorem lt_len_of_fetch {b : Block ρ} {i : ℕ} {ins : Instr ρ} (h : b.fetch i = some ins) :
    i < b.len := by
  by_contra hlt
  have hnone : (slots b.lines)[i]? = none := List.getElem?_eq_none (not_lt.mp hlt)
  unfold fetch at h
  rw [hnone] at h
  cases h

/-- The slots of the `xadd`s of a block, of their first steps. -/
def adds (b : Block ρ) : List ℕ :=
  (List.range b.len).filter fun i => (b.fetch i).any fun
    | .xadd _ _ => true
    | _ => false

theorem mem_adds {b : Block ρ} {i : ℕ} {a s : ρ} (h : b.fetch i = some (.xadd a s)) :
    i ∈ b.adds :=
  List.mem_filter.mpr ⟨List.mem_range.mpr (lt_len_of_fetch h), by rw [h]; rfl⟩

/-- What is in the latch an `xadd` has left there, in the slot before. -/
def Latched (b : Block ρ) (c : Core ρ) : Prop :=
  c.latch = none ∨ ∃ i ∈ b.adds, c.pc = i + 1

variable [DecidableEq ρ]

/-- The state after the instruction in slot `c.pc` got the answer `v`. -/
def next (b : Block ρ) (cs : Usize) (c : Core ρ) (v : Usize) : Core ρ :=
  match b.fetch c.pc with
  | some i => i.next cs b.target c v
  | none => c

/-- No instruction of the block writes a register of `inputs`. -/
def spares (b : Block ρ) (inputs : ρ → Bool) : Bool :=
  (slots b.lines).all fun i => (i.bind Instr.dst).all fun o => !inputs o

theorem Latched.next {b : Block ρ} {c : Core ρ} (h : b.Latched c) (cs v : Usize) :
    b.Latched (b.next cs c v) := by
  unfold Block.next
  cases hf : b.fetch c.pc with
  | none => exact h
  | some ins =>
    refine (ins.next_latch cs b.target c v).imp id fun ⟨⟨a, s, hi⟩, hpc⟩ => ?_
    exact ⟨c.pc, mem_adds (hi ▸ hf), hpc⟩

/-- Every jump of the block goes forward, and stays in it. -/
def forward (b : Block ρ) : Bool :=
  (List.range b.len).all fun i =>
    ((b.fetch i).bind Instr.jump).all fun l => i < b.target l && b.target l ≤ b.len

/-- A spared register keeps its value. -/
theorem next_regs_of_spares {b : Block ρ} {inputs : ρ → Bool} (hb : b.spares inputs = true)
    {o : ρ} (ho : inputs o = true) (cs : Usize) (c : Core ρ) (v : Usize) :
    (b.next cs c v).regs o = c.regs o := by
  unfold next
  cases hf : b.fetch c.pc with
  | none => rfl
  | some i =>
    refine Instr.next_regs_of_ne cs b.target c v fun hd => ?_
    have hall := List.all_eq_true.mp hb _ (mem_slots_of_fetch hf)
    simp only [Option.bind_some, hd, Option.all_some, ho, Bool.not_true] at hall
    cases hall

/-- Every instruction of a forward block moves on, within the block. -/
theorem next_pc_of_forward {b : Block ρ} (hb : b.forward = true) {c : Core ρ} {ins : Instr ρ}
    (hf : b.fetch c.pc = some ins) (cs v : Usize) :
    c.pc < (b.next cs c v).pc ∧ (b.next cs c v).pc ≤ b.len := by
  have hlt := lt_len_of_fetch hf
  simp only [next, hf]
  rcases Instr.next_pc cs b.target c v ins with h | ⟨l, hl, h⟩
  · rw [h]; omega
  · have hall := List.all_eq_true.mp hb c.pc (List.mem_range.mpr hlt)
    simp only [hf, Option.bind_some, hl, Option.all_some, Bool.and_eq_true,
      decide_eq_true_eq] at hall
    rw [h]
    exact hall

end Block

/-- The operands of the `asm!` blocks, under the names the blocks give them. -/
inductive Reg where
  | rseq | word | ptr | id | expect | expectNot | new | count | offset
  | side | sideNew | other | otherExpect
  | got | tmp | current | prev | otherVal | chase | base | slot | sum | status
deriving DecidableEq, Repr

end RseqRs
