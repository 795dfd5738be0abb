import RseqRs.Model.BlockRun

/-!
# Operands in machine registers

An `asm!` block names its operands; the compiler chooses a machine register for each of
them, anew at every call site. What it may choose is said by the class an operand is
declared with. `Block.map` is the block with a choice filled in, over any type of machine
registers.
-/

namespace RseqRs

section Map

variable {ρ σ : Type}

/-- The instruction with its operands replaced. -/
def Instr.map (f : ρ → σ) : Instr ρ → Instr σ
  | .jmp l => .jmp l
  | .jne l => .jne l
  | .je l => .je l
  | .lea d => .lea (f d)
  | .adrp d => .adrp (f d)
  | .addLo12 d s => .addLo12 (f d) (f s)
  | .storeCs b off s => .storeCs (f b) off (f s)
  | .loadId d b off => .loadId (f d) (f b) off
  | .cmp32 a b => .cmp32 (f a) (f b)
  | .cmp a b => .cmp (f a) (f b)
  | .load d a => .load (f d) (f a)
  | .store a s => .store (f a) (f s)
  | .xadd a s => .xadd (f a) (f s)
  | .xaddStore a s => .xaddStore (f a) (f s)
  | .mov d s => .mov (f d) (f s)
  | .movImm d n => .movImm (f d) n
  | .xorSelf d => .xorSelf (f d)
  | .movZr d => .movZr (f d)
  | .add d s => .add (f d) (f s)
  | .add3 d a b => .add3 (f d) (f a) (f b)

/-- The operands an instruction reads. `xor d, d` reads none. -/
def Instr.uses : Instr ρ → List ρ
  | .jmp _ | .jne _ | .je _ | .lea _ | .adrp _ | .movImm _ _ | .xorSelf _ | .movZr _ => []
  | .addLo12 _ s | .mov _ s => [s]
  | .loadId _ b _ => [b]
  | .load _ a | .xadd a _ => [a]
  | .storeCs b _ s => [b, s]
  | .cmp32 a b | .cmp a b | .add3 _ a b => [a, b]
  | .store a s | .xaddStore a s => [a, s]
  | .add d s => [d, s]

/-- The line with its operands replaced. -/
def Line.map (f : ρ → σ) : Line ρ → Line σ
  | .label l => .label l
  | .sig => .sig
  | .ins i => .ins (i.map f)

/-- The block with its operands replaced. -/
def Block.map (f : ρ → σ) (b : Block ρ) : Block σ where
  startLabel := b.startLabel
  endLabel := b.endLabel
  abortLabel := b.abortLabel
  lines := b.lines.map (Line.map f)
  status := f b.status
  value := f b.value

end Map

/-! ### The declared operands -/

/-- The class of an operand: `in(reg)`, `out(reg)` or `lateout(reg)`. -/
inductive OperandClass where
  | input
  | out
  | lateout
deriving DecidableEq

/-- The operands a block declares. -/
abbrev Operands := List (Reg × OperandClass)

/-- The operand lists of `src/x86_64.rs`. -/
def X86.operands : Section → Operands
  | .compareExchange _ =>
    [(.rseq, .input), (.word, .input), (.id, .input), (.expect, .input), (.new, .input),
      (.got, .out), (.tmp, .out), (.current, .out), (.status, .out)]
  | .fetchAdd _ =>
    [(.rseq, .input), (.word, .input), (.id, .input), (.count, .input),
      (.got, .out), (.tmp, .out), (.prev, .out), (.status, .out)]
  | .storeIf _ =>
    [(.rseq, .input), (.word, .input), (.id, .input), (.expect, .input), (.new, .input),
      (.side, .input), (.sideNew, .input),
      (.got, .out), (.tmp, .out), (.current, .out), (.status, .out)]
  | .compareExchangeIf _ =>
    [(.rseq, .input), (.word, .input), (.id, .input), (.expect, .input), (.new, .input),
      (.other, .input), (.otherExpect, .input),
      (.got, .out), (.tmp, .out), (.otherVal, .out), (.current, .out), (.status, .out)]
  | .loadIfNe _ =>
    [(.rseq, .input), (.word, .input), (.id, .input), (.expectNot, .input), (.offset, .input),
      (.got, .out), (.tmp, .out), (.chase, .out), (.current, .out), (.status, .out)]
  | .fetchAddAt _ =>
    [(.rseq, .input), (.ptr, .input), (.id, .input), (.offset, .input), (.count, .input),
      (.got, .out), (.tmp, .out), (.base, .out), (.slot, .out), (.prev, .out), (.status, .out)]

/-- The operand lists of `src/aarch64.rs`: `status` is a `lateout`, and the adds have a
`sum`. -/
def Aarch64.operands : Section → Operands
  | .compareExchange _ =>
    [(.rseq, .input), (.word, .input), (.id, .input), (.expect, .input), (.new, .input),
      (.got, .out), (.tmp, .out), (.current, .out), (.status, .lateout)]
  | .fetchAdd _ =>
    [(.rseq, .input), (.word, .input), (.id, .input), (.count, .input),
      (.got, .out), (.tmp, .out), (.sum, .out), (.prev, .out), (.status, .lateout)]
  | .storeIf _ =>
    [(.rseq, .input), (.word, .input), (.id, .input), (.expect, .input), (.new, .input),
      (.side, .input), (.sideNew, .input),
      (.got, .out), (.tmp, .out), (.current, .out), (.status, .lateout)]
  | .compareExchangeIf _ =>
    [(.rseq, .input), (.word, .input), (.id, .input), (.expect, .input), (.new, .input),
      (.other, .input), (.otherExpect, .input),
      (.got, .out), (.tmp, .out), (.otherVal, .out), (.current, .out), (.status, .lateout)]
  | .loadIfNe _ =>
    [(.rseq, .input), (.word, .input), (.id, .input), (.expectNot, .input), (.offset, .input),
      (.got, .out), (.tmp, .out), (.chase, .out), (.current, .out), (.status, .lateout)]
  | .fetchAddAt _ =>
    [(.rseq, .input), (.ptr, .input), (.id, .input), (.offset, .input), (.count, .input),
      (.got, .out), (.tmp, .out), (.base, .out), (.slot, .out), (.sum, .out), (.prev, .out),
      (.status, .lateout)]

/-- The operands of a section on a target. -/
def Section.operands : Arch → Section → Operands
  | .x86 => X86.operands
  | .aarch64 => Aarch64.operands

/-- **What the compiler may choose** for operands with the input values `val`: an `out`
operand shares its register with no other operand, a `lateout` with no other output, and
two inputs share one only if they hold the same value. -/
structure Operands.Permits {ρ : Type} (os : Operands) (val : Reg → Usize) (alloc : Reg → ρ) :
    Prop where
  out : ∀ p ∈ os, p.2 = .out → ∀ q ∈ os, q.1 ≠ p.1 → alloc q.1 ≠ alloc p.1
  lateout : ∀ p ∈ os, p.2 = .lateout → ∀ q ∈ os, q.2 ≠ .input → q.1 ≠ p.1 →
    alloc q.1 ≠ alloc p.1
  input : ∀ p ∈ os, p.2 = .input → ∀ q ∈ os, q.2 = .input → alloc q.1 = alloc p.1 →
    val q.1 = val p.1

end RseqRs
