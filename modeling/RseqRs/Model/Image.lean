import RseqRs.Model.Thread
import RseqRs.Model.X86
import RseqRs.Model.Aarch64

/-!
# The loaded program and the kernel's view of it

Every call site of a word op is an inlined copy of its `asm!` block, with its own
code addresses and its own descriptor in `__rseq_cs`. An `Image` is the loaded
program: where each site's instructions and descriptor lie. The kernel knows
instruction pointers and descriptors only as numbers; `Image.fixup` is its rule.
-/

namespace RseqRs

/-- The two targets with sections. -/
inductive Arch where
  | x86
  | aarch64
deriving DecidableEq

/-- Which section a call site is a copy of: the op and the `ID_OFF` it is
instantiated with. -/
inductive Section where
  | compareExchange (idOff : ℕ)
  | compareExchangeIf (idOff : ℕ)
  | fetchAdd (idOff : ℕ)
  | loadIfNe (idOff : ℕ)
  | fetchAddAt (idOff : ℕ)
  | storeIf (idOff : ℕ)
deriving DecidableEq

/-- The `asm!` block of a section: `cs` is `x86_64` or `aarch64`. -/
def Section.block : Arch → Section → Block Reg
  | .x86, .compareExchange o => X86.compareExchange o
  | .x86, .compareExchangeIf o => X86.compareExchangeIf o
  | .x86, .fetchAdd o => X86.fetchAdd o
  | .x86, .loadIfNe o => X86.loadIfNe o
  | .x86, .fetchAddAt o => X86.fetchAddAt o
  | .x86, .storeIf o => X86.storeIf o
  | .aarch64, .compareExchange o => Aarch64.compareExchange o
  | .aarch64, .compareExchangeIf o => Aarch64.compareExchangeIf o
  | .aarch64, .fetchAdd o => Aarch64.fetchAdd o
  | .aarch64, .loadIfNe o => Aarch64.loadIfNe o
  | .aarch64, .fetchAddAt o => Aarch64.fetchAddAt o
  | .aarch64, .storeIf o => Aarch64.storeIf o

/-- The dispatch `if K::OFF == CPU_ID_OFF { f::<CPU_ID_OFF> } else { f::<MM_CID_OFF> }`
of `Thread::cas` and its five siblings. -/
def Index.dispatch {β : Type} (K : Index) (f : ℕ → β) : β :=
  if K.off = cpuIdOff then f cpuIdOff else f mmCidOff

@[simp] theorem Index.dispatch_eq {β : Type} (K : Index) (f : ℕ → β) :
    K.dispatch f = f K.off := by
  cases K <;> rfl

/-- The section an op runs: `Thread::cas`, `cas_if`, `add`, `load_ne`, `add_at`,
`try_store`. -/
def Op.section {K : Index} : Op K → Section
  | .compareExchange _ _ _ => K.dispatch .compareExchange
  | .compareExchangeIf _ _ _ _ _ => K.dispatch .compareExchangeIf
  | .fetchAdd _ _ => K.dispatch .fetchAdd
  | .loadIfNe _ _ _ => K.dispatch .loadIfNe
  | .fetchAddAt _ _ _ => K.dispatch .fetchAddAt
  | .storeIf _ _ _ _ _ => K.dispatch .storeIf

/-- The block an op runs. -/
def Op.block {K : Index} (arch : Arch) (op : Op K) : Block Reg := op.section.block arch

/-- The `in(reg)` operands of an op: `area.as_ptr()`, the addresses of its words,
the `u32` id of its key, and its values. -/
def Op.input {K : Index} (area : Usize) : Op K → Reg → Option Usize
  | .compareExchange w expect new => fun
    | .rseq => some area | .word => some w.word | .id => some ((K.get w.key).setWidth 64)
    | .expect => some expect | .new => some new | _ => none
  | .compareExchangeIf w expect new o otherExpect => fun
    | .rseq => some area | .word => some w.word | .id => some ((K.get w.key).setWidth 64)
    | .expect => some expect | .new => some new
    | .other => some o.word | .otherExpect => some otherExpect | _ => none
  | .fetchAdd w count => fun
    | .rseq => some area | .word => some w.word | .id => some ((K.get w.key).setWidth 64)
    | .count => some count | _ => none
  | .loadIfNe w expectNot offset => fun
    | .rseq => some area | .word => some w.word | .id => some ((K.get w.key).setWidth 64)
    | .expectNot => some expectNot | .offset => some offset | _ => none
  | .fetchAddAt p offset count => fun
    | .rseq => some area | .ptr => some p.word | .id => some ((K.get p.key).setWidth 64)
    | .offset => some offset | .count => some count | _ => none
  | .storeIf w expect new s sideNew => fun
    | .rseq => some area | .word => some w.word | .id => some ((K.get w.key).setWidth 64)
    | .expect => some expect | .new => some new
    | .side => some s.word | .sideNew => some sideNew | _ => none

/-- A register with the content `x` carries the operand `v`: of the id, a `u32`, only the
lower half counts. -/
def Reg.Carries : Reg → Usize → Usize → Prop
  | .id, x, v => x.setWidth 32 = v.setWidth 32
  | _, x, v => x = v

/-- The registers a block is entered with: the operands, and `g` elsewhere, also in the upper
half of the id's register. -/
def Op.enter {K : Index} (op : Op K) (area : Usize) (g : Reg → Usize) : Reg → Usize
  | .id => (g .id).extractLsb' 32 32 ++ ((op.input area .id).getD (g .id)).setWidth 32
  | o => (op.input area o).getD (g o)

/-- A descriptor in `__rseq_cs`, as the kernel reads it. -/
structure RseqCs where
  startIp : Usize
  postCommitOffset : Usize
  abortIp : Usize

/-- A loaded program of word-op call sites. -/
structure Image where
  arch : Arch
  /-- the call sites -/
  Site : Type
  /-- the section a site is a copy of -/
  sect : Site → Section
  /-- the address of each slot of a site, and of the end of its block; the second step of an
  `xadd` has one inside the instruction -/
  ip : Site → ℕ → Usize
  /-- the slot at an address -/
  locate : Usize → Option (Site × ℕ)
  /-- the address of a site's descriptor -/
  desc : Site → Usize
  /-- the descriptor at an address -/
  deref : Usize → Option RseqCs
  /-- the signature takes four bytes -/
  ip_sig : ∀ s i, (Block.slots ((sect s).block arch).lines)[i]? = some none →
    ip s (i + 1) = ip s i + 4
  ip_lt : ∀ s i j, i < j → j ≤ ((sect s).block arch).len → ip s i < ip s j
  apart : ∀ s s', s ≠ s' →
    ip s ((sect s).block arch).len ≤ ip s' 0 ∨ ip s' ((sect s').block arch).len ≤ ip s 0
  locate_ip : ∀ s i, i < ((sect s).block arch).len → locate (ip s i) = some (s, i)
  ip_locate : ∀ a s i, locate a = some (s, i) → a = ip s i ∧ i < ((sect s).block arch).len
  deref_zero : deref 0 = none
  /-- what the block emits: `.quad start`, `.quad (end - start)`, `.quad abort` -/
  deref_desc : ∀ s, deref (desc s) = some
    { startIp := ip s ((sect s).block arch).start
      postCommitOffset :=
        ip s ((sect s).block arch).post - ip s ((sect s).block arch).start
      abortIp := ip s ((sect s).block arch).abort }

namespace Image

variable (img : Image)

/-- The block at a site. -/
def block (s : img.Site) : Block Reg := (img.sect s).block img.arch

/-- `a` lies in no block: it is caller code. -/
def Outside (a : Usize) : Prop :=
  ∀ s, a < img.ip s 0 ∨ img.ip s (img.block s).len ≤ a

/-- The signature lies at `a`. -/
def SigAt (a : Usize) : Prop :=
  ∃ s i, (Block.slots (img.block s).lines)[i]? = some none ∧ a = img.ip s i

/-- `a` lies in the critical section of site `s`, `[start_ip, post_commit_ip)`. -/
def InRange (s : img.Site) (a : Usize) : Prop :=
  img.ip s (img.block s).start ≤ a ∧ a < img.ip s (img.block s).post

/-- **The kernel's rule** at a preemption, migration or signal: if `rseqCs` names
a descriptor and `ip - start_ip < post_commit_offset`, unsigned, the instruction
pointer becomes `abort_ip`. -/
def fixup (rseqCs ip : Usize) : Usize :=
  match img.deref rseqCs with
  | some cs => if ip - cs.startIp < cs.postCommitOffset then cs.abortIp else ip
  | none => ip

end Image

end RseqRs
