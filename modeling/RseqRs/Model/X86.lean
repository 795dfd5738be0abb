import RseqRs.Model.Asm

/-!
# The x86-64 sections (`src/x86_64.rs`)

The six `asm!` blocks line by line. The descriptor the block emits into
`__rseq_cs` (`.quad` start, `.quad` end minus start, `.quad` abort) is given by
its three labels; version and flags are zero.
-/

namespace RseqRs

namespace X86

/-- `compare_exchange::<ID_OFF>`. -/
def compareExchange (idOff : ℕ) : Block Reg where
  startLabel := 12
  endLabel := 16
  abortLabel := 17
  lines := [
    .ins (.jmp 17),
    -- the signature, which the kernel looks for before the abort label
    .sig,
    .label 17,
    .ins (.lea .tmp),
    .ins (.storeCs .rseq csOff .tmp),
    -- the range: the index, the word, and the commit as its last instruction
    .label 12,
    .ins (.loadId .got .rseq idOff),
    .ins (.cmp32 .got .id),
    .ins (.jne 19),
    .ins (.load .current .word),
    .ins (.cmp .current .expect),
    .ins (.jne 18),
    .ins (.store .word .new),
    -- committed
    .label 16,
    .ins (.xorSelf .status),
    .ins (.jmp 30),
    -- a miss, with the value seen
    .label 18,
    .ins (.movImm .status 1),
    .ins (.jmp 30),
    -- the wrong index
    .label 19,
    .ins (.xorSelf .current),
    .ins (.movImm .status 2),
    .label 30]
  status := .status
  value := .current

/-- `fetch_add::<ID_OFF>`. -/
def fetchAdd (idOff : ℕ) : Block Reg where
  startLabel := 22
  endLabel := 26
  abortLabel := 27
  lines := [
    .ins (.jmp 27),
    .sig,
    .label 27,
    .ins (.lea .tmp),
    .ins (.storeCs .rseq csOff .tmp),
    .label 22,
    .ins (.loadId .got .rseq idOff),
    .ins (.cmp32 .got .id),
    .ins (.jne 29),
    -- add and commit in one instruction, which is not atomic for other CPUs
    .ins (.mov .prev .count),
    .ins (.xadd .word .prev),
    .label 26,
    .ins (.xorSelf .status),
    .ins (.jmp 20),
    .label 29,
    .ins (.xorSelf .prev),
    .ins (.movImm .status 2),
    .label 20]
  status := .status
  value := .prev

/-- `store_if::<ID_OFF>`. -/
def storeIf (idOff : ℕ) : Block Reg where
  startLabel := 32
  endLabel := 36
  abortLabel := 37
  lines := [
    .ins (.jmp 37),
    .sig,
    .label 37,
    .ins (.lea .tmp),
    .ins (.storeCs .rseq csOff .tmp),
    .label 32,
    .ins (.loadId .got .rseq idOff),
    .ins (.cmp32 .got .id),
    .ins (.jne 39),
    .ins (.load .current .word),
    .ins (.cmp .current .expect),
    .ins (.jne 38),
    -- the scratch store; a restart does not undo it
    .ins (.store .side .sideNew),
    .ins (.store .word .new),
    .label 36,
    .ins (.xorSelf .status),
    .ins (.jmp 40),
    .label 38,
    .ins (.movImm .status 1),
    .ins (.jmp 40),
    .label 39,
    .ins (.xorSelf .current),
    .ins (.movImm .status 2),
    .label 40]
  status := .status
  value := .current

/-- `compare_exchange_if::<ID_OFF>`. -/
def compareExchangeIf (idOff : ℕ) : Block Reg where
  startLabel := 52
  endLabel := 56
  abortLabel := 57
  lines := [
    .ins (.jmp 57),
    .sig,
    .label 57,
    .ins (.lea .tmp),
    .ins (.storeCs .rseq csOff .tmp),
    .label 52,
    .ins (.loadId .got .rseq idOff),
    .ins (.cmp32 .got .id),
    .ins (.jne 55),
    .ins (.load .current .word),
    .ins (.cmp .current .expect),
    .ins (.jne 54),
    .ins (.load .otherVal .other),
    .ins (.cmp .otherVal .otherExpect),
    .ins (.jne 53),
    .ins (.store .word .new),
    .label 56,
    .ins (.xorSelf .status),
    .ins (.jmp 50),
    -- the second miss carries the other value, and falls into the first
    .label 53,
    .ins (.mov .current .otherVal),
    .label 54,
    .ins (.movImm .status 1),
    .ins (.jmp 50),
    .label 55,
    .ins (.xorSelf .current),
    .ins (.movImm .status 2),
    .label 50]
  status := .status
  value := .current

/-- `load_if_ne::<ID_OFF>`. -/
def loadIfNe (idOff : ℕ) : Block Reg where
  startLabel := 42
  endLabel := 46
  abortLabel := 47
  lines := [
    .ins (.jmp 47),
    .sig,
    .label 47,
    .ins (.lea .tmp),
    .ins (.storeCs .rseq csOff .tmp),
    .label 42,
    .ins (.loadId .got .rseq idOff),
    .ins (.cmp32 .got .id),
    .ins (.jne 45),
    .ins (.load .current .word),
    .ins (.cmp .current .expectNot),
    .ins (.je 44),
    -- the chase: what is stored is the link of what was loaded
    .ins (.mov .chase .current),
    .ins (.add .chase .offset),
    .ins (.load .chase .chase),
    .ins (.store .word .chase),
    .label 46,
    .ins (.xorSelf .status),
    .ins (.jmp 41),
    .label 44,
    .ins (.movImm .status 1),
    .ins (.jmp 41),
    .label 45,
    .ins (.xorSelf .current),
    .ins (.movImm .status 2),
    .label 41]
  status := .status
  value := .current

/-- `fetch_add_at::<ID_OFF>`. -/
def fetchAddAt (idOff : ℕ) : Block Reg where
  startLabel := 62
  endLabel := 66
  abortLabel := 67
  lines := [
    .ins (.jmp 67),
    .sig,
    .label 67,
    .ins (.lea .tmp),
    .ins (.storeCs .rseq csOff .tmp),
    .label 62,
    .ins (.loadId .got .rseq idOff),
    .ins (.cmp32 .got .id),
    .ins (.jne 65),
    -- the slot's address lies at `offset` from what `ptr` holds
    .ins (.load .base .ptr),
    .ins (.add .base .offset),
    .ins (.load .slot .base),
    .ins (.mov .prev .count),
    .ins (.xadd .slot .prev),
    .label 66,
    .ins (.xorSelf .status),
    .ins (.jmp 61),
    .label 65,
    .ins (.xorSelf .prev),
    .ins (.movImm .status 2),
    .label 61]
  status := .status
  value := .prev

end X86

end RseqRs
