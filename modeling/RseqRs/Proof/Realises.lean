import RseqRs.Lib.CritSec
import RseqRs.Model.Image

/-!
# What a block does, as a tree of accesses

`Entering`, `Inside` and `Finishes` relate the execution of a block, before,
inside and after its critical range, to a restartable section: silent
instructions keep the tree, each access moves along it, and the range is left
only towards an outcome that is already decided. The three relations carry the
whole static argument about where the range begins and ends:

* before the range nothing is accessed but `rseq_cs`, which receives the block's
  own descriptor in the last instruction before `start_ip`;
* inside the range the accesses are those of the tree, and the committing one is
  the last instruction of the range;
* after the range nothing is accessed at all.
-/

namespace RseqRs

/-- A restartable section over the machine's words. -/
abbrev Sec := CritSec U32 Usize Error

section Relations

variable (b : Block Reg) (cs area : Usize) (off : ℕ) (fin : Attempt → Except Error Usize)

/-- Past the range: silent instructions lead to the end of the block, where
`Attempt::from_status` reads the outcome `r`. -/
inductive Finishes : Core Reg → Except Error Usize → Prop
  | done {c : Core Reg} : c.pc = b.len →
      Finishes c (fin (Attempt.fromStatus (c.regs b.status) (c.regs b.value)))
  | tau {c : Core Reg} {r : Except Error Usize} : b.post ≤ c.pc → b.req c = some .tau →
      Finishes (b.next cs c 0) r → Finishes c r

/-- Inside the range, with the rest of the attempt given by a tree. -/
inductive Inside : Core Reg → Sec → Prop
  | tau {c : Core Reg} {t : Sec} : b.start ≤ c.pc → c.pc < b.post → b.req c = some .tau →
      Inside (b.next cs c 0) t → Inside c t
  | exit {c : Core Reg} {e : Error} : b.start ≤ c.pc → c.pc < b.post → b.req c = some .tau →
      Finishes b cs fin (b.next cs c 0) (.error e) → Inside c (.fail e)
  | index {c : Core Reg} {k : U32 → Sec} : b.start ≤ c.pc → c.pc < b.post →
      b.req c = some (.loadId area off) →
      (∀ i : U32, Inside (b.next cs c (i.setWidth 64)) (k i)) → Inside c (.index k)
  | load {c : Core Reg} {a : Usize} {k : Usize → Sec} : b.start ≤ c.pc → c.pc < b.post →
      b.req c = some (.load a) → (∀ v, Inside (b.next cs c v) (k v)) → Inside c (.load a k)
  | scratch {c : Core Reg} {a v : Usize} {k : Sec} : b.start ≤ c.pc → c.pc + 1 < b.post →
      b.req c = some (.store a v) → Inside (b.next cs c 0) k → Inside c (.scratch a v k)
  | commit {c : Core Reg} {a v r : Usize} : b.start ≤ c.pc → c.pc + 1 = b.post →
      b.req c = some (.store a v) → Finishes b cs fin (b.next cs c 0) (.ok r) →
      Inside c (.commit a v r)

/-- Before the range: silent instructions, then the store of the block's own
descriptor, which is the last instruction before the range. -/
inductive Entering (t : Sec) : Core Reg → Prop
  | tau {c : Core Reg} : c.pc < b.start → b.req c = some .tau →
      Entering t (b.next cs c 0) → Entering t c
  | arm {c : Core Reg} : c.pc < b.start → b.req c = some (.storeCs area csOff cs) →
      Inside b cs area off fin (b.next cs c 0) t → Entering t c

end Relations

/-- `fin` reads a value as a success, an abort as a failure, and a miss, where the
block can report one, as the failure that carries the value seen. -/
structure Reads (misses : Bool) (fin : Attempt → Except Error Usize) : Prop where
  ok : ∀ v, fin (.ok v) = .ok v
  abort : fin .abort = .error .abort
  miss : misses = true → ∀ v, fin (.miss v) = .error (.miss v)

/-! ### The six ops as sections -/

namespace Op

variable {K : Index}

/-- What an op does once its index is confirmed. On both targets an add loads, and then
commits by storing the sum. -/
def body : Op K → Sec
  | .compareExchange w expect new =>
    .load w.word fun current =>
      if current = expect then .commit w.word new current else .fail (.miss current)
  | .compareExchangeIf w expect new o otherExpect =>
    .load w.word fun current =>
      if current = expect then
        .load o.word fun otherVal =>
          if otherVal = otherExpect then .commit w.word new current else .fail (.miss otherVal)
      else .fail (.miss current)
  | .fetchAdd w count => .load w.word fun prev => .commit w.word (prev + count) prev
  | .loadIfNe w expectNot offset =>
    .load w.word fun current =>
      if current = expectNot then .fail (.miss current)
      else .load (current + offset) fun chase => .commit w.word chase current
  | .fetchAddAt p offset count =>
    .load p.word fun base =>
      .load (base + offset) fun slot =>
        .load slot fun prev => .commit slot (prev + count) prev
  | .storeIf w expect new s sideNew =>
    .load w.word fun current =>
      if current = expect then .scratch s.word sideNew (.commit w.word new current)
      else .fail (.miss current)

/-- The block of the op can report a miss: that of the two adds cannot. -/
def misses : Op K → Bool
  | .fetchAdd _ _ | .fetchAddAt _ _ _ => false
  | _ => true

/-- One attempt of an op: confirm the index, then the body. -/
def tree (op : Op K) : Sec := .confirm (K.get op.word.key) .abort op.body

/-- The op itself reads its outcome so. -/
theorem reads_finish (op : Op K) : Reads op.misses op.finish := by
  cases op with
  | fetchAdd w count => exact ⟨fun _ => rfl, rfl, nofun⟩
  | fetchAddAt p offset count => exact ⟨fun _ => rfl, rfl, nofun⟩
  | _ => exact ⟨fun _ => rfl, rfl, fun _ _ => rfl⟩

/-- The body reads no index. -/
theorem body_indexFree (op : Op K) : op.body.IndexFree := by
  cases op with
  | compareExchange w expect new =>
    refine .load fun v => ?_
    by_cases h : v = expect
    · rw [if_pos h]; exact .commit _ _ _
    · rw [if_neg h]; exact .fail _
  | compareExchangeIf w expect new o otherExpect =>
    refine .load fun v => ?_
    by_cases h : v = expect
    · rw [if_pos h]
      refine .load fun v' => ?_
      by_cases h' : v' = otherExpect
      · rw [if_pos h']; exact .commit _ _ _
      · rw [if_neg h']; exact .fail _
    · rw [if_neg h]; exact .fail _
  | fetchAdd w count => exact .load fun v => .commit _ _ _
  | loadIfNe w expectNot offset =>
    refine .load fun v => ?_
    by_cases h : v = expectNot
    · rw [if_pos h]; exact .fail _
    · rw [if_neg h]; exact .load fun v' => .commit _ _ _
  | fetchAddAt p offset count =>
    exact .load fun base => .load fun slot => .load fun prev => .commit _ _ _
  | storeIf w expect new s sideNew =>
    refine .load fun v => ?_
    by_cases h : v = expect
    · rw [if_pos h]; exact .scratch (.commit _ _ _)
    · rw [if_neg h]; exact .fail _

end Op

/-! ### Rules for following a block

Each rule executes the instruction in slot `i`, found by `fetch`; the side
conditions on the range are Booleans, so that they compute for a given block. -/

section Rules

variable {b : Block Reg} {cs area : Usize} {off : ℕ} {fin : Attempt → Except Error Usize}
  {i : ℕ} {r : Reg → Usize} {z : Bool} {w : Option Usize}

theorem req_eq {ins : Instr Reg} (h : b.fetch i = some ins) :
    b.req ⟨i, r, z, w⟩ = some (ins.req ⟨i, r, z, w⟩) := by
  simp only [Block.req, h, Option.map_some]

theorem next_eq {ins : Instr Reg} (h : b.fetch i = some ins) (v : Usize) :
    b.next cs ⟨i, r, z, w⟩ v = ins.next cs b.target ⟨i, r, z, w⟩ v := by
  simp only [Block.next, h]

theorem Finishes.silent {ins : Instr Reg} {res : Except Error Usize}
    (hf : b.fetch i = some ins) (hp : b.post.ble i = true) (hq : ins.req ⟨i, r, z, w⟩ = .tau)
    (h : Finishes b cs fin (ins.next cs b.target ⟨i, r, z, w⟩ 0) res) :
    Finishes b cs fin ⟨i, r, z, w⟩ res :=
  .tau (Nat.le_of_ble_eq_true hp) (by rw [req_eq hf, hq]) (by rwa [next_eq hf])

theorem Finishes.end {res : Except Error Usize} (hi : i = b.len)
    (h : fin (Attempt.fromStatus (r b.status) (r b.value)) = res) :
    Finishes b cs fin ⟨i, r, z, w⟩ res :=
  h ▸ Finishes.done (c := ⟨i, r, z, w⟩) hi

/-- Slot `i` lies in the critical range. -/
def inRange (b : Block Reg) (i : ℕ) : Bool := b.start.ble i && (i + 1).ble b.post

theorem inRange_iff : inRange b i = true ↔ b.start ≤ i ∧ i < b.post := by
  simp only [inRange, Bool.and_eq_true, Nat.ble_eq]
  rfl

theorem Inside.silent {ins : Instr Reg} {t : Sec} (hf : b.fetch i = some ins)
    (hi : inRange b i = true) (hq : ins.req ⟨i, r, z, w⟩ = .tau)
    (h : Inside b cs area off fin (ins.next cs b.target ⟨i, r, z, w⟩ 0) t) :
    Inside b cs area off fin ⟨i, r, z, w⟩ t :=
  .tau (inRange_iff.mp hi).1 (inRange_iff.mp hi).2 (by rw [req_eq hf, hq]) (by rwa [next_eq hf])

theorem Inside.read {d a : Reg} {x : Usize} {k : Usize → Sec} (hf : b.fetch i = some (.load d a))
    (hi : inRange b i = true) (hx : r a = x)
    (h : ∀ v, Inside b cs area off fin ⟨i + 1, Function.update r d v, z, none⟩ (k v)) :
    Inside b cs area off fin ⟨i, r, z, w⟩ (.load x k) :=
  .load (inRange_iff.mp hi).1 (inRange_iff.mp hi).2 (by rw [req_eq hf, ← hx]; rfl)
    (fun v => by rw [next_eq hf]; exact h v)

theorem Inside.write {a s : Reg} {x v : Usize} {k : Sec} (hf : b.fetch i = some (.store a s))
    (hi : inRange b i = true) (hi' : inRange b (i + 1) = true) (hx : r a = x) (hv : r s = v)
    (h : Inside b cs area off fin ⟨i + 1, r, z, none⟩ k) :
    Inside b cs area off fin ⟨i, r, z, w⟩ (.scratch x v k) :=
  .scratch (inRange_iff.mp hi).1 (inRange_iff.mp hi').2 (by rw [req_eq hf, ← hx, ← hv]; rfl)
    (by rw [next_eq hf]; exact h)

theorem Inside.last {a s : Reg} {x v res : Usize} (hf : b.fetch i = some (.store a s))
    (hi : inRange b i = true) (hp : i + 1 = b.post) (hx : r a = x) (hv : r s = v)
    (h : Finishes b cs fin ⟨i + 1, r, z, none⟩ (.ok res)) :
    Inside b cs area off fin ⟨i, r, z, w⟩ (.commit x v res) :=
  .commit (inRange_iff.mp hi).1 hp (by rw [req_eq hf, ← hx, ← hv]; rfl)
    (by rw [next_eq hf]; exact h)

/-- The two steps of an `xadd`, the last instruction of the range. -/
theorem Inside.lastAdd {a s : Reg} {x n : Usize} (hf : b.fetch i = some (.xadd a s))
    (hf' : b.fetch (i + 1) = some (.xaddStore a s)) (hi : inRange b i = true)
    (hi' : inRange b (i + 1) = true) (hp : i + 2 = b.post) (hx : r a = x) (hn : r s = n)
    (h : ∀ old z', Finishes b cs fin ⟨i + 2, Function.update r s old, z', none⟩ (.ok old)) :
    Inside b cs area off fin ⟨i, r, z, w⟩ (.load x fun old => .commit x (old + n) old) := by
  refine .load (inRange_iff.mp hi).1 (inRange_iff.mp hi).2 (by rw [req_eq hf, ← hx]; rfl)
    fun old => ?_
  rw [next_eq hf]
  -- what was loaded waits in the latch
  refine .commit (inRange_iff.mp hi').1 hp
    (by show b.req ⟨i + 1, r, z, some old⟩ = _; rw [req_eq hf', ← hx, ← hn]; rfl) ?_
  show Finishes b cs fin (b.next cs ⟨i + 1, r, z, some old⟩ 0) (.ok old)
  rw [next_eq hf']
  exact h old _

/-- `cmp a, e` and a jump past the range unless equal. -/
theorem Inside.compare {a e : Reg} {l : ℕ} {x y : Usize} {err : Error} {t : Sec}
    (hf : b.fetch i = some (.cmp a e)) (hf' : b.fetch (i + 1) = some (.jne l))
    (hi : inRange b i = true) (hi' : inRange b (i + 1) = true) (hx : r a = x) (hy : r e = y)
    (hne : Finishes b cs fin ⟨b.target l, r, false, none⟩ (.error err))
    (heq : x = y → Inside b cs area off fin ⟨i + 2, r, true, none⟩ t) :
    Inside b cs area off fin ⟨i, r, z, w⟩ (if x = y then t else .fail err) := by
  refine .silent hf hi rfl ?_
  by_cases h : x = y
  · rw [if_pos h]
    have hz : (r a == r e) = true := by rw [hx, hy, h]; exact beq_self_eq_true _
    refine .silent (i := i + 1) hf' hi' rfl ?_
    simp only [Instr.next, hz]
    exact heq h
  · rw [if_neg h]
    have hz : (r a == r e) = false := by rw [hx, hy]; exact beq_eq_false_iff_ne.mpr h
    refine .exit (inRange_iff.mp hi').1 (inRange_iff.mp hi').2 (req_eq (i := i + 1) hf') ?_
    change Finishes b cs fin (b.next cs ⟨i + 1, r, _, none⟩ 0) _
    rw [next_eq hf']
    simp only [Instr.next, hz]
    exact hne

/-- `cmp a, e` and a jump past the range if equal. -/
theorem Inside.compareNot {a e : Reg} {l : ℕ} {x y : Usize} {err : Error} {t : Sec}
    (hf : b.fetch i = some (.cmp a e)) (hf' : b.fetch (i + 1) = some (.je l))
    (hi : inRange b i = true) (hi' : inRange b (i + 1) = true) (hx : r a = x) (hy : r e = y)
    (heq : Finishes b cs fin ⟨b.target l, r, true, none⟩ (.error err))
    (hne : Inside b cs area off fin ⟨i + 2, r, false, none⟩ t) :
    Inside b cs area off fin ⟨i, r, z, w⟩ (if x = y then .fail err else t) := by
  refine .silent hf hi rfl ?_
  by_cases h : x = y
  · rw [if_pos h]
    have hz : (r a == r e) = true := by rw [hx, hy, h]; exact beq_self_eq_true _
    refine .exit (inRange_iff.mp hi').1 (inRange_iff.mp hi').2 (req_eq (i := i + 1) hf') ?_
    change Finishes b cs fin (b.next cs ⟨i + 1, r, _, none⟩ 0) _
    rw [next_eq hf']
    simp only [Instr.next, hz]
    exact heq
  · rw [if_neg h]
    have hz : (r a == r e) = false := by rw [hx, hy]; exact beq_eq_false_iff_ne.mpr h
    refine .silent (i := i + 1) hf' hi' rfl ?_
    simp only [Instr.next, hz]
    exact hne

/-- The three instructions at `start_ip`: load the index, compare it with the
key, leave the range unless equal. -/
theorem Inside.confirm {l : ℕ} {key : U32} {t : Sec}
    (hf : b.fetch i = some (.loadId .got .rseq off))
    (hf' : b.fetch (i + 1) = some (.cmp32 .got .id)) (hf'' : b.fetch (i + 2) = some (.jne l))
    (hi : inRange b i = true) (hi' : inRange b (i + 1) = true) (hi'' : inRange b (i + 2) = true)
    (hrseq : r .rseq = area) (hid : (r .id).setWidth 32 = (key.setWidth 64).setWidth 32)
    (hne : ∀ r', Finishes b cs fin ⟨b.target l, r', false, none⟩ (.error .abort))
    (heq : Inside b cs area off fin
      ⟨i + 3, Function.update r .got (key.setWidth 64), true, none⟩ t) :
    Inside b cs area off fin ⟨i, r, z, w⟩ (.confirm key .abort t) := by
  refine .index (inRange_iff.mp hi).1 (inRange_iff.mp hi).2
    (by rw [req_eq hf, ← hrseq]; rfl) fun j => ?_
  rw [next_eq hf]
  refine .silent (i := i + 1) hf' hi' rfl ?_
  -- both are 32 bits wide in 64-bit registers
  have hcmp : ((Function.update r .got (j.setWidth 64) .got).setWidth 32
      == (Function.update r .got (j.setWidth 64) .id).setWidth 32) = (j == key) := by
    rw [Function.update_self, Function.update_of_ne (by decide), hid]
    simp only [BitVec.setWidth_setWidth_of_le, BitVec.setWidth_eq, Nat.reduceLeDiff]
  by_cases h : j = key
  · subst h
    rw [if_pos rfl]
    have hz := hcmp.trans (beq_self_eq_true j)
    refine .silent (i := i + 2) hf'' hi'' rfl ?_
    simp only [Instr.next, hz]
    exact heq
  · rw [if_neg h]
    have hz := hcmp.trans (beq_eq_false_iff_ne.mpr h)
    refine .exit (inRange_iff.mp hi'').1 (inRange_iff.mp hi'').2 (req_eq (i := i + 2) hf'') ?_
    change Finishes b cs fin (b.next cs ⟨i + 2, _, _, none⟩ 0) _
    rw [next_eq hf'']
    simp only [Instr.next, hz]
    exact hne _

theorem Entering.silent {t : Sec} {ins : Instr Reg} (hf : b.fetch i = some ins)
    (hp : (i + 1).ble b.start = true) (hq : ins.req ⟨i, r, z, w⟩ = .tau)
    (h : Entering b cs area off fin t (ins.next cs b.target ⟨i, r, z, w⟩ 0)) :
    Entering b cs area off fin t ⟨i, r, z, w⟩ :=
  .tau (Nat.le_of_ble_eq_true hp) (by rw [req_eq hf, hq]) (by rwa [next_eq hf])

theorem Entering.store {t : Sec} (hf : b.fetch i = some (.storeCs .rseq csOff .tmp))
    (hp : (i + 1).ble b.start = true) (hrseq : r .rseq = area) (htmp : r .tmp = cs)
    (h : Inside b cs area off fin ⟨i + 1, r, z, none⟩ t) :
    Entering b cs area off fin t ⟨i, r, z, w⟩ :=
  .arm (Nat.le_of_ble_eq_true hp) (by rw [req_eq hf, ← hrseq, ← htmp]; rfl)
    (by rw [next_eq hf]; exact h)

/-- `adrp` and `add :lo12:` build the descriptor's address. -/
theorem adrp_add_lo12 (cs : Usize) : (cs &&& ~~~lo12) + (cs &&& lo12) = cs := by
  -- the two halves share no bit, so adding them is putting them together
  have h : (cs &&& ~~~lo12) &&& (cs &&& lo12) = 0#64 := by
    ext j hj
    simp only [BitVec.getElem_and, BitVec.getElem_not, BitVec.getElem_zero]
    cases cs[j] <;> cases lo12[j] <;> rfl
  rw [BitVec.add_eq_or_of_and_eq_zero _ _ h]
  ext j hj
  simp only [BitVec.getElem_or, BitVec.getElem_and, BitVec.getElem_not]
  cases cs[j] <;> cases lo12[j] <;> rfl

end Rules

end RseqRs
