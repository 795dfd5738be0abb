import RseqRs.Proof.Realises

/-!
# The twelve blocks realise their sections

Each block, followed instruction by instruction from `start_ip` with its operands
in their registers, is the tree of its op. `Op.entering` adds the way into the
range: from the abort label, with any values in the other registers, the block
arms its own descriptor and enters the range afresh.
-/

namespace RseqRs

variable {K : Index} {cs area : Usize} {r : Reg → Usize} {z : Bool} {l : Option Usize}
  {fin : Attempt → Except Error Usize}

/-- The operands of a call are in their registers. -/
def Op.Holds (op : Op K) (area : Usize) (r : Reg → Usize) : Prop :=
  ∀ o v, op.input area o = some v → o.Carries (r o) v

theorem Op.holds_enter (op : Op K) (area : Usize) (g : Reg → Usize) :
    op.Holds area (op.enter area g) := by
  intro o v h
  cases o with
  | id =>
    simp only [Op.enter, h, Option.getD_some]
    exact BitVec.setWidth_append_eq_right
  | _ => simp only [Op.enter, h, Option.getD_some, Reg.Carries]

/-! ### x86-64 -/

namespace X86

theorem compareExchange_inside (w : Word K) (expect new : Usize)
    (h : (Op.compareExchange w expect new).Holds area r) (hfin : Reads true fin) :
    Inside (compareExchange K.off) cs area K.off fin ⟨4, r, z, l⟩
      ((Op.compareExchange w expect new).tree) := by
  have hword : r .word = w.word := h .word _ rfl
  refine .confirm rfl rfl rfl rfl rfl rfl (h .rseq _ rfl) (h .id _ rfl) (fun r' => ?_) ?_
  · exact .silent rfl rfl rfl (.silent rfl rfl rfl (.end rfl hfin.abort))
  refine .read rfl rfl hword fun v => .compare rfl rfl rfl rfl rfl (h .expect _ rfl) ?_ fun _ => ?_
  · exact .silent rfl rfl rfl (.silent rfl rfl rfl (.end rfl (hfin.miss rfl _)))
  refine .last rfl rfl rfl hword (h .new _ rfl) ?_
  exact .silent rfl rfl rfl (.silent rfl rfl rfl (.end rfl (hfin.ok _)))

theorem compareExchangeIf_inside (w o : Word K) (expect new otherExpect : Usize)
    (h : (Op.compareExchangeIf w expect new o otherExpect).Holds area r)
    (hfin : Reads true fin) :
    Inside (compareExchangeIf K.off) cs area K.off fin ⟨4, r, z, l⟩
      ((Op.compareExchangeIf w expect new o otherExpect).tree) := by
  have hword : r .word = w.word := h .word _ rfl
  refine .confirm rfl rfl rfl rfl rfl rfl (h .rseq _ rfl) (h .id _ rfl) (fun r' => ?_) ?_
  · exact .silent rfl rfl rfl (.silent rfl rfl rfl (.end rfl hfin.abort))
  refine .read rfl rfl hword fun v => .compare rfl rfl rfl rfl rfl (h .expect _ rfl) ?_ fun _ => ?_
  · exact .silent rfl rfl rfl (.silent rfl rfl rfl (.end rfl (hfin.miss rfl _)))
  refine .read rfl rfl (h .other _ rfl) fun v' =>
    .compare rfl rfl rfl rfl rfl (h .otherExpect _ rfl) ?_ fun _ => ?_
  · -- the second miss carries the other value: label 53 falls into 54
    exact .silent rfl rfl rfl (.silent rfl rfl rfl
      (.silent rfl rfl rfl (.end rfl (hfin.miss rfl _))))
  refine .last rfl rfl rfl hword (h .new _ rfl) ?_
  exact .silent rfl rfl rfl (.silent rfl rfl rfl (.end rfl (hfin.ok _)))

theorem fetchAdd_inside (w : Word K) (count : Usize) (h : (Op.fetchAdd w count).Holds area r)
    (hfin : Reads false fin) :
    Inside (fetchAdd K.off) cs area K.off fin ⟨4, r, z, l⟩
      ((Op.fetchAdd w count).tree) := by
  refine .confirm rfl rfl rfl rfl rfl rfl (h .rseq _ rfl) (h .id _ rfl) (fun r' => ?_) ?_
  · exact .silent rfl rfl rfl (.silent rfl rfl rfl (.end rfl hfin.abort))
  refine .silent rfl rfl rfl ?_
  refine .lastAdd rfl rfl rfl rfl rfl (h .word _ rfl) (h .count _ rfl) fun old z' => ?_
  exact .silent rfl rfl rfl (.silent rfl rfl rfl (.end rfl (hfin.ok _)))

theorem loadIfNe_inside (w : Word K) (expectNot offset : Usize)
    (h : (Op.loadIfNe w expectNot offset).Holds area r)
    (hfin : Reads true fin) :
    Inside (loadIfNe K.off) cs area K.off fin ⟨4, r, z, l⟩
      ((Op.loadIfNe w expectNot offset).tree) := by
  have hword : r .word = w.word := h .word _ rfl
  have hoff : r .offset = offset := h .offset _ rfl
  refine .confirm rfl rfl rfl rfl rfl rfl (h .rseq _ rfl) (h .id _ rfl) (fun r' => ?_) ?_
  · exact .silent rfl rfl rfl (.silent rfl rfl rfl (.end rfl hfin.abort))
  refine .read rfl rfl hword fun v =>
    .compareNot rfl rfl rfl rfl rfl (h .expectNot _ rfl) ?_ ?_
  · exact .silent rfl rfl rfl (.silent rfl rfl rfl (.end rfl (hfin.miss rfl _)))
  refine .silent rfl rfl rfl (.silent rfl rfl rfl (.read rfl rfl ?_ fun v' => ?_))
  · rw [← hoff]; rfl
  refine .last rfl rfl rfl hword rfl ?_
  exact .silent rfl rfl rfl (.silent rfl rfl rfl (.end rfl (hfin.ok _)))

theorem fetchAddAt_inside (p : Word K) (offset count : Usize)
    (h : (Op.fetchAddAt p offset count).Holds area r)
    (hfin : Reads false fin) :
    Inside (fetchAddAt K.off) cs area K.off fin ⟨4, r, z, l⟩
      ((Op.fetchAddAt p offset count).tree) := by
  have hoff : r .offset = offset := h .offset _ rfl
  refine .confirm rfl rfl rfl rfl rfl rfl (h .rseq _ rfl) (h .id _ rfl) (fun r' => ?_) ?_
  · exact .silent rfl rfl rfl (.silent rfl rfl rfl (.end rfl hfin.abort))
  refine .read rfl rfl (h .ptr _ rfl) fun v =>
    .silent rfl rfl rfl (.read rfl rfl ?_ fun v' => .silent rfl rfl rfl ?_)
  · rw [← hoff]; rfl
  refine .lastAdd rfl rfl rfl rfl rfl rfl (h .count _ rfl) fun old z' => ?_
  exact .silent rfl rfl rfl (.silent rfl rfl rfl (.end rfl (hfin.ok _)))

theorem storeIf_inside (w s : Word K) (expect new sideNew : Usize)
    (h : (Op.storeIf w expect new s sideNew).Holds area r)
    (hfin : Reads true fin) :
    Inside (storeIf K.off) cs area K.off fin ⟨4, r, z, l⟩
      ((Op.storeIf w expect new s sideNew).tree) := by
  have hword : r .word = w.word := h .word _ rfl
  refine .confirm rfl rfl rfl rfl rfl rfl (h .rseq _ rfl) (h .id _ rfl) (fun r' => ?_) ?_
  · exact .silent rfl rfl rfl (.silent rfl rfl rfl (.end rfl hfin.abort))
  refine .read rfl rfl hword fun v => .compare rfl rfl rfl rfl rfl (h .expect _ rfl) ?_ fun _ => ?_
  · exact .silent rfl rfl rfl (.silent rfl rfl rfl (.end rfl (hfin.miss rfl _)))
  refine .write rfl rfl rfl (h .side _ rfl) (h .sideNew _ rfl) ?_
  refine .last rfl rfl rfl hword (h .new _ rfl) ?_
  exact .silent rfl rfl rfl (.silent rfl rfl rfl (.end rfl (hfin.ok _)))

end X86

/-! ### aarch64 -/

namespace Aarch64

theorem compareExchange_inside (w : Word K) (expect new : Usize)
    (h : (Op.compareExchange w expect new).Holds area r) (hfin : Reads true fin) :
    Inside (compareExchange K.off) cs area K.off fin ⟨5, r, z, l⟩
      ((Op.compareExchange w expect new).tree) := by
  have hword : r .word = w.word := h .word _ rfl
  refine .confirm rfl rfl rfl rfl rfl rfl (h .rseq _ rfl) (h .id _ rfl) (fun r' => ?_) ?_
  · exact .silent rfl rfl rfl (.silent rfl rfl rfl (.end rfl hfin.abort))
  refine .read rfl rfl hword fun v => .compare rfl rfl rfl rfl rfl (h .expect _ rfl) ?_ fun _ => ?_
  · exact .silent rfl rfl rfl (.silent rfl rfl rfl (.end rfl (hfin.miss rfl _)))
  refine .last rfl rfl rfl hword (h .new _ rfl) ?_
  exact .silent rfl rfl rfl (.silent rfl rfl rfl (.end rfl (hfin.ok _)))

theorem compareExchangeIf_inside (w o : Word K) (expect new otherExpect : Usize)
    (h : (Op.compareExchangeIf w expect new o otherExpect).Holds area r)
    (hfin : Reads true fin) :
    Inside (compareExchangeIf K.off) cs area K.off fin ⟨5, r, z, l⟩
      ((Op.compareExchangeIf w expect new o otherExpect).tree) := by
  have hword : r .word = w.word := h .word _ rfl
  refine .confirm rfl rfl rfl rfl rfl rfl (h .rseq _ rfl) (h .id _ rfl) (fun r' => ?_) ?_
  · exact .silent rfl rfl rfl (.silent rfl rfl rfl (.end rfl hfin.abort))
  refine .read rfl rfl hword fun v => .compare rfl rfl rfl rfl rfl (h .expect _ rfl) ?_ fun _ => ?_
  · exact .silent rfl rfl rfl (.silent rfl rfl rfl (.end rfl (hfin.miss rfl _)))
  refine .read rfl rfl (h .other _ rfl) fun v' =>
    .compare rfl rfl rfl rfl rfl (h .otherExpect _ rfl) ?_ fun _ => ?_
  · exact .silent rfl rfl rfl (.silent rfl rfl rfl
      (.silent rfl rfl rfl (.end rfl (hfin.miss rfl _))))
  refine .last rfl rfl rfl hword (h .new _ rfl) ?_
  exact .silent rfl rfl rfl (.silent rfl rfl rfl (.end rfl (hfin.ok _)))

theorem fetchAdd_inside (w : Word K) (count : Usize) (h : (Op.fetchAdd w count).Holds area r)
    (hfin : Reads false fin) :
    Inside (fetchAdd K.off) cs area K.off fin ⟨5, r, z, l⟩
      ((Op.fetchAdd w count).tree) := by
  have hword : r .word = w.word := h .word _ rfl
  have hcount : r .count = count := h .count _ rfl
  refine .confirm rfl rfl rfl rfl rfl rfl (h .rseq _ rfl) (h .id _ rfl) (fun r' => ?_) ?_
  · exact .silent rfl rfl rfl (.silent rfl rfl rfl (.end rfl hfin.abort))
  refine .read rfl rfl hword fun prev => .silent rfl rfl rfl (.last rfl rfl rfl hword ?_ ?_)
  · rw [← hcount]; rfl
  exact .silent rfl rfl rfl (.silent rfl rfl rfl (.end rfl (hfin.ok _)))

theorem loadIfNe_inside (w : Word K) (expectNot offset : Usize)
    (h : (Op.loadIfNe w expectNot offset).Holds area r)
    (hfin : Reads true fin) :
    Inside (loadIfNe K.off) cs area K.off fin ⟨5, r, z, l⟩
      ((Op.loadIfNe w expectNot offset).tree) := by
  have hword : r .word = w.word := h .word _ rfl
  have hoff : r .offset = offset := h .offset _ rfl
  refine .confirm rfl rfl rfl rfl rfl rfl (h .rseq _ rfl) (h .id _ rfl) (fun r' => ?_) ?_
  · exact .silent rfl rfl rfl (.silent rfl rfl rfl (.end rfl hfin.abort))
  refine .read rfl rfl hword fun v =>
    .compareNot rfl rfl rfl rfl rfl (h .expectNot _ rfl) ?_ ?_
  · exact .silent rfl rfl rfl (.silent rfl rfl rfl (.end rfl (hfin.miss rfl _)))
  refine .silent rfl rfl rfl (.read rfl rfl ?_ fun v' => ?_)
  · rw [← hoff]; rfl
  refine .last rfl rfl rfl hword rfl ?_
  exact .silent rfl rfl rfl (.silent rfl rfl rfl (.end rfl (hfin.ok _)))

theorem fetchAddAt_inside (p : Word K) (offset count : Usize)
    (h : (Op.fetchAddAt p offset count).Holds area r)
    (hfin : Reads false fin) :
    Inside (fetchAddAt K.off) cs area K.off fin ⟨5, r, z, l⟩
      ((Op.fetchAddAt p offset count).tree) := by
  have hoff : r .offset = offset := h .offset _ rfl
  have hcount : r .count = count := h .count _ rfl
  refine .confirm rfl rfl rfl rfl rfl rfl (h .rseq _ rfl) (h .id _ rfl) (fun r' => ?_) ?_
  · exact .silent rfl rfl rfl (.silent rfl rfl rfl (.end rfl hfin.abort))
  refine .read rfl rfl (h .ptr _ rfl) fun v =>
    .silent rfl rfl rfl (.read rfl rfl ?_ fun slot => ?_)
  · rw [← hoff]; rfl
  refine .read rfl rfl rfl fun prev => .silent rfl rfl rfl (.last rfl rfl rfl rfl ?_ ?_)
  · rw [← hcount]; rfl
  exact .silent rfl rfl rfl (.silent rfl rfl rfl (.end rfl (hfin.ok _)))

theorem storeIf_inside (w s : Word K) (expect new sideNew : Usize)
    (h : (Op.storeIf w expect new s sideNew).Holds area r)
    (hfin : Reads true fin) :
    Inside (storeIf K.off) cs area K.off fin ⟨5, r, z, l⟩
      ((Op.storeIf w expect new s sideNew).tree) := by
  have hword : r .word = w.word := h .word _ rfl
  refine .confirm rfl rfl rfl rfl rfl rfl (h .rseq _ rfl) (h .id _ rfl) (fun r' => ?_) ?_
  · exact .silent rfl rfl rfl (.silent rfl rfl rfl (.end rfl hfin.abort))
  refine .read rfl rfl hword fun v => .compare rfl rfl rfl rfl rfl (h .expect _ rfl) ?_ fun _ => ?_
  · exact .silent rfl rfl rfl (.silent rfl rfl rfl (.end rfl (hfin.miss rfl _)))
  refine .write rfl rfl rfl (h .side _ rfl) (h .sideNew _ rfl) ?_
  refine .last rfl rfl rfl hword (h .new _ rfl) ?_
  exact .silent rfl rfl rfl (.silent rfl rfl rfl (.end rfl (hfin.ok _)))

end Aarch64

/-! ### Any op on either target -/

namespace Op

/-- The registers a call passes its operands in. -/
def isInput (op : Op K) (o : Reg) : Bool := (op.input 0 o).isSome

theorem isInput_of_input {op : Op K} {o : Reg} {v : Usize} (h : op.input area o = some v) :
    op.isInput o = true := by
  cases op <;> cases o <;> first | rfl | cases h

/-- No instruction overwrites an operand, so a restart finds them all. -/
theorem block_spares (arch : Arch) (op : Op K) : (op.block arch).spares op.isInput = true := by
  cases arch <;> cases op <;> simp only [block, Op.section, Index.dispatch_eq] <;> rfl

theorem block_forward (arch : Arch) (op : Op K) : (op.block arch).forward = true := by
  cases arch <;> cases op <;> simp only [block, Op.section, Index.dispatch_eq] <;> rfl

/-- An `xadd` is inside the range, both its steps. -/
theorem block_adds (arch : Arch) (op : Op K) : ∀ i ∈ (op.block arch).adds,
    (op.block arch).start ≤ i ∧ i + 1 < (op.block arch).post := by
  cases arch <;> cases op <;> simp only [block, Op.section, Index.dispatch_eq] <;>
    exact of_decide_eq_true rfl

/-- A block without an `xadd`. -/
theorem storeIf_adds (arch : Arch) (w : Word K) (expect new : Usize) (s : Word K)
    (sideNew : Usize) : (Op.block arch (.storeIf w expect new s sideNew)).adds = [] := by
  cases arch <;> simp only [block, Op.section, Index.dispatch_eq] <;> rfl

/-- The operands stay in their registers. -/
theorem Holds.next {arch : Arch} {op : Op K} {c : Core Reg} (h : op.Holds area c.regs)
    (v : Usize) : op.Holds area ((op.block arch).next cs c v).regs := by
  intro o x hx
  rw [Block.next_regs_of_spares (op.block_spares arch) (isInput_of_input hx)]
  exact h o x hx

/-- **Inside the range** a block does what its tree says. -/
theorem inside (arch : Arch) (op : Op K) (cs : Usize) (z : Bool) (l : Option Usize)
    (h : op.Holds area r) (hfin : Reads op.misses fin) :
    Inside (op.block arch) cs area K.off fin ⟨(op.block arch).start, r, z, l⟩ op.tree := by
  cases arch <;> cases op <;> simp only [block, Op.section, Index.dispatch_eq]
  · exact X86.compareExchange_inside _ _ _ h hfin
  · exact X86.compareExchangeIf_inside _ _ _ _ _ h hfin
  · exact X86.fetchAdd_inside _ _ h hfin
  · exact X86.loadIfNe_inside _ _ _ h hfin
  · exact X86.fetchAddAt_inside _ _ _ h hfin
  · exact X86.storeIf_inside _ _ _ _ _ h hfin
  · exact Aarch64.compareExchange_inside _ _ _ h hfin
  · exact Aarch64.compareExchangeIf_inside _ _ _ _ _ h hfin
  · exact Aarch64.fetchAdd_inside _ _ h hfin
  · exact Aarch64.loadIfNe_inside _ _ _ h hfin
  · exact Aarch64.fetchAddAt_inside _ _ _ h hfin
  · exact Aarch64.storeIf_inside _ _ _ _ _ h hfin

/-- The operand registers hold after another register is written. -/
theorem Holds.update {op : Op K} (h : op.Holds area r) {o : Reg} (ho : op.isInput o = false)
    (v : Usize) : op.Holds area (Function.update r o v) := by
  intro o' x hx
  have hne : o' ≠ o := fun e => by rw [← e, isInput_of_input hx] at ho; cases ho
  rw [Function.update_of_ne hne]
  exact h o' x hx

theorem Holds.rseq {op : Op K} (h : op.Holds area r) : r .rseq = area := by
  cases op <;> exact h .rseq _ rfl

theorem isInput_tmp (op : Op K) : op.isInput .tmp = false := by
  cases op <;> rfl

/-- **From the abort label** a block arms its own descriptor and enters its range
as a fresh attempt. -/
theorem entering (arch : Arch) (op : Op K) (cs : Usize) (z : Bool) (l : Option Usize)
    (h : op.Holds area r) (hfin : Reads op.misses fin) :
    Entering (op.block arch) cs area K.off fin op.tree ⟨(op.block arch).abort, r, z, l⟩ := by
  have htmp := op.isInput_tmp
  cases arch
  · have hin := op.inside .x86 cs z none (h.update htmp cs) hfin
    cases op <;> simp only [block, Op.section, Index.dispatch_eq] at hin ⊢ <;>
      exact .silent rfl rfl rfl (.store rfl rfl (h.update htmp cs).rseq rfl hin)
  · have h' := (h.update htmp (cs &&& ~~~lo12)).update htmp
      ((cs &&& ~~~lo12) + (cs &&& lo12))
    have hin := op.inside .aarch64 cs z none h' hfin
    cases op <;> simp only [block, Op.section, Index.dispatch_eq] at hin ⊢ <;>
      exact .silent rfl rfl rfl (.silent rfl rfl rfl
        (.store rfl rfl h'.rseq (adrp_add_lo12 cs) hin))

/-- **From the first instruction**, a jump over the signature, likewise. -/
theorem entering_zero (arch : Arch) (op : Op K) (h : op.Holds area r)
    (hfin : Reads op.misses fin) :
    Entering (op.block arch) cs area K.off fin op.tree ⟨0, r, z, l⟩ := by
  have hab := op.entering arch cs z none h hfin
  cases arch <;> cases op <;> simp only [block, Op.section, Index.dispatch_eq] at hab ⊢ <;>
    exact .silent rfl rfl rfl hab

end Op

/-! ### The layout of a block -/

/-- A block begins before its abort label; then come `start_ip`, the end of the
range, and the end of the block. -/
theorem Section.block_order (arch : Arch) (s : Section) :
    0 < (s.block arch).abort ∧ (s.block arch).abort < (s.block arch).start ∧
      (s.block arch).start < (s.block arch).post ∧ (s.block arch).post < (s.block arch).len := by
  cases arch <;> cases s <;>
    exact ⟨Nat.le_of_ble_eq_true rfl, Nat.le_of_ble_eq_true rfl, Nat.le_of_ble_eq_true rfl,
      Nat.le_of_ble_eq_true rfl⟩

/-- The word before the abort label is the signature the kernel checks. -/
theorem Section.signature_precedes_abort (arch : Arch) (s : Section) :
    (Block.slots (s.block arch).lines)[(s.block arch).abort - 1]? = some none := by
  cases arch <;> cases s <;> rfl

end RseqRs
