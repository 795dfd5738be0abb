import RseqRs.Lib.Run
import RseqRs.Proof.Layout
import RseqRs.Stage.Machine

/-!
# The machine refines the stage machine

A context of the machine is related to a stage by the execution of its block:
before its range, inside it with a tree, or past it. `Rel` holds the invariant
of the whole stack of a thread:

* the running context, if inside its section, has its own descriptor in `rseq_cs`;
* an interrupted context is not inside its section: the signal that interrupted
  it sent it back to the abort label;
* `rseq_cs` holds zero or some block's descriptor, so the kernel's rule is
  decided by the layout of the blocks.

Every step of the machine is then a step of the stage machine with the same
label (`refine_step`), and every run a run with the same history (`refine_run`).
-/

namespace RseqRs

/-! ### One instruction -/

section Instruction

variable {b : Block Reg} {cs area : Usize} {off : ℕ} {fin : Attempt → Except Error Usize}
  {T : Sec}

/-- The execution of a block is at a stage, its current attempt having made the
accesses `log`. -/
def Stage.At (b : Block Reg) (cs area : Usize) (off : ℕ) (fin : Attempt → Except Error Usize)
    (T : Sec) (log : List Acc) (core : Core Reg) : Stage → Prop
  | .entering => Entering b cs area off fin T core
  | .inside u => Inside b cs area off fin core u ∧ T.Path log u
  | .finishing r => Finishes b cs fin core r ∧ T.Ends log r

theorem Inside.pc_mem {core : Core Reg} {u : Sec} (h : Inside b cs area off fin core u) :
    b.start ≤ core.pc ∧ core.pc < b.post := by
  cases h with
  | tau h₁ h₂ => exact ⟨h₁, h₂⟩
  | exit h₁ h₂ => exact ⟨h₁, h₂⟩
  | index h₁ h₂ => exact ⟨h₁, h₂⟩
  | load h₁ h₂ => exact ⟨h₁, h₂⟩
  | scratch h₁ h₂ => exact ⟨h₁, by omega⟩
  | commit h₁ h₂ => exact ⟨h₁, by omega⟩

theorem Entering.pc_lt {core : Core Reg} (h : Entering b cs area off fin T core) :
    core.pc < b.start := by
  cases h with
  | tau h₁ => exact h₁
  | arm h₁ => exact h₁

theorem Finishes.pc_mem {core : Core Reg} {r : Except Error Usize} (h : Finishes b cs fin core r)
    (hb : b.post ≤ b.len) : b.post ≤ core.pc ∧ core.pc ≤ b.len := by
  cases h with
  | done h₁ => exact ⟨by omega, by omega⟩
  | tau h₁ h₂ =>
    -- it has an instruction to execute
    refine ⟨h₁, ?_⟩
    cases hf : b.fetch core.pc with
    | none => rw [Block.req, hf] at h₂; cases h₂
    | some i => exact (Block.lt_len_of_fetch hf).le

/-- An access that leaves the attempt inside is not the last of the range. -/
theorem Inside.not_last {core : Core Reg} {u : Sec} {q : Req} {v : Usize}
    (hb : b.forward = true) (hq : b.req core = some q)
    (h : Inside b cs area off fin (b.next cs core v) u) : (core.pc + 1 == b.post) = false := by
  obtain ⟨i, hf, _⟩ := Option.map_eq_some_iff.mp hq
  have h₁ := (Block.next_pc_of_forward hb hf cs v).1
  have h₂ := h.pc_mem.2
  exact beq_eq_false_iff_ne.mpr (by omega)

/-- What an instruction leaves in the area. -/
def Obs.after (cs : Usize) (x : Area) : Obs → Area
  | .arm => { x with rseqCs := cs }
  | _ => x

/-- **One instruction** of a block is one step of its stage. -/
theorem Stage.At.exec {core : Core Reg} {st : Stage} {log : List Acc} {x x' : Area}
    {m m' : Mem} {o : Obs} {v : Usize} (hb : b.forward = true)
    (h : st.At b cs area off fin T log core)
    (hans : (b.req core).bind (Req.answer area x m (core.pc + 1 == b.post)) = some (o, v, x', m')) :
    ∃ st', Stage.Step T (x.load32 off) m st o st' m' ∧
      st'.At b cs area off fin T (o.extend log) (b.next cs core v) ∧ x' = o.after cs x := by
  -- by the stage, and in it by what the next instruction of the block asks for
  cases st with
  | entering =>
    cases h with
    | tau _ hq hn =>
      rw [hq] at hans
      cases hans
      exact ⟨.entering, .enter, hn, rfl⟩
    | arm _ hq hn =>
      rw [hq, Option.bind_some, Req.answer, if_pos ⟨rfl, rfl⟩] at hans
      cases hans
      exact ⟨.inside T, .arm, ⟨hn, .nil⟩, rfl⟩
  | inside u =>
    obtain ⟨hi, hp⟩ := h
    cases hi with
    | tau _ _ hq hn =>
      rw [hq] at hans
      cases hans
      exact ⟨.inside u, .tau, ⟨hn, hp⟩, rfl⟩
    | exit _ _ hq hn =>
      rw [hq] at hans
      cases hans
      exact ⟨.finishing _, .exit, ⟨hn, .fail hp⟩, rfl⟩
    | @index _ k _ _ hq hn =>
      -- an access that leaves the attempt inside is not the last of the range
      have hlast := Inside.not_last hb hq (hn (x.load32 off))
      rw [hq, Option.bind_some, Req.answer, if_pos rfl, hlast] at hans
      cases hans
      have hnext := CritSec.Next.index k (x.load32 off)
      exact ⟨.inside _, .access hnext rfl, ⟨hn _, hp.snoc hnext⟩, rfl⟩
    | @load _ a k _ _ hq hn =>
      have hlast := Inside.not_last hb hq (hn (m a))
      rw [hq, Option.bind_some, Req.answer, hlast] at hans
      cases hans
      have hnext := CritSec.Next.load a k (m a)
      exact ⟨.inside _, .access hnext rfl, ⟨hn _, hp.snoc hnext⟩, rfl⟩
    | @scratch _ a w k _ _ hq hn =>
      have hlast := Inside.not_last hb hq hn
      rw [hq, Option.bind_some, Req.answer, hlast] at hans
      cases hans
      have hnext := CritSec.Next.scratch a w k
      exact ⟨.inside _, .access hnext trivial, ⟨hn, hp.snoc hnext⟩, rfl⟩
    | @commit _ a w r _ hlast hq hn =>
      rw [hq, Option.bind_some, Req.answer, beq_iff_eq.mpr hlast] at hans
      cases hans
      -- the last instruction of the range commits
      have hcom : CritSec.Commits (.commit a w r : Sec) (.store a w) r := .store a w r
      exact ⟨.finishing _, .commit hcom, ⟨hn, .commit hp hcom⟩, rfl⟩
  | finishing r =>
    obtain ⟨hf, he⟩ := h
    cases hf with
    | done hpc =>
      have hnone : b.fetch core.pc = none := by
        cases hf : b.fetch core.pc with
        | none => rfl
        | some i => exact absurd (Block.lt_len_of_fetch hf) (by omega)
      rw [Block.req, hnone] at hans
      cases hans
    | tau _ hq hn =>
      rw [hq] at hans
      cases hans
      exact ⟨.finishing r, .leave, ⟨hn, he⟩, rfl⟩

end Instruction

/-! ### Contexts and threads -/

/-- The attempt is inside its section. -/
def Stage.isInside : Stage → Prop
  | .inside _ => True
  | _ => False

section Context

variable (img : Image) (ptr : Usize)

/-- Context `x` is in slot `i` of the block of call `c`, at stage `st`. `armed`
says which descriptor `rseq_cs` is known to hold. -/
structure Ctx.InCall (armed : img.Site → Prop) (x : Ctx img.Site) (c : Call) (st : Stage)
    (log : List Acc) (site : img.Site) (i : ℕ) : Prop where
  frame : x.frame = .op c site
  sect : img.sect site = c.op.section
  ip : x.ip = img.ip site i
  /-- the operands are still in their registers -/
  holds : c.op.Holds ptr x.regs
  stage : st.At (img.block site) (img.desc site) ptr c.K.off c.op.finish c.op.tree log
    (x.core i)
  armed : st.isInside → armed site

/-- What a context does, as the stage machine sees it. -/
def Ctx.Rel (armed : img.Site → Prop) (x : Ctx img.Site) : Work → Prop
  | .idle => x.frame = .idle ∧ img.Outside x.ip
  | .refused c => x.frame = .refused c ∧ img.Outside x.ip
  | .op c st log => ∃ site i, x.InCall img ptr armed c st log site i
  | .fence f pc => x.frame = .fence f pc ∧ img.Outside x.ip

/-- `rseq_cs` is clear or holds the descriptor of some block. -/
def Area.CsOk (x : Area) : Prop := x.rseqCs = 0 ∨ ∃ s, x.rseqCs = img.desc s

/-- What a thread does, as the stage machine sees it. -/
structure Thr.Rel (x : Thr img.Site) (y : Stage.Thr) : Prop where
  index : ∀ K, x.area.index K = y.index K
  running : x.running = y.running
  cs : x.area.CsOk img
  top : x.top.Rel img ptr (fun s => x.area.rseqCs = img.desc s) y.top
  below : List.Forall₂ (Ctx.Rel img ptr fun _ => False) x.below y.below

end Context

section ContextLemmas

variable {img : Image} {ptr : Usize} {armed armed' : img.Site → Prop} {x : Ctx img.Site}
  {c : Call} {st : Stage} {log : List Acc} {site : img.Site} {i : ℕ}

namespace Ctx.InCall

theorem block_eq (h : x.InCall img ptr armed c st log site i) :
    img.block site = c.op.block img.arch := by
  simp only [Image.block, Op.block, h.sect]

theorem forward (h : x.InCall img ptr armed c st log site i) :
    (img.block site).forward = true := by
  rw [h.block_eq]
  exact c.op.block_forward img.arch

/-- The slot lies in the block, and in its range just inside the section. -/
theorem slot (h : x.InCall img ptr armed c st log site i) :
    i ≤ (img.block site).len ∧
      (st.isInside ↔ (img.block site).start ≤ i ∧ i < (img.block site).post) := by
  obtain ⟨_, _, hp, hl⟩ := img.block_order site
  have hst := h.stage
  cases st with
  | entering =>
    have hlt : i < _ := Entering.pc_lt hst
    exact ⟨by omega, iff_of_false id (by omega)⟩
  | inside u =>
    have hmem : _ ≤ i ∧ i < _ := Inside.pc_mem hst.1
    exact ⟨by omega, iff_of_true trivial hmem⟩
  | finishing r =>
    have hmem : _ ≤ i ∧ i ≤ _ := Finishes.pc_mem hst.1 hl.le
    exact ⟨hmem.2, iff_of_false id (by omega)⟩

/-- The instruction pointer lies in the range of `s` just inside the section of `s`. -/
theorem inRange_iff (h : x.InCall img ptr armed c st log site i) (s : img.Site) :
    img.InRange s x.ip ↔ s = site ∧ st.isInside := by
  rw [h.ip, Image.inRange_ip h.slot.1, h.slot.2]

end Ctx.InCall

/-- Only the running context needs its descriptor. -/
theorem Ctx.Rel.mono {w : Work} (h : x.Rel img ptr armed w)
    (ha : ∀ c st log site i, w = .op c st log → st.isInside →
      x.InCall img ptr armed c st log site i → armed' site) : x.Rel img ptr armed' w := by
  cases w with
  | idle => exact h
  | refused c => exact h
  | fence f pc => exact h
  | op c st log =>
    obtain ⟨site, i, hc⟩ := h
    exact ⟨site, i, ⟨hc.frame, hc.sect, hc.ip, hc.holds, hc.stage,
      fun hin => ha c st log site i rfl hin hc⟩⟩

theorem Area.CsOk.fixup {area : Area} {a : Usize} (h : area.CsOk img)
    (ha : ∀ s, ¬ img.InRange s a) : img.fixup area.rseqCs a = a := by
  rcases h with h | ⟨s, h⟩
  · rw [h]; exact Image.fixup_zero
  · rw [h]; exact Image.fixup_desc_of_not_inRange (ha s)

/-- **The kernel's rule** on the running context: an attempt inside its section
is at the abort label, about to enter again; any other context is unchanged. -/
theorem Ctx.Rel.event {area : Area} {w : Work} (hcs : area.CsOk img)
    (h : x.Rel img ptr (fun s => area.rseqCs = img.desc s) w) :
    Ctx.Rel img ptr armed { x with ip := img.fixup area.rseqCs x.ip } w.event := by
  have hout (ho : img.Outside x.ip) : img.fixup area.rseqCs x.ip = x.ip :=
    hcs.fixup ho.not_inRange
  -- only an attempt inside its section has its instruction pointer in a range
  cases w with
  | idle => exact ⟨h.1, by rw [hout h.2]; exact h.2⟩
  | refused c => exact ⟨h.1, by rw [hout h.2]; exact h.2⟩
  | fence f pc => exact ⟨h.1, by rw [hout h.2]; exact h.2⟩
  | op c st log =>
    obtain ⟨site, i, hc⟩ := h
    have hkeep (hn : ¬ st.isInside) : img.fixup area.rseqCs x.ip = x.ip :=
      hcs.fixup fun s hr => hn ((hc.inRange_iff s).mp hr).2
    cases st with
    | entering =>
      exact ⟨site, i, ⟨hc.frame, hc.sect, (hkeep id).trans hc.ip, hc.holds, hc.stage, nofun⟩⟩
    | finishing r =>
      exact ⟨site, i, ⟨hc.frame, hc.sect, (hkeep id).trans hc.ip, hc.holds, hc.stage, nofun⟩⟩
    | inside u =>
      -- its own descriptor is armed, so the kernel sends it to its own abort label
      have hr : img.InRange site x.ip := (hc.inRange_iff site).mpr ⟨rfl, trivial⟩
      have harm : area.rseqCs = img.desc site := hc.armed trivial
      refine ⟨site, (img.block site).abort, ⟨hc.frame, hc.sect, ?_, hc.holds, ?_, nofun⟩⟩
      · show img.fixup area.rseqCs x.ip = _
        rw [harm]
        exact Image.fixup_desc_of_inRange hr
      · -- a fresh attempt, with whatever the old one left in the other registers
        show Entering _ _ _ _ _ _ _
        rw [hc.block_eq]
        exact c.op.entering img.arch _ _ _ hc.holds c.op.reads_finish

/-- **One instruction of a context** is one step of its stage, whatever `rseq_cs` holds. -/
theorem Ctx.InCall.exec_any {area area' : Area} {m m' : Mem} {o : Obs} {v : Usize}
    (h : x.InCall img ptr armed c st log site i)
    (hans : img.answer ptr area m site (x.core i) = some (o, v, area', m')) :
    ∃ st', Stage.Step c.op.tree (area.index c.K) m st o st' m' ∧
      (Ctx.inOp img c site ((img.block site).next (img.desc site) (x.core i) v)).InCall img ptr
        (fun _ => True) c st' (o.extend log) site
        ((img.block site).next (img.desc site) (x.core i) v).pc ∧
      area' = o.after (img.desc site) area := by
  obtain ⟨st', hstep, hat, harea⟩ := Stage.At.exec h.forward h.stage hans
  refine ⟨st', hstep, ⟨rfl, h.sect, rfl, ?_, hat, fun _ => trivial⟩, harea⟩
  rw [h.block_eq]
  exact Op.Holds.next h.holds v

/-- The same, of a context that is armed just inside its section. -/
theorem Ctx.InCall.exec {area area' : Area} {m m' : Mem} {o : Obs} {v : Usize}
    (h : x.InCall img ptr (fun s => area.rseqCs = img.desc s) c st log site i)
    (hans : img.answer ptr area m site (x.core i) = some (o, v, area', m')) :
    ∃ st', Stage.Step c.op.tree (area.index c.K) m st o st' m' ∧
      (Ctx.inOp img c site ((img.block site).next (img.desc site) (x.core i) v)).InCall img ptr
        (fun s => area'.rseqCs = img.desc s) c st' (o.extend log) site
        ((img.block site).next (img.desc site) (x.core i) v).pc ∧
      area' = o.after (img.desc site) area := by
  obtain ⟨st', hstep, hin', harea⟩ := h.exec_any hans
  refine ⟨st', hstep, { hin' with armed := fun hin => ?_ }, harea⟩
  -- the section is entered by arming, and not left armed otherwise
  rw [harea]
  cases hstep with
  | arm => rfl
  | tau => exact h.armed trivial
  | access => exact h.armed trivial
  | _ => exact absurd hin id

/-- A word op that has just been called is about to enter its section. -/
theorem Ctx.InCall.called (hs : img.sect site = c.op.section) (g : Reg → Usize) (z : Bool) :
    (Ctx.inOp img c site ⟨0, c.op.enter ptr g, z, none⟩).InCall img ptr armed c .entering []
      site 0 := by
  refine ⟨rfl, hs, rfl, c.op.holds_enter _ g, ?_, nofun⟩
  have hb : img.block site = c.op.block img.arch := by
    simp only [Image.block, Op.block, hs]
  show Entering _ _ _ _ _ _ _
  rw [hb]
  exact c.op.entering_zero img.arch (c.op.holds_enter _ g) c.op.reads_finish

/-- A call is never stuck: it has reached the end of its block, or its next
instruction can be executed. -/
theorem Ctx.InCall.progress (hc : x.InCall img ptr armed c st log site i) (area : Area) (m : Mem) :
    x.ip = img.ip site (img.block site).len ∨
      (img.locate x.ip = some (site, i) ∧ (img.answer ptr area m site (x.core i)).isSome) := by
  -- an instruction can be executed if what it asks for is always answered
  have hreq {q : Req} (hq : (img.block site).req (x.core i) = some q)
      (hans : ∀ last, (q.answer ptr area m last).isSome) :
      img.locate x.ip = some (site, i) ∧ (img.answer ptr area m site (x.core i)).isSome := by
    obtain ⟨ins, hins, _⟩ := Option.map_eq_some_iff.mp hq
    have hlt : i < (img.block site).len := Block.lt_len_of_fetch hins
    rw [hc.ip, img.locate_ip _ _ hlt, Image.answer, hq]
    exact ⟨rfl, hans _⟩
  have hst := hc.stage
  cases st with
  | entering =>
    cases hst with
    | tau _ hq => exact Or.inr (hreq hq fun _ => rfl)
    | arm _ hq => exact Or.inr (hreq hq fun _ => by rw [Req.answer, if_pos ⟨rfl, rfl⟩]; rfl)
  | inside u =>
    cases hst.1 with
    | tau _ _ hq => exact Or.inr (hreq hq fun _ => rfl)
    | exit _ _ hq => exact Or.inr (hreq hq fun _ => rfl)
    | index _ _ hq => exact Or.inr (hreq hq fun _ => by rw [Req.answer, if_pos rfl]; rfl)
    | load _ _ hq => exact Or.inr (hreq hq fun _ => rfl)
    | scratch _ _ hq => exact Or.inr (hreq hq fun _ => rfl)
    | commit _ _ hq => exact Or.inr (hreq hq fun _ => rfl)
  | finishing r =>
    cases hst.1 with
    | done hpc =>
      have hpc' : i = (img.block site).len := hpc
      exact Or.inl (hpc' ▸ hc.ip)
    | tau _ hq => exact Or.inr (hreq hq fun _ => rfl)

end ContextLemmas

/-! ### Threads -/

section ThreadLemmas

variable {Tid : Type} {M : Machine Tid} {t : Tid} {m m' : Mem} {x x' : Thr M.img.Site}
  {y : Stage.Thr} {a : Act}

/-- The kernel's rule on a thread. -/
theorem Thr.Rel.event {img : Image} {ptr : Usize} {x : Thr img.Site} (h : x.Rel img ptr y) :
    (x.event img).Rel img ptr y.event where
  index := h.index
  running := h.running
  cs := Or.inl rfl
  top := h.top.event h.cs
  below := h.below

/-- The running context is replaced and `rseq_cs` is kept. -/
theorem Thr.Rel.setTop {img : Image} {ptr : Usize} {x : Thr img.Site} (h : x.Rel img ptr y)
    {c : Ctx img.Site} {w : Work}
    (hc : c.Rel img ptr (fun s => x.area.rseqCs = img.desc s) w) :
    Thr.Rel img ptr { x with top := c } { y with top := w } where
  index := h.index
  running := h.running
  cs := h.cs
  top := hc
  below := h.below

/-- The work that a context with frame `fr` does. -/
def Ctx.Works (img : Image) (ptr : Usize) (armed : img.Site → Prop) (x : Ctx img.Site)
    (w : Work) : Frame img.Site → Prop
  | .idle => w = .idle ∧ img.Outside x.ip
  | .refused c => w = .refused c ∧ img.Outside x.ip
  | .fence f pc => w = .fence f pc ∧ img.Outside x.ip
  | .op c site => ∃ st log i, w = .op c st log ∧ x.InCall img ptr armed c st log site i

theorem Ctx.Rel.works {img : Image} {ptr : Usize} {armed : img.Site → Prop} {x : Ctx img.Site}
    {w : Work} {fr : Frame img.Site} (h : x.Rel img ptr armed w) (hf : x.frame = fr) :
    x.Works img ptr armed w fr := by
  subst hf
  cases w with
  | idle => rw [h.1]; exact ⟨rfl, h.2⟩
  | refused c => rw [h.1]; exact ⟨rfl, h.2⟩
  | fence f pc => rw [h.1]; exact ⟨rfl, h.2⟩
  | op c st log =>
    obtain ⟨site, i, hc⟩ := h
    rw [hc.frame]
    exact ⟨st, log, i, rfl, hc⟩

/-- A word op at the end of its block has finished, with what its block reports. -/
theorem Ctx.InCall.ret {img : Image} {ptr : Usize} {armed : img.Site → Prop}
    {x : Ctx img.Site} {c : Call} {st : Stage} {log : List Acc} {site : img.Site} {i : ℕ}
    (h : x.InCall img ptr armed c st log site i)
    (hip : x.ip = img.ip site (img.block site).len) :
    st = .finishing (c.op.finish (Attempt.fromStatus (x.regs (img.block site).status)
      (x.regs (img.block site).value))) := by
  obtain ⟨_, _, _, hl⟩ := img.block_order site
  obtain rfl : i = (img.block site).len := Image.ip_inj h.slot.1 le_rfl (h.ip.symm.trans hip)
  have hst := h.stage
  cases st with
  | entering =>
    have hlt : (img.block site).len < _ := Entering.pc_lt hst
    omega
  | inside u =>
    have hmem : _ ≤ (img.block site).len ∧ (img.block site).len < _ := Inside.pc_mem hst.1
    omega
  | finishing r =>
    obtain ⟨hf, _⟩ := hst
    cases hf with
    | done => rfl
    | tau _ hq =>
      obtain ⟨ins, hfetch, _⟩ := Option.map_eq_some_iff.mp hq
      exact absurd (Block.lt_len_of_fetch hfetch) (lt_irrefl _)

/-- **A move of one thread** is a move of the stage machine. -/
theorem refine_move (h : x.Rel M.img (M.areaPtr t) y) (hm : M.Move t m x a m' x') :
    ∃ y', Stage.Move M m y a m' y' ∧ x'.Rel M.img (M.areaPtr t) y' := by
  have hrun : ∀ {b}, x.running = b → y.running = b := fun hb => h.running.symm.trans hb
  cases hm with
  | @exec c site i o v area m' hr hf hloc hans =>
    obtain ⟨st, log, j, htop, hc⟩ := h.top.works hf
    -- the instruction executed is the one the context has reached
    obtain ⟨hip, hlt⟩ := M.img.ip_locate _ _ _ hloc
    obtain rfl : i = j := Image.ip_inj hlt.le hc.slot.1 (hip.symm.trans hc.ip)
    obtain ⟨st', hstep, hc', harea⟩ := hc.exec hans
    refine ⟨{ y with top := .op c st' (o.extend log) }, .exec (hrun hr) htop ?_, ?_⟩
    · rw [← h.index]; exact hstep
    · refine ⟨fun K => ?_, h.running, ?_, ⟨site, _, hc'⟩, h.below⟩
      · rw [← h.index K, harea]
        cases o <;> cases K <;> rfl
      · rw [harea]
        cases o with
        | arm => exact Or.inr ⟨site, rfl⟩
        | tau => exact h.cs
        | acc _ _ => exact h.cs
  | @call c site g z hr hf hk hs =>
    obtain ⟨htop, _⟩ := h.top.works hf
    refine ⟨{ y with top := .op c .entering [] }, .turn (hrun hr) htop (.call hk),
      h.setTop ⟨site, 0, .called hs g z⟩⟩
  | @callRefused c hr hf hk =>
    obtain ⟨htop, ho⟩ := h.top.works hf
    exact ⟨_, .turn (hrun hr) htop (.callRefused hk), h.setTop ⟨rfl, ho⟩⟩
  | @ret c site b hr hf hip ho =>
    obtain ⟨st, log, i, htop, hc⟩ := h.top.works hf
    rw [hc.ret hip] at htop
    exact ⟨_, .turn (hrun hr) htop .ret, h.setTop ⟨rfl, ho⟩⟩
  | @retRefused c hr hf =>
    obtain ⟨htop, ho⟩ := h.top.works hf
    exact ⟨_, .turn (hrun hr) htop .retRefused, h.setTop ⟨rfl, ho⟩⟩
  | goto b g z hr hf ho =>
    obtain ⟨htop, _⟩ := h.top.works hf
    exact ⟨_, .turn (hrun hr) htop .goto, h.setTop ⟨rfl, ho⟩⟩
  | unload hr hf =>
    obtain ⟨htop, ho⟩ := h.top.works hf
    exact ⟨_, .turn (hrun hr) htop .unload, h.index, h.running, Or.inl rfl,
      ⟨hf, ho⟩, h.below⟩
  | preempt hr =>
    exact ⟨_, .preempt (hrun hr), h.index, rfl, h.cs, h.top, h.below⟩
  | resume cpu cid hr =>
    refine ⟨_, .resume cpu cid (hrun hr), fun K => ?_, rfl, Or.inl rfl, h.top.event h.cs, h.below⟩
    cases K <;> rfl
  | signal b g z hr _ ho =>
    exact ⟨_, .signal (hrun hr), h.index, h.running, Or.inl rfl, ⟨rfl, ho⟩,
      .cons (h.top.event h.cs) h.below⟩
  | @sigreturn z zs hr hf hb =>
    obtain ⟨htop, _⟩ := h.top.works hf
    have hbelow := h.below
    rw [hb] at hbelow
    generalize hyb : y.below = ys at hbelow
    cases hbelow with
    | @cons _ w _ ws hw hws =>
      refine ⟨_, .sigreturn (hrun hr) htop hyb, h.index, h.running, h.cs, ?_, hws⟩
      -- an interrupted context is not inside its section
      exact hw.mono fun c st log site i _ hin hc => absurd (hc.armed hin) id
  | fenceCall f hr hf =>
    obtain ⟨htop, ho⟩ := h.top.works hf
    exact ⟨_, .turn (hrun hr) htop (.fenceCall f), h.setTop ⟨rfl, ho⟩⟩
  | @fenceRet f b hr hf =>
    obtain ⟨htop, ho⟩ := h.top.works hf
    exact ⟨_, .turn (hrun hr) htop .fenceRet, h.setTop ⟨rfl, ho⟩⟩

end ThreadLemmas

/-! ### Steps and runs of the machine -/

section Machine

variable {Tid : Type} {M : Machine Tid}

/-- The two machines are in related states. -/
structure Sys.Rel (M : Machine Tid) (s : Sys Tid M.img.Site) (a : Stage.Sys Tid) : Prop where
  mem : s.mem = a.mem
  flags : s.flags = a.flags
  thr : ∀ t, (s.thr t).Rel M.img (M.areaPtr t) (a.thr t)

/-- The stage of an initial process. -/
def Sys.stages (s : Sys Tid M.img.Site) : Stage.Sys Tid where
  mem := s.mem
  flags := s.flags
  thr t := ⟨(s.thr t).area.index, false, .idle, []⟩

theorem Machine.Initial.rel {s : Sys Tid M.img.Site} (h : M.Initial s) : s.Rel M s.stages where
  mem := rfl
  flags := rfl
  thr t :=
    { index := fun _ => rfl
      running := h.running t
      cs := Or.inl (h.cs t)
      top := ⟨h.idle t, h.outside t⟩
      below := by rw [h.below t]; exact .nil }

theorem Sys.initial_stages (s : Sys Tid M.img.Site) : Stage.Initial s.stages :=
  ⟨fun _ => rfl, fun _ => rfl, fun _ => rfl⟩

theorem Thr.Rel.depth {img : Image} {ptr : Usize} {x : Thr img.Site} {y : Stage.Thr}
    (h : x.Rel img ptr y) : x.depth = y.depth := h.below.length_eq

variable [DecidableEq Tid] {s s' s₀ : Sys Tid M.img.Site} {a : Stage.Sys Tid}

/-- A step of a fence, seen by any thread. -/
theorem refine_fenced {t u : Tid} {f : FenceCall} {pc : RunPc} {p : Flags} {hit : Tid → Bool}
    (h : (s.thr u).Rel M.img (M.areaPtr u) (a.thr u))
    (ho : u = t → M.img.Outside (s.thr u).top.ip) :
    ((M.fenced s t f pc p hit).thr u).Rel M.img (M.areaPtr u)
      ((Stage.fenced a t f pc p hit).thr u) := by
  have hif {x : Thr M.img.Site} {y : Stage.Thr} (hxy : x.Rel M.img (M.areaPtr u) y) :
      Thr.Rel M.img (M.areaPtr u) (if hit u then x.event M.img else x)
        (if hit u then y.event else y) := by
    by_cases hh : hit u = true
    · rw [if_pos hh, if_pos hh]
      exact hxy.event
    · rw [if_neg hh, if_neg hh]
      exact hxy
  refine hif ?_
  by_cases hu : u = t
  · rw [if_pos hu, if_pos hu]
    exact h.setTop ⟨rfl, ho hu⟩
  · rw [if_neg hu, if_neg hu]
    exact h

/-- **One step** of the machine is a step of the stage machine with the same label. -/
theorem refine_step {l : Label Tid} (h : s.Rel M a) (hs : M.Step s l s') :
    ∃ a', Stage.SysStep M a l a' ∧ s'.Rel M a' := by
  cases hs with
  | @move t act m x hm hfree =>
    obtain ⟨y, hy, hrel⟩ := refine_move (h.thr t) hm
    rw [h.mem] at hy
    refine ⟨{ a with mem := m, thr := Function.update a.thr t y }, ?_, rfl, h.flags, fun u => ?_⟩
    · rw [(h.thr t).depth]
      refine .move hy fun cpu cid hact u hu hrun K => ?_
      have hf := hfree cpu cid hact u hu ((h.thr u).running.trans hrun)
      rw [← (h.thr u).index]
      cases K with
      | cpuId => exact hf.1
      | cid => exact hf.2
    · show Thr.Rel _ _ (Function.update s.thr t x u) (Function.update a.thr t y u)
      by_cases hu : u = t
      · subst hu
        rw [Function.update_self, Function.update_self]
        exact hrel
      · rw [Function.update_of_ne hu, Function.update_of_ne hu]
        exact h.thr u
  | @fenceRun t f pc pc' ev p hit hr hf hrun hre =>
    obtain ⟨htop, ho⟩ := (h.thr t).top.works hf
    -- the barrier reaches the same threads in both machines
    have hre' : Stage.Reaches M a t f ev hit := by
      intro u
      rw [← (h.thr u).index, ← (h.thr u).running]
      exact hre u
    refine ⟨Stage.fenced a t f pc' p hit, ?_, h.mem, rfl, fun u => ?_⟩
    · rw [(h.thr t).depth]
      exact .fenceRun ((h.thr t).running.symm.trans hr) htop (h.flags ▸ hrun) hre'
    · exact refine_fenced (h.thr u) fun hu => by subst hu; exact ho
  | write b v =>
    refine ⟨_, .write b v, ?_, h.flags, h.thr⟩
    rw [h.mem]

/-- **Every run** of the machine is a run of the stage machine with the same
history. -/
theorem refine_run {h : List (Label Tid)} (hi : M.Initial s₀) (hr : LTS.Run M.Step s₀ h s) :
    ∃ a, LTS.Run (Stage.SysStep M) s₀.stages h a ∧ s.Rel M a := by
  induction hr with
  | nil => exact ⟨_, .nil, hi.rel⟩
  | cons _ hs ih =>
    obtain ⟨a, ha, hrel⟩ := ih
    obtain ⟨a', hstep, hrel'⟩ := refine_step hrel hs
    exact ⟨a', .cons ha hstep, hrel'⟩

/-! ### Reading a state of the machine in the stage machine -/

omit [DecidableEq Tid] in
theorem ctxAt_forall₂ {C D : Type} {R : C → D → Prop} {cs : List C} {ds : List D} {c : C} {d : ℕ}
    (h : List.Forall₂ R cs ds) (hc : ctxAt cs d = some c) : ∃ e, ctxAt ds d = some e ∧ R c e := by
  induction h with
  | nil => cases hc
  | @cons c' e' cs ds hR hall ih =>
    by_cases hd : d = cs.length
    · rw [ctxAt, if_pos hd] at hc
      obtain rfl := Option.some_inj.mp hc
      exact ⟨e', by rw [ctxAt, if_pos (hd.trans hall.length_eq)], hR⟩
    · rw [ctxAt, if_neg hd] at hc
      obtain ⟨e, he, hce⟩ := ih hc
      refine ⟨e, ?_, hce⟩
      rw [ctxAt, if_neg (hall.length_eq ▸ hd), he]

omit [DecidableEq Tid] in
/-- The contexts of a thread, in both machines. -/
theorem Thr.Rel.stack {img : Image} {ptr : Usize} {x : Thr img.Site} {y : Stage.Thr}
    (h : x.Rel img ptr y) : List.Forall₂ (Ctx.Rel img ptr fun _ => True) x.stack y.stack := by
  refine .cons (h.top.mono fun _ _ _ _ _ _ _ _ => trivial) ?_
  exact h.below.imp fun _ _ hr => hr.mono fun _ _ _ _ _ _ _ _ => trivial

omit [DecidableEq Tid] in
theorem Thr.Rel.ctx {img : Image} {ptr : Usize} {x : Thr img.Site} {y : Stage.Thr}
    (h : x.Rel img ptr y) {d : ℕ} {z : Ctx img.Site} (hz : ctxAt x.stack d = some z) :
    ∃ w, ctxAt y.stack d = some w ∧ z.Rel img ptr (fun _ => True) w :=
  ctxAt_forall₂ h.stack hz

omit [DecidableEq Tid] in
/-- A word op of the stage machine is one of the machine. -/
theorem Thr.Rel.frame {img : Image} {ptr : Usize} {x : Thr img.Site} {y : Stage.Thr}
    (h : x.Rel img ptr y) {d : ℕ} {c : Call} {st : Stage} {log : List Acc}
    (hw : ctxAt y.stack d = some (.op c st log)) :
    ∃ z site, ctxAt x.stack d = some z ∧ z.frame = .op c site := by
  obtain ⟨z, hz, site, _, hc⟩ := ctxAt_forall₂ h.stack.flip hw
  exact ⟨z, site, hz, hc.frame⟩

/-- An instruction step of the machine, in the stage machine. -/
theorem Sys.Rel.exec {t : Tid} {d : ℕ} {o : Obs} {c : Call} {site : M.img.Site}
    (h : s.Rel M a) (hf : (s.thr t).top.frame = .op c site)
    (hs : M.Step s (.act t d (.exec o)) s') :
    ∃ st st' log m, d = (s.thr t).depth ∧ (a.thr t).running = true ∧
      (a.thr t).top = .op c st log ∧
      Stage.Step (Stage.tree c) ((a.thr t).index c.K) a.mem st o st' m := by
  obtain ⟨st, log, i, htop, _⟩ := (h.thr t).top.works hf
  obtain ⟨a', hstep, _⟩ := refine_step h hs
  have hd : d = (a.thr t).depth := by cases hstep; rfl
  cases hstep with
  | move hm _ =>
    cases hm with
    | exec hr hw hst =>
      rw [htop] at hw
      cases hw
      exact ⟨st, _, log, _, hd.trans (h.thr t).depth.symm, hr, htop, hst⟩
    | turn _ _ ht => cases ht

/-- A return of the machine, in the stage machine. -/
theorem Sys.Rel.ret {t : Tid} {d : ℕ} {c : Call} {r : Except Error Usize} (h : s.Rel M a)
    (hs : M.Step s (.act t d (.ret c r)) s') :
    d = (a.thr t).depth ∧ ((∃ log, (a.thr t).top = .op c (.finishing r) log) ∨
      (a.thr t).top = .refused c ∧ r = .error .abort) := by
  obtain ⟨a', hstep, _⟩ := refine_step h hs
  exact hstep.ret

end Machine

end RseqRs
