import RseqRs.Model.Machine

/-!
# What the kernel finds in `rseq_cs`

The word ops install the descriptor of their section and never clear it; the kernel clears it
when it returns to user code, and `prepare_unload` before descriptors are reclaimed. The
kernel does not trust what it finds: a descriptor it does not accept is a SIGSEGV.
-/

namespace RseqRs

/-! ### Which descriptor it is -/

section History

variable {Tid : Type} [DecidableEq Tid] (t : Tid)

namespace Label

/-- The word op that the step calls, in the context of `t` at depth `d`. -/
def callee (d : ℕ) : Label Tid → Option Call
  | .act u e (.call c) => if u = t ∧ e = d then some c else none
  | _ => none

/-- The depth of the context of `t` in which the step stores a descriptor in `rseq_cs`. -/
def arms : Label Tid → Option ℕ
  | .act u d (.exec .arm) => if u = t then some d else none
  | _ => none

/-- The step clears the `rseq_cs` of `t`: the kernel returns to user code, or
`prepare_unload`. -/
def clears : Label Tid → Bool
  | .act u _ .unload | .act u _ (.resume _ _) | .act u _ .signal => decide (u = t)
  | .fenceRun _ _ _ hit => hit t
  | _ => false

end Label

/-- The word op called last in the context of `t` at depth `d`. -/
def lastCall (d : ℕ) (h : List (Label Tid)) : Option Call := h.findSome? (Label.callee t d)

/-- The word op whose descriptor was stored last in the `rseq_cs` of `t`, if it has not been
cleared since. -/
def installed : List (Label Tid) → Option Call
  | [] => none
  | l :: h =>
    match l.arms t with
    | some d => lastCall t d h
    | none => if l.clears t then none else installed h

end History

/-- **`rseq_cs` is the descriptor of the op**, and of no other; without one it is zero, and no
kernel event moves the thread, whatever program is loaded by then. -/
structure Thr.Follows (img : Image) (x : Thr img.Site) (o : Option Call) : Prop where
  clear : o = none → x.area.rseqCs = 0 ∧
    ∀ img' : Image, img'.fixup x.area.rseqCs x.top.ip = x.top.ip
  armed : ∀ c, o = some c → ∃ site, img.sect site = c.op.section ∧ x.area.rseqCs = img.desc site
  only : ∀ site, x.area.rseqCs = img.desc site → ∃ c, o = some c ∧ img.sect site = c.op.section

/-- **What the kernel finds** in the `rseq_cs` of `t`, in the state `s` which the history `h`
has led to from `s₀`. -/
structure Machine.Finds {Tid : Type} [DecidableEq Tid] (M : Machine Tid)
    (s₀ : Sys Tid M.img.Site) (h : List (Label Tid)) (s : Sys Tid M.img.Site) (t : Tid) :
    Prop where
  follows : (s.thr t).Follows M.img (installed t h)
  /-- the descriptor is that of the call's own site: of the copy that `t` was running when it
  stored it, since when it has neither been replaced nor cleared -/
  own : ∀ c, installed t h = some c → ∃ g h₀ s₁ site,
    h = g ++ .act t (s₁.thr t).depth (.exec .arm) :: h₀ ∧ LTS.Run M.Step s₀ h₀ s₁ ∧
      LTS.Run M.Step s₁ (g ++ [.act t (s₁.thr t).depth (.exec .arm)]) s ∧
      (s₁.thr t).top.frame = .op c site ∧ (s.thr t).area.rseqCs = M.img.desc site ∧
      ∀ l ∈ g, l.arms t = none ∧ l.clears t = false
  /-- after `prepare_unload` descriptors may be reclaimed, while the thread enters no section:
  `rseq_cs` stays clear, and no kernel event reads a descriptor -/
  unloaded : ∀ d g h₀, h = g ++ .act t d .unload :: h₀ → (∀ l ∈ g, l.arms t = none) →
    (s.thr t).area.rseqCs = 0 ∧
      ∀ img' : Image, img'.fixup (s.thr t).area.rseqCs (s.thr t).top.ip = (s.thr t).top.ip

/-! ### What the kernel checks -/

/-- **The kernel accepts a descriptor** at a return to user code. -/
structure Image.Accepts (img : Image) (cs : RseqCs) : Prop where
  /-- `start_ip + post_commit_offset` does not wrap -/
  range : cs.startIp ≤ cs.startIp + cs.postCommitOffset
  /-- `abort_ip` is not in the section -/
  apart : ¬ cs.abortIp - cs.startIp < cs.postCommitOffset
  /-- the four bytes before `abort_ip` are the signature -/
  sig : img.SigAt (cs.abortIp - 4)

/-- **A thread is not killed** for its sections: the kernel accepts what is in `rseq_cs`, and a
context in a word op has an instruction before it, not the signature, or is at the end. -/
structure Thr.Sound (img : Image) (x : Thr img.Site) : Prop where
  accepted : x.area.rseqCs = 0 ∨ ∃ cs, img.deref x.area.rseqCs = some cs ∧ img.Accepts cs
  runs : ∀ d z c site, ctxAt x.stack d = some z → z.frame = .op c site →
    z.ip = img.ip site (img.block site).len ∨
      ∃ i ins, img.locate z.ip = some (site, i) ∧ (img.block site).fetch i = some ins

end RseqRs
