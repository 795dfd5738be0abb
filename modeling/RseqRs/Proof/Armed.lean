import RseqRs.Stage.Refine

/-!
# Always armed inside, never diverted outside

`rseq_cs` is one cell for all the word ops of a thread and all its handlers, and
the ops leave it stale after the commit. In every reachable state it still holds
the descriptor of the section the running context is in, if it is in one; and a
context outside every section is left where it is, whatever `rseq_cs` holds.
-/

namespace RseqRs

/-- What a kernel event (`Thr.event`) will do to the running context of a thread. -/
structure Thr.Armed (img : Image) (x : Thr img.Site) : Prop where
  /-- inside a section `rseq_cs` holds the descriptor of that section -/
  armed : ∀ site, img.InRange site x.top.ip → x.area.rseqCs = img.desc site
  /-- so the event restarts it -/
  restarts : ∀ site, img.InRange site x.top.ip →
    (x.event img).top.ip = img.ip site (img.block site).abort
  /-- outside all sections the event leaves the instruction pointer unchanged -/
  undisturbed : (∀ site, ¬ img.InRange site x.top.ip) → (x.event img).top.ip = x.top.ip
  /-- an instruction pointer is moved only from a section the context is executing,
  to its abort label -/
  diverted : (x.event img).top.ip ≠ x.top.ip → ∃ c site, x.top.frame = .op c site ∧
    img.InRange site x.top.ip ∧ (x.event img).top.ip = img.ip site (img.block site).abort

/-- A thread related to the stage machine is armed. -/
theorem Thr.Rel.isArmed {img : Image} {ptr : Usize} {x : Thr img.Site} {y : Stage.Thr}
    (h : x.Rel img ptr y) : x.Armed img := by
  have hsect : ∀ site, img.InRange site x.top.ip →
      (∃ c, x.top.frame = .op c site) ∧ x.area.rseqCs = img.desc site := by
    intro site hin
    have htop := h.top
    -- only an attempt of a word op has its instruction pointer in a range, and it is its own
    cases hw : y.top with
    | op c st log =>
      rw [hw] at htop
      obtain ⟨site', i, hc⟩ := htop
      obtain ⟨rfl, hins⟩ := (hc.inRange_iff site).mp hin
      exact ⟨⟨c, hc.frame⟩, hc.armed hins⟩
    | idle => rw [hw] at htop; exact absurd hin (htop.2.not_inRange site)
    | refused c => rw [hw] at htop; exact absurd hin (htop.2.not_inRange site)
    | fence f pc => rw [hw] at htop; exact absurd hin (htop.2.not_inRange site)
  have hrestart : ∀ site, img.InRange site x.top.ip →
      (x.event img).top.ip = img.ip site (img.block site).abort := by
    intro site hin
    show img.fixup x.area.rseqCs x.top.ip = _
    rw [(hsect site hin).2]
    exact Image.fixup_desc_of_inRange hin
  have hkeep : (∀ site, ¬ img.InRange site x.top.ip) → (x.event img).top.ip = x.top.ip :=
    h.cs.fixup
  refine ⟨fun site hin => (hsect site hin).2, hrestart, hkeep, fun hne => ?_⟩
  obtain ⟨site, hin⟩ : ∃ site, img.InRange site x.top.ip := by
    by_contra hnone
    exact hne (hkeep (not_exists.mp hnone))
  obtain ⟨c, hf⟩ := (hsect site hin).1
  exact ⟨c, site, hf, hin, hrestart site hin⟩

variable {Tid : Type} [DecidableEq Tid] {M : Machine Tid} {s₀ s : Sys Tid M.img.Site}
  {h : List (Label Tid)}

/-- **Always armed inside, never diverted outside**, for every thread in every
reachable state. -/
theorem armed_run (hi : M.Initial s₀) (hr : LTS.Run M.Step s₀ h s) (t : Tid) :
    (s.thr t).Armed M.img := by
  obtain ⟨a, _, hrel⟩ := refine_run hi hr
  exact (hrel.thr t).isArmed

/-- A thread that has made four instructions of `compare_exchange`. -/
def casInside : List (Label Unit) × Sys Unit casMachine.img.Site :=
  (casMachine.alone (fun _ => 0) () 0 0 casCall soleSite 4).get rfl

theorem casInside_run :
    LTS.Run casMachine.Step (casMachine.boot fun _ => 0)
      (casInside.1 ++ [.act () 0 (.call casCall), .act () 0 (.resume 0 0)]) casInside.2 :=
  casMachine.alone_run soleSite rfl rfl (Option.some_get _).symm

/-- It is inside the section, and armed. -/
theorem armed_casInside :
    casMachine.img.InRange soleSite (casInside.2.thr ()).top.ip ∧
      (casInside.2.thr ()).Armed casMachine.img :=
  ⟨⟨by decide, by decide⟩, armed_run (casMachine_initial _) casInside_run ()⟩

end RseqRs
