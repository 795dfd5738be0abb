import Mathlib.Algebra.BigOperators.Ring.Finset
import RseqRs.Model.Cached
import RseqRs.Proof.Clients

/-!
# No object is lost

A take that returns `Ok` has emptied a slot, and a put has filled one, so the number of full
slots keeps books (`gain`). The loops of the bench see to it that a context that has taken an
object puts one back before it takes another, and what its takes and puts have earned is what
it holds, with the sign turned (`earned_held`).
-/

namespace RseqRs

theorem Words.mem_addrs {ws : Words} {x : Usize} :
    x ∈ ws.addrs ↔ ∃ cpu, cpu < ws.cpus ∧ x = ws.addr cpu := by
  refine Finset.mem_image.trans ⟨?_, ?_⟩
  · rintro ⟨i, hi, rfl⟩
    have hlt := Finset.mem_range.mp hi
    refine ⟨_, ?_, rfl⟩
    have hcpus := ws.cpus.isLt
    rw [BitVec.lt_def, BitVec.toNat_ofNat, Nat.mod_eq_of_lt (by omega)]
    exact hlt
  · rintro ⟨cpu, hcpu, rfl⟩
    refine ⟨cpu.toNat, Finset.mem_range.mpr (BitVec.lt_def.mp hcpu), ?_⟩
    rw [BitVec.ofNat_toNat, BitVec.setWidth_eq]

theorem Words.Picked.mem {ws : Words} (w : ws.Picked) : w.1.word ∈ ws.addrs := by
  obtain ⟨w, cpu, hw⟩ := w
  obtain ⟨hlt, rfl⟩ := Words.get_eq_some hw
  exact Words.mem_addrs.mpr ⟨_, hlt, rfl⟩

theorem Words.Picked.owner {ws : Words} (w : ws.Picked) : ws.owner w.1.word = some w.1.tag := by
  obtain ⟨w, cpu, hw⟩ := w
  obtain ⟨hlt, rfl⟩ := Words.get_eq_some hw
  exact Words.owner_addr hlt

/-- A sum over the contexts of a thread, by their depths. -/
theorem sum_ctxAt_cons {C : Type} (c : C) (cs : List C) (f : ℕ → Option C → ℤ) :
    ∑ d ∈ Finset.range (c :: cs).length, f d (ctxAt (c :: cs) d) =
      ∑ d ∈ Finset.range cs.length, f d (ctxAt cs d) + f cs.length (some c) := by
  rw [List.length_cons, Finset.sum_range_succ, ctxAt_cons_self]
  congr 1
  exact Finset.sum_congr rfl fun d hd => by rw [ctxAt_cons_of_lt (Finset.mem_range.mp hd)]

namespace Cached

variable {ws : Words}

/-! ### What a swap is worth -/

/-- One for an object. -/
def objects (v : Usize) : ℤ := if v = OBJ then 1 else 0

/-- What a swap adds to the number of full slots. -/
def gain (c : Call) : Option ℤ :=
  match c.op with
  | .compareExchange _ expect new => some (objects new - objects expect)
  | _ => none

theorem full_eq_sum (m : Mem) : (full ws m : ℤ) = ∑ x ∈ ws.addrs, objects (m x) :=
  (Finset.natCast_card_filter _ _)

theorem full_update {m : Mem} {x v : Usize} (hx : x ∈ ws.addrs) :
    (full ws (Function.update m x v) : ℤ) = full ws m + (objects v - objects (m x)) := by
  rw [full_eq_sum, full_eq_sum]
  exact sum_update_apply objects hx

/-- The program keeps books of the full slots. -/
theorem keeps : (program ws).Keeps ws.owner (fun m => (full ws m : ℤ)) gain where
  plain j c hc := by
    cases j with
    | calling k v w => cases hc; cases k <;> rfl
    | _ => cases hc
  keyed j c hc := by
    cases j with
    | calling k v w => cases hc; cases k <;> exact w.owner
    | _ => cases hc
  worth j c hc := by
    cases j with
    | calling k v w =>
      cases hc
      have hworth (expect new : Usize) : Call.Worth (fun m => (full ws m : ℤ))
          ⟨.cpuId, .compareExchange w.1 expect new⟩ (objects new - objects expect) := by
        -- a swap that succeeds has found `expect` in its slot
        refine ⟨fun m r m' hrun => ?_, fun x v m y hs => by cases hs⟩
        simp only [Op.run] at hrun
        split at hrun
        · next he =>
          cases hrun
          rw [full_update w.mem, ← he]
        · cases hrun
      cases k with
      | take => exact ⟨_, rfl, hworth OBJ 0⟩
      | put => exact ⟨_, rfl, hworth 0 OBJ⟩
    | _ => cases hc
  owns x hx := by
    obtain ⟨cpu, hcpu, rfl⟩ := Words.owner_of_ne_none hx
    exact Words.mem_addrs.mpr ⟨cpu, hcpu, rfl⟩

/-! ### What the contexts hold -/

/-- The objects that the contexts of a thread hold by the loops they are in, as if no op at
hand had committed. -/
def heldBy : List (Job ws) → ℤ
  | [] => 0
  | j :: js => j.inHand false + heldBy js

/-- The same for all threads. -/
def held {Tid : Type} [Fintype Tid] (k : Tid → List (Job ws)) : ℤ := ∑ t, heldBy (k t)

section Runs

variable {Tid : Type} [DecidableEq Tid] [Fintype Tid] {M : Machine Tid} {area : Tid → Area}
  {m : Mem} {k k' : Tid → List (Job ws)} {h : List (Label Tid)} {l : Label Tid}
  {p₀ p p' : Sys Tid M.img.Site × (Tid → List (Job ws))}

theorem held_update {t : Tid} {js : List (Job ws)} :
    held (Function.update k t js) = held k + (heldBy js - heldBy (k t)) :=
  sum_update_apply heldBy (Finset.mem_univ t)

omit [DecidableEq Tid] [Fintype Tid] in
/-- **One turn** of a job: what it earns it gives away. -/
theorem earned_turn {a : Area} {t : Tid} {d : ℕ} {act : Act} {j j' : Job ws}
    (ht : Turn ws a act j j') : earned gain (.act t d act :: h) + (j'.inHand false : ℤ) =
      earned gain h + (j.inHand false : ℤ) := by
  cases ht with
  | @done k v w r =>
    have hearned : earned gain (Label.act t d (.ret (k.call w) (.ok r)) :: h) =
        (gain (k.call w)).getD 0 + earned gain h := rfl
    -- a take earns an object less and has it in its hand, a put the other way
    rw [hearned]
    cases k with
    | take =>
      show (-1 : ℤ) + earned gain h + 1 = earned gain h + 0
      omega
    | put =>
      show (1 : ℤ) + earned gain h + 0 = earned gain h + 1
      omega
  | start v => rfl
  | @pick k _ _ _ _ => cases k <;> rfl
  | @reuse k _ => cases k <;> rfl
  | @call k _ _ => cases k <;> rfl
  | @retry k _ _ _ => cases k <;> rfl

theorem earned_step {k k' : Tid → List (program ws).Job} (hm : (program ws).Moves area m k l k') :
    earned gain (l :: h) + held k' = earned gain h + held k := by
  cases hm with
  | @turn t d a j j' js hk ht =>
    have hturn := earned_turn (h := h) (t := t) (d := d) ht
    rw [held_update, hk]
    show _ + (held k + (j'.inHand false + heldBy js - (j.inHand false + heldBy js))) = _
    omega
  | @idle t d a ha =>
    cases a with
    | ret c r => cases ha
    | _ => rfl
  | @signal t d =>
    rw [held_update]
    show earned gain h + (held k + (0 + heldBy (k t) - heldBy (k t))) = _
    omega
  | @sigreturn t d js hk =>
    rw [held_update, hk]
    show earned gain h + (held k + (heldBy js - (0 + heldBy js))) = _
    omega
  | fenceRun => rfl
  | write _ => rfl

theorem earned_held (hi : (program ws).Initial M p₀) (hr : LTS.Run ((program ws).Step M) p₀ h p) :
    earned gain h + held p.2 = 0 := by
  induction hr with
  | nil =>
    have hzero (t : Tid) : heldBy (@Prod.snd _ (Tid → List (Job ws)) p₀ t) = 0 := by
      have hrest : @Prod.snd _ (Tid → List (Job ws)) p₀ t = [Job.rest] := hi.rest t
      rw [hrest]
      rfl
    show 0 + held (@Prod.snd _ (Tid → List (Job ws)) p₀) = 0
    rw [held, Finset.sum_eq_zero fun t _ => hzero t]
    rfl
  | cons _ hs ih => exact (earned_step hs.2).trans ih

theorem heldBy_eq (js : List (Job ws)) : heldBy js = ∑ d ∈ Finset.range js.length,
    (((ctxAt js d).map (Job.inHand false)).getD 0 : ℤ) := by
  induction js with
  | nil => rfl
  | cons j js ih =>
    rw [sum_ctxAt_cons j js fun _ o => ((o.map (Job.inHand false)).getD 0 : ℤ), ← ih]
    exact add_comm _ _

omit [Fintype Tid] in
/-- **The hand of a context**: a commit that has not been returned moves an object. -/
theorem inHand_eq {t : Tid} {d : ℕ} {j : Job ws} (hi : (program ws).Initial M p₀)
    (hr : LTS.Run ((program ws).Step M) p₀ h p) (hj : @ctxAt (Job ws) (p.2 t) d = some j) :
    (j.inHand (commitCount t d h = 1) : ℤ) =
      j.inHand false - M.unreturned gain h p.1 (t, d) := by
  have hnone (hc : (program ws).calling j = none) : M.unreturned gain h p.1 (t, d) = 0 := by
    refine Machine.unreturned_eq_zero fun z c site hz hf => ?_
    obtain ⟨y, hy, hcall⟩ := (Program.fits_run hi hr).ctx hj
    obtain rfl : z = y := Option.some_inj.mp (hz.symm.trans hy)
    rw [hc, hf] at hcall
    cases hcall
  cases j with
  | calling k v w =>
    obtain ⟨y, site, hy, hf⟩ := Program.frame_of_job hi hr hj rfl (by cases k <;> rfl)
    have hopen : M.unreturned gain h p.1 (t, d) =
        if commitCount t d h = 1 then (gain (k.call w)).getD 0 else 0 :=
      Machine.unreturned_op hy hf
    rw [hopen]
    -- after its commit the hand is ahead of what was returned
    by_cases hcom : commitCount t d h = 1
    · rw [if_pos hcom, decide_eq_true hcom]
      cases k <;> rfl
    · rw [if_neg hcom, decide_eq_false hcom, sub_zero]
  | rest => rw [hnone rfl, sub_zero]; rfl
  | loop k v => rw [hnone rfl, sub_zero]; cases k <;> rfl
  | picked k v w => rw [hnone rfl, sub_zero]; cases k <;> rfl

omit [Fintype Tid] in
/-- **One step** leaves an object or nothing in a slot. -/
theorem slots_step {x : Usize} (hi : (program ws).Initial M p₀)
    (hr : LTS.Run ((program ws).Step M) p₀ h p) (hs : (program ws).Step M p l p')
    (hx : x ∈ ws.addrs) (h₀ : p.1.mem x = 0 ∨ p.1.mem x = OBJ) :
    p'.1.mem x = 0 ∨ p'.1.mem x = OBJ := by
  -- a slot is written by the swaps of the bench only, which store what is allowed
  rcases Program.mem_step hi hr hs hx with he | ⟨j, c, u, log, b, hj, hpath, hacc, hb, he⟩
  · rw [he]
    exact h₀
  cases j with
  | calling k v w =>
    cases hj
    rw [he]
    have hstore (expect new : Usize) (hnew : new = 0 ∨ new = OBJ)
        (hpath : ((Op.compareExchange w.1 expect new).tree).Path log u) :
        b.apply p.1.mem x = 0 ∨ b.apply p.1.mem x = OBJ := by
      rcases Op.cas_access hpath hacc with ⟨i, rfl⟩ | ⟨y, rfl⟩ | rfl
      · cases hb
      · cases hb
      · cases hb
        have hself : (Access.store w.1.word new : Acc).apply p.1.mem w.1.word = new :=
          Function.update_self ..
        rw [hself]
        exact hnew
    cases k with
    | take => exact hstore OBJ 0 (Or.inl rfl) hpath
    | put => exact hstore 0 OBJ (Or.inr rfl) hpath
  | _ => cases hj

theorem inHands_eq (hi : (program ws).Initial M p₀) (hr : LTS.Run ((program ws).Step M) p₀ h p) :
    (inHands h p.2 : ℤ) = held p.2 -
      ∑ t, ∑ d ∈ Finset.range (p.2 t).length, M.unreturned gain h p.1 (t, d) := by
  unfold inHands held
  rw [Nat.cast_sum, ← Finset.sum_sub_distrib]
  refine Finset.sum_congr rfl fun t _ => ?_
  rw [heldBy_eq, Nat.cast_sum, ← Finset.sum_sub_distrib]
  refine Finset.sum_congr rfl fun d hd => ?_
  obtain ⟨j, hj⟩ := Option.isSome_iff_exists.mp (ctxAt_isSome (Finset.mem_range.mp hd))
  rw [hj]
  exact inHand_eq hi hr hj

/-- No other context has a position. -/
theorem unreturned_sum (hi : (program ws).Initial M p₀)
    (hr : LTS.Run ((program ws).Step M) p₀ h p) : (full ws p.1.mem : ℤ) - full ws p₀.1.mem -
      earned gain h =
        ∑ t, ∑ d ∈ Finset.range (p.2 t).length, M.unreturned gain h p.1 (t, d) := by
  have hval (m : Mem) (x y : Usize) (hx : ws.owner x = none) :
      (full ws (Function.update m x y) : ℤ) = full ws m := by
    rw [full_eq_sum, full_eq_sum]
    refine Finset.sum_congr rfl fun z hz => ?_
    obtain ⟨cpu, hcpu, rfl⟩ := Words.mem_addrs.mp hz
    rw [Function.update_of_ne]
    rintro rfl
    rw [Words.owner_addr hcpu] at hx
    cases hx
  have hbooks := Program.books_run keeps hval hi hr
  -- the contexts there are, as one set
  let S : Finset (Tid × ℕ) :=
    (Finset.univ.sigma fun t => Finset.range (p.2 t).length).image fun x => (x.1, x.2)
  have hmem (i : Tid × ℕ) : i ∈ S ↔ i.1 ∈ Finset.univ ∧ i.2 ∈ Finset.range (p.2 i.1).length := by
    simp [S, Prod.ext_iff]
  rw [hbooks.total_eq_sum (S := S) fun i hi' => ?_]
  · exact Finset.sum_finset_product _ _ _ hmem
  · -- there is no such context
    refine Machine.unreturned_eq_zero fun y _ _ hy _ => hi' ?_
    obtain ⟨j, hj, _⟩ := (Program.fits_run hi hr).job hy
    exact (hmem i).mpr ⟨Finset.mem_univ _, Finset.mem_range.mpr (ctxAt_lt hj)⟩

end Runs

end Cached

/-- **No object is lost and none is made**, at any time and however takes and puts on the CPUs
interleave: a slot holds an object or nothing, and there are as many in slots and in hands as
there were in the slots at first. -/
theorem objects_kept {Tid : Type} [DecidableEq Tid] [Fintype Tid] (ws : Words) (M : Machine Tid)
    (p₀ p : Sys Tid M.img.Site × (Tid → List (Cached.Job ws))) (h : List (Label Tid))
    (hi : (Cached.program ws).Initial M p₀)
    (hslots : ∀ x ∈ ws.addrs, p₀.1.mem x = 0 ∨ p₀.1.mem x = Cached.OBJ)
    (hr : LTS.Run ((Cached.program ws).Step M) p₀ h p) : Cached.Kept ws p₀ p h := by
  refine ⟨?_, ?_⟩
  · induction hr with
    | nil => exact hslots
    | cons hr hs ih => exact fun x hx => Cached.slots_step hi hr hs hx (ih x hx)
  · have hsum := Cached.unreturned_sum hi hr
    have hearned := Cached.earned_held hi hr
    have hhands := Cached.inHands_eq hi hr
    omega

/-! #### An object that is moved -/

namespace Cached

def slots : Words := ⟨0x8000, 2⟩

def slot (t : Bool) : slots.Picked :=
  ⟨⟨slots.addr (pairCpu t), pairCpuId t⟩, pairCpuId t, by cases t <;> rfl⟩

def slotPair : Machine Bool := pairMachine .x86 (.compareExchange cpuIdOff)

instance : DecidableEq slotPair.img.Site := inferInstanceAs (DecidableEq (Fin 1))

/-- The first slot is full. -/
def slotMem : Mem := Function.update (fun _ => 0) 0x8000 OBJ

theorem slotMem_eq (x : Usize) : slotMem x = 0 ∨ slotMem x = OBJ := by
  by_cases hx : x = 0x8000
  · subst hx
    exact Or.inr (Function.update_self ..)
  · exact Or.inl (Function.update_of_ne hx ..)

/-- One thread takes the object and is moved to the other CPU, where it puts it down; the other
thread finds the slot empty meanwhile. -/
def slotSchedule : List (Cmd Bool slotPair.img.Site) :=
  [.resume false 0 0, .goto false, .goto false, .call false (Half.call (slot false) .take) soleSite,
    .exec false 12, .ret false, .preempt false, .resume true 0 0, .goto true, .goto true,
    .call true (Half.call (slot false) .take) soleSite, .exec true 11, .ret true,
    .resume false 1 1, .goto false, .call false (Half.call (slot true) .put) soleSite,
    .exec false 12]

/-- One thread is in its put, the other at the head of its loop. -/
def slotJobs (t : Bool) : List (Job slots) :=
  if t then [.loop .take none] else [.calling .put none (slot true)]

theorem slotSchedule_plays : Machine.Plays slotPair ((program slots).bench slotPair)
    Program.sleeps (slotPair.boot slotMem) (fun _ => [Job.rest]) slotSchedule slotJobs := by
  have hread (t : Bool) : CpuId.new (pairCpu t) = some (pairCpuId t) := by cases t <;> rfl
  have hplays : ∃ k, Machine.Plays slotPair ((program slots).bench slotPair)
      Program.sleeps (slotPair.boot slotMem) (fun _ => [Job.rest]) slotSchedule k ∧
        k = slotJobs := by
    refine ⟨_, .quiet (by decide +kernel) <|
      .turn rfl (Program.Moves.single (.start none)) <|
      .turn rfl (Program.Moves.single (.pick (hread false) rfl)) <|
      .turn rfl (Program.Moves.single .call) <| .quiet (by decide +kernel) <|
      .turn (show _ = some [.act false 0 (.ret (Half.call (slot false) .take) (.ok 1))] from rfl)
        (Program.Moves.single .done) <|
      .quiet (by decide +kernel) <| .quiet (by decide +kernel) <|
      -- the other thread
      .turn rfl (Program.Moves.single (.start none)) <|
      .turn rfl (Program.Moves.single (.pick (hread false) rfl)) <|
      .turn rfl (Program.Moves.single .call) <| .quiet (by decide +kernel) <|
      .turn (Machine.labels_act (t := true) (d := 0)
          (a := .ret (Half.call (slot false) .take) (.error (.miss 0))) (by decide +kernel))
        (Program.Moves.single .retry) <|
      .quiet (by decide +kernel) <|
      -- the put
      .turn (Machine.labels_act (t := false) (d := 0) (a := .goto) (by decide +kernel))
        (Program.Moves.single (.pick (show _ = some (pairCpuId true) by decide +kernel) rfl)) <|
      .turn (Machine.labels_act (t := false) (d := 0)
          (a := .call (Half.call (slot true) .put)) (by decide +kernel))
        (Program.Moves.single .call) <| .quiet (by decide +kernel) .nil, ?_⟩
    funext t
    cases t <;> rfl
  obtain ⟨k, hk, rfl⟩ := hplays
  exact hk

def slotEnd : List (Label Bool) × Sys Bool slotPair.img.Site :=
  (slotPair.play (slotPair.boot slotMem) slotSchedule).get rfl

/-- The put has committed and not returned: the object is in the second slot. -/
theorem objects_kept_slotEnd :
    LTS.Run ((program slots).Step slotPair) (slotPair.boot slotMem, fun _ => [Job.rest]) slotEnd.1
      (slotEnd.2, slotJobs) ∧
    full slots slotEnd.2.mem + inHands slotEnd.1 slotJobs = 1 ∧ slotEnd.2.mem 0x8008 = OBJ := by
  obtain ⟨h, s, hplay, hr⟩ :=
    Program.plays_run (Image.ofSites_outside_zero _ _ one_site) slotSchedule_plays
  have hend : slotEnd = (h, s) := Option.get_of_eq_some _ hplay
  have hinit : (program slots).Initial slotPair (slotPair.boot slotMem, fun _ => [Job.rest]) :=
    ⟨pairMachine_initial .., fun _ => rfl⟩
  have hkept := objects_kept slots slotPair _ _ _ hinit (fun x _ => slotMem_eq x) hr
  have hone : full slots slotMem = 1 := by decide +kernel
  refine ⟨hend ▸ hr, ?_, by decide +kernel⟩
  rw [hend]
  exact hkept.sum.trans hone

end Cached

end RseqRs
