import Mathlib.Algebra.BigOperators.Group.Finset.Basic
import RseqRs.Model.Program
import RseqRs.Model.Steal

/-!
# One cached object per CPU (`benches/cached.rs`)

The slot of a CPU holds an object or nothing. `take_put` takes an object out of the slot of the
CPU it is on, and puts one into the slot of the CPU it is on then; each by a loop of its own
around `cas`, which is a loop too. `take_put_word` does the same with one word, got beforehand.
The objects are all alike, so what there is to say is how many there are.
-/

namespace RseqRs

/-- The words of a region. -/
def Words.addrs (ws : Words) : Finset Usize :=
  (Finset.range ws.cpus.toNat).image fun i => ws.addr (BitVec.ofNat 32 i)

namespace Cached

/-- An object in a slot; an empty slot is zero. -/
def OBJ : Usize := 1

/-- The two loops of `take_put`. -/
inductive Half where
  | take
  | put

variable {ws : Words}

/-- `compare_exchange(w, OBJ, 0)` and `compare_exchange(w, 0, OBJ)`. -/
def Half.call (w : ws.Picked) : Half → Call
  | .take => ⟨.cpuId, .compareExchange w.1 OBJ 0⟩
  | .put => ⟨.cpuId, .compareExchange w.1 0 OBJ⟩

/-- What a context of the bench is doing. -/
inductive Job (ws : Words) where
  | rest
  /-- at the head of a loop; `take_put_word` has its word `v` -/
  | loop (k : Half) (v : Option ws.Picked)
  | picked (k : Half) (v : Option ws.Picked) (w : ws.Picked)
  | calling (k : Half) (v : Option ws.Picked) (w : ws.Picked)

/-- Where a loop ends. -/
def Half.next (v : Option ws.Picked) : Half → Job ws
  | .take => .loop .put v
  | .put => .rest

/-- What an act does to the job of the running context. -/
inductive Turn (ws : Words) (area : Area) : Act → Job ws → Job ws → Prop
  | start (v : Option ws.Picked) : Turn ws area .goto .rest (.loop .take v)
  /-- `cas` reads its `cpu_id` and gets the word of that CPU -/
  | pick {k : Half} {cpu : CpuId} {w : Word .cpuId} : CpuId.new area.cpuId = some cpu →
      (hw : ws.get (K := .cpuId) cpu = some w) →
      Turn ws area .goto (.loop k none) (.picked k none ⟨w, cpu, hw⟩)
  /-- `cas_word` has it -/
  | reuse {k : Half} {w : ws.Picked} : Turn ws area .goto (.loop k (some w)) (.picked k (some w) w)
  | call {k : Half} {v : Option ws.Picked} {w : ws.Picked} :
      Turn ws area (.call (k.call w)) (.picked k v w) (.calling k v w)
  | done {k : Half} {v : Option ws.Picked} {w : ws.Picked} {r : Usize} :
      Turn ws area (.ret (k.call w) (.ok r)) (.calling k v w) (k.next v)
  /-- after an `Abort` or a `Miss` it goes round again -/
  | retry {k : Half} {v : Option ws.Picked} {w : ws.Picked} {e : Error} :
      Turn ws area (.ret (k.call w) (.error e)) (.calling k v w) (.loop k v)

/-- The bench on the region `ws`, whose words nobody else writes. -/
abbrev program (ws : Words) : Program where
  Job := Job ws
  rest := .rest
  calling
    | .calling k _ w => some (k.call w)
    | _ => none
  Turn area _ := Turn ws area
  Owns x := x ∈ ws.addrs
  calling_rest := rfl
  turns _ _ _ _ _ ht := by cases ht <;> rfl
  calling_turn _ _ _ _ _ ht := by
    cases ht with
    | @done k _ _ _ => cases k <;> rfl
    | _ => rfl

/-! ### What is counted -/

/-- The slots that hold an object. -/
def full (ws : Words) (m : Mem) : ℕ := (ws.addrs.filter fun x => m x = OBJ).card

/-- The objects in the hand of a context, whose op at hand has committed or not. -/
def Job.inHand (committed : Bool) : Job ws → ℕ
  | .loop .put _ | .picked .put _ _ => 1
  | .calling .take _ _ => if committed then 1 else 0
  | .calling .put _ _ => if committed then 0 else 1
  | _ => 0

section History

variable {Tid : Type} [DecidableEq Tid] [Fintype Tid]

/-- The objects in the hands of all contexts. -/
def inHands (h : List (Label Tid)) (k : Tid → List (Job ws)) : ℕ :=
  ∑ t, ∑ d ∈ Finset.range (k t).length,
    ((ctxAt (k t) d).map (Job.inHand (commitCount t d h = 1))).getD 0

variable {M : Machine Tid}

/-- **No object is lost and none is made**: between two states of the bench. -/
structure Kept (ws : Words) (p₀ p : Sys Tid M.img.Site × (Tid → List (Job ws)))
    (h : List (Label Tid)) : Prop where
  /-- a slot holds an object or nothing -/
  slots : ∀ x ∈ ws.addrs, p.1.mem x = 0 ∨ p.1.mem x = OBJ
  /-- there are as many objects in slots and hands as there were in slots at first -/
  sum : full ws p.1.mem + inHands h p.2 = full ws p₀.1.mem

end History

end Cached

end RseqRs
