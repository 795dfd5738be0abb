import RseqRs.Model.Machine

/-!
# No add is lost

What `fetch_add` and `fetch_add_at` are for: once nobody is in the middle of a call, a cell
holds what it held at first and what the calls that returned `Ok` have added to it, modulo
the word size. A call of `fetch_add_at` finds its cell only while it runs, so an add belongs
to the cell that the last attempt of the call has written.
-/

namespace RseqRs

/-- What an add adds. -/
def Op.count {K : Index} : Op K → Option Usize
  | .fetchAdd _ n | .fetchAddAt _ _ n => some n
  | _ => none

/-- What a call adds, zero if it is not an add. -/
def Call.adds (c : Call) : Usize := c.op.count.getD 0

/-- An attempt with the accesses `log` has written `x`. -/
def wrote (x : Usize) (log : List Acc) : Bool := log.any fun a => decide (a.written = some x)

section History

variable {Tid : Type} [DecidableEq Tid]

/-- The sum of the counts of the adds to `x` that have returned `Ok`. -/
def added (x : Usize) : List (Label Tid) → Usize
  | [] => 0
  | .act t d (.ret c (.ok _)) :: h => (if wrote x (attempt t d h) then c.adds else 0) + added x h
  | _ :: h => added x h

end History

namespace Machine

variable {Tid : Type} (M : Machine Tid)

/-- No call is in flight. -/
def Quiescent (s : Sys Tid M.img.Site) : Prop :=
  ∀ t d y c site, ctxAt (s.thr t).stack d = some y → y.frame ≠ .op c site

/-- `x` is mutated by `fetch_add_at` only. -/
def ByAddAt (x : Usize) (s : Sys Tid M.img.Site) : Label Tid → Prop
  | .act t _ (.exec (.acc a _)) => ∀ c site, a.written = some x →
    (s.thr t).top.frame = .op c site → ∃ p offset count, c.op = .fetchAddAt p offset count
  | .write y _ => y ≠ x
  | _ => True

/-- The calls that mutate `x` are confirmed with the key `τ`. -/
def UnderKey (x : Usize) (τ : Tag) (s : Sys Tid M.img.Site) : Label Tid → Prop
  | .act t _ (.exec (.acc a _)) => ∀ c site, a.written = some x →
    (s.thr t).top.frame = .op c site → c.tag = τ
  | _ => True

variable [DecidableEq Tid]

/-- **No add to `x` is lost** in a run whose steps satisfy `D`. -/
def SumsTo (D : Sys Tid M.img.Site → Label Tid → Prop) (x : Usize) : Prop :=
  ∀ s₀ h s, M.Initial s₀ → LTS.Run (fun s l s' => M.Step s l s' ∧ D s l) s₀ h s →
    M.Quiescent s → s.mem x = s₀.mem x + added x h

end Machine

end RseqRs
