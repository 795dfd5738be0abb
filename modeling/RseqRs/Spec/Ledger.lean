import Mathlib.Algebra.BigOperators.Group.Finset.Basic
import Mathlib.Data.BitVec
import RseqRs.Lib.Ledger
import RseqRs.Spec.Adds
import RseqRs.Spec.Atomic

/-!
# Keeping books over the words

What the per-CPU words are for is mostly something that adds up: a counter, a sum over all
CPUs, a number of objects that are cached. `val` is what the memory is worth, and a successful
call changes it by a known amount, whatever it finds. Then the memory is worth what it was worth
at first and what the successful calls have earned, at any time and however threads, handlers
and migrations interleave; a call that has committed and not returned yet is an open position.
-/

namespace RseqRs

variable {G : Type} [AddCommGroup G]

/-- **A successful call is worth `g`**: done in one go it changes the value by `g`. Its scratch
store is worth nothing. -/
structure Call.Worth (val : Mem → G) (c : Call) (g : G) : Prop where
  ok : ∀ m r m', c.op.run m = (.ok r, m') → val m' = val m + g
  scratch : ∀ x v m y, c.op.scratch = some (x, v) → val (Function.update m x y) = val m

section History

variable {Tid : Type}

/-- What the calls that have returned `Ok` have earned. A call with no gain is not in the
books. -/
def earned (gain : Call → Option G) : List (Label Tid) → G
  | [] => 0
  | .act _ _ (.ret c (.ok _)) :: h => (gain c).getD 0 + earned gain h
  | _ :: h => earned gain h

end History

namespace Machine

variable {Tid : Type} (M : Machine Tid) (U : Usize → Option Tag) (val : Mem → G)
  (gain : Call → Option G)

/-- The cells to which `U` gives a key are touched by the calls that are in the books, under
that key, and by nobody else; and these calls touch no other cells. -/
def InBooks (s : Sys Tid M.img.Site) : Label Tid → Prop
  | .act t _ (.exec (.acc a _)) => ∀ x c site, a.touched = some x →
    (s.thr t).top.frame = .op c site → U x = (gain c).map fun _ => c.tag
  | .act _ _ (.call c) => ∀ g, gain c = some g → c.Worth val g
  | .write x _ => U x = none
  | _ => True

variable [DecidableEq Tid]

/-- What the context of `t` at depth `d` has earned and not returned yet. -/
def unreturned (h : List (Label Tid)) (s : Sys Tid M.img.Site) (i : Tid × ℕ) : G :=
  match (ctxAt (s.thr i.1).stack i.2).map Ctx.frame with
  | some (.op c _) => if commitCount i.1 i.2 h = 1 then (gain c).getD 0 else 0
  | _ => 0

/-- **The books balance** in every reachable state: the memory is worth what it was worth at
first, what the calls have earned that returned `Ok`, and what those have that are about to. -/
def BooksBalance : Prop :=
  ∀ s₀ h s, M.Initial s₀ →
    LTS.Run (fun s l s' => M.Step s l s' ∧ M.InBooks U val gain s l) s₀ h s →
    Balances (M.unreturned gain h s) (val s.mem - val s₀.mem - earned gain h)

end Machine

/-! ### Counters -/

/-- What a successful call adds to its word, where the caller knows it beforehand. -/
def Op.delta {K : Index} : Op K → Option Usize
  | .compareExchange _ expect new | .compareExchangeIf _ expect new _ _
  | .storeIf _ expect new _ _ => some (new - expect)
  | .fetchAdd _ count => some count
  | .loadIfNe _ _ _ | .fetchAddAt _ _ _ => none

/-- What a successful call adds to the cells `A`, by its word. -/
def Call.increment (A : Finset Usize) (c : Call) : Option Usize :=
  if c.op.word.word ∈ A then c.op.delta else none

namespace Machine

variable {Tid : Type} (M : Machine Tid) (U : Usize → Option Tag) (A : Finset Usize)

/-- The cells to which `U` gives a key are touched by the calls that increment `A`, under that
key, and by nobody else; these calls touch no other cells, and have their sides outside `A`. -/
def Counts (s : Sys Tid M.img.Site) : Label Tid → Prop
  | .act t _ (.exec (.acc a _)) => ∀ x c site, a.touched = some x →
    (s.thr t).top.frame = .op c site → U x = (c.increment A).map fun _ => c.tag
  | .act _ _ (.call c) => ∀ x, c.increment A ≠ none → c.sideAddr = some x → x ∉ A
  | .write x _ => U x = none
  | _ => True

variable [DecidableEq Tid]

/-- **No increment is lost and none counts twice**: where no call is in flight, the cells `A`
hold together what they held at first and what the calls that returned `Ok` have added. -/
def CountsKept : Prop :=
  ∀ s₀ h s, M.Initial s₀ → LTS.Run (fun s l s' => M.Step s l s' ∧ M.Counts U A s l) s₀ h s →
    M.Quiescent s → ∑ x ∈ A, s.mem x = ∑ x ∈ A, s₀.mem x + earned (Call.increment A) h

end Machine

end RseqRs
