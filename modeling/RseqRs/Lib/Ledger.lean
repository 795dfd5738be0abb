import Mathlib.Data.Finsupp.Basic
import Mathlib.Tactic.Abel

/-!
# Books with open positions

Of the positions `ι` only finitely many are open at a time, and `pos` says what each is worth.
`Balances pos total` says that together they are worth `total`. A transaction changes one
position, and the total by as much (`Balances.change`); everything else leaves the books alone.
-/

/-- The open positions are finitely many, and together worth `total`. -/
def Balances {ι G : Type} [AddCommMonoid G] (pos : ι → G) (total : G) : Prop :=
  ∃ P : ι →₀ G, (∀ i, P i = pos i) ∧ P.sum (fun _ g => g) = total

namespace Balances

variable {ι G : Type}

section Monoid

variable [AddCommMonoid G] {pos pos' : ι → G} {total : G}

/-- Books without an open position. -/
theorem zero (h : ∀ i, pos i = 0) : Balances pos 0 :=
  ⟨0, fun i => (h i).symm, Finsupp.sum_zero_index⟩

/-- The total, where the open positions are known. -/
theorem total_eq_sum {S : Finset ι} (hb : Balances pos total) (h : ∀ i, i ∉ S → pos i = 0) :
    total = ∑ i ∈ S, pos i := by
  obtain ⟨P, hP, rfl⟩ := hb
  -- what is outside `S` is worth nothing, so it is not open
  have hsub : P.support ⊆ S := fun i hi =>
    of_not_not fun hS => Finsupp.mem_support_iff.mp hi ((hP i).trans (h i hS))
  rw [P.sum_of_support_subset hsub _ fun _ _ => rfl]
  exact Finset.sum_congr rfl fun i _ => hP i

theorem total_eq_zero (hb : Balances pos total) (h : ∀ i, pos i = 0) : total = 0 :=
  hb.total_eq_sum (S := ∅) fun i _ => h i

theorem congr (hb : Balances pos total) (h : ∀ i, pos' i = pos i) : Balances pos' total := by
  obtain ⟨P, hP, hsum⟩ := hb
  exact ⟨P, fun i => (hP i).trans (h i).symm, hsum⟩

end Monoid

variable [AddCommGroup G] {pos pos' : ι → G} {total total' : G}

/-- **One position changes**, and the total by as much. -/
theorem change (hb : Balances pos total) (i : ι) (hne : ∀ j, j ≠ i → pos' j = pos j)
    (hsum : total' + pos i = total + pos' i) : Balances pos' total' := by
  classical
  obtain ⟨P, hP, rfl⟩ := hb
  -- the open positions, but for `i`, are those of before
  refine ⟨P.update i (pos' i), fun j => ?_, ?_⟩
  · rw [Finsupp.update_apply]
    by_cases hj : j = i
    · subst hj
      exact if_pos rfl
    · rw [if_neg hj, hP, hne j hj]
  · have hup := Finsupp.sum_update_add P i (pos' i) (fun _ g => g) (fun _ => rfl)
      fun _ _ _ => rfl
    rw [hP] at hup
    exact add_right_cancel (hup.trans hsum.symm)

end Balances

/-- A sum of which one summand is another. -/
theorem sum_update_apply {ι α G : Type} [DecidableEq ι] [AddCommGroup G] {A : Finset ι}
    {f : ι → α} {x : ι} {v : α} (F : α → G) (hx : x ∈ A) :
    ∑ y ∈ A, F (Function.update f x v y) = ∑ y ∈ A, F (f y) + (F v - F (f x)) := by
  have hcomp (y : ι) : F (Function.update f x v y) =
      Function.update (fun y => F (f y)) x (F v) y := Function.apply_update (fun _ => F) f x v y
  have hsplit := Finset.sum_sdiff_eq_sub (Finset.singleton_subset_iff.mpr hx)
    (f := fun y => F (f y))
  rw [Finset.sum_singleton] at hsplit
  rw [Finset.sum_congr rfl fun y _ => hcomp y, Finset.sum_update_of_mem hx, hsplit]
  abel
