import Mathlib.Data.List.Count
import Mathlib.Data.List.Nodup
import Mathlib.Logic.Function.Basic

/-!
# Linked chains

A chain is what a pointer structure in memory spells out: `Linked next nil p ps`
says that following `next` from `p` visits `ps` and ends in `nil`. A chain is
determined by its first pointer, so it visits nothing twice: that it ends is
what makes it acyclic.
-/

variable {α : Type}

/-- Following `next` from `p` visits `ps`, in order, and ends in `nil`. -/
inductive Linked (next : α → α) (nil : α) : α → List α → Prop
  | nil : Linked next nil nil []
  | cons {p : α} {ps : List α} : p ≠ nil → Linked next nil (next p) ps →
      Linked next nil p (p :: ps)

namespace Linked

variable {next next' : α → α} {nil p : α} {ps qs : List α}

/-- A chain whose first pointer is not its end. -/
theorem of_ne (h : Linked next nil p ps) (hne : p ≠ nil) :
    ∃ qs, ps = p :: qs ∧ Linked next nil (next p) qs := by
  cases h with
  | nil => exact absurd rfl hne
  | cons _ h => exact ⟨_, rfl, h⟩

/-- A chain at its end. -/
theorem of_nil (h : Linked next nil nil ps) : ps = [] := by
  cases h with
  | nil => rfl
  | cons hne _ => exact absurd rfl hne

/-- The first pointer determines the chain. -/
theorem unique (h : Linked next nil p ps) : ∀ {qs}, Linked next nil p qs → ps = qs := by
  induction h with
  | nil => exact fun h' => h'.of_nil.symm
  | @cons p ps hne h ih =>
    intro qs h'
    obtain ⟨rs, rfl, h''⟩ := h'.of_ne hne
    rw [ih h'']

/-- From a pointer it visits, a chain goes on, and is no longer than it was. -/
theorem suffix (h : Linked next nil p ps) {q : α} (hq : q ∈ ps) :
    ∃ qs, Linked next nil q qs ∧ qs.length ≤ ps.length := by
  induction h with
  | nil => cases hq
  | @cons p ps hne h ih =>
    rcases List.mem_cons.mp hq with rfl | hq
    · exact ⟨_, .cons hne h, Nat.le_refl _⟩
    · obtain ⟨qs, hqs, hle⟩ := ih hq
      exact ⟨qs, hqs, Nat.le_succ_of_le hle⟩

/-- A chain does not come back to the pointer it started from: the rest of the
chain from there would have to be as long as the whole. -/
theorem not_mem (hne : p ≠ nil) (h : Linked next nil (next p) ps) : p ∉ ps := by
  intro hmem
  obtain ⟨qs, hqs, hle⟩ := h.suffix hmem
  obtain rfl : p :: ps = qs := (Linked.cons hne h).unique hqs
  exact absurd hle (Nat.not_succ_le_self _)

/-- **A chain is acyclic**: it visits nothing twice. -/
theorem nodup (h : Linked next nil p ps) : ps.Nodup := by
  induction h with
  | nil => exact List.nodup_nil
  | cons hne h ih => exact List.nodup_cons.mpr ⟨not_mem hne h, ih⟩

/-- A chain stays if what it visits is linked as before. -/
theorem congr (h : Linked next nil p ps) (he : ∀ q ∈ ps, next' q = next q) :
    Linked next' nil p ps := by
  induction h with
  | nil => exact .nil
  | @cons p ps hne h ih =>
    refine .cons hne ?_
    rw [he p (List.mem_cons_self ..)]
    exact ih fun q hq => he q (List.mem_cons_of_mem _ hq)

end Linked
