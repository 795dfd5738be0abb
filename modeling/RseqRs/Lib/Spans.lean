import Mathlib.Order.Nat
import Mathlib.Data.List.Basic

/-!
# Maximal runs of consecutive numbers

The runs of an ascending list, as a list of spans: they cover what the list has, they ascend,
and between any two of them there is a gap.
-/

/-- A non-empty run of consecutive numbers. -/
structure Span where
  lo : ℕ
  hi : ℕ
  le : lo ≤ hi

namespace Span

instance : Membership ℕ Span := ⟨fun r i => r.lo ≤ i ∧ i ≤ r.hi⟩

theorem mem_def {r : Span} {i : ℕ} : i ∈ r ↔ r.lo ≤ i ∧ i ≤ r.hi := Iff.rfl

theorem lo_mem (r : Span) : r.lo ∈ r := ⟨le_rfl, r.le⟩

theorem hi_mem (r : Span) : r.hi ∈ r := ⟨r.le, le_rfl⟩

/-- The run of one number. -/
def single (a : ℕ) : Span := ⟨a, a, le_rfl⟩

theorem extend_le {a : ℕ} {r : Span} (h : a + 1 = r.lo) : a ≤ r.hi :=
  (Nat.le_succ a).trans (h.trans_le r.le)

/-- The run with the number before it. -/
def extend (a : ℕ) (r : Span) (h : a + 1 = r.lo) : Span := ⟨a, r.hi, extend_le h⟩

/-- The runs with a smaller number: the first run takes it, or it is a run of its own. -/
def cons (a : ℕ) : List Span → List Span
  | [] => [single a]
  | r :: rs => if h : a + 1 = r.lo then extend a r h :: rs else single a :: r :: rs

end Span

/-- The maximal runs of an ascending list. -/
def spans : List ℕ → List Span
  | [] => []
  | a :: l => Span.cons a (spans l)

theorem Span.exists_mem_cons {a i : ℕ} {rs : List Span} :
    (∃ r ∈ Span.cons a rs, i ∈ r) ↔ i = a ∨ ∃ r ∈ rs, i ∈ r := by
  cases rs with
  | nil => simp [Span.cons, Span.mem_def, Span.single, le_antisymm_iff, and_comm]
  | cons r rs =>
    rw [Span.cons]
    split
    · next h =>
      -- the first run has grown by its new first number
      have hr : i ∈ Span.extend a r h ↔ i = a ∨ i ∈ r := by
        simp only [Span.mem_def, Span.extend]
        have := r.le
        omega
      simp only [List.exists_mem_cons_iff, hr, or_assoc]
    · next h =>
      have ha : i ∈ Span.single a ↔ i = a := by
        simp only [Span.mem_def, Span.single]
        omega
      simp only [List.exists_mem_cons_iff, ha]

/-- The runs cover the list. -/
theorem exists_mem_spans {l : List ℕ} {i : ℕ} : (∃ r ∈ spans l, i ∈ r) ↔ i ∈ l := by
  induction l with
  | nil => simp [spans]
  | cons a l ih => rw [spans, Span.exists_mem_cons, ih, List.mem_cons]

theorem spans_ne_nil {l : List ℕ} (h : l ≠ []) : spans l ≠ [] := by
  obtain ⟨a, ha⟩ := List.exists_mem_of_ne_nil l h
  obtain ⟨r, hr, _⟩ := exists_mem_spans.mpr ha
  exact List.ne_nil_of_mem hr

/-- **The runs ascend, with a gap between any two**: none of them could be longer. -/
theorem spans_ascend {l : List ℕ} (h : l.Pairwise (· < ·)) :
    (spans l).Pairwise fun r s => r.hi + 1 < s.lo := by
  induction l with
  | nil => exact List.Pairwise.nil
  | cons a l ih =>
    rw [List.pairwise_cons] at h
    have ih := ih h.2
    have hlo : ∀ r ∈ spans l, a < r.lo := fun r hr =>
      h.1 _ (exists_mem_spans.mp ⟨r, hr, r.lo_mem⟩)
    rw [spans]
    cases hl : spans l with
    | nil => exact List.pairwise_singleton ..
    | cons r rs =>
      rw [hl, List.pairwise_cons] at ih
      rw [hl] at hlo
      rw [Span.cons]
      split
      · exact List.pairwise_cons.mpr ih
      · next hgap =>
        -- the new run ends at `a`, and the number after it is missing
        refine List.pairwise_cons.mpr ⟨fun s hs => ?_, List.pairwise_cons.mpr ih⟩
        have hr := hlo r List.mem_cons_self
        change a + 1 < s.lo
        rcases List.mem_cons.mp hs with rfl | hs
        · omega
        · have := ih.1 s hs
          have := r.le
          omega
