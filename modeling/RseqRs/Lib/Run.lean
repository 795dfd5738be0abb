import Mathlib.Data.List.Basic
import Mathlib.Data.List.Infix

/-!
# Runs of labelled transition systems

A run is recorded by its history, the list of its labels with the newest label
first, so that a predicate on histories is defined by recursion on the last
step. `Run.invariant` is the induction every safety result of a system goes
through, and `Run.simulate` is the forward simulation that turns a step-by-step
matching of two systems into an inclusion of their visible traces.
-/

namespace LTS

variable {State State' Label Label' Vis : Type}

/-- `Run step s₀ h s`: the steps labelled by `h`, newest first, lead from `s₀`
to `s`. -/
inductive Run (step : State → Label → State → Prop) (s₀ : State) :
    List Label → State → Prop
  | nil : Run step s₀ [] s₀
  | cons {h : List Label} {s s' : State} {l : Label} :
      Run step s₀ h s → step s l s' → Run step s₀ (l :: h) s'

variable {step : State → Label → State → Prop} {s₀ : State}

namespace Run

/-- A single step is a run. -/
theorem single {s s' : State} {l : Label} (h : step s l s') : Run step s [l] s' :=
  .cons .nil h

/-- A run with one label is a step. -/
theorem step_of_single {s : State} {l : Label} (hr : Run step s₀ [l] s) : step s₀ l s := by
  cases hr with
  | cons hr hs =>
    cases hr
    exact hs

/-- Beside a run something else may stand still. -/
theorem beside {Other : Type} {moves : State → Other → Label → Other → Prop} {b : Other}
    {s : State} {h : List Label} (hr : Run step s₀ h s) (hm : ∀ s, ∀ l ∈ h, moves s b l b) :
    Run (fun x l y => step x.1 l y.1 ∧ moves x.1 x.2 l y.2) (s₀, b) h (s, b) := by
  induction hr with
  | nil => exact .nil
  | cons _ hs ih =>
    exact .cons (ih fun s l hl => hm s l (List.mem_cons_of_mem _ hl))
      ⟨hs, hm _ _ (List.mem_cons_self ..)⟩

/-- Runs compose; the later history stands in front. -/
theorem append {s s' : State} {h h' : List Label} (hr : Run step s₀ h s)
    (hr' : Run step s h' s') : Run step s₀ (h' ++ h) s' := by
  induction hr' with
  | nil => exact hr
  | cons _ hs ih => exact .cons ih hs

/-- A run splits at every cut of its history. -/
theorem split {s : State} {h h' : List Label} (hr : Run step s₀ (h' ++ h) s) :
    ∃ m, Run step s₀ h m ∧ Run step m h' s := by
  induction h' generalizing s with
  | nil => exact ⟨s, hr, .nil⟩
  | cons l h' ih =>
    cases hr with
    | cons hr hs =>
      obtain ⟨m, h₁, h₂⟩ := ih hr
      exact ⟨m, h₁, .cons h₂ hs⟩

/-- A run of a system is one of any system with more steps. -/
theorem mono {step' : State → Label → State → Prop}
    (hle : ∀ s l s', step s l s' → step' s l s') {h : List Label} {s : State}
    (hr : Run step s₀ h s) : Run step' s₀ h s := by
  induction hr with
  | nil => exact .nil
  | cons _ hs ih => exact .cons ih (hle _ _ _ hs)

/-- A run all of whose labels satisfy `P` is one of the system restricted to `P`. -/
theorem restrict {P : Label → Prop} {h : List Label} {s : State} (hr : Run step s₀ h s)
    (hP : ∀ l ∈ h, P l) : Run (fun s l s' => step s l s' ∧ P l) s₀ h s := by
  induction hr with
  | nil => exact .nil
  | cons _ hs ih =>
    exact .cons (ih fun l hl => hP l (List.mem_cons_of_mem _ hl)) ⟨hs, hP _ (List.mem_cons_self ..)⟩

/-- **The invariant rule.** What holds of the empty history and is kept by every
step of a run holds at the end of every run. -/
theorem invariant {I : List Label → State → Prop} (init : I [] s₀)
    (pres : ∀ h s l s', Run step s₀ h s → I h s → step s l s' → I (l :: h) s')
    {h : List Label} {s : State} (hr : Run step s₀ h s) : I h s := by
  induction hr with
  | nil => exact init
  | cons hr hs ih => exact pres _ _ _ _ hr ih hs

/-- **Forward simulation.** If every step of a run is matched, from related
states, by a run of the other system with the same visible label, then the whole
run is matched by one with the same visible trace. -/
theorem simulate {step' : State' → Label' → State' → Prop}
    {vis : Label → Option Vis} {vis' : Label' → Option Vis}
    {R : List Label → State → State' → Prop} {t₀ : State'} (init : R [] s₀ t₀)
    (match_ : ∀ h s l s' t, Run step s₀ h s → R h s t → step s l s' →
      ∃ k t', Run step' t k t' ∧ k.filterMap vis' = (vis l).toList ∧ R (l :: h) s' t')
    {h : List Label} {s : State} (hr : Run step s₀ h s) :
    ∃ k t, Run step' t₀ k t ∧ k.filterMap vis' = h.filterMap vis ∧ R h s t := by
  induction hr with
  | nil => exact ⟨[], t₀, .nil, rfl, init⟩
  | @cons h s s' l hr hs ih =>
    obtain ⟨k, t, hk, hvis, hR⟩ := ih
    obtain ⟨k', t', hk', hvis', hR'⟩ := match_ h s l s' t hr hR hs
    refine ⟨k' ++ k, t', hk.append hk', ?_, hR'⟩
    rw [List.filterMap_append, hvis, hvis']
    cases hl : vis l with
    | none => rw [List.filterMap_cons_none hl]; rfl
    | some v => rw [List.filterMap_cons_some hl]; rfl

/-- **Projection.** If a function of the state takes every step to a step with the visible
label, or to none, it takes a run to the run with the visible trace. -/
theorem project {step' : State' → Label' → State' → Prop} {f : State → State'}
    {vis : Label → Option Label'}
    (match_ : ∀ s l s', step s l s' →
      (∀ e, vis l = some e → step' (f s) e (f s')) ∧ (vis l = none → f s' = f s))
    {h : List Label} {s : State} (hr : Run step s₀ h s) :
    Run step' (f s₀) (h.filterMap vis) (f s) := by
  induction hr with
  | nil => exact .nil
  | @cons h s s' l hr hs ih =>
    obtain ⟨hsome, hnone⟩ := match_ s l s' hs
    cases hl : vis l with
    | none =>
      rw [List.filterMap_cons_none hl, hnone hl]
      exact ih
    | some e =>
      rw [List.filterMap_cons_some hl]
      exact .cons ih (hsome e hl)

end Run

end LTS
