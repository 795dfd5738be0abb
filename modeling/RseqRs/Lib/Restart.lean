import RseqRs.Lib.CritSec
import RseqRs.Lib.Run

/-!
# One execution of a restartable section

A section runs, and at any time the environment may step in: it sees the memory, leaves
another one and another index, and an attempt that is inside its section then starts
again. What is seen from outside is the sequence of these events and, at the end, the
memory and the outcome.

A section that writes nothing before its commit can be executed so that no event finds it
inside: it waits at its start while another execution reads, and runs once that one has
decided. `Exec.postpone` says that nobody can tell the two apart.
-/

namespace CritSec

/-- How far an execution is. -/
inductive Phase (ι α ε : Type) where
  /-- about to enter the section -/
  | out
  | inside (u : CritSec ι α ε)
  /-- past the section, with the outcome `r` -/
  | done (r : Except ε α)

/-- An attempt inside the section is thrown away. -/
def Phase.restart {ι α ε : Type} : Phase ι α ε → Phase ι α ε
  | .inside _ => .out
  | p => p

/-- The execution has not entered the section, or has left it. -/
def Phase.Outside {ι α ε : Type} : Phase ι α ε → Prop
  | .inside _ => False
  | _ => True

/-- An execution, between two steps. -/
structure Exec (ι α ε : Type) where
  mem : α → α
  index : ι
  phase : Phase ι α ε

/-- The environment steps in: it sees the memory `seen` and leaves `found`. -/
structure Event (E α : Type) where
  seen : α → α
  env : E
  found : α → α

section Steps

variable {ι α ε E : Type} [DecidableEq α]

/-- One step of an execution of `t`; `idx` is the index that the environment leaves. -/
inductive Exec.Step (t : CritSec ι α ε) (idx : E → ι) :
    Exec ι α ε → Option (Event E α) → Exec ι α ε → Prop
  | enter {m : α → α} {i : ι} : Step t idx ⟨m, i, .out⟩ none ⟨m, i, .inside t⟩
  | access {m : α → α} {i : ι} {u u' : CritSec ι α ε} {a : Access ι α} : Next u a u' →
      a.Reads i m → Step t idx ⟨m, i, .inside u⟩ none ⟨a.apply m, i, .inside u'⟩
  | fail {m : α → α} {i : ι} {e : ε} :
      Step t idx ⟨m, i, .inside (.fail e)⟩ none ⟨m, i, .done (.error e)⟩
  | commit {m : α → α} {i : ι} {u : CritSec ι α ε} {a : Access ι α} {r : α} : Commits u a r →
      Step t idx ⟨m, i, .inside u⟩ none ⟨a.apply m, i, .done (.ok r)⟩
  | event {x : Exec ι α ε} (e : E) (m : α → α) :
      Step t idx x (some ⟨x.mem, e, m⟩) ⟨m, idx e, x.phase.restart⟩

/-- An execution of `t` leads from `x` to `y`, with the events `τ`, newest first. Each event
finds it in a phase that satisfies `P`. -/
def Exec.Runs (t : CritSec ι α ε) (idx : E → ι) (P : Phase ι α ε → Prop) (x : Exec ι α ε)
    (τ : List (Event E α)) (y : Exec ι α ε) : Prop :=
  ∃ h, LTS.Run (fun x l y => Exec.Step t idx x l y ∧ (l ≠ none → P x.phase)) x h y ∧
    h.filterMap id = τ

namespace Exec

variable {t u : CritSec ι α ε} {idx : E → ι} {P : Phase ι α ε → Prop} {x y z : Exec ι α ε}
  {τ τ' : List (Event E α)} {m : α → α} {i : ι}

theorem Runs.refl : Runs t idx P x [] x := ⟨[], .nil, rfl⟩

theorem Runs.silent (h : Step t idx x none y) : Runs t idx P x [] y :=
  ⟨[none], .single ⟨h, fun hne => absurd rfl hne⟩, rfl⟩

theorem Runs.event (e : E) (m : α → α) (hP : P x.phase) :
    Runs t idx P x [⟨x.mem, e, m⟩] ⟨m, idx e, x.phase.restart⟩ :=
  ⟨[some ⟨x.mem, e, m⟩], .single ⟨.event e m, fun _ => hP⟩, rfl⟩

theorem Runs.trans (h : Runs t idx P x τ y) (h' : Runs t idx P y τ' z) :
    Runs t idx P x (τ' ++ τ) z := by
  obtain ⟨k, hk, rfl⟩ := h
  obtain ⟨k', hk', rfl⟩ := h'
  exact ⟨k' ++ k, hk.append hk', List.filterMap_append ..⟩

/-- What is left of an attempt runs in one go when the environment stays away. -/
theorem runs_atomic (u : CritSec ι α ε) (m : α → α) :
    Runs t idx P ⟨m, i, .inside u⟩ [] ⟨(u.atomic i m).2, i, .done (u.atomic i m).1⟩ := by
  induction u generalizing m with
  | fail e => exact .silent .fail
  | index k ih => exact Runs.trans (.silent (.access (.index k i) rfl)) (ih i m)
  | load a k ih => exact Runs.trans (.silent (.access (.load a k (m a)) rfl)) (ih (m a) m)
  | scratch a v k ih => exact Runs.trans (.silent (.access (.scratch a v k) trivial)) (ih _)
  | commit a v r => exact .silent (.commit (.store a v r))

/-- The whole section does. -/
theorem runs_enter : Runs t idx P ⟨m, i, .out⟩ []
    ⟨(t.atomic i m).2, i, .done (t.atomic i m).1⟩ :=
  Runs.trans (.silent .enter) (runs_atomic t m)

/-- The execution `y` that keeps up with the execution `x`: it has decided when `x` has, and
waits at its start while `x` has only read. -/
def Awaits (t : CritSec ι α ε) (x y : Exec ι α ε) : Prop :=
  y.mem = x.mem ∧ y.index = x.index ∧
    match x.phase with
    | .out => y.phase = .out
    | .inside u => y.phase = .out ∧ ∃ log, Path t log u ∧
        Consistent x.index x.mem log x.mem
    | .done r => y.phase = .done r

/-- It is never inside the section. -/
theorem Awaits.outside (ha : Awaits t x y) : y.phase.Outside := by
  obtain ⟨_, _, hp⟩ := ha
  cases hx : x.phase with
  | out => rw [hx] at hp; rw [show y.phase = .out from hp]; trivial
  | inside u => rw [hx] at hp; rw [hp.1]; trivial
  | done r => rw [hx] at hp; rw [show y.phase = .done r from hp]; trivial

/-- Whatever an attempt does that writes nothing leaves the memory it started from. -/
theorem Awaits.step {l : Option (Event E α)} (hs : ∀ a v, ¬ Scratches t a v)
    (ha : Awaits t x y) (h : Step t idx x l z) :
    ∃ y', Runs t idx Phase.Outside y l.toList y' ∧ Awaits t z y' := by
  have hout := ha.outside
  obtain ⟨m, i, p⟩ := y
  -- the memory and the index are those of `x`
  obtain ⟨rfl, rfl, hp⟩ := ha
  cases h with
  | enter =>
    obtain rfl : p = .out := hp
    exact ⟨_, .refl, rfl, rfl, rfl, [], .nil, .nil⟩
  | @access m i u u' a hn hr =>
    obtain ⟨rfl, log, hpath, hc⟩ := hp
    have hsame : a.apply m = m := by
      cases hn with
      | index k j => rfl
      | load b k v => rfl
      | scratch b v k => exact absurd (hpath.scratches (.scratch b v _)) (hs b v)
    have hc' := hc.snoc hr
    rw [hsame] at hc' ⊢
    exact ⟨_, .refl, rfl, rfl, rfl, _, hpath.snoc hn, hc'⟩
  | @fail m i e =>
    obtain ⟨rfl, log, hpath, hc⟩ := hp
    have he : t.atomic i m = (.error e, m) := by rw [hpath.atomic_eq hc]; rfl
    have hrun : Runs t idx Phase.Outside ⟨m, i, .out⟩ [] _ := runs_enter
    rw [he] at hrun
    exact ⟨_, hrun, rfl, rfl, rfl⟩
  | @commit m i u a r hcom =>
    obtain ⟨rfl, log, hpath, hc⟩ := hp
    have he : t.atomic i m = (.ok r, a.apply m) := by rw [hpath.atomic_eq hc, hcom.atomic_eq]
    have hrun : Runs t idx Phase.Outside ⟨m, i, .out⟩ [] _ := runs_enter
    rw [he] at hrun
    exact ⟨_, hrun, rfl, rfl, rfl⟩
  | event e m' =>
    refine ⟨_, .event e m' hout, rfl, rfl, ?_⟩
    cases hx : x.phase with
    | out => rw [hx] at hp; obtain rfl : p = .out := hp; rfl
    | inside u => rw [hx] at hp; obtain ⟨rfl, _⟩ := hp; rfl
    | done r => rw [hx] at hp; obtain rfl : p = .done r := hp; rfl

/-- **An attempt can be postponed.** If `t` writes nothing before it commits, then every
execution of `t` has one with the same events that no event finds inside the section: it is
in the same memory, and has the same outcome if the first has one. -/
theorem postpone (hs : ∀ a v, ¬ Scratches t a v) (h : Runs t idx P ⟨m, i, .out⟩ τ y) :
    ∃ y', Runs t idx Phase.Outside ⟨m, i, .out⟩ τ y' ∧ y'.mem = y.mem ∧
      ∀ r, y.phase = .done r → y'.phase = .done r := by
  obtain ⟨k, hk, rfl⟩ := h
  have hrun : ∃ y', Runs t idx Phase.Outside ⟨m, i, .out⟩ (k.filterMap id) y' ∧
      Awaits t y y' := by
    induction hk with
    | nil => exact ⟨_, .refl, rfl, rfl, rfl⟩
    | @cons k y₁ y₂ l _ hstep ih =>
      obtain ⟨y', hr, ha⟩ := ih
      obtain ⟨y'', hr', ha'⟩ := ha.step hs hstep.1
      refine ⟨y'', ?_, ha'⟩
      have hτ : (l :: k).filterMap id = l.toList ++ k.filterMap id := by cases l <;> rfl
      rw [hτ]
      exact hr.trans hr'
  obtain ⟨y', hr, hmem, _, hph⟩ := hrun
  refine ⟨y', hr, hmem, fun r hd => ?_⟩
  rw [hd] at hph
  exact hph

end Exec

end Steps

end CritSec
