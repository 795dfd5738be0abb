import Mathlib.Data.List.Induction
import Mathlib.Logic.Function.Basic

/-!
# Restartable critical sections

A restartable section reads an index, reads and writes memory, and ends with one
committing access or with a failure; the system may throw the attempt away and
start again at any point before the commit. `CritSec` is the tree of what one
attempt does, by what its reads return.

* `Path t log u` — an attempt of `t` whose accesses so far are `log` is left with
  the tree `u`.
* `CritSec.atomic` — the attempt run in one go on a memory nobody else touches.
* `Path.atomic_eq` — the reason a section is atomic: as long as the accesses an
  attempt made are still *consistent* with the memory, what is left of it does to
  the memory what the whole section would do, run now in one go.
-/

/-- One attempt of a restartable section over indices `ι`, machine words `α`
(addresses and values alike) and failures `ε`. -/
inductive CritSec (ι : Type) (α : Type) (ε : Type) where
  /-- Give up with `e`; nothing is committed. -/
  | fail (e : ε)
  /-- Read the index the section is confirmed by. -/
  | index (k : ι → CritSec ι α ε)
  /-- Read the word at `a`. -/
  | load (a : α) (k : α → CritSec ι α ε)
  /-- Write `v` at `a` without committing. -/
  | scratch (a v : α) (k : CritSec ι α ε)
  /-- The commit: write `v` at `a` and return `r`. -/
  | commit (a v r : α)

/-- One access of an attempt, with what it read. -/
inductive Access (ι : Type) (α : Type) where
  | index (i : ι)
  | load (a v : α)
  | store (a v : α)
deriving DecidableEq, Repr

namespace Access

variable {ι α : Type}

/-- The address an access writes. -/
def written : Access ι α → Option α
  | .store a _ => some a
  | .index _ | .load _ _ => none

/-- The memory address an access touches. -/
def touched : Access ι α → Option α
  | .store a _ | .load a _ => some a
  | .index _ => none

theorem touched_of_written {a : Access ι α} {x : α} (h : a.written = some x) :
    a.touched = some x := by
  cases a with
  | index i => cases h
  | load b v => cases h
  | store b v => exact h

/-- The memory after an access. -/
def apply [DecidableEq α] (m : α → α) : Access ι α → α → α
  | .index _ | .load _ _ => m
  | .store a v => Function.update m a v

/-- What an access read is what index `i` and memory `m` hold. -/
def Reads (i : ι) (m : α → α) : Access ι α → Prop
  | .index j => j = i
  | .load a v => m a = v
  | .store _ _ => True

end Access

namespace CritSec

variable {ι α ε : Type}

/-- `Next t acc u`: the attempt `t` makes the access `acc`, short of the commit,
and goes on as `u`. -/
inductive Next : CritSec ι α ε → Access ι α → CritSec ι α ε → Prop
  | index (k : ι → CritSec ι α ε) (i : ι) : Next (.index k) (.index i) (k i)
  | load (a : α) (k : α → CritSec ι α ε) (v : α) : Next (.load a k) (.load a v) (k v)
  | scratch (a v : α) (k : CritSec ι α ε) : Next (.scratch a v k) (.store a v) k

/-- `Commits t acc r`: `acc` is the committing access of `t`, and `t` returns `r`. -/
inductive Commits : CritSec ι α ε → Access ι α → α → Prop
  | store (a v r : α) : Commits (.commit a v r) (.store a v) r

/-- `Path t log u`: an attempt of `t` that made the accesses `log`, oldest first,
is left with `u`. -/
inductive Path (t : CritSec ι α ε) : List (Access ι α) → CritSec ι α ε → Prop
  | nil : Path t [] t
  | snoc {log : List (Access ι α)} {u u' : CritSec ι α ε} {acc : Access ι α} :
      Path t log u → Next u acc u' → Path t (log ++ [acc]) u'

/-- An attempt of `t` with the accesses `log` has the outcome `r`: it ran to a
failure, or `log` ends with its commit. -/
inductive Ends (t : CritSec ι α ε) : List (Access ι α) → Except ε α → Prop
  | fail {log : List (Access ι α)} {e : ε} : Path t log (.fail e) → Ends t log (.error e)
  | commit {log : List (Access ι α)} {u : CritSec ι α ε} {acc : Access ι α} {r : α} :
      Path t log u → Commits u acc r → Ends t (log ++ [acc]) (.ok r)

/-- The section `t` entered only if the index read is `i`, failing with `e`
otherwise. -/
def confirm [DecidableEq ι] (i : ι) (e : ε) (t : CritSec ι α ε) : CritSec ι α ε :=
  .index fun j => if j = i then t else .fail e

/-- `t` reads no index. -/
inductive IndexFree : CritSec ι α ε → Prop
  | fail (e : ε) : IndexFree (.fail e)
  | load {a : α} {k : α → CritSec ι α ε} : (∀ v, IndexFree (k v)) → IndexFree (.load a k)
  | scratch {a v : α} {k : CritSec ι α ε} : IndexFree k → IndexFree (.scratch a v k)
  | commit (a v r : α) : IndexFree (.commit a v r)

/-! ### Accesses of an attempt -/

/-- What an index-free attempt is left with is index free. -/
theorem IndexFree.next {t u : CritSec ι α ε} {acc : Access ι α} (ht : IndexFree t)
    (h : Next t acc u) : IndexFree u := by
  cases h with
  | index k i => cases ht
  | load a k v => cases ht with | load hk => exact hk v
  | scratch a v k => cases ht with | scratch hk => exact hk

/-- **The shape of a confirmed attempt.** It has read nothing; or it read a
foreign index and is left with the failure; or it read `i` first, and goes on
inside `t` with no further index read. -/
theorem Path.confirm_cases [DecidableEq ι] {i : ι} {e : ε} {t u : CritSec ι α ε}
    (ht : IndexFree t) {log : List (Access ι α)} (h : Path (confirm i e t) log u) :
    (log = [] ∧ u = confirm i e t) ∨
    (∃ j, j ≠ i ∧ log = [.index j] ∧ u = .fail e) ∨
    (∃ log', log = .index i :: log' ∧ Path t log' u ∧ IndexFree u) := by
  induction h with
  | nil => exact Or.inl ⟨rfl, rfl⟩
  | @snoc log u u' acc hp hn ih =>
    rcases ih with ⟨rfl, rfl⟩ | ⟨j, _, rfl, rfl⟩ | ⟨log', rfl, hp', hu⟩
    · -- the first access is the index read
      cases hn with
      | index k j =>
        by_cases hj : j = i
        · subst hj
          refine Or.inr (Or.inr ⟨[], rfl, ?_, ?_⟩)
          · show Path t [] (if j = j then t else .fail e)
            rw [if_pos rfl]
            exact .nil
          · show IndexFree (if j = j then t else .fail e)
            rwa [if_pos rfl]
        · exact Or.inr (Or.inl ⟨j, hj, rfl, if_neg hj⟩)
    · -- a failure makes no access
      cases hn
    · exact Or.inr (Or.inr ⟨log' ++ [acc], rfl, hp'.snoc hn, hu.next hn⟩)

/-- `Scratches t a v`: an attempt of `t` may write `v` at `a` without committing. -/
inductive Scratches : CritSec ι α ε → α → α → Prop
  | here (a v : α) (k : CritSec ι α ε) : Scratches (.scratch a v k) a v
  | index {k : ι → CritSec ι α ε} {i : ι} {a v : α} : Scratches (k i) a v →
      Scratches (.index k) a v
  | load {b w : α} {k : α → CritSec ι α ε} {a v : α} : Scratches (k w) a v →
      Scratches (.load b k) a v
  | scratch {b w a v : α} {k : CritSec ι α ε} : Scratches k a v →
      Scratches (.scratch b w k) a v

namespace Scratches

variable {a v b w r : α}

theorem of_index {k : ι → CritSec ι α ε} (h : Scratches (.index k) a v) :
    ∃ i, Scratches (k i) a v := by
  cases h with
  | index h => exact ⟨_, h⟩

theorem of_load {k : α → CritSec ι α ε} (h : Scratches (.load b k) a v) :
    ∃ x, Scratches (k x) a v := by
  cases h with
  | load h => exact ⟨_, h⟩

theorem of_scratch {k : CritSec ι α ε} (h : Scratches (.scratch b w k) a v) :
    (a = b ∧ v = w) ∨ Scratches k a v := by
  cases h with
  | here => exact Or.inl ⟨rfl, rfl⟩
  | scratch h => exact Or.inr h

theorem not_fail {e : ε} : ¬ Scratches (.fail e : CritSec ι α ε) a v := nofun

theorem not_commit : ¬ Scratches (.commit b w r : CritSec ι α ε) a v := nofun

end Scratches

/-- A store short of the commit is one of these, and so of the whole section. -/
theorem Path.scratches {t u u' : CritSec ι α ε} {log : List (Access ι α)} {a v : α}
    (hp : Path t log u) (hn : Next u (.store a v) u') : Scratches t a v := by
  have hu : Scratches u a v := by
    cases hn with
    | scratch => exact .here _ _ _
  clear hn
  induction hp with
  | nil => exact hu
  | snoc _ hn ih =>
    refine ih ?_
    cases hn with
    | index k i => exact .index hu
    | load b k w => exact .load hu
    | scratch b w k => exact .scratch hu

/-- What an attempt has written before its commit, it has scratched. -/
theorem Path.written {t u : CritSec ι α ε} {log : List (Access ι α)} {acc : Access ι α}
    (hp : Path t log u) (ha : acc ∈ log) :
    acc.written = none ∨ ∃ a v, acc = .store a v ∧ Scratches t a v := by
  induction hp with
  | nil => cases ha
  | @snoc log u u' acc' hp hn ih =>
    rcases List.mem_append.mp ha with ha | ha
    · exact ih ha
    · obtain rfl := List.mem_singleton.mp ha
      cases hn with
      | index k i => exact Or.inl rfl
      | load a k v => exact Or.inl rfl
      | scratch a v k => exact Or.inr ⟨a, v, rfl, hp.scratches (.scratch a v _)⟩

/-- An attempt of an index-free section reads no index. -/
theorem IndexFree.not_mem {t u : CritSec ι α ε} {log : List (Access ι α)} {i : ι}
    (ht : IndexFree t) (hp : Path t log u) : Access.index i ∉ log ∧ IndexFree u := by
  induction hp with
  | nil => exact ⟨List.not_mem_nil, ht⟩
  | @snoc log u u' acc hp hn ih =>
    obtain ⟨hmem, hu⟩ := ih
    refine ⟨fun h => ?_, hu.next hn⟩
    rcases List.mem_append.mp h with h | h
    · exact hmem h
    · obtain rfl := List.mem_singleton.mp h
      cases hn
      cases hu

/-! ### Reading an outcome back -/

/-- The first access of an attempt. -/
theorem Path.head {t u : CritSec ι α ε} {log : List (Access ι α)} (h : Path t log u) :
    (log = [] ∧ u = t) ∨ ∃ a t' log', Next t a t' ∧ log = a :: log' ∧ Path t' log' u := by
  induction h with
  | nil => exact Or.inl ⟨rfl, rfl⟩
  | @snoc log u u' acc hp hn ih =>
    rcases ih with ⟨rfl, rfl⟩ | ⟨a, t', log', hn', rfl, hp'⟩
    · exact Or.inr ⟨acc, u', [], hn, rfl, .nil⟩
    · exact Or.inr ⟨a, t', log' ++ [acc], hn', rfl, hp'.snoc hn⟩

/-- The first access of an attempt with an outcome. -/
theorem Ends.head {t : CritSec ι α ε} {log : List (Access ι α)} {res : Except ε α}
    (h : Ends t log res) :
    (∃ e, t = .fail e ∧ log = [] ∧ res = .error e) ∨
    (∃ a r, Commits t a r ∧ log = [a] ∧ res = .ok r) ∨
    (∃ a t' log', Next t a t' ∧ log = a :: log' ∧ Ends t' log' res) := by
  cases h with
  | @fail log e hp =>
    rcases hp.head with ⟨rfl, rfl⟩ | ⟨a, t', log', hn, rfl, hp'⟩
    · exact Or.inl ⟨e, rfl, rfl, rfl⟩
    · exact Or.inr (Or.inr ⟨a, t', log', hn, rfl, .fail hp'⟩)
  | @commit log u acc r hp hc =>
    rcases hp.head with ⟨rfl, rfl⟩ | ⟨a, t', log', hn, rfl, hp'⟩
    · exact Or.inr (Or.inl ⟨acc, r, hc, rfl, rfl⟩)
    · exact Or.inr (Or.inr ⟨a, t', log' ++ [acc], hn, rfl, .commit hp' hc⟩)

/-- An attempt of what an access leaves, with that access in front. -/
theorem Path.cons {t t' u : CritSec ι α ε} {a : Access ι α} {log : List (Access ι α)}
    (hn : Next t a t') (hp : Path t' log u) : Path t (a :: log) u := by
  induction hp with
  | nil => exact Path.nil.snoc hn
  | snoc _ hn' ih => exact ih.snoc hn'

theorem Ends.cons {t t' : CritSec ι α ε} {a : Access ι α} {log : List (Access ι α)}
    {res : Except ε α} (hn : Next t a t') (he : Ends t' log res) : Ends t (a :: log) res := by
  cases he with
  | fail hp => exact .fail (.cons hn hp)
  | commit hp hc => exact .commit (.cons hn hp) hc

section Outcome

variable {log : List (Access ι α)} {res : Except ε α} {a v r : α}

theorem Ends.of_fail {e : ε} (h : Ends (.fail e : CritSec ι α ε) log res) :
    log = [] ∧ res = .error e := by
  rcases h.head with ⟨e', he, hl, hr⟩ | ⟨_, _, hc, _⟩ | ⟨_, _, _, hn, _⟩
  · cases he; exact ⟨hl, hr⟩
  · cases hc
  · cases hn

theorem Ends.of_index {k : ι → CritSec ι α ε} (h : Ends (.index k) log res) :
    ∃ i log', log = .index i :: log' ∧ Ends (k i) log' res := by
  rcases h.head with ⟨_, he, _⟩ | ⟨_, _, hc, _⟩ | ⟨_, _, log', hn, rfl, h'⟩
  · cases he
  · cases hc
  · cases hn; exact ⟨_, log', rfl, h'⟩

theorem Ends.of_load {k : α → CritSec ι α ε} (h : Ends (.load a k) log res) :
    ∃ x log', log = .load a x :: log' ∧ Ends (k x) log' res := by
  rcases h.head with ⟨_, he, _⟩ | ⟨_, _, hc, _⟩ | ⟨_, _, log', hn, rfl, h'⟩
  · cases he
  · cases hc
  · cases hn; exact ⟨_, log', rfl, h'⟩

theorem Ends.of_scratch {k : CritSec ι α ε} (h : Ends (.scratch a v k) log res) :
    ∃ log', log = .store a v :: log' ∧ Ends k log' res := by
  rcases h.head with ⟨_, he, _⟩ | ⟨_, _, hc, _⟩ | ⟨_, _, log', hn, rfl, h'⟩
  · cases he
  · cases hc
  · cases hn; exact ⟨log', rfl, h'⟩

theorem Ends.of_commit (h : Ends (.commit a v r : CritSec ι α ε) log res) :
    log = [.store a v] ∧ res = .ok r := by
  rcases h.head with ⟨_, he, _⟩ | ⟨_, _, hc, rfl, rfl⟩ | ⟨_, _, _, hn, _⟩
  · cases he
  · cases hc; exact ⟨rfl, rfl⟩
  · cases hn

end Outcome

/-! ### Running an attempt in one go -/

section Atomic

variable [DecidableEq α]

/-- The attempt run in one go at index `i` on memory `m`: its outcome and the
memory it leaves. -/
def atomic (i : ι) : CritSec ι α ε → (α → α) → Except ε α × (α → α)
  | .fail e, m => (.error e, m)
  | .index k, m => (k i).atomic i m
  | .load a k, m => (k (m a)).atomic i m
  | .scratch a v k, m => k.atomic i (Function.update m a v)
  | .commit a v r, m => (.ok r, Function.update m a v)

/-- `Consistent i m log m'`: from memory `m`, with index `i`, the accesses `log`
read what is there, and leave `m'`. -/
inductive Consistent (i : ι) (m : α → α) : List (Access ι α) → (α → α) → Prop
  | nil : Consistent i m [] m
  | snoc {log : List (Access ι α)} {m' : α → α} {acc : Access ι α} :
      Consistent i m log m' → acc.Reads i m' → Consistent i m (log ++ [acc]) (acc.apply m')

/-- Accesses that only read leave the memory. -/
theorem Consistent.of_reads {i : ι} {m : α → α} {log : List (Access ι α)}
    (h : ∀ a ∈ log, a.written = none ∧ a.Reads i m) : Consistent i m log m := by
  induction log using List.reverseRecOn with
  | nil => exact .nil
  | append_singleton log a ih =>
    obtain ⟨hw, hr⟩ := h a (List.mem_append_right _ (List.mem_singleton_self a))
    have hc := (ih fun b hb => h b (List.mem_append_left _ hb)).snoc hr
    have hsame : a.apply m = m := by
      cases a with
      | index j => rfl
      | load b v => rfl
      | store b v => cases hw
    rwa [hsame] at hc

/-- A consistent access is a step of the run in one go. -/
theorem Next.atomic_eq {i : ι} {m : α → α} {t u : CritSec ι α ε} {acc : Access ι α}
    (h : Next t acc u) (hr : acc.Reads i m) : t.atomic i m = u.atomic i (acc.apply m) := by
  cases h with
  | index k j => obtain rfl : j = i := hr; rfl
  | load a k v => obtain rfl : m a = v := hr; rfl
  | scratch a v k => rfl

/-- **Why a section is atomic.** If the accesses made so far are consistent with
the memory, the rest of the attempt has the outcome and the effect of the whole
section run in one go. -/
theorem Path.atomic_eq {i : ι} {m m' : α → α} {t u : CritSec ι α ε}
    {log : List (Access ι α)} (h : Path t log u) (hc : Consistent i m log m') :
    t.atomic i m = u.atomic i m' := by
  induction h generalizing m' with
  | nil =>
    generalize hl : ([] : List (Access ι α)) = l at hc
    cases hc with
    | nil => rfl
    | snoc _ _ => simp at hl
  | @snoc log u u' acc hp hn ih =>
    generalize hl : log ++ [acc] = l at hc
    cases hc with
    | nil => simp at hl
    | snoc hc' hr =>
      obtain ⟨rfl, hacc⟩ := List.append_inj' hl rfl
      obtain rfl : acc = _ := List.singleton_inj.mp hacc
      rw [ih hc', hn.atomic_eq hr]

/-- A consistent commit ends the run in one go. -/
theorem Commits.atomic_eq {i : ι} {m : α → α} {t : CritSec ι α ε} {acc : Access ι α} {r : α}
    (h : Commits t acc r) : t.atomic i m = (.ok r, acc.apply m) := by
  cases h with
  | store => rfl

end Atomic

end CritSec
