import RseqRs.Model.Machine

/-!
# What one call does to memory

A call is many attempts, and the last one decides what it returns; but the attempts before
it have run too. These are the properties of a single call of a word op, among everything
else that runs, that the documentation of `store_if` and `load_if_ne` states: what a failed
call has not touched, and how a call changes its word.
-/

namespace RseqRs

/-- An attempt with the accesses `log` has stored to `x`. -/
def Stored (x : Usize) (log : List Acc) : Prop := ∃ v, .store x v ∈ log

/-- An attempt with the accesses `log` has chased the pointer it loaded from `word`. -/
def Chased (word offset : Usize) (log : List Acc) : Prop :=
  ∃ j v x rest, log = .index j :: .load word v :: .load (v + offset) x :: rest

section History

variable {Tid : Type}

/-- The address a step writes. -/
def Label.writes : Label Tid → Option Usize
  | .act _ _ (.exec (.acc a _)) => a.written
  | .write x _ => some x
  | _ => none

variable [DecidableEq Tid] (t : Tid) (d : ℕ)

/-- In the history `g` of a call, the kernel has restarted an attempt whose accesses
satisfied `P`. -/
def CutWhen (P : List Acc → Prop) (g : List (Label Tid)) : Prop :=
  ∃ g₁ l g₂, g = g₂ ++ l :: g₁ ∧ l.event t d = true ∧ P (attempt t d g₁)

/-- In the history `g` of a call, what the call has written to `x` it has written in its
commit. -/
def WritesInCommit (x : Usize) (g : List (Label Tid)) : Prop :=
  ∀ l ∈ g, l.own t d = true → l.writes = some x → l.commits t d = true

/-- In the history `g` of a call, an instruction has read the address `v + offset`, where
`v` is what its attempt had loaded from `word`. -/
def Derefs (word offset : Usize) (g : List (Label Tid)) : Prop :=
  ∃ g₁ g₂ v x last, g = g₂ ++ .act t d (.exec (.acc (.load (v + offset) x) last)) :: g₁ ∧
    .load word v ∈ attempt t d g₁

end History

namespace Machine

variable {Tid : Type} [DecidableEq Tid] (M : Machine Tid)

/-- In the reachable state `s₁` the context of `t` at depth `d` has called `c`; since then
the process has made the steps `g`, each allowed by `D`, and no other call there. -/
structure During (D : Sys Tid M.img.Site → Label Tid → Prop) (t : Tid) (d : ℕ) (c : Call)
    (s₁ : Sys Tid M.img.Site) (g : List (Label Tid)) (s₂ : Sys Tid M.img.Site) : Prop where
  reachable : ∃ s₀ h, M.Initial s₀ ∧ LTS.Run M.Step s₀ h s₁
  run : LTS.Run (fun s l s' => M.Step s l s' ∧ D s l) s₁ (g ++ [.act t d (.call c)]) s₂
  once : ∀ c', .act t d (.call c') ∉ g

/-- The call has returned `Err(e)`. -/
def Fails (t : Tid) (d : ℕ) (c : Call) (e : Error) (s₁ : Sys Tid M.img.Site)
    (g : List (Label Tid)) (s₂ : Sys Tid M.img.Site) : Prop :=
  M.During (fun _ _ => True) t d c s₁ (.act t d (.ret c (.error e)) :: g) s₂

/-- **`side` is untouched** by a failed call, if nobody else writes it and it is not the
word of the call. -/
def KeepsSide (c : Call) : Prop :=
  ∀ t d e s₁ g s₂ x, M.Fails t d c e s₁ g s₂ → c.sideAddr = some x → x ≠ c.op.word.word →
    (∀ l ∈ g, l.writes = some x → l.own t d = true) → s₂.mem x = s₁.mem x

/-- **Nothing is dereferenced** by a failed `load_if_ne`. -/
def DerefsNothing {K : Index} (w : Word K) (expectNot offset : Usize) : Prop :=
  ∀ t d e s₁ g s₂, M.Fails t d ⟨K, .loadIfNe w expectNot offset⟩ e s₁ g s₂ →
    ¬ Derefs t d w.word offset g

/-- While the context of `t` at depth `d` runs, nobody else writes `x`. -/
def Quiet (t : Tid) (d : ℕ) (x : Usize) (s : Sys Tid M.img.Site) (l : Label Tid) : Prop :=
  l.writes = some x → l.own t d = true ∨ ¬ ((s.thr t).running = true ∧ (s.thr t).depth = d)

/-- **`store_if` changes its word only by its commit**, one step from `expect` to `new`, and
not at all if it fails. -/
def CommitsWord {K : Index} (w : Word K) (expect new : Usize) (side : Word K)
    (sideNew : Usize) : Prop :=
  ∀ t d s₁ g s₂, M.During (M.Quiet t d w.word) t d ⟨K, .storeIf w expect new side sideNew⟩
      s₁ g s₂ →
    (∀ a last s₃, M.Step s₂ (.act t d (.exec (.acc a last))) s₃ → a.written = some w.word →
      last = true ∧ s₂.mem w.word = expect ∧ s₃.mem = Function.update s₂.mem w.word new) ∧
    (g.countP fun l => l.own t d && decide (l.writes = some w.word)) ≤ 1 ∧
    ∀ e, .act t d (.ret ⟨K, .storeIf w expect new side sideNew⟩ (.error e)) ∈ g →
      ∀ l ∈ g, l.own t d = true → l.writes ≠ some w.word

end Machine

end RseqRs
