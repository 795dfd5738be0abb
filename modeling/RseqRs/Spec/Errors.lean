import RseqRs.Spec.Calls

/-!
# What an error says

A call that fails returns a bare `Abort` or `Miss`, and by then memory and the index of the
thread may be others. What the error is about is the last attempt of the call: which accesses
it made, and that each of them read what was there at that instant. And an abort says that the
thread has been moved since the caller read its index, if the caller read it right.
-/

namespace RseqRs

/-- **What the last attempt has seen** of a call that returns the error: its accesses, oldest
first. The adds compare nothing, so they never miss. -/
def Op.Sees {K : Index} (op : Op K) : Error → List Acc → Prop
  | .abort, log => ∃ j, j ≠ K.get op.word.key ∧ log = [.index j]
  | .miss v, log =>
    match op with
    | .compareExchange w expect _ => v ≠ expect ∧ log = [.index (K.get w.key), .load w.word v]
    | .compareExchangeIf w expect _ o otherExpect =>
      v ≠ expect ∧ log = [.index (K.get w.key), .load w.word v] ∨
        v ≠ otherExpect ∧
          log = [.index (K.get w.key), .load w.word expect, .load o.word v]
    | .fetchAdd _ _ | .fetchAddAt _ _ _ => False
    | .loadIfNe w expectNot _ =>
      v = expectNot ∧ log = [.index (K.get w.key), .load w.word v]
    | .storeIf w expect _ _ _ => v ≠ expect ∧ log = [.index (K.get w.key), .load w.word v]

namespace Machine

variable {Tid : Type} [DecidableEq Tid] (M : Machine Tid)

/-- Each of the accesses `log` was made in the history `g` of a call, in a state that held what
it read, and while the index of the thread was the one the attempt read. -/
def Saw (t : Tid) (d : ℕ) (c : Call) (s₁ : Sys Tid M.img.Site) (g : List (Label Tid))
    (log : List Acc) : Prop :=
  ∀ a ∈ log, ∃ g₂ last g₁ s, g = g₂ ++ .act t d (.exec (.acc a last)) :: g₁ ∧
    LTS.Run M.Step s₁ (g₁ ++ [.act t d (.call c)]) s ∧
    a.Reads ((s.thr t).area.index c.K) s.mem ∧
    ∀ j, .index j ∈ log → (s.thr t).area.index c.K = j

/-- **Errors are explained**: a call is refused, without an instruction, or its last attempt
has seen what the error says. -/
def ErrorsExplained : Prop :=
  ∀ t d c e s₁ g s₂, M.Fails t d c e s₁ g s₂ →
    (c.op.keysAgree = false → e = .abort ∧ ∀ o, .act t d (.exec o) ∉ g) ∧
    (c.op.keysAgree = true →
      c.op.Sees e (attempt t d g) ∧ M.Saw t d c s₁ g (attempt t d g))

/-- **An abort means that the thread was moved**, in a context of it or in a handler on top: to
an index that is not the key, if it was the key when the call was made. -/
def AbortsMoved : Prop :=
  ∀ t d c s₁ g s₂, M.Fails t d c .abort s₁ g s₂ → c.op.keysAgree = true →
    (s₁.thr t).area.index c.K = c.key →
    ∃ e cpu cid, .act t e (.resume cpu cid) ∈ g ∧ Area.index ⟨cpu, 0, cid⟩ c.K ≠ c.key

end Machine

end RseqRs
