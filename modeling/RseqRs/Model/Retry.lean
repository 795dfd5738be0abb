import RseqRs.Model.FreeList
import RseqRs.Model.Program

/-!
# Retry loops (`src/lib.rs`, `benches/counter.rs`, `benches/cached.rs`)

An op makes one attempt, and `Abort` is left to the caller: read the index again and pick a new
word. Every caller of the crate does so in the same loop. It reads `cpu_id` or `cid`, gets the
word of that index, calls the op, and starts over after an `Abort`; where there is no word it
starts over too. What it does with any other result is not its concern.
-/

namespace RseqRs

/-- `Thread::cpu_id` or `Thread::cid`, by the kind of the key. -/
def Area.key (a : Area) : (K : Index) → Option K.Key
  | .cpuId => CpuId.new a.cpuId
  | .cid => some (Cid.mk a.mmCid)

theorem Area.get_key {a : Area} {K : Index} {key : K.Key} (h : a.key K = some key) :
    a.index K = K.get key := by
  cases K with
  | cpuId =>
    have hnew : CpuId.new a.cpuId = some key := h
    unfold CpuId.new at hnew
    split at hnew
    · cases hnew
    · cases hnew
      rfl
  | cid =>
    cases h
    rfl

/-- What a loop does with the key it has read: the op it calls, if there is a word for it. -/
structure Loop (K : Index) where
  pick : K.Key → Option (Op K)
  /-- the word is that of the key -/
  key_eq : ∀ key op, pick key = some op → op.word.key = key
  /-- and so is a second word -/
  keysAgree : ∀ key op, pick key = some op → op.keysAgree = true

/-- A loop over the word of the key in a region. -/
def Loop.over {K : Index} (ws : Words) (op : Word K → Op K) (hword : ∀ w, (op w).word = w)
    (hkeys : ∀ w, (op w).keysAgree = true) : Loop K where
  pick key := (ws.get key).map op
  key_eq key _ h := by
    obtain ⟨w, hw, rfl⟩ := Option.map_eq_some_iff.mp h
    rw [hword, Words.get_key hw]
  keysAgree _ _ h := by
    obtain ⟨w, _, rfl⟩ := Option.map_eq_some_iff.mp h
    exact hkeys w

/-- `add` of `benches/counter.rs`. -/
def Loop.add (ws : Words) (count : Usize) : Loop .cpuId :=
  .over ws (.fetchAdd · count) (fun _ => rfl) fun _ => rfl

/-- `cas` of `benches/cached.rs`. -/
def Loop.cas (ws : Words) (expect new : Usize) : Loop .cpuId :=
  .over ws (.compareExchange · expect new) (fun _ => rfl) fun _ => rfl

namespace Retry

variable {K : Index}

/-- How far a context is in a loop. -/
inductive Job (K : Index) where
  | rest
  /-- at the head of the loop -/
  | head (p : Loop K)
  /-- it has read its key -/
  | read (p : Loop K) (key : K.Key)
  | calling (p : Loop K) (key : K.Key) (op : Op K) (picked : p.pick key = some op)

/-- What an act does to the job of the running context. -/
inductive Turn (area : Area) : Act → Job K → Job K → Prop
  | start (p : Loop K) : Turn area .goto .rest (.head p)
  | read {p : Loop K} {key : K.Key} : area.key K = some key →
      Turn area .goto (.head p) (.read p key)
  /-- there is no word for the key -/
  | skip {p : Loop K} {key : K.Key} : p.pick key = none →
      Turn area .goto (.read p key) (.head p)
  | call {p : Loop K} {key : K.Key} {op : Op K} (hp : p.pick key = some op) :
      Turn area (.call ⟨K, op⟩) (.read p key) (.calling p key op hp)
  /-- **after an `Abort` it starts over** -/
  | again {p : Loop K} {key : K.Key} {op : Op K} {hp : p.pick key = some op} :
      Turn area (.ret ⟨K, op⟩ (.error .abort)) (.calling p key op hp) (.head p)
  | done {p : Loop K} {key : K.Key} {op : Op K} {hp : p.pick key = some op}
      {r : Except Error Usize} : r ≠ .error .abort →
      Turn area (.ret ⟨K, op⟩ r) (.calling p key op hp) .rest

/-- Retry loops over keys of kind `K`, and nothing else. -/
def program (K : Index) : Program where
  Job := Job K
  rest := .rest
  calling
    | .calling _ _ op _ => some ⟨K, op⟩
    | _ => none
  Turn area _ := Turn area
  Owns _ := False
  calling_rest := rfl
  turns _ _ _ _ _ ht := by cases ht <;> rfl
  calling_turn _ _ _ _ _ ht := by cases ht <;> rfl

end Retry

/-! ### What is counted -/

section History

variable {Tid : Type} [DecidableEq Tid]

/-- The index that the step gives to `t`. -/
def Label.newIndex (K : Index) (t : Tid) : Label Tid → Option U32
  | .act u _ (.resume cpu cid) => if u = t then some (Area.index ⟨cpu, 0, cid⟩ K) else none
  | _ => none

/-- The index of `t` after a history, if it was `i` before. -/
def indexAfter (K : Index) (t : Tid) (i : U32) : List (Label Tid) → U32
  | [] => i
  | l :: h => (l.newIndex K t).getD (indexAfter K t i h)

/-- How often `t` was moved: the kernel has resumed it with another index. -/
def moves (K : Index) (t : Tid) (i : U32) : List (Label Tid) → ℕ
  | [] => 0
  | l :: h => (if indexAfter K t i (l :: h) ≠ indexAfter K t i h then 1 else 0) + moves K t i h

/-- The step is a return of `Abort` there. -/
def Label.aborts (t : Tid) (d : ℕ) : Label Tid → Bool
  | .act u e (.ret _ (.error .abort)) => decide (u = t ∧ e = d)
  | _ => false

/-- The step is any other return there. -/
def Label.finishes (t : Tid) (d : ℕ) : Label Tid → Bool
  | .act _ _ (.ret _ (.error .abort)) => false
  | .act u e (.ret _ _) => decide (u = t ∧ e = d)
  | _ => false

/-- A run of retry loops goes on from a reachable state, in which the context of `t` at depth
`d` is not between the read of its key and the return of its op. -/
structure Retry.Window (K : Index) (M : Machine Tid) (t : Tid) (d : ℕ)
    (s₁ : Sys Tid M.img.Site × (Tid → List (Job K))) (g : List (Label Tid))
    (s₂ : Sys Tid M.img.Site × (Tid → List (Job K))) : Prop where
  reachable : ∃ s₀ h, (program K).Initial M s₀ ∧ LTS.Run ((program K).Step M) s₀ h s₁
  between : ∀ j, ctxAt (s₁.2 t) d = some j → j = .rest ∨ ∃ p, j = .head p
  run : LTS.Run ((program K).Step M) s₁ g s₂

/-- **A loop tries again only if it was moved**: in every window there are no more aborts than
moves, and each op that is called makes one pass through its block, of at most 22 instructions,
and one more for every kernel event. -/
structure Retry.Bounded (K : Index) (t : Tid) (d : ℕ) (i : U32) (g : List (Label Tid)) : Prop where
  aborts : g.countP (Label.aborts t d) ≤ moves K t i g
  calls : g.countP (Label.calls t d) ≤ g.countP (Label.finishes t d) + moves K t i g + 1
  instrs : g.countP (Label.instr t d) ≤
    (g.countP (Label.finishes t d) + moves K t i g + 1 + g.countP (Label.event t d)) * 22

end History

end RseqRs
