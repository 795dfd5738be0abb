import RseqRs.Stage.Invariant

/-!
# Cells written under one key

If a cell is written only by word ops confirmed with one key, what an attempt
confirmed with that key has loaded from it stays what it holds, until the attempt
commits or is thrown away: a writer would be a second running thread with the
same index.
-/

namespace RseqRs

namespace Stage

variable {Tid : Type}

/-- The cells `U` gives an owner are written only by ops confirmed with it. -/
def Respects (U : Usize → Option Tag) (s : Sys Tid) : Label Tid → Prop
  | .act t _ (.exec (.acc a _)) => ∀ x c st log τ, a.written = some x →
    (s.thr t).top = .op c st log → U x = some τ → c.tag = τ
  | .write x _ => U x = none
  | _ => True

/-- The cell `x` is owned by `τ`, and no other is owned. -/
def ownedBy (x : Usize) (τ : Tag) (y : Usize) : Option Tag := if y = x then some τ else none

/-- A cell that is written under one key only. -/
theorem respects_ownedBy {x : Usize} {τ : Tag} {s : Sys Tid} {l : Label Tid}
    (hexec : ∀ t d a last, l = .act t d (.exec (.acc a last)) → a.written = some x →
      ∀ c st log, (s.thr t).top = .op c st log → c.tag = τ)
    (hw : ∀ v, l ≠ .write x v) : Respects (ownedBy x τ) s l := by
  cases l with
  | act t d act =>
    cases act with
    | exec o =>
      cases o with
      | acc a last =>
        intro y c st log τ' ha htop hy
        unfold ownedBy at hy
        split at hy
        · next he =>
          cases hy
          exact hexec t d a last rfl (he ▸ ha) c st log htop
        · cases hy
      | _ => trivial
    | _ => trivial
  | fenceRun u e ev hit => trivial
  | write y v => exact if_neg fun he => hw v (by rw [he])

/-- What a running attempt has loaded from a cell of its owner, and has not
overwritten itself, is what the cell holds. -/
def LoadsHold (U : Usize → Option Tag) (s : Sys Tid) : Prop :=
  ∀ t c u log, (s.thr t).running = true → (s.thr t).top = .op c (.inside u) log →
    ∀ a v, Access.load a v ∈ log → U a = some c.tag → (∀ w, Access.store a w ∉ log) →
    s.mem a = v

variable {M : Machine Tid} {U : Usize → Option Tag} {idx : Index → U32} {acc log : List Acc}
  {c : Call} {u : Sec}

theorem Ok.key_of_mem_load (h : Ok idx acc (.op c (.inside u) log)) {a v : Usize}
    (hm : Access.load a v ∈ log) : idx c.K = c.key := by
  obtain ⟨-, -, hp, hidx⟩ := h
  rcases CritSec.Path.confirm_cases (i := c.key) (e := Error.abort)
    c.op.body_indexFree hp with ⟨rfl, _⟩ | ⟨_, _, rfl, _⟩ | ⟨log', rfl, _⟩
  · cases hm
  · simp at hm
  · exact hidx _ _ rfl

/-- The memory an instruction leaves, where it does not write. -/
theorem Step.mem_eq {T : Sec} {i : U32} {m m' : Mem} {st st' : Stage} {o : Obs} {x : Usize}
    (hs : Step T i m st o st' m')
    (ho : ∀ a last, o = .acc a last → a.written ≠ some x) : m' x = m x := by
  -- the cell is not the one that the access writes
  have happly {a : Acc} {last : Bool} (h : o = .acc a last) : a.apply m x = m x := by
    have hne := ho a last h
    cases a with
    | index j => rfl
    | load b v => rfl
    | store b v => exact Function.update_of_ne (fun e => hne (by rw [e]; rfl)) _ _
  cases hs with
  | access hn hr => exact happly rfl
  | commit hc => exact happly rfl
  | _ => rfl

theorem Initial.loadsHold {s : Sys Tid} (hi : Initial s) : LoadsHold U s := fun t c v log hr => by
  rw [hi.running t] at hr
  cases hr

variable [DecidableEq Tid] {h : List (Label Tid)} {s s' : Sys Tid} {l : Label Tid}

/-- Two running threads cannot both be confirmed with one key. -/
theorem Inv.eq_of_tag (hi : Inv h s) {t t' : Tid} {c' : Call} (hr : (s.thr t).running = true)
    (hr' : (s.thr t').running = true) (hc : (s.thr t).index c.K = c.key)
    (hc' : (s.thr t').index c'.K = c'.key) (htag : c.tag = c'.tag) : t = t' := by
  by_contra hne
  have hK : c.K = c'.K := congrArg Prod.fst htag
  have hkey : c.key = c'.key := congrArg Prod.snd htag
  refine hi.apart t t' hne hr hr' c.K ?_
  rw [hc, hkey, ← hc', hK]

/-- The memory a step leaves at a cell it does not write. -/
theorem SysStep.mem_eq {x : Usize} (hs : SysStep M s l s')
    (ho : ∀ t d a last, l = .act t d (.exec (.acc a last)) → a.written ≠ some x)
    (hw : ∀ v, l ≠ .write x v) : s'.mem x = s.mem x := by
  cases hs with
  | move hm _ =>
    cases hm with
    | exec hr htop hst => exact hst.mem_eq fun a last he => ho _ _ a last (by rw [he])
    | _ => rfl
  | fenceRun => rfl
  | write a v => exact Function.update_of_ne (fun e => hw v (by rw [e])) _ _

/-- Who writes is inside its section, and confirmed. -/
theorem Inv.writer {u : Tid} {d : ℕ} {a : Acc} {last : Bool} {x : Usize} (hi : Inv h s)
    (hs : SysStep M s (.act u d (.exec (.acc a last))) s') (ha : a.written = some x) :
    ∃ c v log, (s.thr u).running = true ∧ (s.thr u).top = .op c (.inside v) log ∧
      d = (s.thr u).depth ∧ (s.thr u).index c.K = c.key := by
  cases hs with
  | move hm _ =>
    cases hm with
    | exec hr htop hst =>
      have hok := hi.top u
      rw [htop] at hok
      obtain ⟨hkey, _, v, rfl, _⟩ := hok.confirmed hst fun j hj => by subst hj; cases ha
      exact ⟨_, v, _, hr, htop, rfl, hkey⟩
    | turn _ _ ht => cases ht

/-- A cell with an owner is not written while a running attempt of the owner has
it loaded. -/
theorem Inv.mem_kept {t : Tid} {c : Call} {v : Sec} {b w : Usize} (hi : Inv h s)
    (hs : SysStep M s l s') (hresp : Respects U s l) (hr : (s.thr t).running = true)
    (htop : (s.thr t).top = .op c (.inside v) log) (hl : ∀ d a, l ≠ .act t d a)
    (hb : Access.load b w ∈ log) (hown : U b = some c.tag) : s'.mem b = s.mem b := by
  refine hs.mem_eq (fun u d a last he ha => ?_) fun y he => ?_
  · subst he
    obtain ⟨c', v', log', hr', htop', -, hkey'⟩ := hi.writer hs ha
    have hok := hi.top t
    rw [htop] at hok
    -- the writer would be confirmed with the same key
    have htag := hresp b c' _ _ c.tag ha htop' hown
    obtain rfl := hi.eq_of_tag hr hr' (hok.key_of_mem_load hb) hkey' htag.symm
    exact hl d _ rfl
  · subst he
    have hnone : U b = none := hresp
    rw [hnone] at hown
    cases hown

theorem LoadsHold.step (hl : LoadsHold U s) (hi : Inv h s) (hs : SysStep M s l s')
    (hresp : Respects U s l) : LoadsHold U s' := by
  intro t c v log hr htop b w hb hown hst
  obtain ⟨_, _, hback⟩ := hi.inside_back hs hr htop
  cases hback with
  | kept hr₀ htop₀ hne =>
    exact (hi.mem_kept hs hresp hr₀ htop₀ hne hb hown).trans (hl t c v log hr₀ htop₀ b w hb hown hst)
  | armed hnil => rw [hnil] at hb; cases hb
  | tau hr₀ htop₀ hm _ => rw [hm]; exact hl t c v log hr₀ htop₀ b w hb hown hst
  | @access u log₀ a hr₀ htop₀ hn hread hlog hm _ =>
    subst hlog
    rw [hm]
    rcases List.mem_append.mp hb with hb | hb
    · -- an earlier load, from a cell this access does not store to
      have hold := hl t _ _ _ hr₀ htop₀ b w hb hown fun w' hw' => hst w' (List.mem_append_left _ hw')
      cases a with
      | store b' w' =>
        refine (Function.update_of_ne (fun e => hst w' ?_) _ _).trans hold
        subst e
        exact List.mem_append_right _ (List.mem_singleton_self _)
      | index j => exact hold
      | load b' w' => exact hold
    · -- this load
      obtain rfl := List.mem_singleton.mp hb
      exact hread

end Stage

end RseqRs
