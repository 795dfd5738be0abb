import RseqRs.Proof.ExactlyOnce
import RseqRs.Proof.ListShape
import RseqRs.Proof.StalePointer
import RseqRs.Stage.Owned

/-!
# The per-CPU list

Heads are written only by ops confirmed with their CPU, so what a running attempt
has loaded from a head stays there (`LoadsHold`). A link is written only by the
scratch store of the push of its node, and that node is held by the pusher: it is
on no list, and nobody else holds it. So the link a pop has chased, and the link a
push has prepared, stay as they are up to the commit (`Fresh`), and a commit takes
the node at the head away or puts one there. A node that was popped and pushed
again in between does no harm: the head would have been written.
-/

namespace RseqRs

namespace FreeList

variable {Tid : Type} [DecidableEq Tid]

/-- The owner of a head word is its CPU. -/
noncomputable def owner (L : FreeList) (x : Usize) : Option Tag :=
  open Classical in
  if h : ∃ cpu, cpu < L.words.cpus ∧ x = L.words.addr cpu then some (.cpuId, h.choose) else none

theorem owner_head {L : FreeList} {head : Word .cpuId} (h : L.IsHead head) :
    L.owner head.word = some head.tag := by
  have hex : ∃ cpu, cpu < L.words.cpus ∧ head.word = L.words.addr cpu := ⟨_, h⟩
  unfold owner
  rw [dif_pos hex]
  have heq : hex.choose = head.key.id := Words.addr_inj (hex.choose_spec.2.symm.trans h.2)
  rw [heq]
  rfl

theorem owner_of_some {L : FreeList} {x : Usize} {τ : Tag} (h : L.owner x = some τ) :
    ∃ cpu, cpu < L.words.cpus ∧ x = L.words.addr cpu := by
  unfold owner at h
  split at h
  · next hex => exact hex
  · cases h

/-- What the running attempts know of the links: a pop, of the one it has chased;
a push, of the one it has prepared. -/
structure Fresh (L : FreeList) (a : Stage.Sys Tid) : Prop where
  chased : ∀ t head u i p n, (a.thr t).running = true →
    (a.thr t).top = .op (L.popCall head) (.inside u)
      [.index i, .load head.word p, .load (p + L.off) n] → a.mem (p + L.off) = n
  prepared : ∀ t node head h u log x w, (a.thr t).running = true →
    (a.thr t).top = .op (L.pushCall node head h) (.inside u) log → Access.store x w ∈ log →
    a.mem (node + L.off) = h

/-- **The invariant** of the lists. -/
structure Shape (L : FreeList) (a : Stage.Sys Tid) (k : Client Tid) : Prop where
  owned : Stage.LoadsHold L.owner a
  fresh : L.Fresh a
  placed : ∃ lists place, Listed L a.mem lists place ∧ Held L a k place

/-! ### Who writes what -/

section Writes

variable {M : Machine Tid} {L : FreeList} {a a' : Stage.Sys Tid} {k k' : Client Tid}
  {lists : U32 → List Usize} {place : Usize → Option (Place Tid)} {h : List (Label Tid)}
  {l : Label Tid} {t : Tid} {area : Tid → Area} {m : Mem}

/-- A push that has not committed holds its node. -/
theorem Held.place_of_push (hh : Held L a k place) {node x : Usize} {head : Word .cpuId}
    {v : Sec} {log : List Acc}
    (htop : (a.thr t).top = .op (L.pushCall node head x) (.inside v) log) :
    place node = some (.thread t) ∧ L.IsHead head := by
  obtain ⟨j, js, hjobs, hfit, _⟩ := hh.top t
  rw [htop] at hfit
  rcases hfit.op with ⟨_, _, _, hc⟩ | ⟨node', head', x', rfl, hhead, hc⟩
  · cases hc
  · cases hc
    exact ⟨hh.place_of_top hjobs (by rw [htop]; rfl), hhead⟩

omit [DecidableEq Tid] in
/-- What a pop knows when it commits. -/
theorem pop_commit {head : Word .cpuId} {v : Sec} {log : List Acc} {acc : Acc} {r : Usize}
    {idx : Index → U32} {log' : List Acc}
    (hok : Stage.Ok idx log' (.op (L.popCall head) (.inside v) log))
    (hc : CritSec.Commits v acc r) :
    r ≠ 0 ∧ ∃ i n, log = [.index i, .load head.word r, .load (r + L.off) n] ∧
      acc = .store head.word n := by
  obtain ⟨hne, n, hcom⟩ := Op.committed_of_ends (.commit hok.2.2.1 hc)
  have happ : log ++ [acc] = [_, _, _] ++ [_] := hcom
  obtain ⟨hlog, hacc⟩ := List.append_inj' happ rfl
  exact ⟨hne, _, n, hlog, List.singleton_inj.mp hacc⟩

omit [DecidableEq Tid] in
/-- What a push knows when it commits. -/
theorem push_commit {node x : Usize} {head : Word .cpuId} {v : Sec} {log : List Acc} {acc : Acc}
    {r : Usize} {idx : Index → U32} {log' : List Acc}
    (hok : Stage.Ok idx log' (.op (L.pushCall node head x) (.inside v) log))
    (hc : CritSec.Commits v acc r) :
    ∃ i, log = [.index i, .load head.word x, .store (node + L.off) x] ∧
      acc = .store head.word node := by
  obtain ⟨rfl, hcom⟩ := Op.committed_of_ends (.commit hok.2.2.1 hc)
  have happ : log ++ [acc] = [_, _, _] ++ [_] := hcom
  obtain ⟨hlog, hacc⟩ := List.append_inj' happ rfl
  exact ⟨_, hlog, List.singleton_inj.mp hacc⟩

omit [DecidableEq Tid] in
/-- A pop chases no `0`. -/
theorem pop_chased {head : Word .cpuId} {v : Sec} {i : U32} {p n b : Usize}
    (hp : (Stage.tree (L.popCall head)).Path [.index i, .load head.word p, .load b n] v) :
    p ≠ 0 := by
  rintro rfl
  rcases CritSec.Path.confirm_cases (i := head.key.id) (e := Error.abort)
    (Op.body_indexFree _) hp with ⟨he, _⟩ | ⟨_, _, he, _⟩ | ⟨log, he, hbody, _⟩
  · cases he
  · cases he
  · cases he
    rcases hbody.head with ⟨he, _⟩ | ⟨_, _, _, hn, he, hrest⟩
    · cases he
    · cases he
      cases hn
      -- it misses on `0`
      replace hrest : CritSec.Path (if (0 : Usize) = 0 then .fail (.miss 0) else _ : Sec) _ v := hrest
      rw [if_pos rfl] at hrest
      rcases hrest.head with ⟨he, _⟩ | ⟨_, _, _, hn, _⟩
      · cases he
      · cases hn

/-- **Who writes the words of the lists**: a commit writes a head, with its own
key; the scratch store of a push writes the link of its node. -/
theorem Held.written (hh : Held L a k place) (hi : Stage.Inv h a) {d : ℕ} {acc : Acc}
    {last : Bool} {x : Usize} (hs : Stage.SysStep M a (.act t d (.exec (.acc acc last))) a')
    (hx : acc.written = some x) :
    (∃ head c v log, L.IsHead head ∧ x = head.word ∧ last = true ∧
      (a.thr t).top = .op c (.inside v) log ∧ c.tag = head.tag) ∨
    ∃ node head y v log, (a.thr t).top = .op (L.pushCall node head y) (.inside v) log ∧
      acc = .store (node + L.off) y ∧ x = node + L.off := by
  cases hs with
  | move hm _ =>
    cases hm with
    | turn _ _ ht => cases ht
    | @exec c st st' log _ m hr htop hst =>
      obtain ⟨j, js, _, hfit, _⟩ := hh.top t
      rw [htop] at hfit
      have hok := hi.top t
      rw [htop] at hok
      cases hst with
      | @access u u' _ hn hread =>
        -- a store short of the commit is the scratch store of a push
        cases acc with
        | index i => cases hx
        | load b w => cases hx
        | store b w =>
          obtain ⟨w', expect, new, s, hop, hb⟩ := Op.scratches_tree (hok.2.2.1.scratches hn)
          rcases hfit.op with ⟨head, _, _, rfl⟩ | ⟨node, head, y, _, hhead, rfl⟩
          · cases hop
          · cases hop
            cases hx
            exact Or.inr ⟨_, head, w, u, log, htop, by rw [hb], hb⟩
      | @commit u _ r hc =>
        rcases hfit.op with ⟨head, _, hhead, rfl⟩ | ⟨node, head, y, _, hhead, rfl⟩
        · obtain ⟨_, _, n, _, rfl⟩ := pop_commit hok hc
          cases hx
          exact Or.inl ⟨head, _, u, log, hhead, rfl, rfl, htop, rfl⟩
        · obtain ⟨_, _, rfl⟩ := push_commit hok hc
          cases hx
          exact Or.inl ⟨head, _, u, log, hhead, rfl, rfl, htop, rfl⟩

/-- Heads are written only under their own key. -/
theorem Held.respects (hh : Held L a k place) (hl : Listed L a.mem lists place)
    (hi : Stage.Inv h a) (hs : Stage.SysStep M a l a') (hm : L.Moves area m k l k') :
    Stage.Respects L.owner a l := by
  cases l with
  | act t d act =>
    cases act with
    | exec o =>
      cases o with
      | acc acc last =>
        intro x c st log τ hx htop hown
        rcases hh.written hi hs hx with
          ⟨head, c', _, _, hhead, rfl, _, htop', htag⟩ | ⟨node, _, _, _, _, htop', _, rfl⟩
        · rw [owner_head hhead] at hown
          rw [htop] at htop'
          cases htop'
          exact htag.trans (Option.some_inj.mp hown)
        · -- no link is a head
          obtain ⟨cpu, hcpu, he⟩ := owner_of_some hown
          exact absurd he (L.apart node cpu (hl.isNode (hh.place_of_push htop').1) hcpu)
      | _ => trivial
    | _ => trivial
  | fenceRun => trivial
  | write x v =>
    cases hm with
    | write hown =>
      show L.owner x = none
      by_contra hne
      obtain ⟨τ, hτ⟩ := Option.ne_none_iff_exists'.mp hne
      exact hown (Or.inl (owner_of_some hτ))

/-- **A link is written by the holder of its node only.** -/
theorem Held.link_kept (hh : Held L a k place) (hl : Listed L a.mem lists place)
    (hi : Stage.Inv h a) (hs : Stage.SysStep M a l a') (hm : L.Moves area m k l k')
    {p : Usize} {x : Place Tid} (hp : place p = some x)
    (hx : ∀ t d act, l = .act t d act → x ≠ .thread t) :
    a'.mem (p + L.off) = a.mem (p + L.off) := by
  have hnode := hl.isNode hp
  refine hs.mem_eq (fun t d acc last he hw => ?_) fun v he => ?_
  · subst he
    rcases hh.written hi hs hw with
      ⟨head, _, _, _, hhead, he, _⟩ | ⟨node, _, _, _, _, htop, _, he⟩
    · exact L.apart p _ hnode hhead.1 (he.trans hhead.2)
    · obtain rfl : p = node := add_right_cancel he
      have hplace := (hh.place_of_push htop).1
      rw [hp] at hplace
      exact hx t d _ rfl (Option.some_inj.mp hplace)
  · subst he
    cases hm with
    | write hown => exact hown (Or.inr ⟨p, hnode, rfl⟩)

/-- A step that does not commit leaves the lists as they are. -/
theorem Listed.keep (hl : Listed L a.mem lists place) (hh : Held L a k place)
    (hi : Stage.Inv h a) (hs : Stage.SysStep M a l a') (hm : L.Moves area m k l k')
    (hnc : ∀ t d acc, l ≠ .act t d (.exec (.acc acc true))) : Listed L a'.mem lists place := by
  refine hl.congr (fun cpu hcpu => hs.mem_eq (fun t d acc last he hw => ?_) fun v he => ?_)
    fun p cpu hp => hh.link_kept hl hi hs hm hp fun _ _ _ _ => nofun
  · subst he
    rcases hh.written hi hs hw with ⟨_, _, _, _, _, _, rfl, _⟩ | ⟨node, _, _, _, _, htop, _, he⟩
    · exact hnc t d acc rfl
    · exact L.apart node cpu (hl.isNode (hh.place_of_push htop).1) hcpu he.symm
  · subst he
    cases hm with
    | write hown => exact hown (Or.inl ⟨cpu, hcpu, rfl⟩)

end Writes

/-! ### Steps that move no node -/

section Keep

variable {M : Machine Tid} {L : FreeList} {a a' : Stage.Sys Tid} {k k' : Client Tid}
  {place : Usize → Option (Place Tid)} {t : Tid} {m : Mem} {x : Stage.Thr} {act : Act} {j : Job}
  {js : List Job}

/-- An instruction that does not commit decides no `Ok`. -/
theorem nodeAt_exec {T : Sec} {i : U32} {m m' : Mem} {st st' : Stage} {o : Obs} {c : Call}
    {log log' : List Acc} (hst : Stage.Step T i m st o st' m') (ho : ∀ acc, o ≠ .acc acc true) :
    j.nodeAt (.op c st' log') = j.nodeAt (.op c st log) := by
  cases hst with
  | commit hc => exact absurd rfl (ho _)
  | @leave r => cases r <;> cases j <;> rfl
  | _ => cases j <;> rfl

/-- A turn of the client that the machine does not see, or only at its ends. -/
theorem Held.turns (hh : Held L a k place) (hjobs : k.jobs t = j :: js)
    (hm : Stage.Move M a.mem (a.thr t) act m x) {area : Area} {m₀ : Mem} {hand' : List Usize}
    {j' : Job} (ht : L.Turn area m₀ (k.hand t) act j hand' j')
    (hnc : ∀ acc, act ≠ .exec (.acc acc true)) :
    Held L { a with mem := m, thr := Function.update a.thr t x }
      { hand := Function.update k.hand t hand'
        jobs := Function.update k.jobs t (j' :: js) } place := by
  obtain ⟨_, _, hjobs', hfit, _⟩ := hh.top t
  rw [hjobs] at hjobs'
  cases hjobs'
  have hkeep {w : Work} {y : Stage.Thr} (htop : (a.thr t).top = w) {hand' : List Usize} {j' : Job}
      (hbelow : y.below = (a.thr t).below) (hfit' : L.Fits y.top j')
      (hnodes : ∀ p, hand'.count p + (j'.nodeAt y.top).toList.count p =
        (k.hand t).count p + (j.nodeAt w).toList.count p) :
      Held L { a with mem := m, thr := Function.update a.thr t y }
        { hand := Function.update k.hand t hand'
          jobs := Function.update k.jobs t (j' :: js) } place :=
    hh.turn hjobs hbelow hfit' (fun _ _ _ => Iff.rfl) fun p => by rw [htop, hnodes p]
  cases ht with
  | @pop cpu head hcpu hget =>
    obtain ⟨htop, rfl⟩ := hm.goto
    obtain ⟨hlt, rfl⟩ := Words.get_eq_some hget
    exact hkeep htop rfl ⟨trivial, hlt, rfl⟩ fun p => rfl
  | popCall =>
    obtain ⟨htop, ⟨_, rfl⟩ | ⟨hk, _⟩⟩ := hm.call
    · exact hkeep htop rfl ⟨hfit.2, _, _, rfl⟩ fun p => rfl
    · cases hk
  | @popped head p =>
    obtain ⟨rfl, ⟨log, htop⟩ | ⟨_, he⟩⟩ := hm.ret
    · -- the node goes from the job to the hand
      refine hkeep htop rfl trivial fun q => ?_
      show (p :: k.hand t).count q + [].count q = (k.hand t).count q + [p].count q
      rw [List.count_cons, List.count_cons, List.count_nil]
      omega
    · cases he
  | popFailed =>
    obtain ⟨rfl, ⟨log, htop⟩ | ⟨htop, _⟩⟩ := hm.ret
    · exact hkeep htop rfl trivial fun p => rfl
    · -- a job that fits is not a refused call
      rw [htop] at hfit
      obtain ⟨_, _, _, he⟩ := hfit
      cases he
  | @push node hmem =>
    obtain ⟨htop, rfl⟩ := hm.goto
    -- the node goes from the hand to the job
    refine hkeep htop rfl trivial fun q => ?_
    show ((k.hand t).erase node).count q + [node].count q = (k.hand t).count q + 0
    rw [(List.perm_cons_erase hmem).count_eq q, List.count_cons, List.count_cons, List.count_nil]
    omega
  | @pushTo node cpu head hcpu hget =>
    obtain ⟨htop, rfl⟩ := hm.goto
    obtain ⟨hlt, rfl⟩ := Words.get_eq_some hget
    exact hkeep htop rfl ⟨trivial, hlt, rfl⟩ fun p => rfl
  | pushOn =>
    obtain ⟨htop, rfl⟩ := hm.goto
    exact hkeep htop rfl ⟨trivial, hfit.2⟩ fun p => rfl
  | @pushCall node head y =>
    obtain ⟨htop, ⟨_, rfl⟩ | ⟨hk, _⟩⟩ := hm.call
    · exact hkeep htop rfl ⟨hfit.2, _, _, rfl⟩ fun p => rfl
    · -- the side is keyed by the same CPU
      exact absurd (decide_eq_true (rfl : head.key = head.key)) (Bool.eq_false_iff.mp hk)
  | pushed =>
    obtain ⟨rfl, ⟨log, htop⟩ | ⟨_, he⟩⟩ := hm.ret
    · exact hkeep htop rfl trivial fun p => rfl
    · cases he
  | pushFailed =>
    obtain ⟨rfl, ⟨log, htop⟩ | ⟨htop, _⟩⟩ := hm.ret
    · exact hkeep htop rfl trivial fun p => rfl
    · rw [htop] at hfit
      obtain ⟨_, _, _, he⟩ := hfit
      cases he
  | idle hidle =>
    cases hm with
    | @exec c st st' log o m' hr htop hst =>
      rw [htop] at hfit
      refine hh.keep hjobs rfl ?_ ?_
      · rcases hfit.op with ⟨head, rfl, hhead, rfl⟩ | ⟨node, head, y, rfl, hhead, rfl⟩
        · exact ⟨hhead, _, _, rfl⟩
        · exact ⟨hhead, _, _, rfl⟩
      · rw [htop]
        exact nodeAt_exec hst fun acc he => hnc acc (by rw [he])
    | turn hr htop ht =>
      rw [htop] at hfit
      have happart {w w' : Work} (hf : L.Fits w j) (hw : (a.thr t).top = w) (hu : Apart w)
          (hu' : Apart w') : Held L { a with
            mem := a.mem, thr := Function.update a.thr t { a.thr t with top := w' } }
          { hand := Function.update k.hand t (k.hand t)
            jobs := Function.update k.jobs t (j :: js) } place := by
        obtain ⟨hfit', hnode⟩ := hf.apart hu hu'
        exact hh.keep hjobs rfl hfit' (by rw [hw]; exact hnode)
      cases ht with
      | call hk => exact hidle.elim
      | callRefused hk => exact hidle.elim
      | ret => exact hidle.elim
      | retRefused => exact hidle.elim
      | goto => exact happart hfit htop trivial trivial
      | unload => exact happart hfit htop trivial trivial
      | fenceCall f => exact happart hfit htop trivial trivial
      | fenceRet => exact happart hfit htop trivial trivial
    | preempt hr => exact hh.keep hjobs rfl hfit rfl
    | resume cpu cid hr => exact hh.keep hjobs rfl hfit.event nodeAt_event
    | signal hr => exact hidle.elim
    | sigreturn hr htop hb => exact hidle.elim

/-- **No step but a commit** moves a node. -/
theorem Held.step {l : Label Tid} {area : Tid → Area} {m₀ : Mem} (hh : Held L a k place)
    (hs : Stage.SysStep M a l a') (hm : L.Moves area m₀ k l k')
    (hnc : ∀ t d acc, l ≠ .act t d (.exec (.acc acc true))) : Held L a' k' place := by
  cases hm with
  | turn hjobs ht =>
    cases hs with
    | move hmove _ => exact hh.turns hjobs hmove ht fun acc he => hnc _ _ acc (by rw [he])
  | @signal t d =>
    cases hs with
    | move hmove _ =>
      cases hmove with
      | turn _ _ ht => cases ht
      | signal hr =>
        obtain ⟨j, js, hjobs, hfit, hfits⟩ := hh.top t
        -- the handler starts with no job; the context below restarts, and keeps its node
        refine hh.restack ?_ ?_ <;> rw [hjobs]
        · exact .cons trivial (.cons hfit.event hfits)
        · exact congrArg (fun n => Option.toList n ++ nodesAt (a.thr t).below js) nodeAt_event
  | @sigreturn t d js hjobs =>
    cases hs with
    | move hmove _ =>
      cases hmove with
      | turn _ _ ht => cases ht
      | @sigreturn y ys hr htop hb =>
        obtain ⟨_, _, hjobs', _, hfits⟩ := hh.top t
        rw [hjobs] at hjobs'
        cases hjobs'
        rw [hb] at hfits
        refine hh.restack hfits ?_
        -- the job of the handler, `rest`, has no node
        rw [hjobs]
        show nodesAt (y :: ys) js = [] ++ nodesAt (a.thr t).below js
        rw [hb]
        rfl
  | @fenceRun t d ev hit =>
    cases hs with
    | @fenceRun _ f pc pc' _ p _ hr htop hrun hre =>
      have hctx (u : Tid) : List.Forall₂ L.Fits ((Stage.fenced a t f pc' p hit).thr u).stack
            (k.jobs u) ∧
          nodesAt ((Stage.fenced a t f pc' p hit).thr u).stack (k.jobs u) =
            nodesAt (a.thr u).stack (k.jobs u) := by
        obtain ⟨w, he, hc⟩ := Stage.fenced_thr a t u f pc' p hit
        obtain ⟨j, js, hjobs, hfit, hfits⟩ := hh.top u
        rw [he, hjobs]
        have hw : L.Fits w j ∧ j.nodeAt w = j.nodeAt (a.thr u).top := by
          rcases hc with ⟨rfl, rfl⟩ | ⟨_, ⟨_, rfl⟩ | ⟨_, rfl⟩⟩
          · rw [htop] at hfit ⊢
            exact hfit.apart trivial trivial
          · exact ⟨hfit.event, nodeAt_event⟩
          · exact ⟨hfit, rfl⟩
        exact ⟨.cons hw.1 hfits, congrArg (fun n => Option.toList n ++ _) hw.2⟩
      exact hh.stack rfl (fun u => (hctx u).1) fun u => (hctx u).2
  | write hown =>
    cases hs with
    | write => exact hh.stack rfl hh.fits fun _ => rfl

end Keep

/-! ### Commits -/

section Commit

variable {M : Machine Tid} {L : FreeList} {a a' : Stage.Sys Tid} {k k' : Client Tid}
  {h : List (Label Tid)} {l : Label Tid} {t : Tid} {area : Tid → Area} {m : Mem}

/-- **A commit moves one node**: to the thread, out of the list it popped from, or
from the thread to the list it pushes on. -/
theorem Shape.commit (hsh : L.Shape a k) (hi : Stage.Inv h a) {d : ℕ} {acc : Acc}
    (hs : Stage.SysStep M a (.act t d (.exec (.acc acc true))) a')
    (hm : L.Moves area m k (.act t d (.exec (.acc acc true))) k') :
    ∃ lists place, Listed L a'.mem lists place ∧ Held L a' k' place := by
  obtain ⟨howned, hfresh, lists, place, hl, hh⟩ := hsh
  cases hm with
  | @turn _ _ _ j j' js hand hjobs ht =>
  cases ht with
  | idle =>
  cases hs with
  | move hmove _ =>
  cases hmove with
  | turn _ _ ht => cases ht
  | @exec c st st' log _ m' hr htop hst =>
    obtain ⟨_, _, hjobs', hfit, _⟩ := hh.top t
    rw [hjobs] at hjobs'
    cases hjobs'
    have hok := hi.top t
    rw [htop] at hfit hok
    cases hst with
    | @commit u _ r hc =>
      rcases hfit.op with ⟨head, rfl, hhead, rfl⟩ | ⟨node, head, x, rfl, hhead, rfl⟩
      · -- the head still holds `r`, and `r` is still linked to what it is replaced by
        obtain ⟨hne, i, n, rfl, rfl⟩ := pop_commit hok hc
        have hmem : a.mem head.word = r := howned t _ u _ hr htop head.word r (by simp)
          (owner_head hhead) (by simp)
        have hnext : a.mem (r + L.off) = n := hfresh.chased t head u i r n hr htop
        rw [hhead.2] at hmem
        obtain ⟨lists', hl'⟩ := hl.pop hhead.1 hmem hne t
        have hplace := hl.place_head hhead.1 hmem hne
        refine ⟨lists', Function.update place r (some (.thread t)), ?_,
          hh.turn hjobs rfl ⟨hhead, _, _, rfl⟩ (fun p v hv => ?_) fun p => ?_⟩
        · rw [hnext, ← hhead.2] at hl'
          exact hl'
        · exact moved_apart hplace nofun fun he => hv (Place.thread.inj he)
        · -- the job holds the node it has popped, and no other one is counted anew
          rw [htop]
          show _ + [r].count p + _ = _ + 0 + _
          by_cases hp : p = r
          · subst hp
            rw [Function.update_self, hplace, if_neg nofun, if_pos rfl, List.count_singleton_self]
          · have hne : ¬ (r == p) = true := fun he => hp (beq_iff_eq.mp he).symm
            rw [Function.update_of_ne hp, List.count_singleton, if_neg hne]
      · -- the head still holds what the node is linked to
        obtain ⟨i, rfl, rfl⟩ := push_commit hok hc
        obtain ⟨hplace, _⟩ := hh.place_of_push htop
        have hnelink : head.word ≠ node + L.off := fun he =>
          L.apart node _ (hl.isNode hplace) hhead.1 (he.symm.trans hhead.2)
        have hmem : a.mem head.word = x := howned t _ u _ hr htop head.word x (by simp)
          (owner_head hhead) (by simpa using hnelink)
        have hlink : a.mem (node + L.off) = x :=
          hfresh.prepared t node head x u _ (node + L.off) x hr htop (by simp)
        rw [hhead.2] at hmem
        obtain ⟨lists', hl'⟩ := hl.push hhead.1 hplace (hlink.trans hmem.symm)
        refine ⟨lists', Function.update place node (some (.list head.key.id)), ?_,
          hh.turn hjobs rfl ⟨hhead, _, _, rfl⟩ (fun p v hv => ?_) fun p => ?_⟩
        · rw [← hhead.2] at hl'
          exact hl'
        · exact moved_apart hplace (fun he => hv (Place.thread.inj he)) nofun
        · -- the job holds its node no longer
          rw [htop]
          show _ + 0 + _ = _ + [node].count p + _
          by_cases hp : p = node
          · subst hp
            rw [Function.update_self, hplace, if_pos rfl, if_neg nofun, List.count_singleton_self]
          · have hne : ¬ (node == p) = true := fun he => hp (beq_iff_eq.mp he).symm
            rw [Function.update_of_ne hp, List.count_singleton, if_neg hne]

/-- What the attempts know of the links stays true. -/
theorem Shape.fresh_step (hsh : L.Shape a k) (hi : Stage.Inv h a)
    (hs : Stage.SysStep M a l a') (hm : L.Moves area m k l k') : L.Fresh a' := by
  obtain ⟨howned, hfresh, lists, place, hl, hh⟩ := hsh
  refine ⟨fun t head u i p n hr htop => ?_, fun t node head x u log b w hr htop hb => ?_⟩
  · obtain ⟨_, _, hback⟩ := hi.inside_back hs hr htop
    cases hback with
    | kept hr₀ htop₀ hne =>
      -- the node is on the list of the head it was loaded from
      obtain ⟨_, _, _, hfit, _⟩ := hh.top t
      have hok := hi.top t
      rw [htop₀] at hfit hok
      rcases hfit.op with ⟨head', _, hhead, he⟩ | ⟨_, _, _, _, _, he⟩
      · cases he
        have hmem : a.mem head.word = p := howned t _ u _ hr₀ htop₀ head.word p (by simp)
          (owner_head hhead) (by simp)
        rw [hhead.2] at hmem
        have hplace := hl.place_head hhead.1 hmem (pop_chased hok.2.2.1)
        rw [hh.link_kept hl hi hs hm hplace fun _ _ _ _ => nofun]
        exact hfresh.chased t head u i p n hr₀ htop₀
      · cases he
    | armed hnil => cases hnil
    | tau hr₀ htop₀ hmem =>
      rw [hmem]
      exact hfresh.chased t head u i p n hr₀ htop₀
    | @access v log₀ acc hr₀ htop₀ hn hread hlog hmem =>
      -- the chase itself
      have happ : [_, _] ++ [_] = log₀ ++ [acc] := hlog
      obtain ⟨_, hacc⟩ := List.append_inj' happ rfl
      obtain rfl := List.singleton_inj.mp hacc
      rw [hmem]
      exact hread
  · obtain ⟨_, _, hback⟩ := hi.inside_back hs hr htop
    cases hback with
    | kept hr₀ htop₀ hne =>
      have hplace := (hh.place_of_push htop₀).1
      rw [hh.link_kept hl hi hs hm hplace fun t' d act hact he => ?_]
      · exact hfresh.prepared t node head x u log b w hr₀ htop₀ hb
      · cases he
        exact hne d act hact
    | armed hnil => rw [hnil] at hb; cases hb
    | tau hr₀ htop₀ hmem =>
      rw [hmem]
      exact hfresh.prepared t node head x u log b w hr₀ htop₀ hb
    | @access v log₀ acc hr₀ htop₀ hn hread hlog hmem =>
      have hok := hi.top t
      rw [htop₀] at hok
      rw [hmem]
      cases acc with
      | store b' w' =>
        -- the scratch store itself
        obtain ⟨_, _, _, s, hop, rfl⟩ := Op.scratches_tree (hok.2.2.1.scratches hn)
        cases hop
        exact Function.update_self ..
      | index j =>
        rw [hlog] at hb
        exact hfresh.prepared t node head x v log₀ b w hr₀ htop₀ (by simpa using hb)
      | load b' w' =>
        rw [hlog] at hb
        exact hfresh.prepared t node head x v log₀ b w hr₀ htop₀ (by simpa using hb)

/-- **Every step** keeps the shape. -/
theorem Shape.step (hsh : L.Shape a k) (hi : Stage.Inv h a)
    (hs : Stage.SysStep M a l a') (hm : L.Moves area m k l k') : L.Shape a' k' := by
  have hfresh := hsh.fresh_step hi hs hm
  obtain ⟨lists, place, hl, hh⟩ := hsh.placed
  refine ⟨hsh.owned.step hi hs (hh.respects hl hi hs hm), hfresh, ?_⟩
  by_cases hc : ∃ t d acc, l = .act t d (.exec (.acc acc true))
  · obtain ⟨t, d, acc, rfl⟩ := hc
    exact hsh.commit hi hs hm
  · have hnc : ∀ t d acc, l ≠ .act t d (.exec (.acc acc true)) := fun t d acc he =>
      hc ⟨t, d, acc, he⟩
    exact ⟨lists, place, hl.keep hh hi hs hm hnc, hh.step hs hm hnc⟩

end Commit

/-! ### Reading the history -/

section History

variable {M : Machine Tid} {L : FreeList} {a : Stage.Sys Tid} {k : Client Tid}
  {h : List (Label Tid)} {t : Tid}

/-- The node in a job, by the history and by the stage of its op. -/
theorem node_eq {d : ℕ} {w : Work} {j : Job} {idx : Index → U32} (hfit : L.Fits w j)
    (hok : Stage.Ok idx (attempt t d h) w)
    (hcom : Stage.Work.committed w (commitCount t d h)) : j.node h t d = j.nodeAt w := by
  cases j with
  | popping head =>
    obtain ⟨_, st, log, rfl⟩ := hfit
    have hzero (hn : commitCount t d h = 0) : (Job.popping head).node h t d = none :=
      if_neg (by omega)
    cases st with
    | entering => exact hzero hcom
    | inside u => exact hzero hcom
    | finishing r =>
      cases r with
      | error e => exact hzero hcom
      | ok p =>
        obtain ⟨hlog, _, hends⟩ := hok
        obtain ⟨_, n, he⟩ := Op.committed_of_ends hends
        have hone : (Job.popping head).node h t d = popped (attempt t d h) := if_pos hcom
        rw [hone, ← hlog, he]
        rfl
  | pushing node head x =>
    obtain ⟨_, st, log, rfl⟩ := hfit
    have hzero (hn : commitCount t d h = 0) : (Job.pushing node head x).node h t d = some node :=
      if_neg (by omega)
    cases st with
    | entering => exact hzero hcom
    | inside u => exact hzero hcom
    | finishing r =>
      cases r with
      | error e => exact hzero hcom
      | ok p => exact if_pos hcom
  | _ => rfl

theorem nodesOf_eq {ws : List Work} {js : List Job} (hfits : List.Forall₂ L.Fits ws js)
    (hw : ∀ d w, ctxAt ws d = some w → (∃ idx, Stage.Ok idx (attempt t d h) w) ∧
      Stage.Work.committed w (commitCount t d h)) : nodesOf h t js = nodesAt ws js := by
  induction hfits with
  | nil => rfl
  | @cons w j ws js hfit hfits ih =>
    obtain ⟨⟨idx, hok⟩, hcom⟩ := hw ws.length w ctxAt_cons_self
    have htail := ih fun d w' hd => hw d w' (by rwa [ctxAt_cons_of_lt (ctxAt_lt hd)])
    unfold nodesOf nodesAt
    rw [htail, ← hfits.length_eq, node_eq hfit hok hcom]

/-- A thread holds the same nodes, by the history and by the stages. -/
theorem held_eq (hi : Stage.Inv h a)
    (hcom : ∀ t d w, a.ctx t d = some w → Stage.Work.committed w (commitCount t d h))
    (hfits : List.Forall₂ L.Fits (a.thr t).stack (k.jobs t)) : k.held h t = heldAt a k t := by
  unfold Client.held heldAt
  refine congrArg (k.hand t ++ ·) (nodesOf_eq hfits fun d w hd =>
    ⟨⟨(a.thr t).index, ?_⟩, hcom t d w hd⟩)
  rcases Stage.Sys.ctx_cases hd with ⟨rfl, rfl⟩ | ⟨_, hb⟩
  · exact hi.top t
  · exact (hi.below t d w hb).2

end History

/-! ### Every run -/

section Runs

variable {M : Machine Tid} {L : FreeList} {s₀ s : Sys Tid M.img.Site} {k₀ k : Client Tid}
  {h : List (Label Tid)} {a : Stage.Sys Tid}

/-- The clients of an initial process have no job yet. -/
theorem Conserved.shape (hc : L.Conserved [] s₀ k₀) (hk : ∀ t, k₀.jobs t = [.rest]) :
    L.Shape s₀.stages k₀ := by
  obtain ⟨lists, place, hlists, hnode, hcpu, hmem, hheld⟩ := hc
  refine ⟨s₀.initial_stages.loadsHold, ⟨fun t _ _ _ _ _ hr => ?_, fun t _ _ _ _ _ _ _ hr => ?_⟩,
    lists, place, ⟨fun cpu hlt => (hlists cpu hlt).2, hnode, hcpu, fun p cpu hlt => ?_⟩,
    fun t => ?_, fun p t => ?_⟩
  · cases hr
  · cases hr
  · rw [← List.count_pos_iff, hmem p cpu hlt]
    by_cases hp : place p = some (.list cpu)
    · rw [if_pos hp]
      exact iff_of_true Nat.one_pos hp
    · rw [if_neg hp]
      exact iff_of_false (lt_irrefl 0) hp
  · rw [hk t]
    exact .cons trivial .nil
  · have hsame : heldAt s₀.stages k₀ t = k₀.held [] t := by
      unfold heldAt Client.held
      rw [hk t]
      rfl
    rw [hsame]
    exact hheld p t

/-- What the invariant says of the process itself. -/
theorem Shape.conserved (hsh : L.Shape a k) (hrel : s.Rel M a) (hi : Stage.Inv h a)
    (hcom : ∀ t d w, a.ctx t d = some w → Stage.Work.committed w (commitCount t d h)) :
    L.Conserved h s k := by
  obtain ⟨_, _, lists, place, hl, hh⟩ := hsh
  refine ⟨lists, place, fun cpu hlt => ?_, hl.node, hl.cpu, fun p cpu hlt => ?_, fun p t => ?_⟩
  · rw [hrel.mem]
    exact ⟨(hl.linked cpu hlt).nodup, hl.linked cpu hlt⟩
  · rw [(hl.linked cpu hlt).nodup.count]
    exact if_congr (hl.mem p cpu hlt) rfl rfl
  · rw [held_eq hi hcom (hh.fits t)]
    exact hh.count p t

/-- Every run of the machine with its clients, seen by the stage machine. -/
theorem shape_run (hi : M.Initial s₀) (hk : ∀ t, k₀.jobs t = [.rest])
    (hc : L.Conserved [] s₀ k₀) (hr : LTS.Run (L.Step M) (s₀, k₀) h (s, k)) :
    ∃ a, LTS.Run (Stage.SysStep M) s₀.stages h a ∧ s.Rel M a ∧ L.Shape a k := by
  refine hr.invariant (I := fun h x => ∃ a, LTS.Run (Stage.SysStep M) s₀.stages h a ∧
    x.1.Rel M a ∧ L.Shape a x.2) ⟨_, .nil, hi.rel, hc.shape hk⟩ ?_
  rintro h ⟨s, k⟩ l ⟨s', k'⟩ _ ⟨a, ha, hrel, hsh⟩ ⟨hs, hm⟩
  obtain ⟨a', hstep, hrel'⟩ := refine_step hrel hs
  exact ⟨a', .cons ha hstep, hrel', hsh.step (Stage.inv_run s₀.initial_stages ha) hstep hm⟩

/-- **No node is lost or duplicated**, in every reachable state; so the node a pop
returns is handed to one thread only. -/
theorem conserved_run (hi : M.Initial s₀) (hk : ∀ t, k₀.jobs t = [.rest])
    (hc : L.Conserved [] s₀ k₀) (hr : LTS.Run (L.Step M) (s₀, k₀) h (s, k)) :
    L.Conserved h s k ∧
    ∀ t d head p x, L.Step M (s, k) (.act t d (.ret (L.popCall head) (.ok p))) x →
      L.isNode p ∧ p ∈ x.2.hand t ∧ ∀ u, p ∈ k.held h u ↔ u = t := by
  obtain ⟨a, ha, hrel, hsh⟩ := shape_run hi hk hc hr
  have hinv := Stage.inv_run s₀.initial_stages ha
  have hcom := Stage.committed_run s₀.initial_stages ha
  refine ⟨hsh.conserved hrel hinv hcom, fun t d head p x hx => ?_⟩
  obtain ⟨lists, place, hl, hh⟩ := hsh.placed
  obtain ⟨s', k'⟩ := x
  obtain ⟨hs, hm⟩ := hx
  have hret := hrel.ret hs
  generalize hact : Act.ret (L.popCall head) (.ok p) = act at hm
  cases hm with
  | turn hjobs ht =>
    cases ht with
    | popped =>
      cases hact
      obtain ⟨_, ⟨log, htop⟩ | ⟨_, he⟩⟩ := hret
      · have hplace := hh.place_of_top hjobs (p := p) (by rw [htop]; rfl)
        refine ⟨hl.isNode hplace, ?_, fun u => ?_⟩
        · show p ∈ Function.update k.hand t _ t
          rw [Function.update_self]
          exact List.mem_cons_self ..
        · rw [held_eq hinv hcom (hh.fits u), hh.mem_iff, hplace]
          refine ⟨fun he => ?_, fun he => by rw [he]⟩
          cases he
          rfl
      · cases he
    | idle hidle => subst hact; exact hidle.elim
    | _ => cases hact
  | _ => cases hact

/-- Instructions are no turn of a client. -/
theorem instr_run {s s' : Sys Tid M.img.Site} {t : Tid} {d : ℕ} {j : Job} {js : List Job}
    (hjobs : k.jobs t = j :: js) (hr : LTS.Run M.Step s h s') (hall : h.all (Label.instr t d)) :
    LTS.Run (L.Step M) (s, k) h (s', k) := by
  induction hr with
  | nil => exact .nil
  | @cons h s₁ s₂ l _ hs ih =>
    obtain ⟨hl, hall⟩ := Bool.and_eq_true_iff.mp (List.all_cons.symm.trans hall)
    refine .cons (ih hall) ⟨hs, ?_⟩
    cases l with
    | act u e act =>
      cases act with
      | exec o =>
        obtain ⟨rfl, rfl⟩ := of_decide_eq_true hl
        have hm : L.Moves (fun t => (s₁.thr t).area) s₁.mem k (.act u e (.exec o)) _ :=
          Moves.turn hjobs (Turn.idle (a := .exec o) trivial)
        rwa [Function.update_eq_self, ← hjobs, Function.update_eq_self] at hm
      | _ => cases hl
    | fenceRun => cases hl
    | write => cases hl

end Runs

/-! ### One pop -/

/-- One CPU and one node. -/
def oneNode : FreeList where
  words := ⟨0x8000, 1⟩
  off := 8
  isNode p := p = 0x9000
  nonzero p hp := by subst hp; decide
  apart p cpu hp hcpu := by
    obtain rfl : cpu = 0 := by bv_omega
    subst hp
    decide

/-- The node is on the list. -/
def oneNodeMem : Mem := fun a => if a = 0x8000 then 0x9000 else 0

/-- The one client, with nothing in hand. -/
def oneClient (j : Job) : Client Unit := ⟨fun _ => [], fun _ => [j]⟩

/-- It is there, on CPU 0. -/
def oneNodePlace (p : Usize) : Option (Place Unit) :=
  if p = 0x9000 then some (.list 0) else none

theorem oneNodePlace_of_ne {p : Usize} (hp : p ≠ 0x9000) : oneNodePlace p = none := if_neg hp

theorem oneNode_conserved :
    oneNode.Conserved [] (popMachine.boot oneNodeMem) (oneClient .rest) := by
  have hcpu {cpu : U32} (h : cpu < oneNode.words.cpus) : cpu = 0 := by
    have h1 : cpu < (1 : U32) := h
    bv_omega
  refine ⟨fun _ => [0x9000], oneNodePlace, fun cpu hlt => ⟨List.nodup_singleton _, ?_⟩,
    fun p => ?_, fun p cpu hp => ?_, fun p cpu hlt => ?_, fun p t => ?_⟩
  · rw [hcpu hlt]
    exact .cons (by decide) .nil
  · by_cases hp : p = 0x9000
    · subst hp
      exact iff_of_true rfl rfl
    · rw [oneNodePlace_of_ne hp]
      exact iff_of_false nofun hp
  · by_cases he : p = 0x9000
    · subst he
      cases hp
      decide
    · rw [oneNodePlace_of_ne he] at hp
      cases hp
  · rw [hcpu hlt]
    by_cases hp : p = 0x9000
    · subst hp
      rfl
    · rw [oneNodePlace_of_ne hp, if_neg nofun]
      exact List.count_eq_zero.mpr fun he => hp (List.mem_singleton.mp he)
  · by_cases hp : p = 0x9000
    · subst hp
      rfl
    · rw [oneNodePlace_of_ne hp]
      rfl

/-- A turn of the one client that leaves its hand empty. -/
theorem oneClient_moves {area : Unit → Area} {m : Mem} {d : ℕ} {act : Act} {j j' : Job}
    (ht : oneNode.Turn (area ()) m [] act j [] j') :
    oneNode.Moves area m (oneClient j) (.act () d act) (oneClient j') := by
  have hjobs : (oneClient j).jobs () = j :: [] := rfl
  have hm : oneNode.Moves area m (oneClient j) (.act () d act) _ := .turn hjobs ht
  have hupdate {β : Type} (f : Unit → β) (x : β) : Function.update f () x = fun _ => x :=
    funext fun u => by cases u; exact Function.update_self ..
  rwa [hupdate, hupdate] at hm

theorem popMachine_outside_zero : popMachine.img.Outside 0 :=
  Image.ofSites_outside_zero _ _ one_site

/-- The thread runs caller code on CPU 0. -/
def popStart : Sys Unit popMachine.img.Site :=
  popMachine.resumed () 0 0 (popMachine.boot oneNodeMem)

/-- It has picked the list of that CPU. -/
def popPicked : Sys Unit popMachine.img.Site :=
  { popStart with
    thr := Function.update popStart.thr ()
      { popStart.thr () with top := ⟨0, fun _ => 0, false, none, .idle⟩ } }

/-- Its call of `load_if_ne(head, 0, 8)`. -/
def oneCall : Call := oneNode.popCall (cpu0Word 0x8000)

/-- It has called `load_if_ne` there and reached the end of its block. -/
def popOne : List (Label Unit) × Sys Unit popMachine.img.Site :=
  (popMachine.solo () 15 (popMachine.called () oneCall soleSite popPicked)).get rfl

theorem popOne_run :
    LTS.Run (oneNode.Step popMachine) (popMachine.boot oneNodeMem, oneClient .rest)
      (popOne.1 ++ [.act () 0 (.call oneCall), .act () 0 .goto, .act () 0 (.resume 0 0)])
      (popOne.2, oneClient (.popping (cpu0Word 0x8000))) := by
  have hresume : oneNode.Step popMachine (popMachine.boot oneNodeMem, oneClient .rest)
      (.act () 0 (.resume 0 0)) (popStart, oneClient .rest) :=
    ⟨popMachine.step_resumed (s := popMachine.boot oneNodeMem) rfl (fun _ _ hr => by cases hr),
      oneClient_moves (.idle (show Idles (.resume 0 0) from trivial))⟩
  have hgoto : oneNode.Step popMachine (popStart, oneClient .rest) (.act () 0 .goto)
      (popPicked, oneClient (.pop (cpu0Word 0x8000))) :=
    ⟨.move (.goto 0 (fun _ => 0) false rfl rfl popMachine_outside_zero) nofun,
      oneClient_moves (.pop
        (show CpuId.new 0 = some ⟨0, by decide, by decide⟩ from rfl) rfl)⟩
  have hcall : oneNode.Step popMachine (popPicked, oneClient (.pop (cpu0Word 0x8000)))
      (.act () 0 (.call oneCall))
      (popMachine.called () oneCall soleSite popPicked, oneClient (.popping (cpu0Word 0x8000))) :=
    ⟨popMachine.step_called rfl rfl rfl rfl, oneClient_moves .popCall⟩
  have hsolo : LTS.Run popMachine.Step (popMachine.called () oneCall soleSite popPicked)
      popOne.1 popOne.2 :=
    popMachine.solo_run (show popMachine.solo () 15 _ = some popOne from (Option.some_get _).symm)
  exact (LTS.Run.cons (.cons (.single hresume) hgoto) hcall).append
    (instr_run (t := ()) (d := 0) rfl hsolo (by decide))

/-- The node it is about to return is in no other hand. -/
theorem conserved_run_popOne :
    (∃ x, oneNode.Step popMachine (popOne.2, oneClient (.popping (cpu0Word 0x8000)))
      (.act () 0 (.ret oneCall (.ok 0x9000))) x) ∧
    oneNode.Conserved (popOne.1 ++ [.act () 0 (.call oneCall), .act () 0 .goto,
      .act () 0 (.resume 0 0)]) popOne.2 (oneClient (.popping (cpu0Word 0x8000))) := by
  have hret : ∃ s', popMachine.Step popOne.2 (.act () 0 (.ret oneCall (.ok 0x9000))) s' :=
    popMachine.step_returned soleSite (by decide +kernel) rfl (by decide +kernel)
      popMachine_outside_zero (by decide +kernel)
  obtain ⟨s', hs⟩ := hret
  exact ⟨⟨(s', _), hs, .turn rfl .popped⟩, (conserved_run (Machine.ofSites_initial _ _ _ _)
    (fun _ => rfl) oneNode_conserved popOne_run).1⟩

end FreeList

end RseqRs
