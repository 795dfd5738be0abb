import RseqRs.Lib.Stacks
import RseqRs.Model.FreeList
import RseqRs.Stage.Invariant

/-!
# The shape of the per-CPU lists

Where each node is, as the stage machine sees it. `Listed` is about the memory: the
words of every CPU spell out its list, and a node is on the list it is placed on.
`Held` is about the threads: what their contexts do fits their jobs, and a node is
in the variables of the thread it is placed with, once.

A commit of a pop moves the node at a head from its list to a thread, and a commit
of a push moves one back; no other step moves a node.
-/

namespace RseqRs

namespace Words

/-- Different slots lie at different addresses. -/
theorem addr_inj {ws : Words} {i j : U32} (h : ws.addr i = ws.addr j) : i = j := by
  have hmul : i.setWidth 64 * 8 = j.setWidth 64 * 8 := add_left_cancel h
  have hi := i.isLt
  have hj := j.isLt
  have h8 : (8 : Usize).toNat = 8 := rfl
  apply BitVec.eq_of_toNat_eq
  have hnat := congrArg BitVec.toNat hmul
  -- eight times an index below `2 ^ 32` does not wrap in 64 bits
  simp only [BitVec.toNat_mul, BitVec.toNat_setWidth, h8] at hnat
  omega

theorem get_eq_some {K : Index} {ws : Words} {key : K.Key} {w : Word K}
    (h : ws.get key = some w) : K.get key < ws.cpus ∧ w = ⟨ws.addr (K.get key), key⟩ := by
  unfold get at h
  split at h
  · next hlt => exact ⟨hlt, (Option.some_inj.mp h).symm⟩
  · cases h

end Words

/-! ### Stacks in memory -/

/-- The words of a region head stacks of nodes, which are linked through the cells `link`. -/
structure Spelled (ws : Words) (link : Usize → Usize) (isNode : Usize → Prop) (m : Mem)
    (lists : U32 → List Usize) {Tid : Type} (place : Usize → Option (Place Tid)) : Prop where
  chains : Stacks (fun p => m (link p)) 0 (· < ws.cpus) .list (fun cpu => m (ws.addr cpu)) lists
    place
  node : ∀ p, (place p).isSome ↔ isNode p
  cpu : ∀ p cpu, place p = some (.list cpu) → cpu < ws.cpus

namespace Spelled

variable {ws : Words} {link : Usize → Usize} {isNode : Usize → Prop} {Tid : Type} {m m' : Mem}
  {lists : U32 → List Usize} {place : Usize → Option (Place Tid)} {p q : Usize} {cpu : U32}

theorem isNode_of (hl : Spelled ws link isNode m lists place) {x : Place Tid}
    (hp : place p = some x) : isNode p := (hl.node p).mp (hp ▸ rfl)

/-- The lists stay if no head changes, and no link of a node on a list. -/
theorem congr (hl : Spelled ws link isNode m lists place)
    (hhead : ∀ cpu, cpu < ws.cpus → m' (ws.addr cpu) = m (ws.addr cpu))
    (hlink : ∀ p cpu, place p = some (.list cpu) → m' (link p) = m (link p)) :
    Spelled ws link isNode m' lists place :=
  ⟨hl.chains.congr hhead fun p cpu _ => hlink p cpu, hl.node, hl.cpu⟩

/-- **A head is written**: the stacks that fit the new head, and move no node out of sight, are
spelled out. -/
theorem setHead (hl : Spelled ws link isNode m lists place) (hcpu : cpu < ws.cpus)
    (hapart : ∀ p, isNode p → link p ≠ ws.addr cpu)
    {lists' : U32 → List Usize} {x : Place Tid} (hp : (place p).isSome)
    (hx : ∀ c, x = .list c → c < ws.cpus)
    (hs : Stacks (fun p => m (link p)) 0 (· < ws.cpus) .list
      (Function.update (fun cpu => m (ws.addr cpu)) cpu q) lists'
      (Function.update place p (some x))) :
    Spelled ws link isNode (Function.update m (ws.addr cpu) q) lists'
      (Function.update place p (some x)) := by
  have hnode (r : Usize) : (Function.update place p (some x) r).isSome ↔ isNode r := by
    rw [← hl.node r]
    by_cases hr : r = p
    · subst hr
      rw [Function.update_self]
      exact iff_of_true rfl hp
    · rw [Function.update_of_ne hr]
  -- the heads, the links of the nodes on a list, and where a node may be placed
  refine ⟨hs.congr (fun c _ => ?_) fun r c _ hr => ?_, hnode, fun r c hr => ?_⟩
  · by_cases he : c = cpu
    · subst he
      rw [Function.update_self, Function.update_self]
    · have haddr : ws.addr c ≠ ws.addr cpu := fun h => he (Words.addr_inj h)
      rw [Function.update_of_ne he, Function.update_of_ne haddr]
  · exact Function.update_of_ne (hapart r ((hnode r).mp (hr ▸ rfl))) _ _
  · by_cases he : r = p
    · subst he
      rw [Function.update_self] at hr
      exact hx c (Option.some_inj.mp hr)
    · rw [Function.update_of_ne he] at hr
      exact hl.cpu r c hr

/-- **A pop commits**: the node at the head goes to a thread, and the head becomes the link of
the node. -/
theorem pop (hl : Spelled ws link isNode m lists place) (hcpu : cpu < ws.cpus)
    (hapart : ∀ p, isNode p → link p ≠ ws.addr cpu) (hp : m (ws.addr cpu) = p) (hne : p ≠ 0)
    (t : Tid) : ∃ lists', Spelled ws link isNode
      (Function.update m (ws.addr cpu) (m (link p))) lists'
      (Function.update place p (some (.thread t))) := by
  have hinj : Function.Injective (.list : U32 → Place Tid) := fun _ _ h => Place.list.inj h
  obtain ⟨lists', hs⟩ := hl.chains.pop (x := .thread t) hinj (fun _ => nofun) hcpu hp hne
  have hplace : place p = some (.list cpu) := hp ▸ hl.chains.place_head hcpu (hp ▸ hne)
  exact ⟨lists', hl.setHead hcpu hapart (hplace ▸ rfl) (fun _ => nofun) hs⟩

/-- **A push commits**: a node of a thread, linked to the head, becomes the head. -/
theorem push (hl : Spelled ws link isNode m lists place) (hcpu : cpu < ws.cpus)
    (hapart : ∀ p, isNode p → link p ≠ ws.addr cpu) {t : Tid}
    (hp : place p = some (.thread t)) (hne : p ≠ 0) (hlink : m (link p) = m (ws.addr cpu)) :
    ∃ lists', Spelled ws link isNode (Function.update m (ws.addr cpu) p) lists'
      (Function.update place p (some (.list cpu))) := by
  have hinj : Function.Injective (.list : U32 → Place Tid) := fun _ _ h => Place.list.inj h
  obtain ⟨lists', hs⟩ := hl.chains.push (x := .thread t) hinj (fun _ => nofun) hcpu hp hne hlink
  exact ⟨lists', hl.setHead hcpu hapart (hp ▸ rfl) (fun c he => Place.list.inj he ▸ hcpu) hs⟩

end Spelled

namespace FreeList

variable (L : FreeList)

/-- The head word of a CPU. -/
def IsHead (head : Word .cpuId) : Prop :=
  head.key.id < L.words.cpus ∧ head.word = L.words.addr head.key.id

/-- The context is in no word op. -/
def Apart : Work → Prop
  | .op _ _ _ | .refused _ => False
  | _ => True

/-- What a context does fits its job. -/
def Fits (w : Work) : Job → Prop
  | .rest | .push _ => Apart w
  | .pop head | .pushTo _ head | .pushOn _ head _ => Apart w ∧ L.IsHead head
  | .popping head => L.IsHead head ∧ ∃ st log, w = .op (L.popCall head) st log
  | .pushing node head h => L.IsHead head ∧ ∃ st log, w = .op (L.pushCall node head h) st log

end FreeList

/-- The node a context holds in its job. -/
def Job.nodeAt (w : Work) : Job → Option Usize
  | .rest | .pop _ => none
  | .popping _ =>
    match w with
    | .op _ (.finishing (.ok p)) _ => some p
    | _ => none
  | .push node | .pushTo node _ | .pushOn node _ _ => some node
  | .pushing node _ _ =>
    match w with
    | .op _ (.finishing (.ok _)) _ => none
    | _ => some node

/-- The nodes in the jobs of a thread. -/
def nodesAt : List Work → List Job → List Usize
  | w :: ws, j :: js => (j.nodeAt w).toList ++ nodesAt ws js
  | _, _ => []

namespace FreeList

/-! ### Fitting jobs -/

section Fits

variable {L : FreeList} {w : Work} {j : Job}

theorem nodeAt_event : j.nodeAt w.event = j.nodeAt w := by
  cases j with
  | popping head =>
    cases w with
    | op c st log => cases st <;> rfl
    | _ => rfl
  | pushing node head h =>
    cases w with
    | op c st log => cases st <;> rfl
    | _ => rfl
  | _ => rfl

theorem Fits.event (h : L.Fits w j) : L.Fits w.event j := by
  have happart (ha : Apart w) : Apart w.event := by
    cases w with
    | op c st log => exact ha.elim
    | _ => exact ha
  have hop {c : Call} (hc : ∃ st log, w = .op c st log) : ∃ st log, w.event = .op c st log := by
    obtain ⟨st, log, rfl⟩ := hc
    cases st <;> exact ⟨_, _, rfl⟩
  cases j with
  | rest => exact happart h
  | push node => exact happart h
  | pop head => exact ⟨happart h.1, h.2⟩
  | pushTo node head => exact ⟨happart h.1, h.2⟩
  | pushOn node head x => exact ⟨happart h.1, h.2⟩
  | popping head => exact ⟨h.1, hop h.2⟩
  | pushing node head x => exact ⟨h.1, hop h.2⟩

/-- Outside the word ops it does not matter what the context does. -/
theorem Fits.apart (h : L.Fits w j) (ha : Apart w) {w' : Work} (ha' : Apart w') :
    L.Fits w' j ∧ j.nodeAt w' = j.nodeAt w := by
  cases j with
  | rest => exact ⟨ha', rfl⟩
  | push node => exact ⟨ha', rfl⟩
  | pop head => exact ⟨⟨ha', h.2⟩, rfl⟩
  | pushTo node head => exact ⟨⟨ha', h.2⟩, rfl⟩
  | pushOn node head x => exact ⟨⟨ha', h.2⟩, rfl⟩
  | popping head => obtain ⟨_, _, _, rfl⟩ := h; exact ha.elim
  | pushing node head x => obtain ⟨_, _, _, rfl⟩ := h; exact ha.elim

/-- A context that is in a word op is popping or pushing. -/
theorem Fits.op {c : Call} {st : Stage} {log : List Acc} (h : L.Fits (.op c st log) j) :
    (∃ head, j = .popping head ∧ L.IsHead head ∧ c = L.popCall head) ∨
      ∃ node head x, j = .pushing node head x ∧ L.IsHead head ∧ c = L.pushCall node head x := by
  cases j with
  | rest => exact h.elim
  | push node => exact h.elim
  | pop head => exact h.1.elim
  | pushTo node head => exact h.1.elim
  | pushOn node head x => exact h.1.elim
  | popping head =>
    obtain ⟨hhead, _, _, he⟩ := h
    cases he
    exact Or.inl ⟨head, rfl, hhead, rfl⟩
  | pushing node head x =>
    obtain ⟨hhead, _, _, he⟩ := h
    cases he
    exact Or.inr ⟨node, head, x, rfl, hhead, rfl⟩

end Fits

/-! ### The lists in memory -/

/-- The words of the lists hold `lists`, and `place` says of each node where it is. -/
structure Listed (L : FreeList) (m : Mem) (lists : U32 → List Usize) {Tid : Type}
    (place : Usize → Option (Place Tid)) : Prop where
  linked : ∀ cpu, cpu < L.words.cpus →
    Linked (fun p => m (p + L.off)) 0 (m (L.words.addr cpu)) (lists cpu)
  node : ∀ p, (place p).isSome ↔ L.isNode p
  cpu : ∀ p cpu, place p = some (.list cpu) → cpu < L.words.cpus
  mem : ∀ p cpu, cpu < L.words.cpus → (p ∈ lists cpu ↔ place p = some (.list cpu))

section Listed

variable {Tid : Type} {L : FreeList} {m m' : Mem} {lists : U32 → List Usize}
  {place : Usize → Option (Place Tid)} {p q : Usize} {cpu : U32}

theorem Listed.isNode (hl : Listed L m lists place) {x : Place Tid} (hp : place p = some x) :
    L.isNode p := (hl.node p).mp (hp ▸ rfl)

theorem Listed.spelled (hl : Listed L m lists place) :
    Spelled L.words (· + L.off) L.isNode m lists place := ⟨⟨hl.linked, hl.mem⟩, hl.node, hl.cpu⟩

theorem listed_of (hl : Spelled L.words (· + L.off) L.isNode m lists place) :
    Listed L m lists place := ⟨hl.chains.linked, hl.node, hl.cpu, hl.chains.mem⟩

/-- What a head holds, unless it is `0`, is a node on its list. -/
theorem Listed.place_head (hl : Listed L m lists place) (hcpu : cpu < L.words.cpus)
    (hp : m (L.words.addr cpu) = p) (hne : p ≠ 0) : place p = some (.list cpu) :=
  hp ▸ hl.spelled.chains.place_head hcpu (hp ▸ hne)

/-- The lists stay if no head changes, and no link of a node on a list. -/
theorem Listed.congr (hl : Listed L m lists place)
    (hhead : ∀ cpu, cpu < L.words.cpus → m' (L.words.addr cpu) = m (L.words.addr cpu))
    (hlink : ∀ p cpu, place p = some (.list cpu) → m' (p + L.off) = m (p + L.off)) :
    Listed L m' lists place := listed_of (hl.spelled.congr hhead hlink)

/-- A pop takes the node at a head off its list. -/
theorem Listed.pop (hl : Listed L m lists place) (hcpu : cpu < L.words.cpus)
    (hp : m (L.words.addr cpu) = p) (hne : p ≠ 0) (t : Tid) :
    ∃ lists', Listed L (Function.update m (L.words.addr cpu) (m (p + L.off))) lists'
      (Function.update place p (some (.thread t))) := by
  obtain ⟨lists', hl'⟩ := hl.spelled.pop hcpu (fun p hp => L.apart p cpu hp hcpu) hp hne t
  exact ⟨lists', listed_of hl'⟩

/-- A push puts a node of a thread at a head. -/
theorem Listed.push (hl : Listed L m lists place) (hcpu : cpu < L.words.cpus) {t : Tid}
    (hp : place p = some (.thread t)) (hlink : m (p + L.off) = m (L.words.addr cpu)) :
    ∃ lists', Listed L (Function.update m (L.words.addr cpu) p) lists'
      (Function.update place p (some (.list cpu))) := by
  obtain ⟨lists', hl'⟩ := hl.spelled.push hcpu (fun p hp => L.apart p cpu hp hcpu) hp
    (L.nonzero p (hl.isNode hp)) hlink
  exact ⟨lists', listed_of hl'⟩

end Listed

/-! ### The nodes of the threads -/

section Held

variable {Tid : Type} [DecidableEq Tid]

/-- The nodes a thread holds. -/
def heldAt (a : Stage.Sys Tid) (k : Client Tid) (t : Tid) : List Usize :=
  k.hand t ++ nodesAt (a.thr t).stack (k.jobs t)

/-- The contexts fit their jobs, and a thread holds the nodes placed with it. -/
structure Held (L : FreeList) (a : Stage.Sys Tid) (k : Client Tid)
    (place : Usize → Option (Place Tid)) : Prop where
  fits : ∀ t, List.Forall₂ L.Fits (a.thr t).stack (k.jobs t)
  count : ∀ p t, (heldAt a k t).count p = if place p = some (.thread t) then 1 else 0

variable {L : FreeList} {a a' : Stage.Sys Tid} {k : Client Tid}
  {place place' : Usize → Option (Place Tid)} {t : Tid} {p : Usize} {j : Job} {js : List Job}

/-- The job of the running context. -/
theorem Held.top (hh : Held L a k place) (t : Tid) :
    ∃ j js, k.jobs t = j :: js ∧ L.Fits (a.thr t).top j ∧
      List.Forall₂ L.Fits (a.thr t).below js := by
  have hfits := hh.fits t
  generalize hjobs : k.jobs t = jobs at hfits
  cases hfits with
  | cons hj hjs => exact ⟨_, _, rfl, hj, hjs⟩

theorem Held.mem_iff (hh : Held L a k place) :
    p ∈ heldAt a k t ↔ place p = some (.thread t) := by
  rw [← List.count_pos_iff, hh.count p t]
  by_cases hp : place p = some (.thread t)
  · rw [if_pos hp]
    exact iff_of_true Nat.one_pos hp
  · rw [if_neg hp]
    exact iff_of_false (lt_irrefl 0) hp

/-- The node in the job of the running context is held. -/
theorem Held.place_of_top (hh : Held L a k place) (hjobs : k.jobs t = j :: js)
    (hp : j.nodeAt (a.thr t).top = some p) : place p = some (.thread t) := by
  refine hh.mem_iff.mp ?_
  unfold heldAt
  rw [hjobs]
  refine List.mem_append_right _ (List.mem_append_left _ ?_)
  rw [hp]
  exact List.mem_singleton_self _

omit [DecidableEq Tid] in
/-- What counts as held by a thread, by its parts. -/
theorem count_heldAt {w : Work} {ws : List Work} (hs : (a.thr t).stack = w :: ws)
    (hjobs : k.jobs t = j :: js) :
    (heldAt a k t).count p =
      (k.hand t).count p + ((j.nodeAt w).toList.count p + (nodesAt ws js).count p) := by
  unfold heldAt
  rw [hs, hjobs, List.count_append]
  exact congrArg _ (List.count_append ..)

/-- **One thread does something**: it may put another work on top, with another job
that fits, and move nodes between its hand, that job and the lists. -/
theorem Held.turn (hh : Held L a k place) (hjobs : k.jobs t = j :: js) {x : Stage.Thr} {m : Mem}
    {hand' : List Usize} {j' : Job} (hbelow : x.below = (a.thr t).below)
    (hfit : L.Fits x.top j')
    (hplace : ∀ p u, u ≠ t → (place' p = some (.thread u) ↔ place p = some (.thread u)))
    (hcount : ∀ p, hand'.count p + (j'.nodeAt x.top).toList.count p +
        (if place p = some (.thread t) then 1 else 0) =
      (k.hand t).count p + (j.nodeAt (a.thr t).top).toList.count p +
        (if place' p = some (.thread t) then 1 else 0)) :
    Held L { a with mem := m, thr := Function.update a.thr t x }
      { hand := Function.update k.hand t hand'
        jobs := Function.update k.jobs t (j' :: js) } place' := by
  refine ⟨fun u => ?_, fun p u => ?_⟩
  · show List.Forall₂ L.Fits (Function.update a.thr t x u).stack
      (Function.update k.jobs t (j' :: js) u)
    by_cases hu : u = t
    · subst hu
      rw [Function.update_self, Function.update_self]
      have hfits := hh.fits u
      rw [hjobs] at hfits
      cases hfits with
      | cons _ hjs => exact .cons hfit (hbelow ▸ hjs)
    · rw [Function.update_of_ne hu, Function.update_of_ne hu]
      exact hh.fits u
  · by_cases hu : u = t
    · subst hu
      have hold := hh.count p u
      rw [count_heldAt rfl hjobs] at hold
      have hstack : (Function.update a.thr u x u).stack = x.top :: (a.thr u).below := by
        rw [Function.update_self, ← hbelow]
        rfl
      rw [count_heldAt hstack (Function.update_self ..)]
      --       -- the contexts below and their nodes are the same on both sides
      have hnew := hcount p
      show (Function.update k.hand u hand' u).count p + _ = _
      rw [Function.update_self]
      omega
    · have hsame : heldAt { a with mem := m, thr := Function.update a.thr t x }
          { hand := Function.update k.hand t hand'
            jobs := Function.update k.jobs t (j' :: js) } u = heldAt a k u := by
        unfold heldAt
        show Function.update k.hand t hand' u ++ nodesAt (Function.update a.thr t x u).stack
          (Function.update k.jobs t (j' :: js) u) = _
        rw [Function.update_of_ne hu, Function.update_of_ne hu, Function.update_of_ne hu]
      rw [hsame, hh.count p u]
      exact if_congr (hplace p u hu).symm rfl rfl

/-- Nothing moves if the running context keeps its job and the node in it. -/
theorem Held.keep (hh : Held L a k place) (hjobs : k.jobs t = j :: js) {x : Stage.Thr} {m : Mem}
    (hbelow : x.below = (a.thr t).below) (hfit : L.Fits x.top j)
    (hnode : j.nodeAt x.top = j.nodeAt (a.thr t).top) :
    Held L { a with mem := m, thr := Function.update a.thr t x }
      { hand := Function.update k.hand t (k.hand t)
        jobs := Function.update k.jobs t (j :: js) } place :=
  hh.turn hjobs hbelow hfit (fun _ _ _ => Iff.rfl) fun p => by rw [hnode]

/-- What holds of contexts and jobs one by one does not depend on how they are stacked. -/
theorem Held.stack (hh : Held L a k place) {k' : Client Tid} (hhand : k'.hand = k.hand)
    (hfits : ∀ t, List.Forall₂ L.Fits (a'.thr t).stack (k'.jobs t))
    (hnodes : ∀ t, nodesAt (a'.thr t).stack (k'.jobs t) = nodesAt (a.thr t).stack (k.jobs t)) :
    Held L a' k' place := by
  refine ⟨hfits, fun p t => ?_⟩
  have hsame : heldAt a' k' t = heldAt a k t := by
    unfold heldAt
    rw [hhand, hnodes]
  rw [hsame]
  exact hh.count p t

/-- One thread stacks its contexts in another way: it enters a handler, or leaves it. -/
theorem Held.restack (hh : Held L a k place) {x : Stage.Thr} {m : Mem} {js' : List Job}
    (hfits : List.Forall₂ L.Fits x.stack js')
    (hnodes : nodesAt x.stack js' = nodesAt (a.thr t).stack (k.jobs t)) :
    Held L { a with mem := m, thr := Function.update a.thr t x }
      { k with jobs := Function.update k.jobs t js' } place := by
  refine hh.stack rfl (fun u => ?_) fun u => ?_
  · show List.Forall₂ L.Fits (Function.update a.thr t x u).stack (Function.update k.jobs t js' u)
    by_cases hu : u = t
    · subst hu
      rw [Function.update_self, Function.update_self]
      exact hfits
    · rw [Function.update_of_ne hu, Function.update_of_ne hu]
      exact hh.fits u
  · show nodesAt (Function.update a.thr t x u).stack (Function.update k.jobs t js' u) = _
    by_cases hu : u = t
    · subst hu
      rw [Function.update_self, Function.update_self]
      exact hnodes
    · rw [Function.update_of_ne hu, Function.update_of_ne hu]

end Held

end FreeList

end RseqRs
