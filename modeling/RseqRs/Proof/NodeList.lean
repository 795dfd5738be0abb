import RseqRs.Model.NodeList
import RseqRs.Proof.AddAt
import RseqRs.Proof.ListShape

/-!
# Popping in three steps

Heads are written under their own key, so the head that `compare_exchange` has loaded is still
there when it commits (`LoadsHold`). The link is not protected: it was read before the section,
and meanwhile the node may have been popped, linked elsewhere and pushed again. Then the swap
succeeds, and the head becomes a link that is out of date (`not_keeps`). Where the link is as
it was read, the swap takes exactly that node off its list, and nothing else goes wrong: `add`
leaves the head as it is, and a push writes the link of a node that its thread holds
(`keeps_of_linkKept`).
-/

namespace RseqRs

/-- A word as `Words::get` gives it. -/
def Words.IsWord (ws : Words) (w : Word .cpuId) : Prop :=
  w.key.id < ws.cpus ∧ w.word = ws.addr w.key.id

/-- The work is a word op that has committed. -/
def Work.done : Work → Bool
  | .op _ (.finishing (.ok _)) _ => true
  | _ => false

/-- The heads that are swapped are not `EMPTY`. -/
def Task.Ok : Task → Prop
  | .cas head _ => head ≠ 0
  | _ => True

def ListOp.Ok : ListOp → Prop
  | .cas head _ => head ≠ 0
  | _ => True

namespace NodeList

variable {Tid : Type} [DecidableEq Tid] (L : NodeList)

/-- What a thread does fits its job. -/
def Fits (w : Work) : ListJob → Prop
  | .rest => FreeList.Apart w
  | .got head => FreeList.Apart w ∧ head ≠ 0
  | .loop k => FreeList.Apart w ∧ k.Ok
  | .picked k x => FreeList.Apart w ∧ k.Ok ∧ L.words.IsWord x
  | .headed _ x _ => FreeList.Apart w ∧ L.words.IsWord x
  | .calling r x => r.Ok ∧ L.words.IsWord x ∧ ∃ st log, w = .op (L.call x r) st log

/-- The threads fit their jobs, and hold the nodes placed with them. -/
structure Held (a : Stage.Sys Tid) (k : Tid → ListJob) (place : Usize → Option (Place Tid)) :
    Prop where
  below : ∀ t, (a.thr t).below = []
  fits : ∀ t, L.Fits (a.thr t).top (k t)
  held : ∀ p t, (k t).holds (a.thr t).top.done = some p ↔ place p = some (.thread t)

/-- **The invariant** of the bench. -/
structure Shape (a : Stage.Sys Tid) (k : Tid → ListJob) : Prop where
  /-- what an attempt has loaded from a head is there -/
  loads : ∀ cpu, cpu < L.words.cpus →
    Stage.LoadsHold (Stage.ownedBy (L.words.addr cpu) (.cpuId, cpu)) a
  /-- the link that a push has prepared is there -/
  prepared : ∀ t node head w u log x v, (a.thr t).running = true →
    (a.thr t).top = .op (L.call w (.store node head)) (.inside u) log →
    Access.store x v ∈ log → a.mem (L.cell node) = head
  placed : ∃ lists place, Spelled L.words L.cell L.IsNode a.mem lists place ∧ L.Held a k place

variable {M : Machine Tid} {L} {a a' : Stage.Sys Tid} {k k' : Tid → ListJob}
  {lists : U32 → List Usize} {place place' : Usize → Option (Place Tid)} {h : List (Label Tid)}
  {l : Label Tid} {t : Tid} {d : ℕ} {w : Work} {j : ListJob}

/-! ### Jobs -/

section Jobs

omit [DecidableEq Tid] in
theorem cell_apart {p : Usize} {cpu : U32} (hp : L.IsNode p) (hcpu : cpu < L.words.cpus) :
    L.cell p ≠ L.words.addr cpu := L.apart p cpu hp.2 hcpu

/-- Different nodes are linked through different cells. -/
theorem cell_inj {p q : Usize} (hp : L.IsNode p) (hq : L.IsNode q) (h : L.cell p = L.cell q) :
    p = q := by
  have hmul : p * 8 = q * 8 := add_left_cancel h
  have hfits := L.fits
  have hp' := hp.2
  have hq' := hq.2
  have h8 : (8 : Usize).toNat = 8 := rfl
  have hnat := congrArg BitVec.toNat hmul
  simp only [BitVec.toNat_mul, h8] at hnat
  rw [Nat.mod_eq_of_lt (by omega), Nat.mod_eq_of_lt (by omega)] at hnat
  exact BitVec.eq_of_toNat_eq (by omega)

omit [DecidableEq Tid] in
theorem call_tag {x : Word .cpuId} {r : ListOp} : (L.call x r).tag = (.cpuId, x.key.id) := by
  cases r <;> rfl

/-- A call in flight is the op of the job. -/
theorem Fits.op {c : Call} {st : Stage} {log : List Acc} (h : L.Fits (.op c st log) j) :
    ∃ r x, j = .calling r x ∧ r.Ok ∧ L.words.IsWord x ∧ c = L.call x r := by
  cases j with
  | rest => exact h.elim
  | got head => exact h.1.elim
  | loop k => exact h.1.elim
  | picked k x => exact h.1.elim
  | headed node x head => exact h.1.elim
  | calling r x =>
    obtain ⟨hr, hx, _, _, he⟩ := h
    cases he
    exact ⟨r, x, rfl, hr, hx, rfl⟩

/-- The kernel's rule changes neither the op nor whether it has committed. -/
theorem Fits.event (h : L.Fits w j) : L.Fits w.event j ∧ w.event.done = w.done := by
  cases w with
  | op c st log =>
    obtain ⟨r, x, rfl, hr, hx, rfl⟩ := h.op
    cases st <;> exact ⟨⟨hr, hx, _, _, rfl⟩, rfl⟩
  | _ => exact ⟨h, rfl⟩

end Jobs

/-! ### What an op does -/

/-- What an instruction of an op on `x` does to the memory, and whether it has committed before
and after. -/
inductive Effect (L : NodeList) (x : Word .cpuId) (m : Mem) :
    ListOp → Mem → Bool → Bool → Prop
  | quiet {r : ListOp} {b : Bool} : Effect L x m r m b b
  /-- `add` puts back what is there -/
  | add {b : Bool} : Effect L x m .add m b true
  | scratch {node head : Usize} :
      Effect L x m (.store node head) (Function.update m (L.cell node) head) false false
  | pop {head nxt : Usize} : m x.word = head →
      Effect L x m (.cas head nxt) (Function.update m x.word nxt) false true
  | push {node head : Usize} : m x.word = head → m (L.cell node) = head →
      Effect L x m (.store node head) (Function.update m x.word node) false true

section Effect

variable {r : ListOp} {x : Word .cpuId} {st st' : Stage} {log acc : List Acc} {o : Obs}
  {idx : Index → U32} {i : U32} {m m' : Mem}

/-- The last access of an op writes its word. -/
theorem commit_written {b : Acc} {v : Usize}
    (h : ((L.call x r).op.tree).Ends (log ++ [b]) (.ok v)) : b.written = some x.word := by
  have hcom := Op.committed_of_ends h
  have hlast {l : List Acc} {c : Acc} (he : log ++ [b] = l ++ [c]) : b = c :=
    List.singleton_inj.mp (List.append_inj' he rfl).2
  cases r with
  | add => rw [hlast (l := [_, _]) hcom]; rfl
  | cas head nxt => rw [hlast (l := [_, _]) hcom.2]; rfl
  | store node head => rw [hlast (l := [_, _, _]) hcom.2]; rfl

omit [DecidableEq Tid] in
/-- An op writes its word, or the link it prepares. -/
theorem written {b : Acc} {last : Bool} {y : Usize}
    (hok : Stage.Ok idx acc (.op (L.call x r) st log))
    (hs : Stage.Step (Stage.tree (L.call x r)) i m st (.acc b last) st' m')
    (hb : b.written = some y) :
    y = x.word ∨ ∃ node head u, r = .store node head ∧ st = .inside u ∧ y = L.cell node := by
  have hpath := hok.2.2
  cases hs with
  | access hn hr =>
    cases hn with
    | index k i => cases hb
    | load c k v => cases hb
    | scratch c v k =>
      obtain ⟨_, _, _, _, hop, rfl⟩ := Op.scratches_tree (hpath.1.scratches (.scratch c v _))
      cases hb
      cases r with
      | add => cases hop
      | cas head nxt => cases hop
      | store node head => cases hop; exact Or.inr ⟨_, _, _, rfl, rfl, rfl⟩
  | commit hc =>
    exact Or.inl (Option.some_inj.mp (hb.symm.trans (commit_written (.commit hpath.1 hc))))

omit [DecidableEq Tid] in
/-- **Every instruction of an op**, if what it has loaded from the head is there, and the link
it has prepared. -/
theorem effect (hok : Stage.Ok idx acc (.op (L.call x r) st log))
    (hs : Stage.Step (Stage.tree (L.call x r)) i m st o st' m')
    (hload : ∀ u v, st = .inside u → .load x.word v ∈ log → (∀ w, .store x.word w ∉ log) →
      m x.word = v)
    (hprep : ∀ node head u y v, r = .store node head → st = .inside u → .store y v ∈ log →
      m (L.cell node) = head)
    (hne : ∀ node head u, r = .store node head → st = .inside u → L.cell node ≠ x.word) :
    L.Effect x m r m' (Work.op (L.call x r) st log).done
      (Work.op (L.call x r) st' (o.extend log)).done := by
  have hpath := hok.2.2
  cases hs with
  | enter => exact .quiet
  | arm => exact .quiet
  | tau => exact .quiet
  | exit => exact .quiet
  | @leave res => cases res <;> exact .quiet
  | @access u u' b hn hr =>
    cases b with
    | index j => exact .quiet
    | load y v => exact .quiet
    | store y v =>
      -- the scratch store of a push
      obtain ⟨_, _, _, _, hop, rfl⟩ := Op.scratches_tree (hpath.1.scratches hn)
      cases r with
      | add => cases hop
      | cas head nxt => cases hop
      | store node head => cases hop; exact .scratch
  | @commit u b v hc =>
    have hends : (Stage.tree (L.call x r)).Ends (log ++ [b]) (.ok v) := .commit hpath.1 hc
    cases r with
    | add =>
      have hw : b.written = some x.word := commit_written hends
      have hstep : Stage.Step (Stage.tree (L.call x .add)) i m (.inside u) (.acc b true)
          (.finishing (.ok v)) (b.apply m) := .commit hc
      have hsame : b.apply m = m := by
        funext y
        by_cases hy : b.written = some y
        · obtain rfl : x.word = y := Option.some_inj.mp (hw.symm.trans hy)
          obtain ⟨_, _, hadd⟩ := hok.adds hstep (n := 0) rfl hw fun u v hu hv =>
            hload u v hu hv fun w hst => by
              have hno := hok.not_wrote (x := x.word) (n := 0) rfl
              exact absurd (decide_eq_true rfl) (List.any_eq_false.mp hno _ hst)
          rw [hadd, add_zero]
        · exact hstep.mem_eq fun a last he => by cases he; exact hy
      rw [hsame]
      exact .add
    | cas head nxt =>
      obtain ⟨rfl, hcom⟩ := Op.committed_of_ends hends
      replace hcom : log ++ [b] = [_, .load x.word v] ++ [.store x.word nxt] := hcom
      obtain ⟨rfl, hb⟩ := List.append_inj' hcom rfl
      obtain rfl := List.singleton_inj.mp hb
      exact .pop (hload u v rfl (by simp) (by simp))
    | store node head =>
      obtain ⟨rfl, hcom⟩ := Op.committed_of_ends hends
      replace hcom : log ++ [b] =
        [_, .load x.word v, .store (L.cell node) v] ++ [.store x.word node] := hcom
      obtain ⟨rfl, hb⟩ := List.append_inj' hcom rfl
      obtain rfl := List.singleton_inj.mp hb
      have hapart := hne node v u rfl rfl
      exact .push (hload u v rfl (by simp) (by simpa using Ne.symm hapart))
        (hprep node v u (L.cell node) v rfl rfl (by simp))

end Effect

/-! ### One thread does something -/

section Held

/-- **One thread** may have another job, and move nodes between it and the lists. -/
theorem Held.turn (hh : L.Held a k place) {x : Stage.Thr}
    (ha : a'.thr = Function.update a.thr t x) (hbelow : x.below = []) (hfit : L.Fits x.top j)
    (hplace : ∀ p u, u ≠ t → (place' p = some (.thread u) ↔ place p = some (.thread u)))
    (hheld : ∀ p, j.holds x.top.done = some p ↔ place' p = some (.thread t)) :
    L.Held a' (Function.update k t j) place' := by
  have hother {u : Tid} (hu : u ≠ t) : Function.update a.thr t x u = a.thr u ∧
      Function.update k t j u = k u :=
    ⟨Function.update_of_ne hu _ _, Function.update_of_ne hu _ _⟩
  have hself : Function.update a.thr t x t = x ∧ Function.update k t j t = j :=
    ⟨Function.update_self .., Function.update_self ..⟩
  refine ⟨fun u => ?_, fun u => ?_, fun p u => ?_⟩ <;> rw [ha]
  · by_cases hu : u = t
    · rw [hu, hself.1]
      exact hbelow
    · rw [(hother hu).1]
      exact hh.below u
  · by_cases hu : u = t
    · rw [hu, hself.1, hself.2]
      exact hfit
    · rw [(hother hu).1, (hother hu).2]
      exact hh.fits u
  · by_cases hu : u = t
    · rw [hu, hself.1, hself.2]
      exact hheld p
    · rw [(hother hu).1, (hother hu).2, hplace p u hu]
      exact hh.held p u

/-- It keeps the node it holds, if it holds one. -/
theorem Held.keep (hh : L.Held a k place) {x : Stage.Thr}
    (ha : a'.thr = Function.update a.thr t x) (hbelow : x.below = []) (hfit : L.Fits x.top j)
    (hheld : j.holds x.top.done = (k t).holds (a.thr t).top.done) :
    L.Held a' (Function.update k t j) place :=
  hh.turn ha hbelow hfit (fun _ _ _ => Iff.rfl) fun p => by rw [hheld]; exact hh.held p t

omit [DecidableEq Tid] in
/-- A push that has not committed holds its node. -/
theorem Held.isNode (hh : L.Held a k place)
    (hl : Spelled L.words L.cell L.IsNode a.mem lists place) {x : Word .cpuId}
    {node head : Usize} {u : Sec} {log : List Acc}
    (htop : (a.thr t).top = .op (L.call x (.store node head)) (.inside u) log) :
    L.IsNode node ∧ place node = some (.thread t) := by
  have hfit := hh.fits t
  rw [htop] at hfit
  obtain ⟨r, y, hjob, _, _, hc⟩ := hfit.op
  have hplace : place node = some (.thread t) := by
    refine (hh.held node t).mp ?_
    rw [hjob, htop]
    cases r with
    | add => cases hc
    | cas head' nxt => cases hc
    | store node' head' => cases hc; rfl
  exact ⟨hl.isNode_of hplace, hplace⟩

end Held

/-! ### Steps -/

section Steps

/-- **An instruction** is one of the op of the job, and does what that op does. -/
theorem Shape.exec {o : Obs} (hsh : L.Shape a k) (hi : Stage.Inv h a)
    (hs : Stage.SysStep M a (.act t d (.exec o)) a') :
    ∃ r x st st' log, k t = .calling r x ∧ r.Ok ∧ L.words.IsWord x ∧
      (a.thr t).top = .op (L.call x r) st log ∧
      a'.thr = Function.update a.thr t { a.thr t with
        top := .op (L.call x r) st' (o.extend log) } ∧
      Stage.Step (Stage.tree (L.call x r)) ((a.thr t).index (L.call x r).K) a.mem st o st'
        a'.mem ∧
      L.Effect x a.mem r a'.mem (Work.op (L.call x r) st log).done
        (Work.op (L.call x r) st' (o.extend log)).done := by
  obtain ⟨_, hrun, c, st, st', log, htop, hthr, hst, _⟩ := hs.exec
  obtain ⟨lists, place, hl, hh⟩ := hsh.placed
  have hfit := hh.fits t
  have hok := hi.top t
  rw [htop] at hfit hok
  obtain ⟨r, x, hjob, hr, hx, rfl⟩ := hfit.op
  refine ⟨r, x, st, st', log, hjob, hr, hx, htop, hthr, hst, effect hok hst ?_ ?_ ?_⟩
  · rintro u v rfl hv hno
    refine hsh.loads _ hx.1 t _ u log hrun htop x.word v hv ?_ hno
    rw [hx.2, call_tag]
    exact if_pos rfl
  · rintro node head u y v rfl rfl hv
    exact hsh.prepared t node head x u log y v hrun htop hv
  · rintro node head u rfl rfl he
    exact cell_apart (hh.isNode hl htop).1 hx.1 (he.trans hx.2)

/-- Heads are written under their own key. -/
theorem Shape.respects (hsh : L.Shape a k) (hi : Stage.Inv h a) (hs : Stage.SysStep M a l a')
    {s : Sys Tid M.img.Site} (hm : L.Moves M s k l k') {cpu : U32} (hcpu : cpu < L.words.cpus) :
    Stage.Respects (Stage.ownedBy (L.words.addr cpu) (.cpuId, cpu)) a l := by
  refine Stage.respects_ownedBy (fun t d b last he hb c st log htop => ?_) fun v he => ?_
  · subst he
    obtain ⟨r, x, st, st', log, _, _, hx, htop', _, hst, _⟩ := hsh.exec hi hs
    rw [htop] at htop'
    cases htop'
    have hok := hi.top t
    rw [htop] at hok
    rcases written hok hst hb with he | ⟨node, head, u, rfl, rfl, he⟩
    · rw [call_tag, Words.addr_inj (he.trans hx.2)]
    · -- no link is a head
      obtain ⟨lists, place, hl, hh⟩ := hsh.placed
      exact absurd he.symm (cell_apart (hh.isNode hl htop).1 hcpu)
  · subst he
    cases hm with
    | write hown => exact hown (Or.inl ⟨cpu, hcpu, rfl⟩)

/-- **The link of a node** is written by the thread that holds it only. -/
theorem Shape.link_kept (hsh : L.Shape a k) (hi : Stage.Inv h a) (hs : Stage.SysStep M a l a')
    {s : Sys Tid M.img.Site} (hm : L.Moves M s k l k')
    (hl : Spelled L.words L.cell L.IsNode a.mem lists place) (hh : L.Held a k place) {p : Usize}
    {x : Place Tid} (hp : place p = some x) (hx : ∀ t d act, l = .act t d act → x ≠ .thread t) :
    a'.mem (L.cell p) = a.mem (L.cell p) := by
  have hnode := hl.isNode_of hp
  refine hs.mem_eq (fun t d b last he hb => ?_) fun v he => ?_
  · subst he
    obtain ⟨r, y, st, st', log, _, _, hy, htop, _, hst, _⟩ := hsh.exec hi hs
    have hok := hi.top t
    rw [htop] at hok
    rcases written hok hst hb with he | ⟨node, head, u, rfl, rfl, he⟩
    · exact cell_apart hnode hy.1 (he.trans hy.2)
    · obtain ⟨hnode', hplace⟩ := hh.isNode hl htop
      obtain rfl := cell_inj hnode hnode' he
      rw [hp] at hplace
      exact hx t d _ rfl (Option.some_inj.mp hplace)
  · subst he
    cases hm with
    | write hown => exact hown (Or.inr ⟨p, hnode, rfl⟩)

/-- What a push has prepared stays prepared. -/
theorem Shape.prepared_step (hsh : L.Shape a k) (hi : Stage.Inv h a)
    (hs : Stage.SysStep M a l a') {s : Sys Tid M.img.Site} (hm : L.Moves M s k l k') :
    ∀ t node head w u log x v, (a'.thr t).running = true →
      (a'.thr t).top = .op (L.call w (.store node head)) (.inside u) log →
      Access.store x v ∈ log → a'.mem (L.cell node) = head := by
  intro t node head w u log x v hr htop hv
  obtain ⟨lists, place, hl, hh⟩ := hsh.placed
  obtain ⟨_, _, hback⟩ := hi.inside_back hs hr htop
  cases hback with
  | kept hr₀ htop₀ hne =>
    have hplace := (hh.isNode hl htop₀).2
    rw [hsh.link_kept hi hs hm hl hh hplace fun t' d act hact he => ?_]
    · exact hsh.prepared t node head w u log x v hr₀ htop₀ hv
    · cases he
      exact hne d act hact
  | armed hnil => rw [hnil] at hv; cases hv
  | tau hr₀ htop₀ hmem =>
    rw [hmem]
    exact hsh.prepared t node head w u log x v hr₀ htop₀ hv
  | @access u₀ log₀ b hr₀ htop₀ hn hread hlog hmem =>
    subst hlog
    rw [hmem]
    rcases List.mem_append.mp hv with hv | hv
    · -- the link is prepared once
      have hok := hi.top t
      rw [htop₀] at hok
      obtain ⟨_, _, _, _, _, _, _, rfl⟩ := Op.path_of_store hok.2.2.1 hv
      cases hn
    · -- the scratch store itself
      obtain rfl := List.mem_singleton.mp hv
      have hok := hi.top t
      rw [htop₀] at hok
      obtain ⟨_, _, _, s, hop, rfl⟩ := Op.scratches_tree (hok.2.2.1.scratches hn)
      cases hop
      exact Function.update_self ..

/-- What a job asks for fits it. -/
theorem Fits.asks {r : ListOp} {x : Word .cpuId} (h : L.Fits w j) (hasks : j.asks = some (r, x)) :
    r.Ok ∧ L.words.IsWord x ∧ (L.call x r).op.keysAgree = true ∧
      ∀ b, (ListJob.calling r x).holds false = j.holds b := by
  cases j with
  | picked task y =>
    cases task with
    | add => cases hasks; exact ⟨trivial, h.2.2, rfl, fun _ => rfl⟩
    | cas head nxt => cases hasks; exact ⟨h.2.1, h.2.2, rfl, fun _ => rfl⟩
    | push node => cases hasks
  | headed node y head =>
    cases hasks
    exact ⟨trivial, h.2, decide_eq_true rfl, fun _ => rfl⟩
  | _ => cases hasks

/-- What follows a result fits, and holds what the op has left. -/
theorem fits_after {r : ListOp} (res : Except Error Usize) (hr : r.Ok) :
    L.Fits .idle (r.after res) ∧ ∀ c log x b,
      (r.after res).holds b = (ListJob.calling r x).holds (Work.op c (.finishing res) log).done := by
  cases r with
  | add =>
    cases res with
    | ok head =>
      by_cases hz : head = 0
      · rw [ListOp.after, if_pos hz]
        exact ⟨trivial, fun _ _ _ _ => rfl⟩
      · rw [ListOp.after, if_neg hz]
        exact ⟨⟨trivial, hz⟩, fun _ _ _ _ => rfl⟩
    | error e => exact ⟨⟨trivial, trivial⟩, fun _ _ _ _ => rfl⟩
  | cas head nxt =>
    cases res with
    | ok v => exact ⟨⟨trivial, trivial⟩, fun _ _ _ _ => rfl⟩
    | error e =>
      cases e with
      | abort => exact ⟨⟨trivial, hr⟩, fun _ _ _ _ => rfl⟩
      | miss v => exact ⟨⟨trivial, trivial⟩, fun _ _ _ _ => rfl⟩
  | store node head =>
    cases res with
    | ok v => exact ⟨trivial, fun _ _ _ _ => rfl⟩
    | error e => exact ⟨⟨trivial, trivial⟩, fun _ _ _ _ => rfl⟩

/-- **A turn between instructions** moves no node. -/
theorem Held.turns (hh : L.Held a k place) {act : Act} {m m₀ : Mem} {x : Stage.Thr} {area : Area}
    (hmove : Stage.Move M a.mem (a.thr t) act m x) (ht : L.Turn area m₀ act (k t) j)
    (hexec : ∀ o, act ≠ .exec o) (ha : a'.thr = Function.update a.thr t x) :
    L.Held a' (Function.update k t j) place := by
  have hfit := hh.fits t
  have hkeep (hbelow : x.below = (a.thr t).below) (hfit : L.Fits x.top j)
      (hheld : j.holds x.top.done = (k t).holds (a.thr t).top.done) :
      L.Held a' (Function.update k t j) place :=
    hh.keep ha (hbelow.trans (hh.below t)) hfit hheld
  generalize hjob : k t = j₀ at ht hfit hkeep
  cases ht with
  | pop =>
    obtain ⟨_, rfl⟩ := hmove.goto
    exact hkeep rfl ⟨trivial, trivial⟩ rfl
  | @pick task cpu y hcpu hget =>
    obtain ⟨_, rfl⟩ := hmove.goto
    obtain ⟨hlt, rfl⟩ := Words.get_eq_some hget
    refine hkeep rfl ⟨trivial, hfit.2, hlt, rfl⟩ ?_
    cases task <;> rfl
  | head =>
    obtain ⟨_, rfl⟩ := hmove.goto
    exact hkeep rfl ⟨trivial, hfit.2.2⟩ rfl
  | next _ =>
    obtain ⟨_, rfl⟩ := hmove.goto
    exact hkeep rfl ⟨trivial, hfit.2⟩ rfl
  | call hasks =>
    obtain ⟨hr', hx, hagree, hholds⟩ := hfit.asks hasks
    obtain ⟨_, ⟨_, rfl⟩ | ⟨hk, _⟩⟩ := hmove.call
    · exact hkeep rfl ⟨hr', hx, _, _, rfl⟩ (hholds _)
    · rw [hagree] at hk
      cases hk
  | @ret r y res =>
    obtain ⟨rfl, ⟨log, htop⟩ | ⟨htop, _⟩⟩ := hmove.ret
    · -- what the op has left is what the next job holds
      obtain ⟨hfit', hholds⟩ := fits_after (L := L) res hfit.1
      refine hkeep rfl hfit' ?_
      rw [htop]
      exact hholds ..
    · rw [htop] at hfit
      obtain ⟨_, _, _, _, he⟩ := hfit
      cases he
  | idle hidle =>
    cases hmove with
    | exec hr htop hst => exact absurd rfl (hexec _)
    | turn hr htop ht =>
      cases ht with
      | goto =>
        rw [htop] at hfit
        exact hkeep rfl hfit (by rw [htop])
      | _ => cases hidle
    | preempt hr => exact hkeep rfl hfit rfl
    | resume cpu cid hr => exact hkeep rfl hfit.event.1 (by rw [← hfit.event.2]; rfl)
    | signal hr => cases hidle
    | sigreturn hr htop hb => cases hidle

omit [DecidableEq Tid] in
/-- Only a commit makes a work done. -/
theorem commit_of_done {T : Sec} {i : U32} {m m' : Mem} {st st' : Stage} {o : Obs} (c : Call)
    (log log' : List Acc) (hs : Stage.Step T i m st o st' m')
    (h : (Work.op c st log).done = false) (h' : (Work.op c st' log').done = true) :
    ∃ b, o = .acc b true := by
  cases hs with
  | @commit u b r hc => exact ⟨b, rfl⟩
  | @leave r => cases r <;> simp [Work.done] at h h'
  | _ => cases h'

/-- **An instruction** moves the node that it pops or pushes. -/
theorem Shape.exec_step (hsh : L.Shape a k) (hi : Stage.Inv h a) {o : Obs}
    (hs : Stage.SysStep M a (.act t d (.exec o)) a')
    (hlink : ∀ b head nxt w, o = .acc b true → k t = .calling (.cas head nxt) w →
      a.mem (L.cell head) = nxt) :
    ∃ lists place, Spelled L.words L.cell L.IsNode a'.mem lists place ∧
      L.Held a' (Function.update k t (k t)) place := by
  obtain ⟨r, x, st, st', log, hjob, hr, hx, htop, hthr, hst, heff⟩ := hsh.exec hi hs
  obtain ⟨lists, place, hl, hh⟩ := hsh.placed
  have hdone := congrArg Work.done htop
  have hcommit := commit_of_done (L.call x r) log (o.extend log) hst
  have hfit : L.Fits (.op (L.call x r) st' (o.extend log)) (k t) := by
    rw [hjob]
    exact ⟨hr, hx, _, _, rfl⟩
  have hbelow := hh.below t
  have hheld := hh.held
  generalize a'.mem = m' at heff
  generalize (Work.op (L.call x r) st log).done = b at heff hdone hcommit
  generalize hdone' : (Work.op (L.call x r) st' (o.extend log)).done = b' at heff hcommit
  have hkeep (hholds : (k t).holds b' = (k t).holds b) :
      L.Held a' (Function.update k t (k t)) place :=
    hh.keep hthr hbelow hfit (by rw [hdone, hdone']; exact hholds)
  cases heff with
  | quiet => exact ⟨lists, place, hl, hkeep rfl⟩
  | add => exact ⟨lists, place, hl, hkeep (by rw [hjob]; rfl)⟩
  | @scratch node head =>
    have hplace : place node = some (.thread t) := (hheld node t).mp (by rw [hjob, hdone]; rfl)
    have hnode := hl.isNode_of hplace
    refine ⟨lists, place, hl.congr (fun cpu hcpu => ?_) fun p cpu hp => ?_, hkeep rfl⟩
    · exact Function.update_of_ne (cell_apart hnode hcpu).symm _ _
    · -- a node on a list is another one
      refine Function.update_of_ne (fun he => ?_) _ _
      obtain rfl := cell_inj (hl.isNode_of hp) hnode he
      rw [hp] at hplace
      cases hplace
  | @pop head nxt hmem =>
    obtain ⟨acc, rfl⟩ := hcommit rfl rfl
    have hnext := hlink acc head nxt x rfl hjob
    rw [hx.2] at hmem
    have hplace : place head = some (.list x.key.id) :=
      hmem ▸ hl.chains.place_head hx.1 (hmem ▸ hr)
    obtain ⟨lists', hl'⟩ := hl.pop hx.1 (fun p hp => cell_apart hp hx.1) hmem hr t
    rw [hnext, ← hx.2] at hl'
    refine ⟨lists', _, hl', hh.turn hthr hbelow hfit (fun p u hu => ?_) fun p => ?_⟩
    · exact moved_apart hplace nofun fun he => hu (Place.thread.inj he)
    · -- the thread held no node, and holds this one now
      rw [moved_to, ← hheld, hjob, hdone, hdone']
      show some head = some p ↔ p = head ∨ none = some p
      rw [Option.some_inj]
      exact ⟨fun he => Or.inl he.symm, fun he => (he.resolve_right nofun).symm⟩
  | @push node head hmem hnext =>
    have hplace : place node = some (.thread t) := (hheld node t).mp (by rw [hjob, hdone]; rfl)
    rw [hx.2] at hmem
    obtain ⟨lists', hl'⟩ := hl.push hx.1 (fun p hp => cell_apart hp hx.1) hplace
      (hl.isNode_of hplace).1 (hnext.trans hmem.symm)
    rw [← hx.2] at hl'
    refine ⟨lists', _, hl', hh.turn hthr hbelow hfit (fun p u hu => ?_) fun p => ?_⟩
    · exact moved_apart hplace (fun he => hu (Place.thread.inj he)) nofun
    · -- it held this node, and holds none now
      have hne : (.thread t : Place Tid) ≠ .list x.key.id := nofun
      rw [moved_from hne, ← hheld, hjob, hdone, hdone']
      show none = some p ↔ p ≠ node ∧ some node = some p
      exact iff_of_false nofun fun he => he.1 (Option.some_inj.mp he.2).symm

/-- **Every step** keeps the shape. -/
theorem Shape.step (hsh : L.Shape a k) (hi : Stage.Inv h a) (hs : Stage.SysStep M a l a')
    {s : Sys Tid M.img.Site} (hmem : s.mem = a.mem) (hm : L.Moves M s k l k')
    (hlink : L.LinkKept M (s, k) l) : L.Shape a' k' := by
  refine ⟨fun cpu hcpu => (hsh.loads cpu hcpu).step hi hs (hsh.respects hi hs hm hcpu),
    hsh.prepared_step hi hs hm, ?_⟩
  obtain ⟨lists, place, hl, hh⟩ := hsh.placed
  cases hm with
  | @turn t d act j ht =>
    by_cases hexec : ∃ o, act = .exec o
    · obtain ⟨o, rfl⟩ := hexec
      obtain rfl : k t = j := by cases ht; rfl
      refine hsh.exec_step hi hs fun b head nxt w he hjob => ?_
      subst he
      rw [← hmem]
      exact hlink head nxt w hjob
    · have hexec' : ∀ o, act ≠ .exec o := fun o he => hexec ⟨o, he⟩
      have hsame : a'.mem = a.mem := funext fun y =>
        hs.mem_eq (fun u e b last he => absurd (Label.act.inj he).2.2 (hexec' _)) nofun
      cases hs with
      | move hmove _ => exact ⟨lists, place, hsame ▸ hl, hh.turns hmove ht hexec' rfl⟩
  | @write y v hown =>
    cases hs
    refine ⟨lists, place, hl.congr (fun cpu hcpu => ?_) fun p cpu hp => ?_, hh.below, hh.fits,
      hh.held⟩
    · exact Function.update_of_ne (fun he => hown (Or.inl ⟨cpu, hcpu, he.symm⟩)) _ _
    · exact Function.update_of_ne (fun he => hown (Or.inr ⟨p, hl.isNode_of hp, he.symm⟩)) _ _

end Steps

/-! ### Runs -/

section Runs

variable {s s₀ : Sys Tid M.img.Site} {k₀ : Tid → ListJob}

/-- Whether an op has committed, by the history and by its stage. -/
theorem Fits.holds_eq {n : ℕ} (hfit : L.Fits w j) (hcom : Stage.Work.committed w n) :
    j.holds (n = 1) = j.holds w.done := by
  cases j with
  | calling r x =>
    obtain ⟨_, _, st, log, rfl⟩ := hfit
    have hdone : decide (n = 1) = (Work.op (L.call x r) st log).done := by
      cases st with
      | finishing res =>
        cases res with
        | ok v => exact decide_eq_true hcom
        | error e => exact decide_eq_false (by rw [show n = 0 from hcom]; decide)
      | _ => exact decide_eq_false (by rw [show n = 0 from hcom]; decide)
    rw [hdone]
  | loop task => cases task <;> rfl
  | picked task y => cases task <;> rfl
  | _ => rfl

/-- What the invariant says of the process itself. -/
theorem Shape.conserved (hsh : L.Shape a k) (hrel : s.Rel M a)
    (hcom : ∀ t d w, a.ctx t d = some w → Stage.Work.committed w (commitCount t d h)) :
    L.Conserved h s k := by
  obtain ⟨lists, place, hl, hh⟩ := hsh.placed
  refine ⟨lists, place, fun cpu hcpu => ?_, hl.node, hl.cpu, hl.chains.mem, fun p t => ?_⟩
  · rw [hrel.mem]
    exact ⟨(hl.chains.linked cpu hcpu).nodup, hl.chains.linked cpu hcpu⟩
  · have hdepth : (a.thr t).depth = 0 := congrArg List.length (hh.below t)
    have hctx : a.ctx t 0 = some (a.thr t).top := hdepth ▸ a.ctx_depth t
    rw [(hh.fits t).holds_eq (hcom t 0 _ hctx)]
    exact hh.held p t

/-- The bench starts in shape. -/
theorem Initial.shape (hi : L.Initial M (s₀, k₀)) : L.Shape s₀.stages k₀ := by
  have hinit := s₀.initial_stages
  have hrest : ∀ t, k₀ t = .rest := hi.rest
  obtain ⟨lists, place, hlists, hnode, hcpu, hmem, hheld⟩ := hi.conserved
  refine ⟨fun _ _ => hinit.loadsHold, fun t _ _ _ _ _ _ _ hr => ?_, lists, place,
    ⟨⟨fun cpu hlt => (hlists cpu hlt).2, hmem⟩, hnode, hcpu⟩, hinit.below, fun t => ?_,
    fun p t => ?_⟩
  · rw [hinit.running t] at hr
    cases hr
  · rw [hrest t, hinit.idle t]
    trivial
  · rw [← hheld p t]
    show (k₀ t).holds _ = _ ↔ (k₀ t).holds _ = _
    rw [hrest t]
    exact Iff.rfl

/-- **The bench keeps its nodes** in every run in which each pop that commits finds the link of
its node as it read it. -/
theorem keeps_of_linkKept (L : NodeList) (M : Machine Tid) : L.Keeps M (L.LinkKept M) := by
  rintro ⟨s₀, k₀⟩ h ⟨s, k⟩ hi hr
  have hrun : ∃ a, LTS.Run (Stage.SysStep M) s₀.stages h a ∧ s.Rel M a ∧ L.Shape a k := by
    refine hr.invariant (I := fun h x => ∃ a, LTS.Run (Stage.SysStep M) s₀.stages h a ∧
      x.1.Rel M a ∧ L.Shape a x.2) ⟨_, .nil, hi.machine.rel, hi.shape⟩ ?_
    rintro h ⟨s, k⟩ l ⟨s', k'⟩ _ ⟨a, ha, hrel, hsh⟩ ⟨⟨hs, hm⟩, hlink⟩
    obtain ⟨a', hstep, hrel'⟩ := refine_step hrel hs
    exact ⟨a', .cons ha hstep, hrel',
      hsh.step (Stage.inv_run s₀.initial_stages ha) hstep hrel.mem hm hlink⟩
  obtain ⟨a, ha, hrel, hsh⟩ := hrun
  exact hsh.conserved hrel (Stage.committed_run s₀.initial_stages ha)

end Runs

/-! ### Two threads of the bench -/

theorem three_sites : 3 < 2 ^ 32 := by decide

/-- Two threads, and a call site of each op. -/
def benchMachine : Machine Bool where
  img := Image.ofSites .x86 (fun i : Fin 3 =>
    if i = 0 then .fetchAdd cpuIdOff
    else if i = 1 then .compareExchange cpuIdOff
    else .storeIf cpuIdOff) three_sites
  cpus := 2
  areaPtr t := if t then 0x20000 else 0x10000

instance : DecidableEq benchMachine.img.Site := inferInstanceAs (DecidableEq (Fin 3))

def benchSite (i : Fin 3) : benchMachine.img.Site := i

theorem benchMachine_outside_zero : benchMachine.img.Outside 0 :=
  Image.ofSites_outside_zero _ _ three_sites

/-- Two CPUs and two nodes. -/
def benchList : NodeList where
  words := ⟨0x8000, 2⟩
  next := 0x9000
  n := 2
  fits := by decide
  apart p cpu hp hcpu := by
    have hcpu : cpu = 0 ∨ cpu = 1 := by bv_omega
    have hp : p = 0 ∨ p = 1 ∨ p = 2 := by bv_omega
    rcases hcpu with rfl | rfl <;> rcases hp with rfl | rfl | rfl <;> decide

/-- Node `1` is on the list of CPU 0, and node `2` on that of CPU 1. -/
def benchMem : Mem := fun a => if a = 0x8000 then 1 else if a = 0x8008 then 2 else 0

def benchPlace (p : Usize) : Option (Place Bool) :=
  if p = 1 then some (.list 0) else if p = 2 then some (.list 1) else none

theorem benchList_cpu {cpu : U32} (h : cpu < benchList.words.cpus) : cpu = 0 ∨ cpu = 1 := by
  have h2 : cpu < (2 : U32) := h
  bv_omega

/-- Where each node is at the start. -/
theorem benchPlace_cases (p : Usize) : (p = 1 ∧ benchPlace p = some (.list 0)) ∨
    (p = 2 ∧ benchPlace p = some (.list 1)) ∨
      (¬ benchList.IsNode p ∧ p ≠ 1 ∧ p ≠ 2 ∧ benchPlace p = none) := by
  by_cases h1 : p = 1
  · exact Or.inl ⟨h1, if_pos h1⟩
  · by_cases h2 : p = 2
    · exact Or.inr (Or.inl ⟨h2, (if_neg h1).trans (if_pos h2)⟩)
    · refine Or.inr (Or.inr ⟨fun hp => ?_, h1, h2, (if_neg h1).trans (if_neg h2)⟩)
      have hz : p ≠ 0 := hp.1
      have hle : p.toNat ≤ 2 := hp.2
      bv_omega

theorem benchMachine_start :
    benchList.Initial benchMachine (benchMachine.boot benchMem, fun _ => .rest) := by
  refine ⟨benchMachine.boot_initial _ benchMachine_outside_zero, fun _ => rfl,
    fun cpu => if cpu = 0 then [1] else [2], benchPlace, fun cpu hcpu => ?_, fun p => ?_,
    fun p cpu hp => ?_, fun p cpu hcpu => ?_, fun p t => ?_⟩
  · rcases benchList_cpu hcpu with rfl | rfl
    · exact ⟨List.nodup_singleton _, .cons (by decide) .nil⟩
    · exact ⟨List.nodup_singleton _, .cons (by decide) .nil⟩
  · rcases benchPlace_cases p with ⟨rfl, he⟩ | ⟨rfl, he⟩ | ⟨hp, _, _, he⟩
    · exact iff_of_true (he ▸ rfl) ⟨by decide, by decide⟩
    · exact iff_of_true (he ▸ rfl) ⟨by decide, by decide⟩
    · exact iff_of_false (he ▸ nofun) hp
  · rcases benchPlace_cases p with ⟨rfl, he⟩ | ⟨rfl, he⟩ | ⟨_, _, _, he⟩
    · rw [he] at hp; cases hp; decide
    · rw [he] at hp; cases hp; decide
    · rw [he] at hp; cases hp
  · rcases benchPlace_cases p with ⟨rfl, he⟩ | ⟨rfl, he⟩ | ⟨_, h1, h2, he⟩ <;> rw [he] <;>
      rcases benchList_cpu hcpu with rfl | rfl
    · exact iff_of_true (by decide) rfl
    · exact iff_of_false (by decide) nofun
    · exact iff_of_false (by decide) nofun
    · exact iff_of_true (by decide) rfl
    · exact iff_of_false (fun hp => h1 (List.mem_singleton.mp hp)) nofun
    · exact iff_of_false (fun hp => h2 (List.mem_singleton.mp hp)) nofun
  · rcases benchPlace_cases p with ⟨rfl, he⟩ | ⟨rfl, he⟩ | ⟨_, _, _, he⟩ <;>
      rw [he] <;> exact iff_of_false nofun nofun

/-- The word of each CPU. -/
def benchWord (t : Bool) : Word .cpuId := ⟨if t then 0x8008 else 0x8000, pairCpuId t⟩

/-- The link that a pop reads. -/
theorem Turn.next_eq {area : Area} {m : Mem} {head n : Usize} (hle : head.toNat ≤ L.n)
    (hn : m (L.cell head) = n) : L.Turn area m .goto (.got head) (.loop (.cas head n)) :=
  hn ▸ .next hle

/-- The head that a push reads. -/
theorem Turn.head_eq {area : Area} {m : Mem} {node n : Usize} {w : Word .cpuId}
    (hn : m w.word = n) : L.Turn area m .goto (.picked (.push node) w) (.headed node w n) :=
  hn ▸ .head

/-- What follows an `Ok`. -/
theorem Turn.ret_eq {area : Area} {m : Mem} {r : ListOp} {w : Word .cpuId} (v : Usize)
    (hj : r.after (.ok v) = j) : L.Turn area m (.ret (L.call w r) (.ok v)) (.calling r w) j :=
  hj ▸ .ret

/-- One act of a thread, beside which its job goes on. -/
theorem bench_turn (t : Bool) (j : ListJob) {s : Sys Bool benchMachine.img.Site}
    {k k' : Bool → ListJob} {a : Act} {c : Cmd Bool benchMachine.img.Site}
    {ks : List (Cmd Bool benchMachine.img.Site)}
    (hl : (benchMachine.labels s c).any
      (fun ls => ls.length == 1 && ls.all (Label.isAct t 0 a)) = true)
    (ht : benchList.Turn (s.thr t).area s.mem a (k t) j)
    (hp : Machine.Plays benchMachine (benchList.Moves benchMachine) Label.idles
      (benchMachine.after s c) (Function.update k t j) ks k') :
    Machine.Plays benchMachine (benchList.Moves benchMachine) Label.idles s k (c :: ks) k' :=
  .turn (Machine.labels_act hl) (.turn ht) hp

/-! ### A link that is as it was read -/

/-- Thread `true` pops node `1` from the list of CPU 0. -/
def popSchedule : List (Cmd Bool benchMachine.img.Site) :=
  [.resume true 0 0, .goto true, .goto true,
    .call true (benchList.call (benchWord false) .add) (benchSite 0), .exec true 8, .exec true 1,
    .exec true 2, .ret true, .goto true, .goto true,
    .call true (benchList.call (benchWord false) (.cas 1 0)) (benchSite 1), .exec true 9,
    .exec true 1, .exec true 2, .ret true]

/-- The step is idle, and no commit. -/
def Label.idlesShort {Tid : Type} : Label Tid → Bool
  | .act _ _ (.exec (.acc _ true)) => false
  | l => Label.idles l

/-- The bench moves, and a pop that commits finds the link as it read it. -/
def KeptMoves (s : Sys Bool benchMachine.img.Site) (k : Bool → ListJob) (l : Label Bool)
    (k' : Bool → ListJob) : Prop :=
  benchList.Moves benchMachine s k l k' ∧ benchList.LinkKept benchMachine (s, k) l

theorem KeptMoves.idle {s : Sys Bool benchMachine.img.Site} {k : Bool → ListJob} {t : Bool}
    {d : ℕ} {a : Act} (hi : Idles a = true)
    (hl : benchList.LinkKept benchMachine (s, k) (.act t d a)) :
    KeptMoves s k (.act t d a) k := by
  have hm : benchList.Moves benchMachine s k (.act t d a) (Function.update k t (k t)) :=
    .turn (.idle hi)
  rw [Function.update_eq_self] at hm
  exact ⟨hm, hl⟩

theorem KeptMoves.turn {s : Sys Bool benchMachine.img.Site} {k : Bool → ListJob} {t : Bool}
    {d : ℕ} {a : Act} {j : ListJob} (ht : benchList.Turn (s.thr t).area s.mem a (k t) j)
    (hl : benchList.LinkKept benchMachine (s, k) (.act t d a)) :
    KeptMoves s k (.act t d a) (Function.update k t j) :=
  ⟨.turn ht, hl⟩

/-- The thread holds the node. -/
theorem popSchedule_plays : ∃ k, k true = .loop (.push 1) ∧
    Machine.Plays benchMachine KeptMoves Label.idlesShort
      (benchMachine.boot benchMem) (fun _ => .rest) popSchedule k := by
  exact ⟨_, rfl, .quiet (by decide +kernel) <|
    .turn rfl (.turn .pop trivial) <|
    .turn rfl (.turn (.pick (show _ = some (pairCpuId false) by decide +kernel) rfl) trivial) <|
    .turn rfl (.turn (j := .calling .add (benchWord false)) (.call rfl) trivial) <|
    .quiet (by decide +kernel) <|
    -- the add is no pop
    .turn rfl (.idle rfl nofun) <| .quiet (by decide +kernel) <|
    .turn (Machine.labels_act (t := true) (d := 0)
      (a := .ret (benchList.call (benchWord false) .add) (.ok 1)) (by decide +kernel))
      (.turn (.ret_eq 1 rfl) trivial) <|
    .turn rfl (.turn (.next_eq (by decide) (by decide +kernel)) trivial) <|
    .turn rfl (.turn (.pick (show _ = some (pairCpuId false) by decide +kernel) rfl) trivial) <|
    .turn rfl (.turn (j := .calling (.cas 1 0) (benchWord false)) (.call rfl) trivial) <|
    .quiet (by decide +kernel) <|
    .turn rfl (.idle rfl fun head nxt w he => by cases he; decide +kernel) <|
    .quiet (by decide +kernel) <|
    .turn (Machine.labels_act (t := true) (d := 0)
      (a := .ret (benchList.call (benchWord false) (.cas 1 0)) (.ok 1)) (by decide +kernel))
      (.turn (.ret_eq 1 rfl) trivial) .nil⟩

/-- Its list is empty then, and every node has its place. -/
theorem keeps_of_linkKept_pop : ∃ h s k,
    LTS.Run (fun x l y => benchList.Step benchMachine x l y ∧ benchList.LinkKept benchMachine x l)
      (benchMachine.boot benchMem, fun _ => .rest) h (s, k) ∧
    s.mem 0x8000 = 0 ∧ k true = .loop (.push 1) ∧ benchList.Conserved h s k := by
  obtain ⟨k, hk, hplays⟩ := popSchedule_plays
  obtain ⟨h, s, hplay, hr⟩ := hplays.run benchMachine_outside_zero fun s k l hl => by
    cases l with
    | act t d a =>
      have hi : Idles a = true ∧ ∀ b, a ≠ .exec (.acc b true) := by
        unfold Label.idlesShort at hl
        split at hl
        · cases hl
        · next hne => exact ⟨hl, fun b he => hne t d b (by rw [he])⟩
      refine .idle hi.1 ?_
      unfold LinkKept
      split
      · next he => cases he; exact absurd rfl (hi.2 _)
      · trivial
    | _ => cases hl
  have hrun : LTS.Run (fun x l y => benchList.Step benchMachine x l y ∧
      benchList.LinkKept benchMachine x l) (benchMachine.boot benchMem, fun _ => .rest) h (s, k) :=
    hr.mono fun _ _ _ hs => ⟨⟨hs.1, hs.2.1⟩, hs.2.2⟩
  have hempty : (benchMachine.play (benchMachine.boot benchMem) popSchedule).all
      (fun r => decide (r.2.mem 0x8000 = 0)) = true := by decide +kernel
  rw [hplay] at hempty
  exact ⟨h, s, k, hrun, of_decide_eq_true hempty, hk,
    keeps_of_linkKept benchList benchMachine _ _ _ benchMachine_start hrun⟩

/-! ### A link that is out of date -/

/-- Thread `false` reads the head of CPU 0, node `1`, and its link, which is `EMPTY`. Thread
`true` pops that node, is moved to CPU 1 and pushes it there, in front of node `2`. Thread
`false` is moved there too, finds node `1` at the head, and swaps it for the link it has read. -/
def benchSchedule : List (Cmd Bool benchMachine.img.Site) :=
  [.resume false 0 0, .goto false, .goto false,
    .call false (benchList.call (benchWord false) .add) (benchSite 0), .exec false 11, .ret false,
    .goto false, .preempt false,
    .resume true 0 0, .goto true, .goto true,
    .call true (benchList.call (benchWord false) .add) (benchSite 0), .exec true 11, .ret true,
    .goto true, .goto true,
    .call true (benchList.call (benchWord false) (.cas 1 0)) (benchSite 1), .exec true 12,
    .ret true, .preempt true,
    .resume true 1 1, .goto true, .goto true,
    .call true (benchList.call (benchWord true) (.store 1 2)) (benchSite 2), .exec true 13,
    .ret true, .preempt true,
    .resume false 1 1, .goto false,
    .call false (benchList.call (benchWord true) (.cas 1 0)) (benchSite 1), .exec false 12,
    .ret false]

/-- The bench follows the schedule, and no thread holds node `2`. -/
theorem benchSchedule_plays : ∃ k, (∀ t b, (k t).holds b ≠ some 2) ∧
    Machine.Plays benchMachine (benchList.Moves benchMachine) Label.idles
      (benchMachine.boot benchMem) (fun _ => .rest) benchSchedule k := by
  exact ⟨_, fun t b => by cases t <;> cases b <;> decide, .quiet (by decide +kernel) <|
    -- the head and its link
    bench_turn false (.loop .add) (by decide +kernel) .pop <|
    bench_turn false (.picked .add (benchWord false)) (by decide +kernel)
      (.pick (show _ = some (pairCpuId false) by decide +kernel) rfl) <|
    bench_turn false (.calling .add (benchWord false)) (by decide +kernel) (.call rfl) <|
    .quiet (by decide +kernel) <|
    bench_turn false (.got 1) (by decide +kernel) (.ret_eq 1 rfl) <|
    bench_turn false (.loop (.cas 1 0)) (by decide +kernel)
      (.next_eq (by decide) (by decide +kernel)) <|
    .quiet (by decide +kernel) <|
    -- the other thread pops the node
    .quiet (by decide +kernel) <|
    bench_turn true (.loop .add) (by decide +kernel) .pop <|
    bench_turn true (.picked .add (benchWord false)) (by decide +kernel)
      (.pick (show _ = some (pairCpuId false) by decide +kernel) rfl) <|
    bench_turn true (.calling .add (benchWord false)) (by decide +kernel) (.call rfl) <|
    .quiet (by decide +kernel) <|
    bench_turn true (.got 1) (by decide +kernel) (.ret_eq 1 rfl) <|
    bench_turn true (.loop (.cas 1 0)) (by decide +kernel)
      (.next_eq (by decide) (by decide +kernel)) <|
    bench_turn true (.picked (.cas 1 0) (benchWord false)) (by decide +kernel)
      (.pick (show _ = some (pairCpuId false) by decide +kernel) rfl) <|
    bench_turn true (.calling (.cas 1 0) (benchWord false)) (by decide +kernel) (.call rfl) <|
    .quiet (by decide +kernel) <|
    bench_turn true (.loop (.push 1)) (by decide +kernel) (.ret_eq 1 rfl) <|
    .quiet (by decide +kernel) <|
    -- and pushes it on CPU 1
    .quiet (by decide +kernel) <|
    bench_turn true (.picked (.push 1) (benchWord true)) (by decide +kernel)
      (.pick (show _ = some (pairCpuId true) by decide +kernel) rfl) <|
    bench_turn true (.headed 1 (benchWord true) 2) (by decide +kernel)
      (.head_eq (by decide +kernel)) <|
    bench_turn true (.calling (.store 1 2) (benchWord true)) (by decide +kernel) (.call rfl) <|
    .quiet (by decide +kernel) <|
    bench_turn true (.rest) (by decide +kernel) (.ret_eq 2 rfl) <|
    .quiet (by decide +kernel) <|
    -- the swap
    .quiet (by decide +kernel) <|
    bench_turn false (.picked (.cas 1 0) (benchWord true)) (by decide +kernel)
      (.pick (show _ = some (pairCpuId true) by decide +kernel) rfl) <|
    bench_turn false (.calling (.cas 1 0) (benchWord true)) (by decide +kernel) (.call rfl) <|
    .quiet (by decide +kernel) <|
    bench_turn false (.loop (.push 1)) (by decide +kernel) (.ret_eq 1 rfl) .nil⟩

/-- Both heads are `EMPTY` at the end. -/
theorem benchSchedule_empty : (benchMachine.play (benchMachine.boot benchMem) benchSchedule).all
    (fun r => decide (r.2.mem 0x8000 = 0 ∧ r.2.mem 0x8008 = 0)) = true := by decide +kernel

/-- **A node is lost**: both heads are `EMPTY`, and nobody holds node `2`. -/
theorem not_keeps : ¬ benchList.Keeps benchMachine fun _ _ => True := by
  intro hkeeps
  obtain ⟨k, hhold, hplays⟩ := benchSchedule_plays
  obtain ⟨h, s, hplay, hr⟩ := hplays.run benchMachine_outside_zero fun s k l hl => by
    cases l with
    | act t d a =>
      have hm : benchList.Moves benchMachine s k (.act t d a) (Function.update k t (k t)) :=
        .turn (.idle hl)
      rwa [Function.update_eq_self] at hm
    | _ => cases hl
  have hempty := benchSchedule_empty
  rw [hplay] at hempty
  obtain ⟨h0, h1⟩ : s.mem 0x8000 = 0 ∧ s.mem 0x8008 = 0 := of_decide_eq_true hempty
  obtain ⟨lists, place, hlists, hnode, hcpu, hmem, hheld⟩ :=
    hkeeps _ _ _ benchMachine_start (hr.mono fun _ _ _ hs => ⟨hs, trivial⟩)
  have hsome : (place 2).isSome := (hnode 2).mpr ⟨by decide, by decide⟩
  obtain ⟨x, hx⟩ := Option.isSome_iff_exists.mp hsome
  cases x with
  | list cpu =>
    have hlt := hcpu 2 cpu hx
    have hhead : s.mem (benchList.words.addr cpu) = 0 := by
      rcases benchList_cpu hlt with rfl | rfl
      · exact h0
      · exact h1
    have hnil : lists cpu = [] := by
      have hlinked := (hlists cpu hlt).2
      rw [hhead] at hlinked
      exact hlinked.of_nil
    have hin := (hmem 2 cpu hlt).mpr hx
    rw [hnil] at hin
    cases hin
  | thread t =>
    exact hhold t _ ((hheld 2 t).mpr hx)

end NodeList

end RseqRs
