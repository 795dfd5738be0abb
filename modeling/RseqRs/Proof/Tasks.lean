import RseqRs.Model.Tasks

/-!
# The life cycle of self-registration

The kernel's view of a thread, the `cpu_id` field in its `SLOT` and the state of the `SLOT` agree
in every reachable state (`TaskInv`), and no two threads of a process have their `SLOT` at one
address (`Inv.apart`), so what the kernel writes for a thread reaches no other one. Each step
changes one thread and the field at one address; `Inv.set` and `Inv.write` say what either change
must keep.
-/

namespace RseqRs

namespace Tasks

variable {Pid Tid : Type} {sig : U32}

/-! ### The invariant -/

/-- What a step in the middle of `bind` or `drop` knows. -/
def PcInv (sig : U32) (T : Task Pid) : Pc → Prop
  | .caller | .access _ | .bound _ none => True
  | .syscall _ => T.slot = .alive ∧ T.reg = none
  | .bound _ (some a) => a = T.area ∧ T.reg = some (T.own sig)
  | .drop => T.slot = .destroyed

/-- The three views of a thread, `id` being the `cpu_id` in its `SLOT`. -/
structure TaskInv (sig : U32) (T : Task Pid) (id : U32) : Prop where
  /-- the kernel holds the `SLOT` of the thread, or nothing -/
  own : T.reg = none ∨ T.reg = some (T.own sig)
  cpuId : T.phase ≠ .freed → (T.reg = none ↔ ¬IsCpu id)
  slot : T.reg ≠ none → T.slot = .alive ∨ T.pc = .drop
  pc : PcInv sig T T.pc
  freed : T.phase = .freed → T.pc = .caller ∧ T.slot ≠ .alive

structure Inv (sig : U32) (w : World Pid Tid) : Prop where
  task : ∀ t T, w.task t = some T → TaskInv sig T (w.cpuId T.proc T.area)
  apart : ∀ t u T U, w.task t = some T → w.task u = some U → t ≠ u → T.phase ≠ .freed →
    U.phase ≠ .freed → T.proc = U.proc → T.area ≠ U.area

namespace TaskInv

variable {T : Task Pid} {id : U32}

/-- A thread that the kernel holds something for has its memory. -/
theorem not_freed (h : TaskInv sig T id) (hr : T.reg ≠ none) : T.phase ≠ .freed := by
  intro hf
  obtain ⟨hpc, hslot⟩ := h.freed hf
  rcases h.slot hr with hs | hd
  · exact hslot hs
  · rw [hpc] at hd
    cases hd

/-- In the middle of a step, the thread has its memory. -/
theorem not_freed_of_pc (h : TaskInv sig T id) (hpc : T.pc ≠ .caller) : T.phase ≠ .freed :=
  fun hf => hpc (h.freed hf).1

theorem own_of_some (h : TaskInv sig T id) {r : Held} (hr : T.reg = some r) : r = T.own sig := by
  rcases h.own with hn | ho
  · rw [hr] at hn
    cases hn
  · rw [hr] at ho
    exact Option.some.inj ho

/-- **The kernel holds nothing for a thread whose `SLOT` is destroyed.** -/
theorem reg_of_destroyed (h : TaskInv sig T id) (hd : T.Destroyed) : T.reg = none := by
  by_contra hr
  rcases h.slot hr with hs | hp
  · rw [hd.1] at hs
    cases hs
  · exact hd.2 hp

/-- In a freed thread, the field in its `SLOT` no longer matters. -/
theorem of_freed (h : TaskInv sig T id) (hf : T.phase = .freed) (id' : U32) :
    TaskInv sig T id' :=
  { h with cpuId := fun hn => absurd hf hn }

end TaskInv

theorem taskInv_fresh (p : Pid) (a : Usize) : TaskInv sig (.fresh p a) cpuUninit where
  own := .inl rfl
  cpuId _ := iff_of_true rfl fun h => h.1 rfl
  slot h := absurd rfl h
  pc := trivial
  freed h := by cases h

theorem Initial.inv {w : World Pid Tid} (h : Initial w) : Inv sig w where
  task t T hT := by
    rw [h.cpuId t T hT, h.fresh t T hT]
    exact taskInv_fresh ..
  apart t u T U hT hU hne _ _ hp := h.apart t u T U hT hU hne hp

/-! ### What each step does to its thread -/

namespace Task

variable (T : Task Pid)

@[simp] theorem access_proc (rseq : Bool) (id : U32) : (T.access rseq id).proc = T.proc := by
  unfold access
  split <;> rfl

@[simp] theorem access_area (rseq : Bool) (id : U32) : (T.access rseq id).area = T.area := by
  unfold access
  split <;> rfl

/-- The access to a `SLOT` whose destructor has started. -/
theorem access_of_destroyed {T : Task Pid} {rseq : Bool} {id : U32}
    (h : T.slot = .destroyed) : T.access rseq id = { T with pc := .bound rseq none } := by
  simp only [access, h]

/-- The access to a `SLOT` that is not destroyed. -/
theorem access_of_ne {T : Task Pid} {rseq : Bool} {id : U32} (h : T.slot ≠ .destroyed) :
    T.access rseq id = { T with
      slot := .alive
      pc := if IsCpu id then .bound rseq (some T.area) else .syscall rseq } := by
  unfold access
  split
  · next he => exact absurd he h
  all_goals rfl

@[simp] theorem unregistered_proc : (T.unregistered sig).proc = T.proc := by
  unfold unregistered
  split <;> rfl

@[simp] theorem unregistered_area : (T.unregistered sig).area = T.area := by
  unfold unregistered
  split <;> rfl

end Task

namespace TaskInv

variable {T : Task Pid} {id : U32}

/-- The thread goes on, with what the next step must know. -/
theorem move (h : TaskInv sig T id) (hn : T.phase ≠ .freed) (hd : T.pc ≠ .drop) {pc : Pc}
    (hpc : PcInv sig T pc) : TaskInv sig { T with pc := pc } id where
  own := h.own
  cpuId := h.cpuId
  slot hr := .inl ((h.slot hr).resolve_right hd)
  pc := hpc
  freed hf := absurd hf hn

/-- The access to `SLOT` and the first read of `cpu_id`. -/
theorem access (h : TaskInv sig T id) {rseq : Bool} (hpc : T.pc = .access rseq) :
    TaskInv sig (T.access rseq id) id := by
  have hn := h.not_freed_of_pc (by rw [hpc]; nofun)
  have hd : T.pc ≠ .drop := by rw [hpc]; nofun
  by_cases hs : T.slot = .destroyed
  · rw [Task.access_of_destroyed hs]
    exact h.move hn hd trivial
  · rw [Task.access_of_ne hs]
    refine ⟨h.own, h.cpuId, fun _ => .inl rfl, ?_, fun hf => absurd hf hn⟩
    -- `cpu_id` tells whether the kernel holds the area
    by_cases hid : IsCpu id
    · simp only [if_pos hid]
      exact ⟨rfl, h.own.resolve_left fun hr => (h.cpuId hn).mp hr hid⟩
    · simp only [if_neg hid]
      exact ⟨rfl, (h.cpuId hn).mpr hid⟩

/-- The kernel accepts the register command and writes a CPU. -/
theorem register (h : TaskInv sig T id) {rseq : Bool} (hpc : T.pc = .syscall rseq) {cpu : U32}
    (hcpu : IsCpu cpu) : TaskInv sig (T.registered sig rseq true) cpu := by
  have hn := h.not_freed_of_pc (by rw [hpc]; nofun)
  have hpcInv := h.pc
  rw [hpc] at hpcInv
  exact ⟨.inr rfl, fun _ => iff_of_false nofun (not_not.mpr hcpu), fun _ => .inl hpcInv.1,
    ⟨rfl, rfl⟩, fun hf => absurd hf hn⟩

/-- Its `SLOT`'s destructor starts. -/
theorem dtor (h : TaskInv sig T id) (hn : T.phase ≠ .freed) :
    TaskInv sig { T with slot := .destroyed, pc := .drop } id :=
  ⟨h.own, h.cpuId, fun _ => .inr rfl, rfl, fun hf => absurd hf hn⟩

/-- The kernel clears what it holds and writes the sentinel. -/
theorem unregister (h : TaskInv sig T id) (hpc : T.pc = .drop) (hr : T.reg = some (T.own sig)) :
    TaskInv sig (T.unregistered sig) cpuUninit := by
  have hn := h.not_freed_of_pc (by rw [hpc]; nofun)
  rw [Task.unregistered, if_pos hr]
  exact ⟨.inl rfl, fun _ => iff_of_true rfl fun hid => hid.1 rfl, fun hne => absurd rfl hne,
    trivial, fun hf => absurd hf hn⟩

/-- The unregister command of a thread that is not registered fails. -/
theorem unregisterFails (h : TaskInv sig T id) (hpc : T.pc = .drop)
    (hr : T.reg ≠ some (T.own sig)) : TaskInv sig (T.unregistered sig) id := by
  have hn := h.not_freed_of_pc (by rw [hpc]; nofun)
  have hnone := h.own.resolve_right hr
  rw [Task.unregistered, if_neg hr]
  exact ⟨h.own, h.cpuId, fun hne => absurd hnone hne, trivial, fun hf => absurd hf hn⟩

theorem setPhase (h : TaskInv sig T id) (hn : T.phase ≠ .freed) {ph : Phase}
    (hf : ph = .freed → T.pc = .caller ∧ T.slot ≠ .alive) :
    TaskInv sig { T with phase := ph } id where
  own := h.own
  cpuId _ := h.cpuId hn
  slot := h.slot
  pc := h.pc
  freed := hf

end TaskInv

/-! ### One thread changes, and one field -/

section World

variable {w : World Pid Tid} {t u : Tid} {T T' U : Task Pid} {p q : Pid} {a b : Usize} {id : U32}

section Set

variable [DecidableEq Tid]

theorem set_task_self : (w.set t T).task t = some T := Function.update_self ..

theorem set_task_of_ne (h : u ≠ t) : (w.set t T).task u = w.task u := Function.update_of_ne h ..

theorem set_task_cases (h : (w.set t T).task u = some U) :
    u = t ∧ U = T ∨ u ≠ t ∧ w.task u = some U := by
  by_cases he : u = t
  · rw [he, set_task_self] at h
    exact .inl ⟨he, (Option.some.inj h).symm⟩
  · rw [set_task_of_ne he] at h
    exact .inr ⟨he, h⟩

theorem set_of_task (h : w.task t = some T) : w.set t T = w := by
  rw [World.set, ← h, Function.update_eq_self]

/-- The `SLOT`s stay apart if that of the thread that changes, or is new, is apart from the
others. -/
theorem Inv.apart_set (h : Inv sig w)
    (hnew : ∀ v V, v ≠ t → w.task v = some V → V.phase ≠ .freed → V.proc = T.proc →
      V.area ≠ T.area) :
    ∀ v x V X, (w.set t T).task v = some V → (w.set t T).task x = some X → v ≠ x →
      V.phase ≠ .freed → X.phase ≠ .freed → V.proc = X.proc → V.area ≠ X.area := by
  intro v x V X hV hX hne hfv hfx hproc
  rcases set_task_cases hV with ⟨rfl, rfl⟩ | ⟨hv, hoV⟩
  · rcases set_task_cases hX with ⟨rfl, _⟩ | ⟨hx, hoX⟩
    · exact absurd rfl hne
    · exact (hnew x X hx hoX hfx hproc.symm).symm
  · rcases set_task_cases hX with ⟨rfl, rfl⟩ | ⟨_, hoX⟩
    · exact hnew v V hv hoV hfv hproc
    · exact h.apart v x V X hoV hoX hne hfv hfx hproc

end Set

variable [DecidableEq Pid]

theorem write_cpuId_self : (w.write p a id).cpuId p a = id := by
  simp only [World.write, Function.update_self]

theorem write_cpuId_of_ne (h : q = p → b ≠ a) :
    (w.write p a id).cpuId q b = w.cpuId q b := by
  by_cases hq : q = p
  · subst hq
    simp only [World.write, Function.update_self, Function.update_of_ne (h rfl)]
  · simp only [World.write, Function.update_of_ne hq]

theorem write_self : w.write p a (w.cpuId p a) = w := by
  simp only [World.write, Function.update_eq_self]

/-- A write at the address of one thread's `SLOT` is seen by no other thread. -/
theorem TaskInv.write (h : TaskInv sig U (w.cpuId U.proc U.area))
    (hne : U.phase ≠ .freed → U.proc = p → U.area ≠ a) :
    TaskInv sig U ((w.write p a id).cpuId U.proc U.area) := by
  by_cases hf : U.phase = .freed
  · exact h.of_freed hf _
  · rw [write_cpuId_of_ne (hne hf)]
    exact h

/-- A field changes that is in no thread's `SLOT`. -/
theorem Inv.write (h : Inv sig w) (hu : w.Unused p a) : Inv sig (w.write p a id) where
  task u U hU := (h.task u U hU).write fun hf hp => hu u U hU hp hf
  apart := h.apart

variable [DecidableEq Tid]

/-- **A thread changes, and the field in its own `SLOT`**: the others do not notice. -/
theorem Inv.put (h : Inv sig w) (hT : w.task t = some T) (hn : T.phase ≠ .freed)
    (hp : T'.proc = T.proc) (ha : T'.area = T.area) (hi : TaskInv sig T' id) :
    Inv sig ((w.set t T').write T.proc T.area id) := by
  refine ⟨fun u U hU => ?_, h.apart_set fun v V hv hV hfv hproc => ?_⟩
  · rcases set_task_cases hU with ⟨rfl, rfl⟩ | ⟨he, hU⟩
    · rwa [hp, ha, write_cpuId_self]
    · exact (h.task u U hU).write fun hf => h.apart u t U T hU hT he hf hn
  · -- the `SLOT` of the thread is where it was
    rw [ha]
    exact h.apart v t V T hV hT hv hfv hn (hproc.trans hp)

/-- A thread changes, and no field. -/
theorem Inv.set (h : Inv sig w) (hT : w.task t = some T) (hn : T.phase ≠ .freed)
    (hp : T'.proc = T.proc) (ha : T'.area = T.area)
    (hi : TaskInv sig T' (w.cpuId T.proc T.area)) : Inv sig (w.set t T') := by
  have hput := h.put hT hn hp ha hi
  have hself : (w.set t T').write T.proc T.area (w.cpuId T.proc T.area) = w.set t T' :=
    write_self (w := w.set t T')
  rwa [hself] at hput

end World

/-! ### Every step -/

section Steps

variable [DecidableEq Pid] [DecidableEq Tid] {w w' : World Pid Tid}

/-- A new thread has its `SLOT` where no other thread has one. -/
theorem Inv.spawn (h : Inv sig w) {u : Tid} {p : Pid} {a : Usize} (ha : w.Unused p a) :
    Inv sig ((w.set u (.fresh p a)).write p a cpuUninit) := by
  refine ⟨fun v V hV => ?_, h.apart_set fun v V _ hV hf hproc => ha v V hV hproc hf⟩
  rcases set_task_cases hV with ⟨rfl, rfl⟩ | ⟨_, hV⟩
  · rw [show (Task.fresh p a).proc = p from rfl, show (Task.fresh p a).area = a from rfl,
      write_cpuId_self]
    exact taskInv_fresh p a
  · exact (h.task v V hV).write fun hf hp => ha v V hV hp hf

/-- The child is alone in its process, with its parent's memory and registration. -/
theorem Inv.fork (h : Inv sig w) {t u : Tid} {T : Task Pid} {q : Pid} (hT : w.task t = some T)
    (hq : ∀ v V, w.task v = some V → V.proc ≠ q) :
    Inv sig { w.set u { T with proc := q } with
      cpuId := Function.update w.cpuId q (w.cpuId T.proc) } := by
  refine ⟨fun v V hV => ?_, h.apart_set fun v V _ hV _ hproc => absurd hproc (hq v V hV)⟩
  change TaskInv sig V (Function.update w.cpuId q (w.cpuId T.proc) V.proc V.area)
  rcases set_task_cases hV with ⟨rfl, rfl⟩ | ⟨_, hV⟩
  · -- its fields have the values of its parent's
    rw [Function.update_self]
    have hi := h.task t T hT
    exact ⟨hi.own, hi.cpuId, hi.slot, hi.pc, hi.freed⟩
  · rw [Function.update_of_ne (hq v V hV)]
    exact h.task v V hV

/-- What the kernel writes for a thread is the field in its own `SLOT`. -/
theorem Inv.resume (h : Inv sig w) {t : Tid} {T : Task Pid} {r : Held} {cpu : U32}
    (hT : w.task t = some T) (hr : T.reg = some r) (hcpu : IsCpu cpu) :
    Inv sig (w.write T.proc r.ptr cpu) := by
  have hi := h.task t T hT
  have hne : T.reg ≠ none := by rw [hr]; nofun
  have hput : Inv sig ((w.set t T).write T.proc T.area cpu) := h.put hT (hi.not_freed hne) rfl rfl
    { hi with cpuId := fun _ => iff_of_false hne (not_not.mpr hcpu) }
  rwa [set_of_task hT, ← show r.ptr = T.area by rw [hi.own_of_some hr]; rfl] at hput

/-- **Every step keeps the invariant.** -/
theorem Inv.step (h : Inv sig w) {l : Label Pid Tid} (hs : Step sig w l w') : Inv sig w' := by
  cases hs with
  | call rseq hT hpc hf =>
    exact h.set hT hf rfl rfl ((h.task _ _ hT).move hf (by rw [hpc]; nofun) trivial)
  | access hT hpc =>
    have hi := h.task _ _ hT
    exact h.set hT (hi.not_freed_of_pc (by rw [hpc]; nofun)) (by simp) (by simp) (hi.access hpc)
  | register hT hpc _ hcpu =>
    have hi := h.task _ _ hT
    exact h.put hT (hi.not_freed_of_pc (by rw [hpc]; nofun)) rfl rfl (hi.register hpc hcpu)
  | refuse hT hpc =>
    have hi := h.task _ _ hT
    have hf := hi.not_freed_of_pc (by rw [hpc]; nofun)
    exact h.set hT hf rfl rfl (hi.move hf (by rw [hpc]; nofun) trivial)
  | ret hT hpc _ =>
    have hi := h.task _ _ hT
    have hf := hi.not_freed_of_pc (by rw [hpc]; nofun)
    exact h.set hT hf rfl rfl (hi.move hf (by rw [hpc]; nofun) trivial)
  | @exit t T hT _ hph =>
    have hf : T.phase ≠ .freed := by rw [hph]; nofun
    exact h.set hT hf rfl rfl ((h.task _ _ hT).setPhase hf nofun)
  | @dtor t T hT _ hph _ =>
    have hf : T.phase ≠ .freed := by rw [hph]; nofun
    exact h.set hT hf rfl rfl ((h.task _ _ hT).dtor hf)
  | unregister hT hpc hr =>
    have hi := h.task _ _ hT
    exact h.put hT (hi.not_freed_of_pc (by rw [hpc]; nofun)) (by simp) (by simp)
      (hi.unregister hpc hr)
  | unregisterFails hT hpc hr =>
    have hi := h.task _ _ hT
    exact h.set hT (hi.not_freed_of_pc (by rw [hpc]; nofun)) (by simp) (by simp)
      (hi.unregisterFails hpc hr)
  | @free t T hT hpc hph hslot =>
    have hf : T.phase ≠ .freed := by rw [hph]; nofun
    exact h.set hT hf rfl rfl ((h.task _ _ hT).setPhase hf fun _ => ⟨hpc, hslot⟩)
  | spawn a hT _ _ _ ha => exact h.spawn ha
  | fork q hT _ _ _ hq => exact h.fork hT hq
  | resume hT hr hcpu => exact h.resume hT hr hcpu
  | write p a id hu => exact h.write hu

end Steps

/-! ### The life cycle -/

section Runs

variable [DecidableEq Pid] [DecidableEq Tid] {w₀ w w' : World Pid Tid} {t : Tid} {T : Task Pid}

/-- **The invariant holds in every reachable state.** -/
theorem Inv.run (hi : Initial w₀) {h : List (Label Pid Tid)} (hr : LTS.Run (Step sig) w₀ h w) :
    Inv sig w :=
  hr.invariant (I := fun _ w => Inv sig w) hi.inv fun _ _ _ _ _ hI hs => hI.step hs

omit [DecidableEq Pid] [DecidableEq Tid] in
/-- No pointer is left to a `SLOT` that is destroyed. -/
theorem Inv.noPointer (h : Inv sig w) (hT : w.task t = some T) (hd : T.Destroyed) :
    w.NoPointer T := by
  have hreg := (h.task t T hT).reg_of_destroyed hd
  refine ⟨hreg, fun u U r hU hproc hr hptr => ?_⟩
  have hi := h.task u U hU
  have hf : U.phase ≠ .freed := hi.not_freed (by rw [hr]; nofun)
  have harea : U.area = T.area := by
    rw [← hptr, hi.own_of_some hr]
    rfl
  refine ⟨?_, harea, hf⟩
  -- two threads that have their memory have not both their `SLOT` there
  by_contra hn
  have hne : u ≠ t := by
    rintro rfl
    rw [hT] at hU
    cases hU
    rw [hreg] at hr
    cases hr
  exact h.apart u t U T hU hT hne hf hn hproc harea

/-- What no step of a thread undoes, and where its `drop` can start. -/
def Later (T T' : Task Pid) : Prop :=
  (T.slot = .destroyed → T'.slot = .destroyed) ∧
    (T'.pc = .drop → T.pc = .drop ∨ T.slot = .alive)

omit [DecidableEq Pid] in
/-- A step of one thread, seen by any. -/
theorem later_set {u : Tid} {U U' : Task Pid} (hU : w.task u = some U) (hl : Later U U')
    (hT : w.task t = some T) : ∃ T', (w.set u U').task t = some T' ∧ Later T T' := by
  by_cases he : t = u
  · subst he
    rw [hU] at hT
    cases hT
    exact ⟨U', set_task_self, hl⟩
  · exact ⟨T, by rw [set_task_of_ne he, hT], id, .inl⟩

omit [DecidableEq Pid] in
theorem later_new {u : Tid} {U' : Task Pid} (hu : w.task u = none) (hT : w.task t = some T) :
    ∃ T', (w.set u U').task t = some T' ∧ Later T T' := by
  have he : t ≠ u := by
    rintro rfl
    rw [hu] at hT
    cases hT
  exact ⟨T, by rw [set_task_of_ne he, hT], id, .inl⟩

theorem later_step {l : Label Pid Tid} (hs : Step sig w l w') (hT : w.task t = some T) :
    ∃ T', w'.task t = some T' ∧ Later T T' := by
  cases hs with
  | call _ hU hpc _ => exact later_set hU ⟨id, nofun⟩ hT
  | @access u U rseq hU hpc =>
    refine later_set hU ?_ hT
    by_cases hd : U.slot = .destroyed
    · rw [Task.access_of_destroyed hd]
      exact ⟨id, nofun⟩
    · rw [Task.access_of_ne hd]
      refine ⟨fun h => absurd h hd, fun hp => ?_⟩
      by_cases hid : IsCpu (w.cpuId U.proc U.area)
      · simp only [if_pos hid] at hp
        cases hp
      · simp only [if_neg hid] at hp
        cases hp
  | register hU _ _ _ => exact later_set hU ⟨id, nofun⟩ hT
  | refuse hU _ => exact later_set hU ⟨id, nofun⟩ hT
  | ret hU _ _ => exact later_set hU ⟨id, nofun⟩ hT
  | exit hU _ _ => exact later_set hU ⟨id, .inl⟩ hT
  | dtor hU _ _ hslot => exact later_set hU ⟨fun _ => rfl, fun _ => .inr hslot⟩ hT
  | unregister hU _ hr =>
    refine later_set hU ?_ hT
    rw [Task.unregistered, if_pos hr]
    exact ⟨id, nofun⟩
  | unregisterFails hU _ hr =>
    refine later_set hU ?_ hT
    rw [Task.unregistered, if_neg hr]
    exact ⟨id, nofun⟩
  | free hU _ _ _ => exact later_set hU ⟨id, .inl⟩ hT
  | spawn _ _ _ _ hu _ => exact later_new hu hT
  | fork _ _ _ _ hu _ => exact later_new hu hT
  | resume _ _ _ => exact ⟨T, hT, id, .inl⟩
  | write _ _ _ _ => exact ⟨T, hT, id, .inl⟩

/-- **A `SLOT` that is destroyed stays so.** -/
theorem destroyed_run {h : List (Label Pid Tid)} (hr : LTS.Run (Step sig) w h w')
    (hT : w.task t = some T) (hd : T.Destroyed) : ∃ T', w'.task t = some T' ∧ T'.Destroyed := by
  refine hr.invariant (I := fun _ w' => ∃ T', w'.task t = some T' ∧ T'.Destroyed)
    ⟨T, hT, hd⟩ fun _ _ _ _ _ hI hs => ?_
  obtain ⟨U, hU, hslot, hpc⟩ := hI
  obtain ⟨U', hU', hl⟩ := later_step hs hU
  refine ⟨U', hU', hl.1 hslot, fun hp => ?_⟩
  rcases hl.2 hp with hdrop | halive
  · exact hpc hdrop
  · rw [hslot] at halive
    cases halive

/-- What `bind` returns is the `SLOT` that the kernel holds. -/
theorem Inv.ret_some (hI : Inv sig w) {a : Usize} (hs : Step sig w (.ret t (some a)) w') :
    ∃ T, w.task t = some T ∧ a = T.area ∧ T.reg = some (T.own sig) := by
  cases hs with
  | @ret _ T rseq area _ hT hpc hr =>
    -- the second read of `Rseq::bind` lets the area through, or gives `None`
    have harea : area = some a := by
      unfold result at hr
      split at hr
      · cases hr
      · exact hr.symm
    have hp := (hI.task t T hT).pc
    rw [hpc, harea] at hp
    exact ⟨T, hT, hp⟩

/-- A thread whose `SLOT` is destroyed has nothing to return. -/
theorem Inv.ret_none (hI : Inv sig w) {r : Option Usize} (hs : Step sig w (.ret t r) w')
    (hT : w.task t = some T) (hd : T.Destroyed) : r = none := by
  cases r with
  | none => rfl
  | some a =>
    obtain ⟨U, hU, _, hreg⟩ := hI.ret_some hs
    rw [hT] at hU
    cases hU
    rw [(hI.task t T hT).reg_of_destroyed hd] at hreg
    cases hreg

/-- **The life cycle of self-registration**, over every run. -/
theorem lifeCycle (hi : Initial w₀) : LifeCycle sig w₀ where
  bound _ _ _ _ _ hr hs := (Inv.run hi hr).ret_some hs
  once h w w' t rc hr hs := by
    have hI := Inv.run hi hr
    cases hs with
    | register hT _ hreg _ => exact ⟨_, hT, hreg⟩
    | refuse hT hpc =>
      -- the thread has read in its `SLOT` that it is not registered
      have hp := (hI.task _ _ hT).pc
      rw [hpc] at hp
      exact ⟨_, hT, hp.2⟩
  gone _ _ _ _ hr hT hd := (Inv.run hi hr).noPointer hT hd
  silent h w t T h' w' hr hT hd hr' r hret := by
    obtain ⟨before, after, rfl⟩ := List.append_of_mem hret
    -- the state in which this bind returns
    obtain ⟨v', hv', _⟩ : ∃ v', LTS.Run (Step sig) w (.ret t r :: after) v' ∧
        LTS.Run (Step sig) v' before w' := LTS.Run.split hr'
    cases hv' with
    | cons hv hs =>
      obtain ⟨U, hU, hUd⟩ := destroyed_run hv hT hd
      exact (Inv.run hi (hr.append hv)).ret_none hs hU hUd

end Runs

/-! ### One thread alone -/

section Alone

variable {Site : Type}

/-- A thread in caller code, as the model of one thread has it. -/
structure Sees (w : World Pid Tid) (t : Tid) (T : Task Pid) (s : Life Site) : Prop where
  task : w.task t = some T
  pc : T.pc = .caller
  slot : T.slot = s.slot
  cpuId : w.cpuId T.proc T.area = s.thr.area.cpuId
  registered : T.reg ≠ none ↔ s.registered = true

variable [DecidableEq Pid] [DecidableEq Tid] {w : World Pid Tid} {t : Tid} {T A : Task Pid}
  {s : Life Site}

/-- The call, and the access to `SLOT`. -/
theorem access_run (hT : w.task t = some T) (hpc : T.pc = .caller) (hf : T.phase ≠ .freed)
    (ha : A = { T with pc := .access true }.access true (w.cpuId T.proc T.area)) :
    ∃ w', LTS.Run (Step sig) w [.access t, .call t true] w' ∧ w'.task t = some A ∧
      w'.cpuId = w.cpuId := by
  have hcall := LTS.Run.single (@Step.call _ _ _ _ sig w t T true hT hpc hf)
  exact ⟨_, hcall.cons (.access set_task_self rfl), ha ▸ set_task_self, rfl⟩

/-- The second read, and the return. -/
theorem ret_run {w₀ : World Pid Tid} {k : List (Label Pid Tid)} {area : Option Usize}
    (hr : LTS.Run (Step sig) w₀ k w) (hT : w.task t = some T) (hpc : T.pc = .bound true area)
    (hslot : T.slot = s.slot) (hcpu : w.cpuId T.proc T.area = s.thr.area.cpuId)
    (hreg : T.reg ≠ none ↔ s.registered = true) :
    ∃ w' T', LTS.Run (Step sig) w₀ (.ret t (result true area s.thr.area.cpuId) :: k) w' ∧
      Sees w' t T' s :=
  ⟨_, _, hr.cons (.ret hT hpc (by rw [hcpu])), set_task_self, rfl, hslot, hcpu, hreg⟩

/-- **`Life.bind` is what the steps of `Rseq::bind` do when nothing comes between them.** -/
theorem bind_alone (hI : Inv sig w) (h : Sees w t T s) (hf : T.phase ≠ .freed) (cid : Bool)
    (rc : Option (U32 × U32)) (hrc : ∀ cpu c, rc = some (cpu, c) → IsCpu cpu) :
    ∃ k w' T' r, LTS.Run (Step sig) w (.ret t r :: k) w' ∧ Sees w' t T' (s.bind cid rc).2 ∧
      (r.isSome ↔ (s.bind cid rc).1.isSome) := by
  obtain ⟨hT, hpc, hslot, hcpu, hreg⟩ := h
  by_cases hd : s.slot = .destroyed
  · -- `try_with` fails
    obtain ⟨w₁, hr₁, hT₁, hw₁⟩ := access_run (A := { T with pc := .bound true none }) hT hpc hf
      (Task.access_of_destroyed (hslot.trans hd)).symm
    obtain ⟨w₂, T₂, hr₂, hs₂⟩ := ret_run hr₁ hT₁ rfl hslot (by rw [hw₁]; exact hcpu) hreg
    have hbind : s.bind cid rc = (none, s) := by simp [Life.bind, Life.bindSlot, hd]
    rw [hbind]
    exact ⟨_, w₂, T₂, _, hr₂, hs₂, by simp [result]⟩
  have hlive : T.slot ≠ .destroyed := fun he => hd (hslot.symm.trans he)
  have hbindSlot : s.bindSlot rc = Life.register rc { s with slot := .alive } := by
    unfold Life.bindSlot
    split
    · next he => exact absurd he hd
    all_goals rfl
  have haccess : { T with pc := .access true }.access true (w.cpuId T.proc T.area) =
      { T with slot := .alive, pc := if IsCpu s.thr.area.cpuId then .bound true (some T.area)
                                     else .syscall true } := by
    rw [Task.access_of_ne (by exact hlive), hcpu]
  by_cases hid : IsCpu s.thr.area.cpuId
  · -- registered already
    obtain ⟨w₁, hr₁, hT₁, hw₁⟩ := access_run
      (A := { T with slot := .alive, pc := .bound true (some T.area) }) hT hpc hf
      (by rw [haccess, if_pos hid])
    obtain ⟨w₂, T₂, hr₂, hs₂⟩ := ret_run (s := { s with slot := .alive }) hr₁ hT₁ rfl rfl
      (by rw [hw₁]; exact hcpu) hreg
    have hbind : s.bind cid rc = (some ⟨cid⟩, { s with slot := .alive }) := by
      have hregister : Life.register rc { s with slot := .alive } =
          (true, { s with slot := .alive }) := if_pos hid
      rw [Life.bind, hbindSlot, hregister]
      exact if_pos ⟨rfl, hid⟩
    rw [hbind]
    exact ⟨_, w₂, T₂, _, hr₂, hs₂, by simp [result, hid]⟩
  obtain ⟨w₁, hr₁, hT₁, hw₁⟩ := access_run
    (A := { T with slot := .alive, pc := .syscall true }) hT hpc hf
    (by rw [haccess, if_neg hid])
  cases rc with
  | none =>
    -- the kernel refuses
    obtain ⟨w₂, T₂, hr₂, hs₂⟩ := ret_run (s := { s with slot := .alive })
      (hr₁.cons (.refuse hT₁ rfl)) set_task_self rfl rfl
      (by change w₁.cpuId T.proc T.area = _; rw [hw₁]; exact hcpu) hreg
    have hbind : s.bind cid none = (none, { s with slot := .alive }) := by
      have hregister : Life.register none { s with slot := .alive } =
          (false, { s with slot := .alive }) := if_neg hid
      rw [Life.bind, hbindSlot, hregister]
      exact if_neg fun hok => absurd hok.1 nofun
    rw [hbind]
    exact ⟨_, w₂, T₂, _, hr₂, hs₂, by simp [result]⟩
  | some answer =>
    obtain ⟨cpu, c⟩ := answer
    have hc : IsCpu cpu := hrc cpu c rfl
    have hnone : T.reg = none := ((hI.task t T hT).cpuId hf).mpr (by rwa [hcpu])
    obtain ⟨w₂, T₂, hr₂, hs₂⟩ := ret_run
      (s := { s with slot := .alive, registered := true
                     thr := { s.thr with area := ⟨cpu, 0, c⟩ } })
      (hr₁.cons (.register hT₁ rfl hnone hc)) set_task_self rfl rfl write_cpuId_self
      (iff_of_true nofun rfl)
    have hbind : s.bind cid (some (cpu, c)) = (some ⟨cid⟩,
        { s with slot := .alive, registered := true
                 thr := { s.thr with area := ⟨cpu, 0, c⟩ } }) := by
      have hregister : Life.register (some (cpu, c)) { s with slot := .alive } =
          (true, { s with slot := .alive, registered := true
                          thr := { s.thr with area := ⟨cpu, 0, c⟩ } }) := if_neg hid
      rw [Life.bind, hbindSlot, hregister]
      exact if_pos ⟨rfl, hc⟩
    rw [hbind]
    exact ⟨_, w₂, T₂, _, hr₂, hs₂, by simp [result, hc]⟩

end Alone

/-! ### A run -/

/-- A process with one thread, its `SLOT` at `0x1000`. -/
def start : World ℕ ℕ where
  task t := if t = 0 then some (.fresh 0 0x1000) else none
  cpuId _ _ := cpuUninit

theorem start_task {t : ℕ} {T : Task ℕ} (h : start.task t = some T) :
    t = 0 ∧ T = .fresh 0 0x1000 := by
  by_cases ht : t = 0
  · exact ⟨ht, Option.some.inj ((if_pos ht).symm.trans h).symm⟩
  · exact absurd ((if_neg ht).symm.trans h) nofun

theorem start_initial : Initial start where
  fresh t T hT := by rw [(start_task hT).2]; rfl
  cpuId _ _ _ := rfl
  apart t u T U hT hU hne _ := absurd ((start_task hT).1.trans (start_task hU).1.symm) hne

/-- Its first `Rseq::bind`, up to the return. -/
theorem start_bind (sig : U32) :
    ∃ h w w', LTS.Run (Step sig) start h w ∧ Step sig w (.ret 0 (some 0x1000)) w' := by
  have htask : start.task 0 = some (.fresh 0 0x1000) := rfl
  have hcall := LTS.Run.single (@Step.call ℕ ℕ _ _ sig start 0 _ true htask rfl nofun)
  have haccess := hcall.cons (.access set_task_self rfl)
  have hregister := haccess.cons (.register set_task_self rfl rfl (show IsCpu 1 by decide))
  exact ⟨_, _, _, hregister, .ret rfl rfl rfl⟩

/-- The kernel holds what this bind returns. -/
theorem lifeCycle_start : LifeCycle 0x53053053 start ∧
    ∃ h w T, LTS.Run (Step 0x53053053) start h w ∧ w.task 0 = some T ∧
      T.reg = some (T.own 0x53053053) := by
  refine ⟨lifeCycle start_initial, ?_⟩
  obtain ⟨h, w, w', hr, hs⟩ := start_bind 0x53053053
  obtain ⟨T, hT, _, hreg⟩ := (lifeCycle start_initial).bound h w w' 0 _ hr hs
  exact ⟨h, w, T, hr, hT, hreg⟩

end Tasks

end RseqRs
