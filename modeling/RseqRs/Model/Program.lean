import RseqRs.Model.Machine

/-!
# Programs beside the machine

What the callers of the word ops do is a program: what each context of a thread is doing, its
job, and how calls, returns and the caller code between them move it on. Handlers run the same
program, from `rest` to `rest`. Everything a program does between two word ops is caller code
for the machine; the laws of `Program` say that a job knows which call it is in.
-/

namespace RseqRs

/-- The call of a context that is in a word op. -/
def Frame.called {Site : Type} : Frame Site → Option Call
  | .op c _ | .refused c => some c
  | _ => none

/-- What an act of a context's own leaves it in. -/
def Act.leaves : Act → Option Call
  | .call c => some c
  | _ => none

/-- The acts that may move a job on: calls and returns, and the caller code between them. -/
def Act.turns : Act → Bool
  | .call _ | .ret _ _ | .goto | .unload | .fenceCall _ | .fenceRet _ _ => true
  | _ => false

/-- The acts that a job may sleep through: an instruction, being scheduled, other caller code. -/
def Act.idles : Act → Bool
  | .exec _ | .preempt | .resume _ _ | .goto | .unload | .fenceCall _ | .fenceRet _ _ => true
  | _ => false

/-- A program over the word ops. -/
structure Program where
  /-- what a context is doing -/
  Job : Type
  /-- nothing of the program -/
  rest : Job
  /-- the call a job is in -/
  calling : Job → Option Call
  /-- what an act does to the job of the running context, the area and the memory being as
  before the act -/
  Turn : Area → Mem → Act → Job → Job → Prop
  /-- the cells that nobody else writes -/
  Owns : Usize → Prop
  calling_rest : calling rest = none
  turns : ∀ area m a j j', Turn area m a j j' → a.turns = true
  calling_turn : ∀ area m a j j', Turn area m a j j' → calling j' = a.leaves

namespace Program

variable (P : Program) {Tid : Type} [DecidableEq Tid]

/-- What a step of the machine does to the jobs, those of a thread listed with the running
context first. -/
inductive Moves (area : Tid → Area) (m : Mem) (k : Tid → List P.Job) :
    Label Tid → (Tid → List P.Job) → Prop
  | turn {t : Tid} {d : ℕ} {a : Act} {j j' : P.Job} {js : List P.Job} :
      k t = j :: js → P.Turn (area t) m a j j' →
      Moves area m k (.act t d a) (Function.update k t (j' :: js))
  | idle {t : Tid} {d : ℕ} {a : Act} : a.idles = true → Moves area m k (.act t d a) k
  /-- a handler runs the program too -/
  | signal {t : Tid} {d : ℕ} :
      Moves area m k (.act t d .signal) (Function.update k t (P.rest :: k t))
  /-- it ends with no job undone -/
  | sigreturn {t : Tid} {d : ℕ} {js : List P.Job} : k t = P.rest :: js →
      Moves area m k (.act t d .sigreturn) (Function.update k t js)
  | fenceRun {t : Tid} {d : ℕ} {ev : RunEv} {hit : Tid → Bool} :
      Moves area m k (.fenceRun t d ev hit) k
  | write {x v : Usize} : ¬ P.Owns x → Moves area m k (.write x v) k

/-- One step of the machine with the program. -/
def Step (M : Machine Tid) (s : Sys Tid M.img.Site × (Tid → List P.Job)) (l : Label Tid)
    (s' : Sys Tid M.img.Site × (Tid → List P.Job)) : Prop :=
  M.Step s.1 l s'.1 ∧ P.Moves (fun t => (s.1.thr t).area) s.1.mem s.2 l s'.2

/-- Nothing has run yet. -/
structure Initial (M : Machine Tid) (s : Sys Tid M.img.Site × (Tid → List P.Job)) : Prop where
  machine : M.Initial s.1
  rest : ∀ t, s.2 t = [P.rest]

/-- **The jobs fit** the machine: every context is in the call its job is in. -/
def Fits {M : Machine Tid} (s : Sys Tid M.img.Site) (k : Tid → List P.Job) : Prop :=
  ∀ t, (k t).map P.calling = (s.thr t).stack.map fun y => y.frame.called

end Program

end RseqRs
