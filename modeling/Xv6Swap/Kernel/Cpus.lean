import Xv6Swap.Kernel.Ptable

/-!
# The scheduler

`scheduler`, `sched`, `yield`, `sleep`, `wakeup`, `forkret` and what `exit`, `wait`, `kill` and
`fork` do to the state of a process (`kernel/proc.c`), on any number of CPUs.  A step is what a CPU
does between two operations on a `p->lock`, or a `swtch`.

`p->lock` is held by a CPU, not by a process: it is acquired in one context and released in another
one after `swtch`.  Which child `wait` looks at, and which channel a process sleeps on, is left
open, so that the runs are at least those of the source.  The context of a new process is set when
`allocproc` takes the entry; the source sets it later, while the state is still `USED`.
-/

namespace Xv6Swap

/-- Why a process gives up its CPU. -/
inductive Away where
  | yield
  | sleep (chan : ℕ)
  | exit
  deriving DecidableEq, Repr

/-- The state that a process sets before it calls `sched`. -/
def Away.state : Away → PtState
  | .yield => .runnable
  | .sleep _ => .sleeping
  | .exit => .zombie

/-- The position of a process. -/
inductive CpPc where
  /-- At the start of `forkret`. -/
  | forkret
  /-- In other code, without its own `p->lock`. -/
  | run
  /-- After `acquire(&p->lock)` in `yield`, `sleep` or `exit`. -/
  | locked (w : Away)
  /-- In `sched`, at `swtch`. -/
  | sched (w : Away)
  /-- In `sched`, after `swtch`. -/
  | resume (w : Away)
  deriving DecidableEq, Repr

/-- A process. -/
structure CpProc where
  state : PtState
  chan : ℕ
  /-- The CPU that holds `p->lock`. -/
  lock : Option ℕ
  pc : CpPc
  deriving DecidableEq, Repr

/-- The position of a CPU in the loop of `scheduler`. -/
inductive SchedPc where
  /-- At `acquire(&p->lock)`. -/
  | scan (j : ℕ)
  /-- After `acquire(&p->lock)`. -/
  | test (j : ℕ)
  /-- At `swtch`. -/
  | switch (j : ℕ)
  /-- After `swtch`. -/
  | back (j : ℕ)
  deriving DecidableEq, Repr

/-- The scheduler holds no lock. -/
def SchedPc.Open : SchedPc → Prop
  | .scan _ => True
  | .test _ | .switch _ | .back _ => False

instance (pc : SchedPc) : Decidable pc.Open := by
  cases pc <;> unfold SchedPc.Open <;> infer_instance

/-- A critical section on a `p->lock`. -/
inductive Visit where
  | wakeup (chan : ℕ)
  /-- `kill`; `found` tells whether the pid is the one. -/
  | kill (found : Bool)
  /-- `wait`, for a child. -/
  | wait
  /-- `allocproc`. -/
  | alloc
  /-- The end of `fork`. -/
  | publish
  /-- `freeproc` in a `fork` that fails. -/
  | undo
  deriving DecidableEq, Repr

/-- The critical section is one of `wakeup`. -/
def Visit.isWakeup : Visit → Bool
  | .wakeup _ => true
  | _ => false

/-- What a critical section does. -/
def Visit.effect (v : Visit) (x : CpProc) : CpProc :=
  match v with
  | .wakeup chan => if x.state = .sleeping ∧ x.chan = chan then { x with state := .runnable } else x
  | .kill found => if found ∧ x.state = .sleeping then { x with state := .runnable } else x
  | .wait => if x.state = .zombie then { x with state := .unused, chan := 0 } else x
  | .alloc => if x.state = .unused then { x with state := .used, pc := .forkret } else x
  | .publish => if x.state = .used then { x with state := .runnable } else x
  | .undo => if x.state = .used then { x with state := .unused, chan := 0 } else x

/-- A CPU. -/
structure Cpu where
  /-- `c->proc`. -/
  current : Option ℕ
  /-- The process whose kernel stack the CPU executes on; none for the scheduler. -/
  stack : Option ℕ
  pc : SchedPc
  /-- The critical section that the code on this CPU is in. -/
  visit : Option (ℕ × Visit)
  deriving DecidableEq, Repr

/-- The processes and the CPUs. -/
structure Cpus where
  proc : ℕ → CpProc
  cpu : ℕ → Cpu

namespace Cpus

/-- Change a process. -/
def setProc (s : Cpus) (p : ℕ) (x : CpProc) : Cpus :=
  { s with proc := Function.update s.proc p x }

/-- Change a CPU. -/
def setCpu (s : Cpus) (c : ℕ) (x : Cpu) : Cpus := { s with cpu := Function.update s.cpu c x }

/-- The next entry of the loop of `scheduler`, in a table of `np` entries. -/
def after (np j : ℕ) : ℕ := if j + 1 < np then j + 1 else 0

/-- The next step of the scheduler on the CPU `c`. -/
def schedStep (np : ℕ) (s : Cpus) (c : ℕ) : Cpus :=
  let x := s.cpu c
  match x.pc with
  | .scan j => (s.setProc j { s.proc j with lock := some c }).setCpu c { x with pc := .test j }
  | .test j =>
    if (s.proc j).state = .runnable then
      (s.setProc j { s.proc j with state := .running }).setCpu c
        { x with current := some j, pc := .switch j }
    else
      (s.setProc j { s.proc j with lock := none }).setCpu c { x with pc := .scan (after np j) }
  | .switch j => s.setCpu c { x with stack := some j, pc := .back j }
  | .back j =>
    (s.setProc j { s.proc j with lock := none }).setCpu c
      { x with current := none, pc := .scan (after np j) }

/-- The next step of the process `p` on the CPU `c`, in `yield`, `sleep`, `exit` or `forkret`. -/
def procStep (s : Cpus) (c p : ℕ) : Cpus :=
  let x := s.proc p
  match x.pc with
  | .forkret => s.setProc p { x with lock := none, pc := .run }
  | .run => s
  | .locked (.sleep chan) =>
    s.setProc p { x with chan, state := .sleeping, pc := .sched (.sleep chan) }
  | .locked w => s.setProc p { x with state := w.state, pc := .sched w }
  | .sched w => (s.setProc p { x with pc := .resume w }).setCpu c { s.cpu c with stack := none }
  | .resume (.sleep _) => s.setProc p { x with chan := 0, lock := none, pc := .run }
  | .resume _ => s.setProc p { x with lock := none, pc := .run }

/-- The lock that the scheduler needs for its next step is free. -/
def SchedFree (s : Cpus) : SchedPc → Prop
  | .scan j => (s.proc j).lock = none
  | .test _ | .switch _ | .back _ => True

instance (s : Cpus) (pc : SchedPc) : Decidable (s.SchedFree pc) := by
  cases pc <;> unfold SchedFree <;> infer_instance

/-- The code on the CPU `c` can enter a critical section on the process `q`: it holds no `p->lock`.
`wakeup` passes over the process that calls it, and may also be called by an interrupt handler
while the scheduler runs. -/
def MayEnter (s : Cpus) (c q : ℕ) (v : Visit) : Prop :=
  match (s.cpu c).stack with
  | some p => (s.proc p).pc = .run ∧ (v.isWakeup → p ≠ q)
  | none => (s.cpu c).pc.Open ∧ v.isWakeup

instance (s : Cpus) (c q : ℕ) (v : Visit) : Decidable (s.MayEnter c q v) := by
  unfold MayEnter
  cases (s.cpu c).stack <;> infer_instance

end Cpus

/-- What can happen. -/
inductive CpEvent where
  /-- The scheduler on a CPU makes a step. -/
  | sched (c : ℕ)
  /-- The process on a CPU enters `yield`, `sleep` or `exit`, and takes its lock. -/
  | away (c p : ℕ) (w : Away)
  /-- The process on a CPU makes a step. -/
  | step (c p : ℕ)
  /-- The code on a CPU enters a critical section. -/
  | enter (c q : ℕ) (v : Visit)
  /-- The code on a CPU makes the change and releases the lock. -/
  | leave (c q : ℕ) (v : Visit)
  deriving DecidableEq, Repr

namespace CpEvent

/-- When it can happen, in a table of `np` processes. -/
def Ok (np : ℕ) (e : CpEvent) (s : Cpus) : Prop :=
  match e with
  | .sched c => (s.cpu c).stack = none ∧ (s.cpu c).visit = none ∧ s.SchedFree (s.cpu c).pc
  | .away c p _ => (s.cpu c).stack = some p ∧ (s.cpu c).visit = none ∧
      (s.proc p).pc = .run ∧ (s.proc p).lock = none
  | .step c p => (s.cpu c).stack = some p ∧ (s.cpu c).visit = none ∧ (s.proc p).pc ≠ .run
  | .enter c q v => q < np ∧ (s.cpu c).visit = none ∧ (s.proc q).lock = none ∧ s.MayEnter c q v
  | .leave c q v => (s.cpu c).visit = some (q, v)

instance (np : ℕ) (e : CpEvent) (s : Cpus) : Decidable (e.Ok np s) := by
  unfold Ok
  cases e <;> infer_instance

/-- Its effect. -/
def next (np : ℕ) (e : CpEvent) (s : Cpus) : Cpus :=
  match e with
  | .sched c => s.schedStep np c
  | .away c p w => s.setProc p { s.proc p with lock := some c, pc := .locked w }
  | .step c p => s.procStep c p
  | .enter c q v => (s.setProc q { s.proc q with lock := some c }).setCpu c
      { s.cpu c with visit := some (q, v) }
  | .leave c q v => (s.setProc q { v.effect (s.proc q) with lock := none }).setCpu c
      { s.cpu c with visit := none }

end CpEvent

/-- After `userinit`: the first process is ready to run, and every CPU enters `scheduler`. -/
def Cpus.start : Cpus where
  proc p := ⟨if p = 0 then .runnable else .unused, 0, none, .forkret⟩
  cpu _ := ⟨none, none, .scan 0, none⟩

/-- The runs of a table of `np` processes, with a CPU for every number. -/
def cpus (np : ℕ) : Machine Cpus Empty CpEvent where
  init s := s = Cpus.start
  guard := CpEvent.Ok np
  prog e := Run.modify (e.next np)

end Xv6Swap
