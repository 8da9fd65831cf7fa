import Mathlib.Data.Int.Notation
import Mathlib.Logic.Function.Basic
import Xv6Swap.Lib.Machine

/-!
# The process table

`fork`, `exit`, `wait` and `kill` of `kernel/proc.c`, with `allocproc`, `freeproc` and `reparent`,
as steps of any number of processes: a step takes or gives up `wait_lock`, or visits one entry of
the table under its `p->lock`.

A process that is not in one of these calls can be preempted, sleep and be woken at any time: the
event `resched` moves a process between `SLEEPING`, `RUNNABLE` and `RUNNING` as the scheduler and
`wakeup` do.

The fields `birth`, `mother`, `asked`, `births`, `exits` and `reaps` are history: no step depends
on them.
-/

namespace Xv6Swap

/-- `enum procstate`. -/
inductive PtState where
  | unused | used | sleeping | runnable | running | zombie
  deriving DecidableEq, Repr

/-- `SLEEPING`, `RUNNABLE` or `RUNNING`. -/
def PtState.Live : PtState → Prop
  | .sleeping | .runnable | .running => True
  | _ => False

instance PtState.decidableLive (x : PtState) : Decidable x.Live := by
  cases x <;> unfold PtState.Live <;> infer_instance

/-- The position of a process in the code. -/
inductive PtPc where
  /-- In none of the calls. -/
  | user
  /-- In the loop of `allocproc`, before the entry `j`. -/
  | allocproc (j : ℕ)
  /-- In `allocproc`, after `release(&p->lock)`: the trapframe and the page table of `c`. -/
  | frames (c : ℕ)
  /-- In `fork`, at `uvmcopy`. -/
  | uvmcopy (c : ℕ)
  /-- In `fork`, at `acquire(&wait_lock)`. -/
  | adopt (c : ℕ)
  /-- In `fork`, at the last `acquire(&np->lock)`. -/
  | publish (c : ℕ)
  /-- In `exit`, at `acquire(&wait_lock)`. -/
  | exit (status : BitVec 32)
  /-- In `reparent`, before the entry `j`. -/
  | reparent (j : ℕ) (status : BitVec 32)
  /-- In `exit`, at `acquire(&p->lock)`. -/
  | leave (status : BitVec 32)
  /-- In `sched`, called by `exit`: the process holds its `p->lock`. -/
  | sched
  /-- Switched away for the last time. -/
  | gone
  /-- In `wait`, at `acquire(&wait_lock)`, also that at the end of `sleep`. -/
  | wait
  /-- In the loop of `wait`, before the entry `j`. -/
  | scan (j : ℕ) (havekids : Bool)
  /-- In the loop of `kill`, before the entry `j`, with the number of processes created before
  the call. -/
  | kill (pid : BitVec 32) (j : ℕ) (since : ℕ)
  deriving DecidableEq, Repr

/-- The entry that a process in `fork` has allocated. -/
def PtPc.child : PtPc → Option ℕ
  | .frames c | .uvmcopy c | .adopt c | .publish c => some c
  | _ => none

/-- `struct proc`. -/
structure PtSlot where
  state : PtState
  pid : BitVec 32
  /-- `parent`, as an index of the table. -/
  parent : Option ℕ
  killed : Bool
  xstate : BitVec 32
  pc : PtPc
  /-- The number of the process, in the order in which they were created. -/
  birth : ℕ
  /-- The number of the process that called `fork`. -/
  mother : ℕ
  /-- Since it was created, `kill` was called with its pid, or it made a fault. -/
  asked : Bool
  /-- The result of its last call of `kill`. -/
  ret : ℤ
  deriving DecidableEq, Repr

/-- An entry that has never been used. -/
def PtSlot.empty : PtSlot := ⟨.unused, 0, none, false, 0, .user, 0, 0, false, 0⟩

/-- A process that `wait` has returned. -/
structure PtReap where
  birth : ℕ
  pid : BitVec 32
  status : BitVec 32
  mother : ℕ
  /-- The process that created it had exited. -/
  orphan : Bool
  /-- The number of the process that called `wait`. -/
  waiter : ℕ
  deriving DecidableEq, Repr

/-- The process table; `initproc` is its first entry. -/
structure Ptable where
  slot : ℕ → PtSlot
  nextpid : BitVec 32
  /-- The holder of `wait_lock`. -/
  waitLock : Option ℕ
  /-- The number of processes created. -/
  births : ℕ
  /-- The pid and the status of each process that has exited. -/
  exits : ℕ → Option (BitVec 32 × BitVec 32)
  reaps : List PtReap

/-- What one round of the loop of `wait`, or the test after it, finds. -/
inductive PtScan where
  /-- Go on with the next entry. -/
  | next (havekids : Bool)
  /-- Return the child in the entry `j`. -/
  | reap (j : ℕ)
  /-- Return -1: `copyout` failed. -/
  | copyout (j : ℕ)
  /-- Return -1: no children. -/
  | nokids
  /-- Return -1: the caller has been killed. -/
  | killed
  | sleep
  deriving DecidableEq, Repr

namespace Ptable

/-- Change an entry. -/
def set (s : Ptable) (k : ℕ) (x : PtSlot) : Ptable := { s with slot := Function.update s.slot k x }

/-- Move a process in the code. -/
def goto (s : Ptable) (p : ℕ) (pc : PtPc) : Ptable := s.set p { s.slot p with pc }

/-- `p->pid = allocpid(); p->state = USED`, in a call of `fork` by `p`. -/
def claim (s : Ptable) (p j : ℕ) : Ptable :=
  { s.set j { s.slot j with
      pid := s.nextpid, state := .used
      birth := s.births, mother := (s.slot p).birth, asked := false } with
    nextpid := s.nextpid + 1
    births := s.births + 1 }

/-- `freeproc`. -/
def freeproc (s : Ptable) (k : ℕ) : Ptable :=
  s.set k { s.slot k with
    pid := 0, parent := none, killed := false, xstate := 0, state := .unused }

/-- The end of `exit`, up to `sched()`. -/
def leave (s : Ptable) (p : ℕ) (status : BitVec 32) : Ptable :=
  { s.set p { s.slot p with xstate := status, state := .zombie, pc := .sched } with
    waitLock := none
    exits := Function.update s.exits (s.slot p).birth (some ((s.slot p).pid, status)) }

/-- One round of the loop of `wait`, or the test after it; `ok` tells whether `copyout`
succeeds. -/
def scan (np : ℕ) (s : Ptable) (p j : ℕ) (havekids ok : Bool) : PtScan :=
  if j < np then
    if (s.slot j).parent = some p then
      if (s.slot j).state = .zombie then if ok then .reap j else .copyout j
      else .next true
    else .next havekids
  else if havekids = false then .nokids
  else if (s.slot p).killed then .killed
  else .sleep

/-- `release(&wait_lock)`, then return from `wait`. -/
def waitRet (s : Ptable) (p : ℕ) : Ptable := { s.goto p .user with waitLock := none }

/-- The end of `wait` when it has found the child in the entry `j`. -/
def reap (s : Ptable) (p j : ℕ) : Ptable :=
  let x := s.slot j
  { (s.freeproc j).waitRet p with
    reaps := s.reaps ++ [⟨x.birth, x.pid, x.xstate, x.mother, (s.exits x.mother).isSome,
      (s.slot p).birth⟩] }

/-- `sleep(p, &wait_lock)`. -/
def waitSleep (s : Ptable) (p : ℕ) : Ptable :=
  { s.set p { s.slot p with state := .sleeping, pc := .wait } with waitLock := none }

/-- The effect of `kill` on the entry it has found. -/
def hit (s : Ptable) (j : ℕ) : Ptable :=
  let x := s.slot j
  s.set j { x with
    killed := true
    state := if x.state = .sleeping then .runnable else x.state
    asked := if x.state = .unused then x.asked else true }

/-- Return `ret` from `kill`. -/
def killRet (s : Ptable) (p : ℕ) (ret : ℤ) : Ptable :=
  (s.set p { s.slot p with ret }).goto p .user

/-- The next step of the process `p`, in a table of `np` entries; `ok` tells whether an allocation
or a copy succeeds. -/
def step (np : ℕ) (s : Ptable) (p : ℕ) (ok : Bool) : Ptable :=
  match (s.slot p).pc with
  | .allocproc j =>
    if j < np then
      if (s.slot j).state = .unused then (s.claim p j).goto p (.frames j)
      else s.goto p (.allocproc (j + 1))
    else s.goto p .user
  | .frames c => if ok then s.goto p (.uvmcopy c) else (s.freeproc c).goto p .user
  | .uvmcopy c => if ok then s.goto p (.adopt c) else (s.freeproc c).goto p .user
  | .adopt c => (s.set c { s.slot c with parent := some p }).goto p (.publish c)
  | .publish c => (s.set c { s.slot c with state := .runnable, pc := .user }).goto p .user
  | .exit status => { s.goto p (.reparent 0 status) with waitLock := some p }
  | .reparent j status =>
    if j < np then
      if (s.slot j).parent = some p then
        (s.set j { s.slot j with parent := some 0 }).goto p (.reparent (j + 1) status)
      else s.goto p (.reparent (j + 1) status)
    else s.goto p (.leave status)
  | .leave status => s.leave p status
  | .wait => { s.goto p (.scan 0 false) with waitLock := some p }
  | .scan j havekids =>
    match s.scan np p j havekids ok with
    | .next havekids => s.goto p (.scan (j + 1) havekids)
    | .reap j => s.reap p j
    | .copyout _ | .nokids | .killed => s.waitRet p
    | .sleep => s.waitSleep p
  | .kill pid j since =>
    if j < np then
      if (s.slot j).pid = pid then (s.hit j).killRet p 0
      else s.goto p (.kill pid (j + 1) since)
    else s.killRet p (-1)
  | .user | .sched | .gone => s

/-- The process has set its state to `ZOMBIE` and still holds its `p->lock`. -/
def Leaving (s : Ptable) (k : ℕ) : Prop := (s.slot k).state = .zombie ∧ (s.slot k).pc = .sched

instance (s : Ptable) (k : ℕ) : Decidable (s.Leaving k) := by unfold Leaving; infer_instance

/-- The lock that a process needs for its step at `pc` is free. -/
def Free (np : ℕ) (s : Ptable) (p : ℕ) : PtPc → Prop
  | .user | .sched | .gone => False
  | .adopt _ | .exit _ | .wait => s.waitLock = none
  | .allocproc j | .kill _ j _ => j < np → ¬ s.Leaving j
  | .scan j _ => j < np → (s.slot j).parent = some p → ¬ s.Leaving j
  | .frames _ | .uvmcopy _ | .publish _ | .reparent _ _ | .leave _ => True

instance (np : ℕ) (s : Ptable) (p : ℕ) (pc : PtPc) : Decidable (s.Free np p pc) := by
  cases pc <;> unfold Free <;> infer_instance

/-- The process runs, and the lock that its next step needs is free. -/
def Ready (np : ℕ) (s : Ptable) (p : ℕ) : Prop :=
  (s.slot p).state = .running ∧ s.Free np p (s.slot p).pc

instance (np : ℕ) (s : Ptable) (p : ℕ) : Decidable (s.Ready np p) := by
  unfold Ready; infer_instance

end Ptable

/-- The system calls. -/
inductive PtCall where
  | fork
  | exit (status : BitVec 32)
  | wait
  | kill (pid : BitVec 32)
  deriving DecidableEq, Repr

/-- Where a call starts. -/
def PtCall.entry (s : Ptable) : PtCall → PtPc
  | .fork => .allocproc 0
  | .exit status => .exit status
  | .wait => .wait
  | .kill pid => .kill pid 0 s.births

/-- What can happen. -/
inductive PtEvent where
  | call (p : ℕ) (c : PtCall)
  | step (p : ℕ) (ok : Bool)
  /-- The scheduler, `yield`, `sleep` or `wakeup` changes the state of a process. -/
  | resched (p : ℕ) (state : PtState)
  /-- `setkilled`, called by `usertrap` for a fault. -/
  | fault (p : ℕ)
  /-- The scheduler releases the lock of a process that has exited. -/
  | switched (p : ℕ)
  deriving DecidableEq, Repr

namespace PtEvent

/-- When it can happen, in a table of `np` entries. -/
def Ok (np : ℕ) (e : PtEvent) (s : Ptable) : Prop :=
  match e with
  | .call p c => p < np ∧ (s.slot p).state = .running ∧ (s.slot p).pc = .user ∧
      match c with
      -- `panic("init exiting")`
      | .exit _ => p ≠ 0
      | _ => True
  | .step p _ => p < np ∧ s.Ready np p
  | .resched p state => p < np ∧ (s.slot p).state.Live ∧ state.Live ∧ s.waitLock ≠ some p
  | .fault p => p < np ∧ (s.slot p).state = .running ∧ (s.slot p).pc = .user
  | .switched p => p < np ∧ s.Leaving p

instance (np : ℕ) (e : PtEvent) (s : Ptable) : Decidable (e.Ok np s) := by
  unfold Ok
  cases e with
  | call p c => cases c <;> infer_instance
  | _ => infer_instance

/-- Its effect on the table. -/
def next (np : ℕ) (e : PtEvent) (s : Ptable) : Ptable :=
  match e with
  | .call p c => s.goto p (c.entry s)
  | .step p ok => s.step np p ok
  | .resched p state => s.set p { s.slot p with state }
  | .fault p => s.set p { s.slot p with killed := true, asked := true }
  | .switched p => s.goto p .gone

end PtEvent

/-- The table after `userinit`: the first process is `init`. -/
def Ptable.start : Ptable where
  slot := Function.update (fun _ => .empty) 0 { PtSlot.empty with state := .runnable, pid := 1 }
  nextpid := 2
  waitLock := none
  births := 1
  exits := fun _ => none
  reaps := []

/-- The runs of a process table with `np` entries. -/
def ptable (np : ℕ) : Machine Ptable Empty PtEvent where
  init s := s = Ptable.start ∧ 0 < np
  guard := PtEvent.Ok np
  prog e := Run.modify (e.next np)

end Xv6Swap
