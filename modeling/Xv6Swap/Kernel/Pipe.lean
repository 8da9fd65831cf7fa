import Xv6Swap.Kernel.Copy
import Xv6Swap.Lib.Machine

/-!
# Pipes

`kernel/pipe.c`, and `sleep`, `wakeup` and `kill` of `kernel/proc.c` as far as a pipe uses them.
The calls of any number of processes on one pipe run in steps that other processes can come
between: a step takes or gives up a lock, makes one round of a loop, or visits one process in
`wakeup`.

The memory of the pipe goes back to the allocator with the last `pipeclose`.  It is the reference
counts of files that keep this from happening while a call on the pipe is in progress; here it is
part of the guard.

The fields `id`, `since`, `calls`, `stored`, `taken` and `rets` are history: no step of a call
depends on them.
-/

namespace Xv6Swap

open Run

/-- `PIPESIZE`. -/
abbrev pipesize : ℕ := 512

/-- What a process sleeps on: `&pi->nread` or `&pi->nwrite`. -/
inductive Chan where
  | nread | nwrite
  deriving DecidableEq, Repr

/-- The calls on a pipe.  `src` are the bytes of the writer's buffer. -/
inductive PipeCall where
  | write (src : ℕ → Byte) (n : ℤ)
  | read (n : ℤ)
  | close (writable : Bool)

/-- What follows a `wakeup`. -/
inductive PipeNext where
  | sleep (c : Chan)
  | ret (r : ℤ)
  deriving DecidableEq, Repr

/-- The position of a process in the code. -/
inductive PipePc where
  /-- In no call on the pipe. -/
  | idle
  /-- At `acquire(&pi->lock)`, at the start of the call or at the end of `sleep`. -/
  | acquire
  /-- At the loop of `pipewrite`, or at the first loop of `piperead`. -/
  | loop
  /-- At the second loop of `piperead`. -/
  | copy
  /-- In `wakeup(c)`, before the process `j` of the table. -/
  | wake (c : Chan) (j : ℕ) (next : PipeNext)
  /-- In `sleep`, between `release(lk)` and `sched()`: the process holds its own `p->lock`. -/
  | slept (c : Chan)
  /-- `SLEEPING` on `c`. -/
  | asleep (c : Chan)
  deriving DecidableEq, Repr

/-- A process. -/
structure PipeProc where
  pc : PipePc
  call : PipeCall
  /-- The local variable `i`. -/
  i : ℕ
  killed : Bool
  /-- The number of the call. -/
  id : ℕ
  /-- `i` when the process last took the lock. -/
  since : ℕ

/-- A call that has returned: its number, the call and the result, and whether the pipe was empty
and closed for writing at that time. -/
structure PipeRet where
  id : ℕ
  call : PipeCall
  result : ℤ
  empty : Bool
  closed : Bool

/-- `struct pipe` and the processes. -/
structure PipeSys where
  data : ℕ → Byte
  nread : BitVec 32
  nwrite : BitVec 32
  readopen : Bool
  writeopen : Bool
  /-- The holder of `pi->lock`. -/
  lock : Option ℕ
  /-- The pipe has been freed. -/
  freed : Bool
  proc : ℕ → PipeProc
  /-- The number of calls made. -/
  calls : ℕ
  /-- The bytes stored by the writers, with the number of the call. -/
  stored : List (ℕ × Byte)
  /-- The bytes taken by the readers. -/
  taken : List Byte
  rets : List PipeRet

namespace PipeSys

/-- Change a process. -/
def setProc (s : PipeSys) (p : ℕ) (x : PipeProc) : PipeSys :=
  { s with proc := Function.update s.proc p x }

/-- Move a process in the code. -/
def goto (s : PipeSys) (p : ℕ) (pc : PipePc) : PipeSys := s.setProc p { s.proc p with pc }

/-- `release(&pi->lock)`. -/
def release (s : PipeSys) : PipeSys := { s with lock := none }

/-- Nothing to read. -/
def Empty (s : PipeSys) : Prop := s.nread = s.nwrite

/-- No space left. -/
def Full (s : PipeSys) : Prop := s.nwrite = s.nread + BitVec.ofNat 32 pipesize

instance (s : PipeSys) : Decidable s.Empty := by unfold Empty; infer_instance

instance (s : PipeSys) : Decidable s.Full := by unfold Full; infer_instance

/-- `release`, then `return r`. -/
def ret (s : PipeSys) (p : ℕ) (r : ℤ) : PipeSys :=
  let x := s.proc p
  { s.release.goto p .idle with
    rets := s.rets ++ [⟨x.id, x.call, r, decide s.Empty, !s.writeopen⟩] }

/-- One process in the loop of `wakeup(c)` by `p`. -/
def wakeOne (s : PipeSys) (p : ℕ) (c : Chan) (j : ℕ) : PipeSys :=
  if j ≠ p ∧ (s.proc j).pc = .asleep c then s.goto j .acquire else s

/-- `pi->data[pi->nwrite++ % PIPESIZE] = ch; i++`. -/
def store (s : PipeSys) (p : ℕ) (ch : Byte) : PipeSys :=
  let x := s.proc p
  { s.setProc p { x with i := x.i + 1 } with
    data := Function.update s.data (s.nwrite.toNat % pipesize) ch
    nwrite := s.nwrite + 1
    stored := s.stored ++ [(x.id, ch)] }

/-- `ch = pi->data[pi->nread++ % PIPESIZE]`. -/
def take (s : PipeSys) : PipeSys :=
  { s with
    nread := s.nread + 1
    taken := s.taken ++ [s.data (s.nread.toNat % pipesize)] }

/-- One round of the loop of `pipewrite`; `ok` tells whether `copyin` succeeds. -/
def writeRound (s : PipeSys) (p : ℕ) (src : ℕ → Byte) (n : ℤ) (ok : Bool) : PipeSys :=
  let x := s.proc p
  if x.i < n then
    if s.readopen = false ∨ x.killed then s.ret p (-1)
    else if s.Full then s.goto p (.wake .nread 0 (.sleep .nwrite))
    else if ok then s.store p (src x.i)
    else s.goto p (.wake .nread 0 (.ret x.i))
  else s.goto p (.wake .nread 0 (.ret x.i))

/-- One round of the first loop of `piperead`. -/
def readWait (s : PipeSys) (p : ℕ) : PipeSys :=
  if s.Empty ∧ s.writeopen then
    if (s.proc p).killed then s.ret p (-1) else s.release.goto p (.slept .nread)
  else s.goto p .copy

/-- One round of the second loop of `piperead`; `ok` tells whether `copyout` succeeds. -/
def readRound (s : PipeSys) (p : ℕ) (n : ℤ) (ok : Bool) : PipeSys :=
  let x := s.proc p
  if x.i < n ∧ ¬ s.Empty then
    if ok then s.take.setProc p { x with i := x.i + 1 }
    else s.take.goto p (.wake .nwrite 0 (.ret x.i))
  else s.goto p (.wake .nwrite 0 (.ret x.i))

/-- The first part of `pipeclose`, with the lock held. -/
def closeEnd (s : PipeSys) (p : ℕ) (writable : Bool) : PipeSys :=
  if writable then { s with writeopen := false }.goto p (.wake .nread 0 (.ret 0))
  else { s with readopen := false }.goto p (.wake .nwrite 0 (.ret 0))

/-- `acquire(&pi->lock)`. -/
def enter (s : PipeSys) (p : ℕ) : PipeSys :=
  let x := s.proc p
  let s := { s with lock := some p }
  match x.call with
  | .close writable => s.closeEnd p writable
  | _ => s.setProc p { x with pc := .loop, since := x.i }

/-- After `wakeup`: sleep or return.  The last `pipeclose` frees the pipe. -/
def next (s : PipeSys) (p : ℕ) : PipeNext → PipeSys
  | .sleep c => s.release.goto p (.slept c)
  | .ret r => match (s.proc p).call with
    | .close _ => { s.ret p r with freed := s.freed || (!s.readopen && !s.writeopen) }
    | _ => s.ret p r

/-- The next step of the process `p`, in a table of `np` processes; `ok` tells whether a copy from
or to user memory succeeds. -/
def step (np : ℕ) (s : PipeSys) (p : ℕ) (ok : Bool) : PipeSys :=
  match (s.proc p).pc, (s.proc p).call with
  | .acquire, _ => s.enter p
  | .loop, .write src n => s.writeRound p src n ok
  | .loop, .read _ => s.readWait p
  | .copy, .read n => s.readRound p n ok
  | .wake c j next, _ =>
    if j < np then (s.wakeOne p c j).goto p (.wake c (j + 1) next) else s.next p next
  | .slept c, _ => s.goto p (.asleep c)
  | _, _ => s

/-- `kill`, for the process it finds. -/
def kill (s : PipeSys) (p : ℕ) : PipeSys :=
  let x := s.proc p
  let pc := match x.pc with
    | .asleep _ => .acquire
    | pc => pc
  s.setProc p { x with killed := true, pc }

/-- A process makes a call. -/
def invoke (s : PipeSys) (p : ℕ) (c : PipeCall) : PipeSys :=
  { s.setProc p { s.proc p with pc := .acquire, call := c, i := 0, id := s.calls, since := 0 } with
    calls := s.calls + 1 }

/-- The process holds its own `p->lock`. -/
def InSleep (s : PipeSys) (p : ℕ) : Prop := ∃ c, (s.proc p).pc = .slept c

instance (s : PipeSys) (p : ℕ) : Decidable (s.InSleep p) :=
  decidable_of_iff ((s.proc p).pc = .slept .nread ∨ (s.proc p).pc = .slept .nwrite)
    ⟨fun h => h.elim (fun h => ⟨_, h⟩) fun h => ⟨_, h⟩, fun ⟨c, h⟩ => by
      cases c
      · exact .inl h
      · exact .inr h⟩

/-- No other process is in a call. -/
def Alone (np : ℕ) (s : PipeSys) (p : ℕ) : Prop := ∀ q < np, q ≠ p → (s.proc q).pc = .idle

/-- The process can take its step: the lock that it needs is free. -/
def Ready (np : ℕ) (s : PipeSys) (p : ℕ) : Prop :=
  match (s.proc p).pc with
  | .idle | .asleep _ => False
  | .acquire => s.lock = none
  | .wake _ j _ =>
    if j < np then j = p ∨ ¬ s.InSleep j
    else match (s.proc p).call with
      -- the pipe is freed with no other call in progress
      | .close _ => s.readopen ∨ s.writeopen ∨ s.Alone np p
      | _ => True
  | _ => True

instance (np : ℕ) (s : PipeSys) (p : ℕ) : Decidable (s.Ready np p) := by
  unfold Ready Alone
  split
  case h_4 => split <;> [infer_instance; split <;> infer_instance]
  all_goals infer_instance

end PipeSys

/-- What can happen to a pipe. -/
inductive PipeEvent where
  | invoke (p : ℕ) (c : PipeCall)
  | step (p : ℕ) (ok : Bool)
  | kill (p : ℕ)

namespace PipeEvent

/-- When it can happen, in a table of `np` processes. -/
def Ok (np : ℕ) (e : PipeEvent) (s : PipeSys) : Prop :=
  match e with
  | .invoke p _ => p < np ∧ (s.proc p).pc = .idle ∧ s.freed = false
  | .step p _ => p < np ∧ s.Ready np p
  | .kill p => p < np ∧ ¬ s.InSleep p

instance (np : ℕ) (e : PipeEvent) (s : PipeSys) : Decidable (e.Ok np s) := by
  unfold Ok
  cases e <;> infer_instance

/-- Its effect. -/
def run (np : ℕ) : PipeEvent → Run PipeSys Empty Unit
  | .invoke p c => modify fun s => s.invoke p c
  | .step p ok => modify fun s => s.step np p ok
  | .kill p => modify fun s => s.kill p

end PipeEvent

/-- A new pipe, with any value in both counters; no process is in a call. -/
structure PipeSys.Start (s : PipeSys) : Prop where
  counters : s.nread = s.nwrite
  readopen : s.readopen = true
  writeopen : s.writeopen = true
  lock : s.lock = none
  freed : s.freed = false
  idle : ∀ p, (s.proc p).pc = .idle
  stored : s.stored = []
  taken : s.taken = []
  rets : s.rets = []

/-- The runs of a pipe used by the processes of a table of size `np`. -/
def pipes (np : ℕ) : Machine PipeSys Empty PipeEvent where
  init := PipeSys.Start
  guard := PipeEvent.Ok np
  prog := PipeEvent.run np

/-! ### A read with its copies -/

/-- A pipe, and what the bytes are copied to. -/
structure PipeMem (σ : Type) where
  pipe : PipeSys
  mem : σ

section Read

variable {σ ε : Type} (copy : ℕ → Byte → Run σ ε ℤ)

/-- The second loop of `piperead`, for the process `p`.  A round is one of `PipeSys.readRound`;
`copy i` copies a byte to `addr + i`, and -1 is its failure.  The last argument bounds the number of
rounds. -/
def pipereadLoop (p : ℕ) (n : ℤ) : ℕ → Run (PipeMem σ) ε Unit
  | 0 => pure ()
  | fuel + 1 => do
    let s ← read PipeMem.pipe
    let i := (s.proc p).i
    if i < n ∧ ¬ s.Empty then do
      let ch := s.data (s.nread.toNat % pipesize)
      let r ← zoom PipeMem.mem (fun m t => { t with mem := m }) (copy i ch)
      modify fun t => { t with pipe := t.pipe.readRound p n (r ≠ -1) }
      if r = -1 then pure () else pipereadLoop p n fuel
    else modify fun t => { t with pipe := t.pipe.readRound p n true }

/-- `piperead` from `acquire` on, up to its `wakeup` unless it sleeps or has been killed. -/
def piperead (p : ℕ) (n : ℤ) : Run (PipeMem σ) ε Unit := do
  modify fun t => { t with pipe := t.pipe.readWait p }
  let pc ← read fun t => (t.pipe.proc p).pc
  if pc = .copy then pipereadLoop copy p n (n.toNat + 1) else pure ()

end Read

end Xv6Swap
