import Xv6Swap.Kernel.Layout
import Xv6Swap.Lib.Monitor

/-!
# Operations waiting for the log

`begin_op`, `log_write` and `end_op` of `kernel/log.c` as code of a monitor: the counters and the
list of `struct log` are shared data under `log.lock`, and an operation that is not admitted sleeps
on `&log`.  The process that ends the last operation runs `commit` without the lock.

Of `commit` there is here what it does to `struct log`; the blocks that it writes are in
`Xv6Swap.Kernel.Log`.
-/

namespace Xv6Swap

/-- `struct log` without its spinlock; `lh` are the blocks of the header. -/
structure LogOps where
  outstanding : ℤ
  committing : Bool
  lh : List ℕ
  deriving DecidableEq, Repr

namespace LogOps

/-- Where a process is. -/
inductive Point where
  /-- In no operation. -/
  | idle
  /-- At the loop of `begin_op`. -/
  | beginning
  /-- In an operation: `begin_op` has returned. -/
  | op
  /-- In `log_write`, for the block `b`. -/
  | writing (b : ℕ)
  /-- In `end_op`, before `log.outstanding -= 1`. -/
  | ending
  /-- In `end_op`, after `wakeup`. -/
  | ended
  /-- At the start of `commit`. -/
  | commit
  /-- In the loop of `write_log`. -/
  | writeLog (tail : ℕ)
  /-- At the first `write_head`. -/
  | writeHead
  /-- In the loop of `install_trans`. -/
  | install (tail : ℕ)
  /-- At `log.lh.n = 0`. -/
  | clear
  /-- At the second `write_head`. -/
  | eraseHead
  /-- `commit` has returned. -/
  | committed
  /-- In `end_op`, before `log.committing = 0`. -/
  | finishing
  deriving DecidableEq, Repr

inductive Call where
  | beginOp
  | logWrite (b : ℕ)
  | endOp
  /-- The second `acquire(&log.lock)` of `end_op`. -/
  | finish
  deriving DecidableEq, Repr

/-- The loop of `begin_op`. -/
def beginOp (t : LogOps) : Monitor.Act LogOps Point Unit FsPanic :=
  if t.committing then .sleep () .beginning
  else if t.lh.length + (t.outstanding + 1) * maxopblocks > logsize then .sleep () .beginning
  else .leave { t with outstanding := t.outstanding + 1 } .op

/-- `log_write`, with `size` blocks of log. -/
def logWrite (size : ℕ) (t : LogOps) (b : ℕ) : Monitor.Act LogOps Point Unit FsPanic :=
  if t.lh.length ≥ logsize ∨ t.lh.length ≥ size - 1 then .panic .tooBig
  else if t.outstanding < 1 then .panic .outsideOfTrans
  else .leave { t with lh := if b ∈ t.lh then t.lh else t.lh ++ [b] } .op

/-- The first part of `end_op`. -/
def endOp (t : LogOps) : Monitor.Act LogOps Point Unit FsPanic :=
  let t := { t with outstanding := t.outstanding - 1 }
  if t.committing then .panic .logCommitting
  else if t.outstanding = 0 then .leave { t with committing := true } .commit
  else .wake () t .ended

/-- The pieces of `commit`. -/
def commitStep (t : LogOps) : Point → Option (LogOps × Point)
  | .commit => some (t, if t.lh.length > 0 then .writeLog 0 else .committed)
  | .writeLog tail => some (t, if tail < t.lh.length then .writeLog (tail + 1) else .writeHead)
  | .writeHead => some (t, .install 0)
  | .install tail => some (t, if tail < t.lh.length then .install (tail + 1) else .clear)
  | .clear => some ({ t with lh := [] }, .eraseHead)
  | .eraseHead => some (t, .committed)
  | _ => none

/-- `begin_op`, `log_write` and `end_op`, with `size` blocks of log.  A process calls `log_write`
only between its own `begin_op` and `end_op`. -/
def monitor (size : ℕ) : Monitor LogOps Point Unit Call FsPanic where
  call
    | .beginOp, .idle => some .beginning
    | .logWrite b, .op => some (.writing b)
    | .endOp, .op => some .ending
    | .finish, .committed => some .finishing
    | _, _ => none
  body _ l t := match l with
    | .beginning => t.beginOp
    | .writing b => t.logWrite size b
    | .ending => t.endOp
    | .ended => .leave t .idle
    | .finishing => .wake () { t with committing := false } .ended
    -- the process does not hold the lock
    | l => .leave t l
  outside _ l t := t.commitStep l

/-- After recovery. -/
def Fresh (t : LogOps) (pt : ℕ → Point) : Prop := t = ⟨0, false, []⟩ ∧ ∀ p, pt p = .idle

/-- The runs of the operations of the processes of a table of size `np`. -/
abbrev machine (size np : ℕ) := (monitor size).machine np Fresh

namespace Point

/-- The process is between its `begin_op` and its `end_op`. -/
def InOp : Point → Prop
  | op | writing _ | ending => True
  | _ => False

/-- The process runs `commit`, or has to report its end. -/
def Commits : Point → Prop
  | commit | writeLog _ | writeHead | install _ | clear | eraseHead | committed | finishing => True
  | _ => False

/-- The process has cleared the list. -/
def Cleared : Point → Prop
  | eraseHead | committed | finishing => True
  | _ => False

instance : DecidablePred InOp := fun l => by
  unfold InOp
  split <;> infer_instance

instance : DecidablePred Commits := fun l => by
  unfold Commits
  split <;> infer_instance

end Point

end LogOps

end Xv6Swap
