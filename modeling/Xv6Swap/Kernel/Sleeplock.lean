import Xv6Swap.Lib.Monitor

/-!
# Sleep-locks

`kernel/sleeplock.c`: a lock that a process can hold while it sleeps.  The fields of a sleep-lock
are shared data under its inner spinlock, and `acquiresleep` and `releasesleep` are code of a
monitor; `sleep`, `wakeup` and `kill` of `kernel/proc.c` are the steps of the monitor.
-/

namespace Xv6Swap

/-- `struct sleeplock` without the inner spinlock. -/
structure Sleeplock where
  locked : Bool
  pid : ℕ
  deriving DecidableEq, Repr

namespace Sleeplock

/-- Where a process is. -/
inductive Point where
  /-- Not holding the lock. -/
  | idle
  /-- At the loop of `acquiresleep`; `again` if the process holds the lock already. -/
  | acquiring (again : Bool)
  /-- Holding the lock: `acquiresleep` has returned. -/
  | held
  /-- In `releasesleep`, before `lk->locked = 0`. -/
  | releasing
  /-- In `releasesleep`, after `wakeup`. -/
  | released
  deriving DecidableEq, Repr

inductive Call where
  | acquiresleep | releasesleep
  deriving DecidableEq, Repr

/-- `acquiresleep` and `releasesleep`.  Only the holder calls `releasesleep`. -/
def monitor (pid : ℕ → ℕ) : Monitor Sleeplock Point Unit Call Empty where
  call
    | .acquiresleep, .idle => some (.acquiring false)
    | .acquiresleep, .held => some (.acquiring true)
    | .releasesleep, .held => some .releasing
    | _, _ => none
  body p l lk := match l with
    | .acquiring again =>
      if lk.locked then .sleep () (.acquiring again) else .leave ⟨true, pid p⟩ .held
    | .releasing => .wake () ⟨false, 0⟩ .released
    | .released => .leave lk .idle
    -- the process is in neither function
    | .idle | .held => .leave lk l
  outside _ _ _ := none

/-- After `initsleeplock`. -/
def Fresh (lk : Sleeplock) (pt : ℕ → Point) : Prop := lk = ⟨false, 0⟩ ∧ ∀ p, pt p = .idle

/-- The runs of a sleep-lock used by the processes of a table of size `np`. -/
abbrev machine (pid : ℕ → ℕ) (np : ℕ) := (monitor pid).machine np Fresh

/-- The process has been given the lock and has not given it back. -/
def Point.Holding : Point → Prop
  | held | releasing | acquiring true => True
  | _ => False

instance (l : Point) : Decidable l.Holding := by
  unfold Point.Holding
  split <;> infer_instance

end Sleeplock

end Xv6Swap
