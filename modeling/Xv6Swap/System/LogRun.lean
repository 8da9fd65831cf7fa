import Xv6Swap.Lib.Machine
import Xv6Swap.Lib.Redo
import Xv6Swap.Spec.Log

/-!
# The log in steps

Operations change blocks through the cache and call `log_write`; the last one to end commits.  In
`logs` every disk write of a commit and of recovery is a step of its own, other processes read
blocks and swap at any time, and the machine may crash between any two steps, during recovery too.

A run records its history: the updates of the transaction in the making (`cur`), the transactions
whose commit has begun (`begun`), how many of them have their header on disk (`done`), and how many
have been committed by an `end_op` that has returned (`returned`).  No step reads these records.

* `advance` : the next step of a commit or of a recovery;
* `commit_steps`, `recover_steps` : the steps together are `commit` and `recover_from_log`.
-/

namespace Xv6Swap

open Log Run Nat List

/-- An update of a block by an operation. -/
structure Update where
  op : ℕ
  block : ℕ
  data : Mem

/-- The updates of a transaction, in the order in which they were made. -/
abbrev Txn := List Update

/-- The blocks after some transactions. -/
def contents (disk : ℕ → Mem) (ts : List Txn) : ℕ → Mem :=
  replay disk (ts.flatten.map fun u => (u.block, u.data))

/-- Where the kernel is in `end_op` or in `initlog`. -/
inductive LogPc where
  /-- No commit is in progress. -/
  | run
  /-- In `write_log`, the block `tail` is next. -/
  | writeLog (tail : ℕ)
  /-- About to write the header of the transaction. -/
  | writeHead
  /-- In `install_trans(0)`. -/
  | install (tail : ℕ)
  /-- About to erase the transaction from the log. -/
  | clear
  /-- `commit` has returned to `end_op`. -/
  | finish
  /-- After a crash, before `read_head`. -/
  | boot
  /-- In `install_trans(1)`. -/
  | recover (tail : ℕ)
  /-- About to clear the log. -/
  | recClear
  /-- `recover_from_log` has returned. -/
  | recovered
  deriving DecidableEq

/-- The kernel is up: processes run. -/
def LogPc.up : LogPc → Bool
  | .boot | .recover _ | .recClear | .recovered => false
  | _ => true

/-- The log, where its functions are, and the history of the run. -/
structure LogSys where
  log : Log
  pc : LogPc
  /-- The operations in progress. -/
  active : List ℕ
  /-- The number of the next operation. -/
  next : ℕ
  cur : Txn
  begun : List Txn
  done : ℕ
  returned : ℕ

/-- What happens. -/
inductive LogEvent where
  /-- A process calls `begin_op`. -/
  | begin
  /-- An operation changes a block. -/
  | update (op b : ℕ) (data : Mem)
  /-- A process reads a block. -/
  | read (b : ℕ)
  /-- A process writes a block of the swap area. -/
  | swap (b : ℕ) (data : Mem)
  /-- An operation calls `end_op`. -/
  | endOp (op : ℕ)
  /-- The next step of the commit or of the recovery in progress. -/
  | step
  /-- The machine stops and starts again. -/
  | crash

namespace LogSys

/-- Run a program of the log. -/
def onLog {α : Type} (m : Run Log FsPanic α) : Run LogSys FsPanic α :=
  zoom log (fun l s => { s with log := l }) m

/-- The next step of a commit or of a recovery. -/
def advance (sb : Superblock) : Run LogSys FsPanic Unit := do
  let s ← read id
  match s.pc with
  | .run => pure ()
  | .writeLog tail =>
    onLog (writeLogBlock sb tail)
    modify fun s =>
      { s with pc := if tail + 1 < s.log.lh.length then .writeLog (tail + 1) else .writeHead }
  | .writeHead =>
    onLog (Xv6Swap.writeHead sb)
    modify fun s => { s with pc := .install 0, done := s.done + 1 }
  | .install tail =>
    onLog (installBlock sb false tail)
    modify fun s =>
      { s with pc := if tail + 1 < s.log.lh.length then .install (tail + 1) else .clear }
  | .clear =>
    onLog (clearHead >>= fun _ => Xv6Swap.writeHead sb)
    modify fun s => { s with pc := .finish }
  | .finish =>
    onLog endOpFinish
    modify fun s => { s with pc := .run, returned := s.begun.length }
  | .boot =>
    onLog (readHead sb)
    modify fun s => { s with pc := if 0 < s.log.lh.length then .recover 0 else .recClear }
  | .recover tail =>
    onLog (installBlock sb true tail)
    modify fun s =>
      { s with pc := if tail + 1 < s.log.lh.length then .recover (tail + 1) else .recClear }
  | .recClear =>
    onLog (clearHead >>= fun _ => Xv6Swap.writeHead sb)
    modify fun s => { s with pc := .recovered }
  | .recovered =>
    -- the lost transactions leave the history
    modify fun s =>
      { s with pc := .run, cur := [], begun := s.begun.take s.done, returned := s.done }

/-- Everything in memory is lost. -/
def reboot (s : LogSys) : LogSys :=
  { s with
    log := { bio := .binit s.log.bio.disk, lh := [], outstanding := 0, committing := false }
    pc := .boot
    active := [] }

end LogSys

namespace LogEvent

open LogSys

/-- When an event can happen.  An operation changes only blocks of the file system that are not
part of the log. -/
def Ok (sb : Superblock) : LogEvent → LogSys → Prop
  | begin, s => s.pc.up = true ∧ s.log.canBegin = true
  | update op b _, s => op ∈ s.active ∧ sb.Home b
  | read _, s => s.pc.up = true
  | swap b _, s => s.pc.up = true ∧ swapbase ≤ b
  | endOp op, s => op ∈ s.active
  | step, s => s.pc ≠ .run
  | crash, _ => True

instance (sb : Superblock) (e : LogEvent) (s : LogSys) : Decidable (e.Ok sb s) := by
  cases e <;> unfold Ok <;> infer_instance

/-- What an event does. -/
def run (sb : Superblock) : LogEvent → Run LogSys FsPanic Unit
  | begin => do
    onLog beginOp
    modify fun s => { s with active := s.next :: s.active, next := s.next + 1 }
  | update op b data => do
    onLog (logUpdate sb b data)
    modify fun s => { s with cur := s.cur ++ [⟨op, b, data⟩] }
  | read b => onLog (onBio (bread (devOf b) b >>= brelse))
  | swap b data => onLog (onBio (swapBlock b data))
  | endOp op => do
    let doCommit ← onLog endOpBegin
    modify fun s => { s with active := s.active.erase op }
    if doCommit then
      -- with no logged block `commit` does nothing
      modify fun s => { s with
        begun := s.begun ++ [s.cur]
        cur := []
        pc := if 0 < s.log.lh.length then .writeLog 0 else .finish
        done := if 0 < s.log.lh.length then s.done else s.done + 1 }
    else pure ()
  | step => advance sb
  | crash => modify reboot

end LogEvent

/-- The machine is switched on with an empty log on the disk. -/
def LogSys.start (disk : ℕ → Mem) : LogSys where
  log := { bio := .binit disk, lh := [], outstanding := 0, committing := false }
  pc := .boot
  active := []
  next := 0
  cur := []
  begun := []
  done := 0
  returned := 0

/-- The log with operations, commits and crashes. -/
def logs (sb : Superblock) (disk : ℕ → Mem) : Machine LogSys FsPanic LogEvent where
  init s := headDecode (disk sb.logstart) = [] ∧ s = LogSys.start disk
  guard e s := e.Ok sb s
  prog e := e.run sb

/-! ### The steps and the functions of the source -/

namespace LogSys

variable {sb : Superblock} {s s' : LogSys} {l : Log} {n t : ℕ}

/-- Several steps. -/
def advanceN (sb : Superblock) : ℕ → Run LogSys FsPanic Unit
  | 0 => pure ()
  | n + 1 => do
    advance sb
    advanceN sb n

theorem advanceN_add (m : ℕ) (s : LogSys) :
    advanceN sb (m + n) s = (advanceN sb m >>= fun _ => advanceN sb n) s := by
  induction m generalizing s with
  | zero => rw [zero_add]; rfl
  | succ m ih =>
    rw [add_right_comm, advanceN, advanceN, bind_assoc_apply]
    cases h : advance sb s with
    | ok q => rw [bind_ok h, bind_ok h, ih]
    | error e => rw [bind_error h, bind_error h]

theorem onLog_of_ok {α : Type} {m : Run Log FsPanic α} {a : α} (h : m s.log = .ok (a, l)) :
    onLog m s = .ok (a, { s with log := l }) := by
  simp only [onLog, zoom, h]

/-- The end of a program of the log, at `pc`. -/
def arrive (s : LogSys) (pc : LogPc) (done : ℕ) :
    Except FsPanic (Unit × Log) → Except FsPanic (Unit × LogSys)
  | .ok (_, l) => .ok ((), { s with log := l, pc, done })
  | .error e => .error e

/-- One step, which goes on at `pc`. -/
theorem arrive_step {m : Run Log FsPanic Unit} {pc : LogPc} {done : ℕ} {g : LogSys → LogSys}
    (hadv : advance sb s = (onLog m >>= fun _ => modify g) s)
    (hg : ∀ l, m s.log = .ok ((), l) → g { s with log := l } = { s with log := l, pc, done }) :
    advanceN sb 1 s = s.arrive pc done (m s.log) := by
  rw [advanceN]
  cases h : m s.log with
  | ok q => rw [bind_ok (hadv.trans (bind_ok (onLog_of_ok h))), hg _ h]; rfl
  | error e =>
    have herr : onLog m s = .error e := by simp only [onLog, zoom, h]
    rw [bind_error (hadv.trans (bind_error herr))]
    rfl

theorem arrive_bind (pc : LogPc) (done : ℕ) {a b : Run Log FsPanic Unit} {pc' : LogPc}
    {m done' : ℕ} (h₁ : advanceN sb m s = s.arrive pc done (a s.log))
    (h₂ : ∀ l, a s.log = .ok ((), l) →
      advanceN sb n { s with log := l, pc, done } = s.arrive pc' done' (b l)) :
    advanceN sb (m + n) s = s.arrive pc' done' ((a >>= fun _ => b) s.log) := by
  rw [advanceN_add]
  cases h : a s.log with
  | ok q =>
    rw [h] at h₁
    rw [bind_ok h₁, bind_ok h]
    exact h₂ _ h
  | error e =>
    rw [h] at h₁
    rw [bind_error h₁, bind_error h]
    rfl

/-- A loop whose iterations are steps: from `pc t` an iteration leads to `pc (t + 1)`, and the last
one to `after`. -/
theorem loop_steps {f : ℕ → Run Log FsPanic Unit} {pc : ℕ → LogPc} {after : LogPc}
    (hsame : ∀ t l, Ensures (f t l) (fun _ l' => l.SameMem l') fun _ => True)
    (hadv : ∀ t (s : LogSys), s.pc = pc t → advance sb s = (onLog (f t) >>= fun _ =>
      modify fun s => { s with
        pc := if t + 1 < s.log.lh.length then pc (t + 1) else after }) s)
    (m t : ℕ) (s : LogSys) (ht : t + (m + 1) = s.log.lh.length) (hpc : s.pc = pc t) :
    advanceN sb (m + 1) s = s.arrive after s.done (each f (range' t (m + 1)) s.log) := by
  induction m generalizing t s with
  | zero =>
    rw [range'_succ, range'_zero, each_cons, each_nil, zero_add]
    refine arrive_bind (n := 0) after s.done (arrive_step (hadv t s hpc) fun l hl => ?_)
      fun l _ => rfl
    rw [if_neg (by rw [((hsame t _).of_ok hl).1]; omega)]
  | succ m ih =>
    rw [range'_succ, each_cons, add_comm (m + 1) 1]
    refine arrive_bind (pc (t + 1)) s.done (arrive_step (hadv t s hpc) fun l hl => ?_)
      fun l hl => ?_
    · rw [if_pos (by rw [((hsame t _).of_ok hl).1]; omega)]
    · exact ih (t + 1) { s with log := l, pc := pc (t + 1) }
        (by rw [((hsame t _).of_ok hl).1]; omega) rfl

theorem each_lh {f : ℕ → Run Log FsPanic Unit}
    (hsame : ∀ t l, Ensures (f t l) (fun _ l' => l.SameMem l') fun _ => True) (ts : List ℕ)
    (l : Log) : Ensures (each f ts l) (fun _ l' => l'.lh = l.lh) fun _ => True := by
  induction ts generalizing l with
  | nil =>
    rw [each_nil]
    exact Ensures.ok_iff.2 rfl
  | cons t ts ih =>
    rw [each_cons]
    exact (hsame t l).bind fun _ l₁ h₁ => (ih l₁).imp fun _ l₂ h₂ => h₂.trans h₁.1

/-- **The steps of a commit are `commit`**: with `n + 1` blocks in the log, as many steps as it
writes blocks and heads lead to where the function leads, also to the same panic. -/
theorem commit_steps (hpc : s.pc = .writeLog 0) (hn : s.log.lh.length = n + 1) :
    advanceN sb (n + 1 + (1 + (n + 1 + 1))) s =
      s.arrive .finish (s.done + 1) (commit sb s.log) := by
  simp only [commit, bind_read, id, hn, succ_pos, gt_iff_lt, if_true, range_eq_range']
  refine arrive_bind .writeHead s.done (loop_steps (writeLogBlock_same sb) (fun t s hs => ?_) n 0 s
    (by omega) hpc) fun l₁ h₁ => ?_
  · simp only [advance, bind_read, id, hs]
  have hlh₁ := (each_lh (writeLogBlock_same sb) _ _).of_ok h₁
  refine arrive_bind (s := { s with log := l₁, pc := .writeHead }) (.install 0) (s.done + 1)
    (arrive_step rfl fun l _ => rfl) fun l₂ h₂ => ?_
  have hlh₂ := ((writeHead_same sb l₁).of_ok h₂).1
  refine arrive_bind (s := { s with log := l₂, pc := .install 0, done := s.done + 1 }) .clear
    (s.done + 1) (loop_steps (installBlock_same sb false) (fun t s hs => ?_) n 0 _
      (by rw [hlh₂, hlh₁]; omega) rfl) fun l₃ _ => ?_
  · simp only [advance, bind_read, id, hs]
  · exact arrive_step (s := { s with log := l₃, pc := .clear, done := s.done + 1 }) rfl
      fun l _ => rfl

/-- A commit of one block. -/
def oneBlock : LogSys := { start fun _ _ => 0 with
  log := { bio := .binit fun _ _ => 0, lh := [100], outstanding := 0, committing := true }
  pc := .writeLog 0 }

theorem commit_steps_one :
    advanceN .mkfs 4 oneBlock = oneBlock.arrive .finish 1 (commit .mkfs oneBlock.log) :=
  commit_steps (n := 0) rfl rfl

/-- **The steps of a recovery are `recover_from_log`.** -/
theorem recover_steps (hpc : s.pc = .boot) :
    ∃ n, advanceN sb n s = s.arrive .recovered s.done (recoverFromLog sb s.log) := by
  have hboot : advance sb s = (onLog (readHead sb) >>= fun _ => modify fun s => { s with
      pc := if 0 < s.log.lh.length then .recover 0 else .recClear }) s := by
    simp only [advance, bind_read, id, hpc]
  have hclear : ∀ l, advanceN sb 1 { s with log := l, pc := .recClear } =
      s.arrive .recovered s.done ((clearHead >>= fun _ => writeHead sb) l) := fun l =>
    arrive_step (s := { s with log := l, pc := .recClear }) rfl fun l _ => rfl
  cases h : readHead sb s.log with
  | error e =>
    refine ⟨1 + 0, arrive_bind .recClear s.done (arrive_step hboot fun l hl => ?_)
      fun l hl => ?_⟩ <;>
    · rw [h] at hl
      cases hl
  | ok q =>
    obtain ⟨_, l⟩ := q
    cases hn : l.lh.length with
    | zero =>
      refine ⟨1 + 1, arrive_bind .recClear s.done (arrive_step hboot fun l' hl => ?_)
        fun l' hl => ?_⟩
      · cases h.symm.trans hl
        simp only [hn, lt_irrefl, if_false]
      · cases h.symm.trans hl
        rw [bind_read, id, hn, range_zero, each_nil]
        exact hclear l
    | succ n =>
      refine ⟨1 + (n + 1 + 1), arrive_bind (.recover 0) s.done
        (arrive_step hboot fun l' hl => ?_) fun l' hl => ?_⟩
      · cases h.symm.trans hl
        simp only [hn, succ_pos, if_true]
      · cases h.symm.trans hl
        rw [bind_read, id, hn, range_eq_range']
        refine arrive_bind (s := { s with log := l, pc := .recover 0 }) .recClear s.done (loop_steps
          (installBlock_same sb true) (fun t s hs => ?_) n 0 _ ((zero_add _).trans hn.symm) rfl)
          fun l _ => hclear l
        simp only [advance, bind_read, id, hs]

/-- Two blocks were in the log when the machine stopped. -/
def twoLogged : LogSys := start fun b =>
  if b = Superblock.mkfs.logstart then headEncode (fun _ => 0) [100, 101] else fun _ => .ofNat 8 b

theorem recover_steps_two : ∃ n s, advanceN .mkfs n twoLogged = .ok ((), s) ∧
    s.pc = .recovered ∧ s.log.bio.disk 100 0 = 3 ∧ s.log.bio.disk 101 0 = 4 := by
  obtain ⟨n, h⟩ : ∃ n, advanceN .mkfs n twoLogged = _ := recover_steps rfl
  have hrun : (recoverFromLog .mkfs twoLogged.log).toOption.any
      (fun x => x.2.bio.disk 100 0 = 3 ∧ x.2.bio.disk 101 0 = 4) = true := by decide +kernel
  cases hr : recoverFromLog .mkfs twoLogged.log with
  | error e =>
    rw [hr] at hrun
    cases hrun
  | ok x =>
    rw [hr] at h hrun
    exact ⟨n, _, h, rfl, of_decide_eq_true hrun⟩

end LogSys

end Xv6Swap
