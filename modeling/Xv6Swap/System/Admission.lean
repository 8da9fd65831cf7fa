import Xv6Swap.System.Crash
import Mathlib.Data.List.Dedup

/-!
# Admission to the log

`begin_op` admits an operation if the log would still have room for `MAXOPBLOCKS` blocks of each
admitted one, counting `LOGSIZE` blocks in all.  The log that `mkfs` lays out has `LOGSIZE` blocks
including its header, so `log_write` refuses one block less than that.

* `log_admission` : **in every run of operations that each log at most `MAXOPBLOCKS` blocks**, a
  call of `log_write` panics exactly if the operations of the transaction have logged
  `LOGSIZE - 1` different blocks before it; every logged block has a log block of its own;
* `log_overflow` : three operations of ten blocks each are admitted together and reach the panic.
-/

namespace Xv6Swap

open Log List LogEvent

variable {sb : Superblock} {disk₀ : ℕ → Mem} {s : LogSys} {op b : ℕ} {data : Mem}

namespace LogSys

/-- The different blocks logged since the last commit. -/
def logged (s : LogSys) : List ℕ := (s.cur.map Update.block).dedup

/-- The different blocks that an operation has logged. -/
def loggedBy (s : LogSys) (op : ℕ) : List ℕ :=
  ((s.cur.filter fun u => u.op = op).map Update.block).dedup

end LogSys

/-- An operation logs at most `MAXOPBLOCKS` different blocks. -/
def LogEvent.Modest : LogEvent → LogSys → Prop
  | update op b _, s => (insert b (s.loggedBy op)).length ≤ maxopblocks
  | _, _ => True

instance (e : LogEvent) (s : LogSys) : Decidable (e.Modest s) :=
  match e with
  | .update _ _ _ => Nat.decLe _ _
  | .begin | .read _ | .swap _ _ | .endOp _ | .step | .crash => .isTrue trivial

/-- The list in memory holds the different blocks of the transaction. -/
theorem LogSys.Inv.length_lh (h : s.Inv sb disk₀) (hpc : s.pc = .run) :
    s.log.lh.length = s.logged.length := by
  obtain ⟨view, hp⟩ := h.phase
  simp only [Phase, hpc] at hp
  refine Perm.length_eq ((perm_ext_iff_of_nodup h.good.nodup (nodup_dedup _)).2 ?_)
  intro b
  rw [mem_dedup, mem_map, hp.listed b]

/-- **What admission guarantees, and what it does not.**  In every run of operations that each log
at most `MAXOPBLOCKS` blocks, with the log that `mkfs` lays out: a `log_write` does not panic with
"too big a transaction" if and only if the transaction has logged fewer than `LOGSIZE - 1` different
blocks before, and every logged block has its own block in the log area. -/
theorem log_admission (hn : sb.nlog = logsize) (h : ((logs sb disk₀).restrict Modest).Reachable s)
    (hg : ((logs sb disk₀).restrict Modest).guard (.update op b data) s) :
    ((update op b data).run sb s ≠ .error .tooBig ↔ s.logged.length < logsize - 1) ∧
      s.log.lh.Nodup ∧ ∀ j b, s.log.lh[j]? = some b → sb.InLog (logSlot sb j) := by
  have hi := LogSys.inv_reachable h.of_restrict
  obtain ⟨hop, hb⟩ := hg.1
  have hpc := hi.pc_of_active (ne_nil_of_mem hop)
  have hlen := hi.length_lh hpc
  obtain ⟨view, hp⟩ := hi.phase
  simp only [LogSys.Phase, hpc] at hp
  refine ⟨?_, hi.good.nodup, fun j b hj => hi.good.inLog hj⟩
  have hfull : s.log.Full sb ↔ ¬ s.logged.length < logsize - 1 := by
    rw [Full, hn, ← hlen, Nat.not_lt]
    exact ⟨fun hf => hf.elim (fun h => (Nat.sub_le _ _).trans h) id, .inr⟩
  have hout : s.log.outstanding ≠ 0 := by
    have := length_pos_of_mem hop
    rw [hp.outstanding]; omega
  have hroom : ¬ nbuf ≤ s.log.lh.length := by
    have hlt := hi.good.length
    rw [hn] at hlt
    exact Nat.not_le.2 (hlt.trans_lt (by decide))
  have hspec : Ensures (logUpdate sb b data s.log) _ _ := logUpdate_spec hp.ok hb.1 data
  cases hrun : logUpdate sb b data s.log with
  | ok q =>
    rw [hrun] at hspec
    have hok : (update op b data).run sb s ≠ .error .tooBig := by
      simp only [run]
      rw [Run.bind_ok (LogSys.onLog_of_ok hrun)]
      exact fun he => by cases he
    exact iff_of_true hok (not_not.1 (mt hfull.2 hspec.2.2.2.2.2.1))
  | error e =>
    rw [hrun] at hspec
    have herr : (update op b data).run sb s = .error e := by
      simp only [run]
      refine Run.bind_error ?_
      simp only [LogSys.onLog, Run.zoom, hrun]
    rcases hspec with ⟨rfl, hf⟩ | ⟨-, h0⟩ | ⟨-, hnb⟩
    · exact iff_of_false (fun hne => hne herr) (hfull.1 hf)
    · exact (hout h0).elim
    · exact (hroom hnb).elim

/-- A run of modest operations whose last state passes a test. -/
theorem modest_test (es : List LogEvent) {t : LogSys → Bool}
    (ht : (((logs .mkfs fun _ _ => 0).restrict Modest).path
      (fun e s => decide (e.Ok .mkfs s ∧ e.Modest s)) es
      (LogSys.start fun _ _ => 0)).any t = true) :
    ∃ s, ((logs .mkfs fun _ _ => 0).restrict Modest).Reachable s ∧ t s = true :=
  Machine.Reachable.test (M := (logs .mkfs fun _ _ => 0).restrict Modest)
    (fun e s => of_decide_eq_true (p := e.Ok .mkfs s ∧ e.Modest s)) (.init ⟨by decide, rfl⟩) es ht

/-- A first operation logs a block. -/
theorem log_admission_first : ∃ s, ((logs .mkfs fun _ _ => 0).restrict Modest).Reachable s ∧
    (update 0 100 fun _ => 7).run .mkfs s ≠ .error .tooBig := by
  obtain ⟨s, hs, ht⟩ := modest_test [.step, .step, .step, .begin]
    (t := fun s => ((update 0 100 fun _ => 7).Ok .mkfs s ∧
      (update 0 100 fun _ => 7).Modest s) ∧ s.logged.length < logsize - 1)
    (by decide +kernel)
  obtain ⟨hg, hlt⟩ := of_decide_eq_true ht
  exact ⟨s, hs, ((log_admission rfl hs hg).1).2 hlt⟩

/-- **Three operations that keep to their ten blocks overflow the log**: all of them are admitted,
and the thirtieth block panics. -/
theorem log_overflow : ∃ s, ((logs .mkfs fun _ _ => 0).restrict Modest).Reachable s ∧
    ((logs .mkfs fun _ _ => 0).restrict Modest).guard (.update 2 129 fun _ => 7) s ∧
    (update 2 129 fun _ => 7).run .mkfs s = .error .tooBig := by
  obtain ⟨s, hs, ht⟩ := modest_test ([.step, .step, .step, .begin, .begin, .begin] ++
      (range 29).map fun k => .update (k / 10) (100 + k) fun _ => 7)
    (t := fun s => decide ((update 2 129 fun _ => 7).Ok .mkfs s ∧
      (update 2 129 fun _ => 7).Modest s) &&
      match (update 2 129 fun _ => 7).run .mkfs s with
      | .error .tooBig => true
      | _ => false)
    (by decide +kernel)
  obtain ⟨hg, hmatch⟩ := Bool.and_eq_true_iff.1 ht
  have hok : (update 2 129 fun _ => 7).Ok .mkfs s ∧
      (update 2 129 fun _ => 7).Modest s := of_decide_eq_true hg
  refine ⟨s, hs, hok, ?_⟩
  split at hmatch
  · assumption
  · cases hmatch

end Xv6Swap
