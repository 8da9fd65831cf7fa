import Xv6Swap.Kernel.LogOps
import Xv6Swap.Lib.Tally

/-!
# No operation waits for the log in vain

* `LogOps.Admits` : the invariant: `outstanding` counts the operations, one process commits and
  only between operations, and nothing is logged between transactions;
* `LogOps.no_vain_wait` : **in every run**, at most `LOGSIZE / MAXOPBLOCKS` operations are
  outstanding, `commit` runs with none of them, and a process that sleeps on `&log` while the lock
  is free waits for an operation or a commit.
-/

namespace Xv6Swap.LogOps

open Function Point

open Monitor

variable {size np : ℕ} {s : State LogOps Point Unit} {t t' : LogOps} {pt : ℕ → Point} {p : ℕ}
  {l : Point}

/-- The number of operations. -/
def ops (np : ℕ) (pt : ℕ → Point) : ℤ := tally (Finset.range np) fun p => (pt p).InOp

/-- The invariant of the runs. -/
structure Admits (np : ℕ) (t : LogOps) (pt : ℕ → Point) : Prop where
  count : t.outstanding = ops np pt
  bound : t.outstanding ≤ (logsize / maxopblocks : ℕ)
  commits : ∀ p < np, (pt p).Commits → t.committing = true
  unique : ∀ p < np, ∀ q < np, (pt p).Commits → (pt q).Commits → p = q
  cleared : ∀ p < np, (pt p).Cleared → t.lh = []
  zero : t.committing = true → t.outstanding = 0
  empty : t.committing = false → t.outstanding = 0 → t.lh = []

/-- The number of operations when a process moves. -/
theorem ops_update (hp : p < np) :
    ops np (update pt p l) = ops np pt + ind l.InOp - ind (pt p).InOp := by
  have h := tally_change (P := fun q => (pt q).InOp)
    (Q := fun q => (update pt p l q).InOp) (Finset.mem_range.2 hp)
    fun q _ hq => by rw [update_of_ne hq]
  rw [ops, ops, h, update_self]

/-- In an operation, nothing is being committed. -/
theorem Admits.inOp (h : Admits np t pt) (hp : p < np) (ho : (pt p).InOp) :
    1 ≤ t.outstanding ∧ t.committing = false := by
  have hpos : 1 ≤ ops np pt := tally_pos (Finset.mem_range.2 hp) ho
  have hcount := h.count
  refine ⟨by omega, Bool.eq_false_iff.2 fun hc => ?_⟩
  have := h.zero hc
  omega

theorem Point.Cleared.commits (h : l.Cleared) : l.Commits := by
  cases l <;> trivial

/-- A process that commits is in no operation. -/
theorem Point.Commits.not_inOp (h : l.Commits) : ¬ l.InOp := by
  cases l <;> first | exact h.elim | exact id

theorem forall_update {P : ℕ → Point → Prop} (hself : P p l)
    (hother : ∀ q < np, q ≠ p → P q (pt q)) : ∀ q < np, P q (update pt p l q) := by
  intro q hq
  by_cases hqp : q = p
  · subst hqp
    rw [update_self]
    exact hself
  · rw [update_of_ne hqp]
    exact hother q hq hqp

/-- A process moves from one point to another of the same kind. -/
theorem Admits.neutral (h : Admits np t pt) (hp : p < np) (ho : l.InOp ↔ (pt p).InOp)
    (hc : l.Commits → (pt p).Commits) (hcl : l.Cleared → t.lh = []) :
    Admits np t (update pt p l) where
  count := by
    have hind : ind l.InOp = ind (pt p).InOp := if_congr ho rfl rfl
    have hcount := h.count
    rw [ops_update hp]
    omega
  bound := h.bound
  commits := forall_update (P := fun _ l => l.Commits → t.committing = true)
    (fun hl => h.commits p hp (hc hl)) fun q hq _ => h.commits q hq
  unique := by
    have hold : ∀ q < np, (update pt p l q).Commits → (pt q).Commits :=
      forall_update (P := fun q l => l.Commits → (pt q).Commits) hc fun _ _ _ => id
    exact fun q hq r hr hcq hcr => h.unique q hq r hr (hold q hq hcq) (hold r hr hcr)
  cleared := forall_update (P := fun _ l => l.Cleared → t.lh = []) hcl fun q hq _ => h.cleared q hq
  zero := h.zero
  empty := h.empty

/-- While no process commits, a process moves to a point in or out of an operation. -/
theorem Admits.open (h : Admits np t pt) (hp : p < np) (hc : t.committing = false)
    (hl : ¬ l.Commits) (hcount : t'.outstanding = t.outstanding + ind l.InOp - ind (pt p).InOp)
    (hbound : t'.outstanding ≤ (logsize / maxopblocks : ℕ)) (hc' : t'.committing = false)
    (hempty : t'.outstanding = 0 → t'.lh = []) : Admits np t' (update pt p l) := by
  have hnone : ∀ q < np, ¬ (update pt p l q).Commits :=
    forall_update (P := fun _ l => ¬ l.Commits) hl fun q hq _ hcq => by
      have := h.commits q hq hcq
      rw [hc] at this
      cases this
  refine ⟨?_, hbound, fun q hq hcq => (hnone q hq hcq).elim,
    fun q hq r hr hcq => (hnone q hq hcq).elim,
    fun q hq hcl => (hnone q hq hcl.commits).elim, ?_, fun _ => hempty⟩
  · rw [ops_update hp, ← h.count]
    exact hcount
  · rw [hc']
    exact nofun

/-- A piece of `commit` leaves the counters alone; past `log.lh.n = 0` the list is empty. -/
theorem commitStep_spec {l₀ : Point} (hs : t.commitStep l₀ = some (t', l)) :
    l₀.Commits ∧ l.Commits ∧ t'.outstanding = t.outstanding ∧ t'.committing = t.committing ∧
      (l.Cleared → (l₀.Cleared → t.lh = []) → t'.lh = []) := by
  cases l₀ <;> cases hs
  case commit =>
    split
    · exact ⟨trivial, trivial, rfl, rfl, False.elim⟩
    · rename_i hn
      exact ⟨trivial, trivial, rfl, rfl, fun _ _ => List.length_eq_zero_iff.1
        (Nat.le_zero.1 (Nat.le_of_not_lt hn))⟩
  case writeLog | install =>
    split
    · exact ⟨trivial, trivial, rfl, rfl, False.elim⟩
    · exact ⟨trivial, trivial, rfl, rfl, False.elim⟩
  case writeHead => exact ⟨trivial, trivial, rfl, rfl, False.elim⟩
  case clear => exact ⟨trivial, trivial, rfl, rfl, fun _ _ => rfl⟩
  case eraseHead => exact ⟨trivial, trivial, rfl, rfl, fun _ h => h trivial⟩

theorem Admits.commitStep (h : Admits np t pt) (hp : p < np)
    (hs : t.commitStep (pt p) = some (t', l)) : Admits np t' (update pt p l) := by
  obtain ⟨hc, hl, hout, hcom, hcl⟩ := commitStep_spec hs
  have hself : ∀ q < np, (update pt p l q).Commits → q = p :=
    forall_update (P := fun q l => l.Commits → q = p) (fun _ => rfl) fun q hq _ hcq =>
      h.unique q hq p hp hcq hc
  have hyes : t'.committing = true := hcom.trans (h.commits p hp hc)
  refine ⟨?_, ?_, fun _ _ _ => hyes, ?_, ?_, ?_, ?_⟩
  · rw [ops_update hp, ind_false hc.not_inOp, ind_false hl.not_inOp, ← h.count, hout]
    omega
  · rw [hout]
    exact h.bound
  · exact fun q hq r hr hcq hcr => (hself q hq hcq).trans (hself r hr hcr).symm
  · intro q hq hclq
    have he := hself q hq hclq.commits
    subst he
    rw [update_self] at hclq
    exact hcl hclq (h.cleared q hq)
  · rw [hout]
    exact fun _ => h.zero (h.commits p hp hc)
  · rw [hyes]
    exact nofun

/-! ### The pieces of code -/

/-- `begin_op` sleeps or admits an operation. -/
theorem beginOp_cases (t : LogOps) : (t.beginOp = .sleep () .beginning ∧
      (t.committing = true ∨ (logsize : ℤ) < t.lh.length + (t.outstanding + 1) * maxopblocks)) ∨
    (t.beginOp = .leave { t with outstanding := t.outstanding + 1 } .op ∧ t.committing = false ∧
      t.lh.length + (t.outstanding + 1) * maxopblocks ≤ (logsize : ℤ)) := by
  unfold LogOps.beginOp
  split
  · exact .inl ⟨rfl, .inl ‹_›⟩
  · split
    · exact .inl ⟨rfl, .inr ‹_›⟩
    · exact .inr ⟨rfl, Bool.eq_false_iff.2 ‹_›, Int.not_lt.1 ‹_›⟩

/-- `log_write` panics or logs the block. -/
theorem logWrite_cases (size : ℕ) (t : LogOps) (b : ℕ) : t.logWrite size b = .panic .tooBig ∨
    (t.logWrite size b = .panic .outsideOfTrans ∧ t.outstanding < 1) ∨
    t.logWrite size b = .leave { t with lh := if b ∈ t.lh then t.lh else t.lh ++ [b] } .op := by
  unfold LogOps.logWrite
  split
  · exact .inl rfl
  · split
    · exact .inr (.inl ⟨rfl, ‹_›⟩)
    · exact .inr (.inr rfl)

/-- The first part of `end_op` panics, or the process has to commit, or it wakes the others. -/
theorem endOp_cases (t : LogOps) : (t.endOp = .panic .logCommitting ∧ t.committing = true) ∨
    (t.endOp = .leave ⟨0, true, t.lh⟩ .commit ∧ t.committing = false ∧ t.outstanding = 1) ∨
    (t.endOp = .wake () { t with outstanding := t.outstanding - 1 } .ended ∧
      t.committing = false ∧ t.outstanding ≠ 1) := by
  unfold LogOps.endOp
  dsimp only
  split
  · exact .inl ⟨rfl, ‹_›⟩
  · rename_i hc
    have hc := Bool.eq_false_iff.2 hc
    split
    · rename_i h0
      exact .inr (.inl ⟨by rw [h0], hc, by omega⟩)
    · exact .inr (.inr ⟨rfl, hc, by omega⟩)

section

variable (h : Admits np t pt) (hp : p < np)
include h hp

theorem Admits.begin (hpt : pt p = .beginning) (hc : t.committing = false)
    (hroom : t.lh.length + (t.outstanding + 1) * maxopblocks ≤ (logsize : ℤ)) :
    Admits np { t with outstanding := t.outstanding + 1 } (update pt p .op) := by
  have hcount := h.count
  have hnn : 0 ≤ ops np pt := tally_nonneg _ _
  refine h.open hp hc id ?_ ?_ hc ?_
  · rw [hpt, ind_true (p := op.InOp) trivial, ind_false (p := beginning.InOp) id]
    exact (Int.sub_zero _).symm
  · simp only [maxopblocks, logsize] at hroom ⊢
    omega
  · intro h0
    dsimp only at h0
    omega

theorem Admits.write {b : ℕ} (hpt : pt p = .writing b)
    (lh : List ℕ) : Admits np { t with lh } (update pt p .op) := by
  obtain ⟨hpos, hc⟩ := h.inOp hp (by rw [hpt]; trivial)
  refine h.open hp hc id ?_ h.bound hc ?_
  · rw [hpt, ind_true (p := op.InOp) trivial,
      ind_true (p := (writing b).InOp) trivial]
    dsimp only
    omega
  · intro h0
    dsimp only at h0
    omega

/-- The last operation ends, and its process is to commit. -/
theorem Admits.last (hpt : pt p = .ending) (hc : t.committing = false) (h1 : t.outstanding = 1) :
    Admits np ⟨0, true, t.lh⟩ (update pt p .commit) := by
  have hself : ∀ q < np, (update pt p .commit q).Commits → q = p :=
    forall_update (P := fun q l => l.Commits → q = p) (fun _ => rfl) fun q hq _ hcq => by
      have := h.commits q hq hcq
      rw [hc] at this
      cases this
  refine ⟨?_, Int.natCast_nonneg _, fun _ _ _ => rfl, ?_, ?_, fun _ => rfl, nofun⟩
  · rw [ops_update hp, hpt, ind_false (p := Point.commit.InOp) id,
      ind_true (p := ending.InOp) trivial, ← h.count, h1]
    rfl
  · exact fun q hq r hr hcq hcr => (hself q hq hcq).trans (hself r hr hcr).symm
  · intro q hq hcl
    have he := hself q hq hcl.commits
    subst he
    rw [update_self] at hcl
    exact hcl.elim

/-- An operation ends that is not the last one. -/
theorem Admits.end (hpt : pt p = .ending) (hc : t.committing = false) (h1 : t.outstanding ≠ 1) :
    Admits np { t with outstanding := t.outstanding - 1 } (update pt p .ended) := by
  have hbound := h.bound
  refine h.open hp hc id ?_ ?_ hc fun he => absurd he ?_
  · rw [hpt, ind_false (p := ended.InOp) id, ind_true (p := ending.InOp) trivial]
    dsimp only
    omega
  · dsimp only
    omega
  · dsimp only
    omega

theorem Admits.finish (hpt : pt p = .finishing) :
    Admits np { t with committing := false } (update pt p .ended) := by
  have hc : (pt p).Commits := by rw [hpt]; trivial
  have hnone : ∀ q < np, ¬ (update pt p ended q).Commits :=
    forall_update (P := fun _ l => ¬ l.Commits) id fun q hq hne hcq =>
      hne (h.unique q hq p hp hcq hc)
  refine ⟨?_, h.bound, fun q hq hcq => (hnone q hq hcq).elim,
    fun q hq r hr hcq => (hnone q hq hcq).elim,
    fun q hq hcl => (hnone q hq hcl.commits).elim, nofun, fun _ _ => ?_⟩
  · rw [ops_update hp, hpt, ind_false (p := ended.InOp) id,
      ind_false (p := finishing.InOp) id, ← h.count]
    dsimp only
    omega
  · exact h.cleared p hp (by rw [hpt]; trivial)

end

theorem admits_keeps : (monitor size).Keeps np (Admits np) := by
  intro t pt p t' l hp h ha
  cases ha with
  | @call a l hc =>
    cases hpt : pt p <;> cases a <;> rw [hpt] at hc <;> cases hc
    all_goals
      refine h.neutral hp (by rw [hpt]; exact Iff.rfl) (by rw [hpt]; exact id) fun hcl => ?_
      first
        | exact hcl.elim
        | exact h.cleared p hp (by rw [hpt]; trivial)
  | outside hs => exact h.commitStep hp hs
  | @sleep c l hb =>
    cases hpt : pt p <;> rw [hpt] at hb
    case beginning =>
      rcases beginOp_cases t with ⟨hs, -⟩ | ⟨hs, -⟩ <;> cases hs.symm.trans hb
      exact h.neutral hp (by rw [hpt]) False.elim False.elim
    case writing b =>
      rcases logWrite_cases size t b with hs | ⟨hs, -⟩ | hs <;> cases hs.symm.trans hb
    case ending =>
      rcases endOp_cases t with ⟨hs, -⟩ | ⟨hs, -⟩ | ⟨hs, -⟩ <;> cases hs.symm.trans hb
    all_goals cases hb
  | @wake c t' l hb =>
    cases hpt : pt p <;> rw [hpt] at hb
    case beginning =>
      rcases beginOp_cases t with ⟨hs, -⟩ | ⟨hs, -⟩ <;> cases hs.symm.trans hb
    case writing b =>
      rcases logWrite_cases size t b with hs | ⟨hs, -⟩ | hs <;> cases hs.symm.trans hb
    case ending =>
      rcases endOp_cases t with ⟨hs, -⟩ | ⟨hs, -⟩ | ⟨hs, hc, h1⟩ <;> cases hs.symm.trans hb
      exact h.end hp hpt hc h1
    case finishing =>
      cases hb
      exact h.finish hp hpt
    all_goals cases hb
  | @leave t' l hb =>
    cases hpt : pt p <;> rw [hpt] at hb
    case beginning =>
      rcases beginOp_cases t with ⟨hs, -⟩ | ⟨hs, hc, hroom⟩ <;> cases hs.symm.trans hb
      exact h.begin hp hpt hc hroom
    case writing b =>
      rcases logWrite_cases size t b with hs | ⟨hs, -⟩ | hs <;> cases hs.symm.trans hb
      exact h.write hp hpt _
    case ending =>
      rcases endOp_cases t with ⟨hs, -⟩ | ⟨hs, hc, h1⟩ | ⟨hs, -⟩ <;> cases hs.symm.trans hb
      exact h.last hp hpt hc h1
    case ended =>
      cases hb
      exact h.neutral hp (by rw [hpt]; exact Iff.rfl) False.elim False.elim
    case finishing => cases hb
    all_goals
      cases hb
      refine h.neutral hp (by rw [hpt]) (by rw [hpt]; exact id) ?_
      have := h.cleared p hp
      rw [hpt] at this
      exact this

/-- An operation waits for another one or for a commit, and both wake it at their end. -/
theorem fair : (monitor size).Fair (Admits np) fun _ t =>
    0 < t.outstanding ∨ t.committing = true where
  sleep := by
    intro t pt p c l h hb
    cases hpt : pt p <;> rw [hpt] at hb
    case beginning =>
      rcases beginOp_cases t with ⟨-, hc | hfull⟩ | ⟨hs, -⟩
      · exact .inr hc
      · by_cases hc : t.committing = true
        · exact .inr hc
        · -- with no operation the log would be empty and have room
          refine .inl (Int.not_le.1 fun h0 => ?_)
          have hcount := h.count
          have hnn : 0 ≤ ops np pt := tally_nonneg _ _
          have he := h.empty (Bool.eq_false_iff.2 hc) (by omega)
          rw [he] at hfull
          simp only [logsize, maxopblocks, List.length_nil] at hfull
          omega
      · cases hs.symm.trans hb
    case writing b =>
      rcases logWrite_cases size t b with hs | ⟨hs, -⟩ | hs <;> cases hs.symm.trans hb
    case ending =>
      rcases endOp_cases t with ⟨hs, -⟩ | ⟨hs, -⟩ | ⟨hs, -⟩ <;> cases hs.symm.trans hb
    all_goals cases hb
  wake := fun _ _ _ => .inl rfl
  leave := by
    intro t t' pt p c l h hb hblocked
    cases hpt : pt p <;> rw [hpt] at hb
    case beginning =>
      rcases beginOp_cases t with ⟨hs, -⟩ | ⟨hs, -⟩ <;> cases hs.symm.trans hb
      refine hblocked.imp_left fun hpos => ?_
      dsimp only
      omega
    case writing b =>
      rcases logWrite_cases size t b with hs | ⟨hs, -⟩ | hs <;> cases hs.symm.trans hb
      exact hblocked
    case ending =>
      rcases endOp_cases t with ⟨hs, -⟩ | ⟨hs, -⟩ | ⟨hs, -⟩ <;> cases hs.symm.trans hb
      exact .inr rfl
    all_goals cases hb
    all_goals exact hblocked
  outside := by
    intro t t' pt p c l h hs hblocked
    obtain ⟨-, -, hout, hcom, -⟩ := commitStep_spec hs
    rw [hout, hcom]
    exact hblocked

theorem Admits.start (h : Fresh t pt) : Admits np t pt := by
  obtain ⟨rfl, hidle⟩ := h
  have hno : ∀ q, ¬ (pt q).Commits := fun q => by rw [hidle q]; exact id
  refine ⟨?_, Int.natCast_nonneg _, fun q _ hq => (hno q hq).elim,
    fun q _ r _ hq => (hno q hq).elim, fun q _ hq => (hno q hq.commits).elim, nofun, fun _ _ => rfl⟩
  exact (tally_eq_zero fun q _ => by rw [hidle q]; exact id).symm

/-- A process reaches a panic of its code only with "too big a transaction". -/
theorem Admits.panic (h : Admits np t pt) (hp : p < np) {e : FsPanic}
    (hb : (monitor size).body p (pt p) t = .panic e) : e = .tooBig := by
  cases hpt : pt p <;> rw [hpt] at hb
  case beginning =>
    rcases beginOp_cases t with ⟨hs, -⟩ | ⟨hs, -⟩ <;> cases hs.symm.trans hb
  case writing b =>
    have hpos := (h.inOp hp (by rw [hpt]; trivial)).1
    rcases logWrite_cases size t b with hs | ⟨-, hlt⟩ | hs
    · cases hs.symm.trans hb
      rfl
    · omega
    · cases hs.symm.trans hb
  case ending =>
    have hc := (h.inOp hp (by rw [hpt]; trivial)).2
    rcases endOp_cases t with ⟨-, hc'⟩ | ⟨hs, -⟩ | ⟨hs, -⟩
    · rw [hc] at hc'
      cases hc'
    all_goals cases hs.symm.trans hb
  all_goals cases hb

/-- **No operation waits for the log in vain.**  In every run, with any number of processes:

* `outstanding` is the number of processes between their `begin_op` and their `end_op`, and at most
  `LOGSIZE / MAXOPBLOCKS`;
* `commit` runs only with `outstanding = 0`, no process is in `log_write` while `committing` is set,
  and `lh.n = 0` whenever neither is the case;
* whenever `log.lock` is free, a process that is `SLEEPING` on `&log`, or committed to that, waits
  for an operation or for a commit;
* the panics "log.committing" and "log_write outside of trans" are not reached. -/
theorem no_vain_wait (h : (machine size np).Reachable s) : (s.shared.outstanding = ops np s.points ∧
      s.shared.outstanding ≤ (logsize / maxopblocks : ℕ)) ∧
    (∀ p < np, (s.points p).Commits → s.shared.outstanding = 0) ∧
    (s.shared.committing = true → ∀ p < np, ∀ b, s.points p ≠ .writing b) ∧
    (s.shared.outstanding = 0 → s.shared.committing = false → s.shared.lh = []) ∧
    (s.lock = none → ∀ q, (s.proc q).Waits () →
      0 < s.shared.outstanding ∨ s.shared.committing = true) ∧
    ∀ e, (machine size np).guard e s → (machine size np).prog e s ≠ .error .logCommitting ∧
      (machine size np).prog e s ≠ .error .outsideOfTrans := by
  have ha : Admits np s.shared s.points :=
    keeps_of_reachable admits_keeps (fun _ _ => Admits.start) h
  have halert := alert_of_reachable (admits_keeps : (monitor size).Keeps np (Admits np)) fair
    (fun _ _ => Admits.start) h
  have hpanic : ∀ e x, (machine size np).guard e s → (machine size np).prog e s = .error x →
      x = .tooBig := by
    intro e x hg hx
    obtain ⟨p, l, rfl, hpc, hb⟩ := panic_of_error hx
    have hl : s.points p = l := congrArg Pc.point hpc
    exact ha.panic hg.1 (hl ▸ hb)
  refine ⟨⟨ha.count, ha.bound⟩, fun p hp hc => ha.zero (ha.commits p hp hc), ?_,
    fun h0 hc => ha.empty hc h0, fun hl q hw => halert.blocked (fits_of_reachable h) hl hw, ?_⟩
  · intro hc p hp b hpt
    have := (ha.inOp hp (by rw [hpt]; trivial)).2
    rw [hc] at this
    cases this
  · intro e hg
    constructor
    · intro hx
      cases hpanic e _ hg hx
    · intro hx
      cases hpanic e _ hg hx

/-- Four processes begin an operation; the last one sleeps. -/
theorem no_vain_wait_full : ∃ s, (machine logsize 4).Reachable s ∧ s.lock = none ∧
    (s.proc 3).sleeping = true ∧ (s.proc 3).chan = some () ∧
    (0 < s.shared.outstanding ∨ s.shared.committing = true) := by
  obtain ⟨s, hs, ht⟩ := Machine.Reachable.test (M := machine logsize 4)
    (fun e s => of_decide_eq_true (p := e.Ok (monitor logsize) 4 s))
    (.init (s := ⟨⟨0, false, []⟩, none, fun _ => ⟨.out .idle, false, none⟩, fun _ => none⟩)
      ⟨⟨rfl, fun _ => rfl⟩, rfl, fun _ => ⟨_, rfl⟩, fun _ => rfl, fun _ => rfl⟩)
    ((List.range 3).flatMap (fun p => [.call p .beginOp, .step p, .step p, .step p]) ++
      [.call 3 .beginOp, .step 3, .step 3, .step 3, .step 3, .step 3, .step 3])
    (t := fun s => decide (s.lock = none ∧ (s.proc 3).sleeping = true ∧
      (s.proc 3).chan = some ())) (by decide +kernel)
  obtain ⟨h0, h1, h2⟩ := of_decide_eq_true ht
  exact ⟨s, hs, h0, h1, h2, (no_vain_wait hs).2.2.2.2.1 h0 3 (.inr ⟨h1, h2⟩)⟩

end Xv6Swap.LogOps
