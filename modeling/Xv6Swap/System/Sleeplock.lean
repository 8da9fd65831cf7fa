import Xv6Swap.Kernel.Sleeplock

/-!
# Sleep-locks exclude and strand nobody

* `Sleeplock.exclusion` : **in every run, at most one process has the lock**, and while the inner
  spinlock is free and the lock is not taken, no process sleeps on it or is committed to that.
-/

namespace Xv6Swap.Sleeplock

open Function

open Monitor

variable {pid : ℕ → ℕ} {np p : ℕ} {s : State Sleeplock Point Unit} {pt : ℕ → Point} {l : Point}

/-- Only one process has the lock, and then the lock is taken. -/
structure Owner (lk : Sleeplock) (pt : ℕ → Point) : Prop where
  locked : ∀ p, (pt p).Holding → lk.locked = true
  unique : ∀ p q, (pt p).Holding → (pt q).Holding → p = q

theorem holding_update {q : ℕ}
    (h : (update pt p l q).Holding) : (q = p ∧ l.Holding) ∨ (q ≠ p ∧ (pt q).Holding) := by
  rw [update_apply] at h
  split at h
  case isTrue he => exact .inl ⟨he, h⟩
  case isFalse hne => exact .inr ⟨hne, h⟩

/-- A process that has the lock after a step as before it. -/
theorem Owner.stay {lk : Sleeplock} (h : Owner lk pt)
    (hl : l.Holding → (pt p).Holding) : Owner lk (update pt p l) := by
  have hold : ∀ q, (update pt p l q).Holding → (pt q).Holding := fun q hq => by
    rcases holding_update hq with ⟨rfl, hq'⟩ | ⟨-, hq'⟩
    · exact hl hq'
    · exact hq'
  exact ⟨fun q hq => h.locked q (hold q hq), fun q r hq hr => h.unique q r (hold q hq) (hold r hr)⟩

theorem owner_keeps : (monitor pid).Keeps np Owner := by
  intro lk pt p lk' l hp h ha
  cases ha with
  | @call a l hc =>
    refine h.stay fun hl => ?_
    cases hpt : pt p <;> cases a <;> rw [hpt] at hc <;> cases hc <;> trivial
  | outside hc => cases hc
  | @sleep c l hb =>
    refine h.stay fun hl => ?_
    cases hpt : pt p with
    | acquiring again =>
      rw [hpt] at hb
      simp only [monitor] at hb
      split at hb <;> cases hb
      exact hl
    | _ => rw [hpt] at hb; cases hb
  | @wake c lk' l hb =>
    cases hpt : pt p with
    | releasing =>
      rw [hpt] at hb
      cases hb
      -- nobody else had it
      have hnone : ∀ q, ¬ (update pt p Point.released q).Holding := fun q hq => by
        rcases holding_update hq with ⟨-, hq⟩ | ⟨hne, hq⟩
        · exact hq
        · exact hne (h.unique q p hq (by rw [hpt]; trivial))
      exact ⟨fun q hq => (hnone q hq).elim, fun q r hq => (hnone q hq).elim⟩
    | acquiring again =>
      rw [hpt] at hb
      simp only [monitor] at hb
      split at hb <;> cases hb
    | _ => rw [hpt] at hb; cases hb
  | @leave lk' l hb =>
    cases hpt : pt p with
    | acquiring again =>
      rw [hpt] at hb
      simp only [monitor] at hb
      split at hb
      · cases hb
      · rename_i hfree
        cases hb
        -- the lock was free: only this process has it now
        have hp' : ∀ q, (update pt p Point.held q).Holding → q = p := fun q hq => by
          rcases holding_update hq with ⟨he, -⟩ | ⟨-, hq⟩
          · exact he
          · exact absurd (h.locked q hq) hfree
        exact ⟨fun _ _ => rfl, fun q r hq hr => (hp' q hq).trans (hp' r hr).symm⟩
    | released =>
      rw [hpt] at hb
      cases hb
      exact h.stay False.elim
    | idle | held =>
      rw [hpt] at hb
      cases hb
      exact h.stay fun hl => by rw [hpt]; exact hl
    | releasing => rw [hpt] at hb; cases hb

/-- A process sleeps only on a lock that is taken, and `releasesleep` wakes the sleepers. -/
theorem fair : (monitor pid).Fair Owner fun _ lk => lk.locked = true where
  sleep := by
    intro lk pt p c l _ hb
    cases hpt : pt p with
    | acquiring again =>
      rw [hpt] at hb
      simp only [monitor] at hb
      split at hb
      · assumption
      · cases hb
    | _ => rw [hpt] at hb; cases hb
  wake := fun _ _ _ => .inl rfl
  leave := by
    intro lk lk' pt p c l _ hb hl
    cases hpt : pt p with
    | acquiring again =>
      rw [hpt] at hb
      simp only [monitor, hl, if_true] at hb
      cases hb
    | releasing => rw [hpt] at hb; cases hb
    | _ => rw [hpt] at hb; cases hb; exact hl
  outside := nofun

/-- **Sleep-locks exclude and never strand waiters.**  In every run, with any number of processes:
at most one process is between a returned `acquiresleep` and its `releasesleep`, and whenever the
inner spinlock is free and `locked` is 0, no process is `SLEEPING` on the lock or past
`release(lk)` in a `sleep` on it. -/
theorem exclusion (h : (machine pid np).Reachable s) :
    (∀ p q, (s.points p).Holding → (s.points q).Holding → p = q) ∧
    (s.lock = none → s.shared.locked = false → ∀ q, ¬ (s.proc q).Waits ()) := by
  have h0 : ∀ lk pt, Fresh lk pt → Owner lk pt := fun lk pt hs =>
    ⟨fun p hp => by rw [hs.2 p] at hp; exact hp.elim,
      fun p q hp => by rw [hs.2 p] at hp; exact hp.elim⟩
  refine ⟨(keeps_of_reachable owner_keeps h0 h).unique, fun hl hfree q hw => ?_⟩
  have hlocked := (alert_of_reachable owner_keeps fair h0 h).blocked (fits_of_reachable h) hl hw
  rw [hfree] at hlocked
  cases hlocked

/-- Process 0 has the lock, process 1 sleeps on it and is woken by a `kill`. -/
theorem exclusion_contended : ∃ s, (machine id 2).Reachable s ∧
    (s.points 0).Holding ∧ (s.proc 1).sleeping = true ∧ (s.proc 1).chan = some () ∧
    (∀ p q, (s.points p).Holding → (s.points q).Holding → p = q) := by
  obtain ⟨s, hs, ht⟩ := Machine.Reachable.test (M := machine id 2)
    (fun e s => of_decide_eq_true (p := e.Ok (monitor id) 2 s))
    (.init (s := ⟨⟨false, 0⟩, none, fun _ => ⟨.out .idle, false, none⟩, fun _ => none⟩)
      ⟨⟨rfl, fun _ => rfl⟩, rfl, fun _ => ⟨_, rfl⟩, fun _ => rfl, fun _ => rfl⟩)
    [.call 0 .acquiresleep, .call 1 .acquiresleep, .step 0, .step 0, .step 0, .step 1, .step 1,
      .step 1, .step 1, .step 1, .step 1, .take 1, .kill 1, .drop 1, .step 1, .step 1, .step 1,
      .step 1, .step 1, .step 1, .step 1]
    (t := fun s => decide ((s.points 0).Holding ∧ (s.proc 1).sleeping = true ∧
      (s.proc 1).chan = some ())) (by decide +kernel)
  obtain ⟨h0, h1, h2⟩ := of_decide_eq_true ht
  exact ⟨s, hs, h0, h1, h2, (exclusion hs).1⟩

end Xv6Swap.Sleeplock
