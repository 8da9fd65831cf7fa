import Xv6Swap.System.Pipe

/-!
# Sleeping on a pipe

A process that sleeps on a channel of a pipe waits for a change that another process makes under
the lock and has to announce by `wakeup`.  `pipewrite` returns without it when it finds its process
killed after it has stored a part of its bytes.

* `PipeSys.Awake` : the invariant: a sleeper is blocked, or the holder of the lock is going to wake
  it;
* `pipe_wakeups` : in every run in which `kill` does not hit a writer between two of its bytes, **no
  process sleeps on a pipe that is ready** while the lock is free;
* `pipe_lost_wakeup` : a run in which one does.
-/

namespace Xv6Swap

open Nat PipePc

namespace PipeSys

variable {np j : ℕ} {s s' : PipeSys} {p q : ℕ} {ok : Bool} {c : Chan} {next : PipeNext}

/-- A process that waits for the channel has nothing to do: the pipe is empty and open for
writing, or full and open for reading. -/
def Blocked (s : PipeSys) : Chan → Prop
  | .nread => s.Empty ∧ s.writeopen = true
  | .nwrite => s.Full ∧ s.readopen = true

/-- The process is asleep on the channel, or about to be. -/
def WaitsOn (s : PipeSys) (q : ℕ) (c : Chan) : Prop :=
  (s.proc q).pc = .slept c ∨ (s.proc q).pc = .asleep c

/-- The process is in the loop of `pipewrite` and has stored bytes since it took the lock. -/
def Dirty (s : PipeSys) (p : ℕ) : Prop :=
  (s.proc p).pc = .loop ∧ (∃ src n, (s.proc p).call = .write src n) ∧
  (s.proc p).since < (s.proc p).i

/-- The process is going to wake `q` from the channel before it gives up the lock. -/
def WillWake (s : PipeSys) (p : ℕ) (c : Chan) (q : ℕ) : Prop :=
  (∃ j next, (s.proc p).pc = .wake c j next ∧ j ≤ q) ∨ (c = .nread ∧ s.Dirty p) ∨
    (c = .nwrite ∧ (s.proc p).pc = .copy)

/-- The invariant of the runs in which no writer is killed between two of its bytes. -/
structure Awake (np : ℕ) (s : PipeSys) : Prop where
  locked : s.Locked
  lt : ∀ p, (s.proc p).pc ≠ .idle → p < np
  since : ∀ p, (s.proc p).pc = .loop → (s.proc p).since ≤ (s.proc p).i
  dirty : ∀ p, s.Dirty p → s.readopen = true ∧
    ∀ src n, (s.proc p).call = .write src n → (s.proc p).i < n → (s.proc p).killed = false
  toSleep : ∀ p c j c', (s.proc p).pc = .wake c j (.sleep c') → s.Blocked c'
  waits : ∀ q c, s.WaitsOn q c → s.Blocked c ∨ ∃ p, s.WillWake p c q

theorem WillWake.holds (h : s.WillWake p c q) : (s.proc p).pc.Holds := by
  rcases h with ⟨j, next, h, -⟩ | ⟨-, h, -⟩ | ⟨-, h⟩ <;> rw [h] <;> trivial

/-- No process sleeps on a pipe that is ready while the lock is free. -/
def NoLostWakeup (s : PipeSys) : Prop := s.lock = none → ∀ p,
  ((s.proc p).pc = .asleep .nread → s.nread = s.nwrite ∧ s.writeopen = true) ∧
  ((s.proc p).pc = .asleep .nwrite → s.Full ∧ s.readopen = true)

theorem Awake.noLostWakeup (h : s.Awake np) : s.NoLostWakeup := by
  intro hl p
  have hblocked : ∀ c, (s.proc p).pc = .asleep c → s.Blocked c := fun c hc => by
    rcases h.waits p c (.inr hc) with hb | ⟨r, hr⟩
    · exact hb
    · have := h.locked r hr.holds
      rw [hl] at this
      cases this
  exact ⟨fun hc => hblocked .nread hc, fun hc => hblocked .nwrite hc⟩

theorem Blocked.congr (h : s.Blocked c) (hr : s'.nread = s.nread)
    (hw : s'.nwrite = s.nwrite) (hro : s'.readopen = s.readopen)
    (hwo : s'.writeopen = s.writeopen) : s'.Blocked c := by
  cases c with
  | nread => exact ⟨by rw [Empty, hr, hw]; exact h.1, by rw [hwo]; exact h.2⟩
  | nwrite => exact ⟨by rw [Full, hr, hw]; exact h.1, by rw [hro]; exact h.2⟩

theorem Woken.waitsOn (h : Woken (s.proc q) (s'.proc q)) (hq : s'.WaitsOn q c) : s.WaitsOn q c := by
  rcases h.pc with h | ⟨_, -, h⟩
  · unfold WaitsOn at hq ⊢
    rwa [h] at hq
  · unfold WaitsOn at hq
    rw [h] at hq
    simp at hq

/-- What has to be shown of a step of the process that holds the lock, or takes it. -/
theorem Awake.of_step (h : s.Awake np) (hst : Stepped np s p ok s')
    (hl : s.lock = some p ∨ s.lock = none)
    (hsince : (s'.proc p).pc = .loop → (s'.proc p).since ≤ (s'.proc p).i)
    (hdirty : s'.Dirty p → s'.readopen = true ∧
      ∀ src n, (s'.proc p).call = .write src n → (s'.proc p).i < n → (s'.proc p).killed = false)
    (hsleep : ∀ c j c', (s'.proc p).pc = .wake c j (.sleep c') → s'.Blocked c')
    (hself : ∀ c, s'.WaitsOn p c → s'.Blocked c)
    (hothers : ∀ q c, q ≠ p → s.WaitsOn q c → s'.WaitsOn q c →
      s.Blocked c ∨ s.WillWake p c q → s'.Blocked c ∨ s'.WillWake p c q) : s'.Awake np := by
  obtain rfl | hbusy := hst.busy
  · exact h
  -- no other process is inside, before or after
  have hout : ∀ q ≠ p, ¬ (s'.proc q).pc.Holds := fun q hq hh =>
    h.locked.not_holds hl hq ((hst.other hq).holds hh ▸ hh)
  have hholder : ∀ {pc : PipePc} {q}, (s'.proc q).pc = pc → pc.Holds → q = p := fun hpc hh => by
    by_contra hq
    exact hout _ hq (hpc ▸ hh)
  refine ⟨hst.locked h.locked, fun q hq => ?_, fun q hq => ?_, fun q hq => ?_,
    fun q c j c' hq => ?_, fun q c hq => ?_⟩
  · rcases eq_or_ne q p with rfl | hne
    · exact h.lt q hbusy
    · exact h.lt q fun hi => hq ((hst.other hne).idle.2 hi)
  · obtain rfl := hholder hq trivial
    exact hsince hq
  · obtain rfl := hholder hq.1 trivial
    exact hdirty hq
  · obtain rfl := hholder hq trivial
    exact hsleep c j c' hq
  · rcases eq_or_ne q p with rfl | hne
    · exact .inl (hself c hq)
    · have hsq := (hst.other hne).waitsOn hq
      refine (hothers q c hne hsq hq ?_).imp_right fun hw => ⟨p, hw⟩
      refine (h.waits q c hsq).imp_right fun ⟨r, hr⟩ => ?_
      obtain rfl : r = p := by
        by_contra hrp
        exact h.locked.not_holds hl hrp hr.holds
      exact hr

section

variable (h : s.Awake np) {pc : PipePc} (hpc : (s.proc p).pc = pc) (hh : pc.Holds)
include h hpc hh

theorem Awake.lock_eq : s.lock = some p := h.locked p (hpc ▸ hh)

/-- The holder goes on to a `wakeup` of the channel that it has to announce. -/
theorem Awake.announce {c₀ : Chan} (hst : Stepped np s p ok (s.goto p (.wake c₀ 0 next)))
    (hsleep : ∀ c', next = .sleep c' → s.Blocked c')
    (hwake : ∀ q c, s.WillWake p c q → c = c₀) : (s.goto p (.wake c₀ 0 next)).Awake np := by
  refine h.of_step hst (.inl (h.lock_eq hpc hh)) (fun hn => by simp at hn)
    (fun hd => ?_) (fun c j c' hn => ?_) (fun c hc => by simp [WaitsOn] at hc)
    (fun q c hq _ _ hor => hor.imp (fun hb => hb.congr rfl rfl rfl rfl) fun hww => ?_)
  · have := hd.1
    simp at this
  · simp only [proc_goto_self, wake.injEq] at hn
    exact (hsleep c' hn.2.2).congr rfl rfl rfl rfl
  · obtain rfl := hwake q c hww
    exact .inl ⟨0, next, by simp, zero_le _⟩

/-- A process that is leaving, or going to sleep: nobody waits for it. -/
theorem Awake.of_release (hst : Stepped np s p ok s') (hr : s'.nread = s.nread)
    (hw : s'.nwrite = s.nwrite) (hro : s'.readopen = s.readopen) (hwo : s'.writeopen = s.writeopen)
    (hout : (s'.proc p).pc = .idle ∨ ∃ c, (s'.proc p).pc = .slept c ∧ s.Blocked c)
    (hnone : ∀ q c, s.WaitsOn q c → ¬ s.WillWake p c q) : s'.Awake np := by
  have hpc' : ¬ (s'.proc p).pc.Holds := by
    obtain h0 | ⟨c, h0, -⟩ := hout <;> rw [h0] <;> exact id
  refine h.of_step hst (.inl (h.lock_eq hpc hh)) (fun hn => ?_) (fun hd => ?_)
    (fun c j c' hn => ?_) (fun c hc => ?_) (fun q c hq hqs _ hor => ?_)
  · exact absurd (by rw [hn]; trivial) hpc'
  · exact absurd (by rw [hd.1]; trivial) hpc'
  · exact absurd (by rw [hn]; trivial) hpc'
  · obtain h0 | ⟨c', h0, hb⟩ := hout
    · simp [WaitsOn, h0] at hc
    · simp only [WaitsOn, h0, slept.injEq, reduceCtorEq, or_false] at hc
      exact (hc ▸ hb).congr hr hw hro hwo
  · exact .inl ((hor.resolve_right (hnone q c hqs)).congr hr hw hro hwo)

end

/-- At a position where it has nothing to announce, a process wakes nobody. -/
theorem not_willWake (hw : ∀ j next, (s.proc p).pc = .wake c j next → q < j)
    (hd : ¬ s.Dirty p) (hcopy : (s.proc p).pc ≠ .copy) : ¬ s.WillWake p c q := by
  rintro (⟨j, next, h, hj⟩ | ⟨-, h⟩ | ⟨-, h⟩)
  · exact absurd (hw j next h) (by omega)
  · exact hd h
  · exact hcopy h

theorem WillWake.eq_nread (h : s.WillWake p c q) (hpc : (s.proc p).pc = .loop) :
    c = .nread ∧ s.Dirty p := by
  rcases h with ⟨j, next, hw, -⟩ | h | ⟨-, hw⟩
  · rw [hpc] at hw
    cases hw
  · exact h
  · rw [hpc] at hw
    cases hw

theorem WillWake.eq_nwrite (h : s.WillWake p c q) (hpc : (s.proc p).pc = .copy) : c = .nwrite := by
  rcases h with ⟨j, next, hw, -⟩ | ⟨-, hw, -⟩ | ⟨hc, -⟩
  · rw [hpc] at hw
    cases hw
  · rw [hpc] at hw
    cases hw
  · exact hc

theorem not_dirty_of_read {n : ℤ} (hcall : (s.proc p).call = .read n) : ¬ s.Dirty p := by
  rintro ⟨-, ⟨src, m, h⟩, -⟩
  rw [hcall] at h
  cases h

section

variable (h : s.Awake np)
include h

/-- Nobody is going to be woken while the lock is free. -/
theorem Awake.blocked_of_free (hlock : s.lock = none) (hor : s.Blocked c ∨ s.WillWake p c q) :
    s.Blocked c := hor.resolve_right fun hww => by
  cases hlock.symm.trans (h.locked p hww.holds)

theorem Awake.enter (hst : Stepped np s p ok ({ s with lock := some p }.setProc p
      { s.proc p with pc := .loop, since := (s.proc p).i })) (hlock : s.lock = none) :
    ({ s with lock := some p }.setProc p
      { s.proc p with pc := .loop, since := (s.proc p).i }).Awake np := by
  refine h.of_step hst (.inr hlock) (fun _ => by simp) (fun hd => ?_)
    (fun c j c' hn => by simp at hn) (fun c hc => by simp [WaitsOn] at hc)
    (fun q c hq _ _ hor => .inl ((h.blocked_of_free hlock hor).congr rfl rfl rfl rfl))
  have := hd.2.2
  simp at this

theorem Awake.closeEnd {w : Bool}
    (hst : Stepped np s p ok ({ s with lock := some p }.closeEnd p w)) (hlock : s.lock = none) :
    ({ s with lock := some p }.closeEnd p w).Awake np := by
  have hself := closeEnd_self (s := { s with lock := some p }) (p := p) w
  refine h.of_step hst (.inr hlock) (fun hpc => ?_) (fun hd => ?_) (fun c j c' hpc => ?_)
    (fun c hc => ?_) (fun q c hq _ _ hor => ?_)
  · rw [hself] at hpc
    cases hpc
  · have := hd.1
    rw [hself] at this
    cases this
  · rw [hself] at hpc
    cases hpc
  · unfold WaitsOn at hc
    rw [hself] at hc
    simp at hc
  · have hb := h.blocked_of_free hlock hor
    -- the side that is not closed keeps its sleepers, the other is woken from the first on
    cases w <;> cases c
    · exact .inl hb
    · exact .inr (.inl ⟨0, .ret 0, by rw [hself]; rfl, zero_le _⟩)
    · exact .inr (.inl ⟨0, .ret 0, by rw [hself]; rfl, zero_le _⟩)
    · exact .inl hb

theorem Awake.wake (hst : Stepped np s p ok ((s.wakeOne p c j).goto p (.wake c (j + 1) next)))
    (hpc : (s.proc p).pc = .wake c j next) (hlock : s.lock = some p)
    (hfree : j = p ∨ ¬ s.InSleep j) :
    ((s.wakeOne p c j).goto p (.wake c (j + 1) next)).Awake np := by
  have hnew : ((s.wakeOne p c j).goto p (.wake c (j + 1) next)).proc p =
      { s.proc p with pc := .wake c (j + 1) next } := by rw [proc_goto_self, wakeOne_self]
  have hsame : ∀ c', s.Blocked c' →
      ((s.wakeOne p c j).goto p (.wake c (j + 1) next)).Blocked c' := fun c' hb => by
    unfold wakeOne
    split <;> exact hb.congr rfl rfl rfl rfl
  refine h.of_step hst (.inl hlock) (fun hn => ?_) (fun hd => ?_)
    (fun c₁ j₁ c' hn => ?_) (fun c₁ hc => ?_) (fun q c₁ hq hqs hqs' hor => ?_)
  · rw [hnew] at hn
    cases hn
  · have := hd.1
    rw [hnew] at this
    cases this
  · rw [hnew] at hn
    cases hn
    exact hsame _ (h.toSleep p _ _ _ hpc)
  · unfold WaitsOn at hc
    rw [hnew] at hc
    simp at hc
  · refine hor.imp (hsame c₁) fun hww => ?_
    rcases hww with ⟨j₁, next₁, hw, hj⟩ | ⟨-, hd, -⟩ | ⟨-, hcopy⟩
    · rw [hpc] at hw
      cases hw
      refine .inl ⟨j + 1, next, by rw [hnew], ?_⟩
      -- the process just visited does not sleep any more
      rcases lt_or_eq_of_le hj with hlt | rfl
      · exact hlt
      · have hasleep : (s.proc j).pc = .asleep c := by
          rcases hqs with hs | hs
          · exact absurd ⟨c, hs⟩ (hfree.resolve_left hq)
          · exact hs
        have hwoken : (((s.wakeOne p c j).goto p (.wake c (j + 1) next)).proc j).pc = .acquire := by
          rw [proc_goto_of_ne _ hq, wakeOne, if_pos ⟨hq, hasleep⟩, proc_goto_self]
        unfold WaitsOn at hqs'
        rw [hwoken] at hqs'
        simp at hqs'
    · rw [hpc] at hd
      cases hd
    · rw [hpc] at hcopy
      cases hcopy

/-- A process that has finished its `wakeup` wakes nobody any more. -/
theorem Awake.none_left (hpc : (s.proc p).pc = .wake c j next) (hj : ¬ j < np) (q : ℕ) (c' : Chan)
    (hq : s.WaitsOn q c') : ¬ s.WillWake p c' q := by
  have hlt : q < np := h.lt q (by rcases hq with hq | hq <;> rw [hq] <;> simp)
  refine not_willWake (fun j₁ next₁ hw => ?_) (fun hd => ?_) (by simp [hpc])
  · rw [hpc] at hw
    cases hw
    omega
  · have := hd.1
    rw [hpc] at this
    cases this

/-- A change outside of the critical section, or of a `killed` flag. -/
theorem Awake.of_outside (hlock : s'.lock = s.lock) (hr : s'.nread = s.nread)
    (hw : s'.nwrite = s.nwrite) (hro : s'.readopen = s.readopen) (hwo : s'.writeopen = s.writeopen)
    (hsame : ∀ q, (s.proc q).pc.Holds ∨ (s'.proc q).pc.Holds → (s'.proc q).pc = (s.proc q).pc ∧
      (s'.proc q).call = (s.proc q).call ∧ (s'.proc q).i = (s.proc q).i ∧
      (s'.proc q).since = (s.proc q).since) (hlt : ∀ q, (s'.proc q).pc ≠ .idle → q < np)
    (hwait : ∀ q c, s'.WaitsOn q c → s.WaitsOn q c)
    (hkill : ∀ q, s'.Dirty q → ∀ src n, (s'.proc q).call = .write src n → (s'.proc q).i < n →
      (s'.proc q).killed = false) : s'.Awake np := by
  have hdirty : ∀ q, s'.Dirty q ↔ s.Dirty q := fun q => by
    constructor
    · intro hd
      obtain ⟨h1, h2, h3, h4⟩ := hsame q (.inr (by rw [hd.1]; trivial))
      unfold Dirty at hd ⊢
      rwa [h1, h2, h3, h4] at hd
    · intro hd
      obtain ⟨h1, h2, h3, h4⟩ := hsame q (.inl (by rw [hd.1]; trivial))
      unfold Dirty
      rwa [h1, h2, h3, h4]
  refine ⟨fun q hq => ?_, hlt, fun q hq => ?_, fun q hd => ?_,
    fun q c j c' hq => ?_, fun q c hq => ?_⟩
  · rw [hlock]
    exact h.locked q ((hsame q (.inr hq)).1 ▸ hq)
  · obtain ⟨h1, -, h3, h4⟩ := hsame q (.inr (by rw [hq]; trivial))
    rw [h3, h4]
    exact h.since q (h1 ▸ hq)
  · rw [hro]
    exact ⟨(h.dirty q ((hdirty q).1 hd)).1, hkill q hd⟩
  · have h1 := (hsame q (.inr (by rw [hq]; trivial))).1
    exact (h.toSleep q c j c' (h1 ▸ hq)).congr hr hw hro hwo
  · rcases h.waits q c (hwait q c hq) with hb | ⟨r, hww⟩
    · exact .inl (hb.congr hr hw hro hwo)
    · have h1 := (hsame r (.inl hww.holds)).1
      refine .inr ⟨r, ?_⟩
      rcases hww with ⟨j, next, hpc, hj⟩ | ⟨hc, hd⟩ | ⟨hc, hpc⟩
      · exact .inl ⟨j, next, h1.trans hpc, hj⟩
      · exact .inr (.inl ⟨hc, (hdirty r).2 hd⟩)
      · exact .inr (.inr ⟨hc, h1.trans hpc⟩)

/-- A process moves outside of the critical section. -/
theorem Awake.setProc {x : PipeProc} (calls : ℕ) (hlt : p < np) (hout : ¬ (s.proc p).pc.Holds)
    (hx : ¬ x.pc.Holds) (hw : ∀ c, x.pc = .slept c ∨ x.pc = .asleep c → s.WaitsOn p c) :
    ({ s.setProc p x with calls } : PipeSys).Awake np := by
  have hself : ({ s.setProc p x with calls } : PipeSys).proc p = x := proc_setProc_self _
  have hother : ∀ q ≠ p, ({ s.setProc p x with calls } : PipeSys).proc q = s.proc q := fun q hq =>
    proc_setProc_of_ne _ hq
  refine h.of_outside rfl rfl rfl rfl rfl (fun q hh => ?_) (fun q hq => ?_) (fun q c' hq => ?_)
    (fun q hd src n hcall hi => ?_)
  · rcases eq_or_ne q p with rfl | hne
    · rw [hself] at hh
      exact absurd hh (not_or.2 ⟨hout, hx⟩)
    · rw [hother q hne]
      exact ⟨rfl, rfl, rfl, rfl⟩
  · rcases eq_or_ne q p with rfl | hne
    · exact hlt
    · rw [hother q hne] at hq
      exact h.lt q hq
  · unfold WaitsOn at hq ⊢
    rcases eq_or_ne q p with rfl | hne
    · rw [hself] at hq
      exact hw c' hq
    · rwa [hother q hne] at hq
  · unfold Dirty at hd
    rcases eq_or_ne q p with rfl | hne
    · rw [hself] at hd
      exact absurd (by rw [hd.1]; trivial) hx
    · rw [hother q hne] at hd hcall hi ⊢
      exact (h.dirty q hd).2 src n hcall hi

/-- `sched()` in `sleep`. -/
theorem Awake.nod (hpc : (s.proc p).pc = .slept c) : (s.goto p (.asleep c)).Awake np := by
  refine h.setProc s.calls (h.lt p (by simp [hpc])) (by rw [hpc]; exact id) id ?_
  rintro _ (hc | hc) <;> cases hc
  exact .inl hpc

theorem Awake.kill
    (hp : ¬ (s.Dirty p ∧ ∃ src n, (s.proc p).call = .write src n ∧ (s.proc p).i < n)) :
    (s.kill p).Awake np := by
  have hother : ∀ q ≠ p, (s.kill p).proc q = s.proc q := fun q hq => proc_setProc_of_ne _ hq
  have hsince : ∀ q, ((s.kill p).proc q).since = (s.proc q).since := fun q => by
    rcases eq_or_ne q p with rfl | hne
    · simp [kill]
    · rw [hother q hne]
  have hw := kill_woken (s := s) (p := p)
  have hpc : ∀ q, (s.proc q).pc.Holds ∨ ((s.kill p).proc q).pc.Holds →
      ((s.kill p).proc q).pc = (s.proc q).pc := fun q hh => by
    rcases (hw q).pc with hq | ⟨c, hc, hc'⟩
    · exact hq
    · rw [hc, hc'] at hh
      simp [Holds] at hh
  refine h.of_outside rfl rfl rfl rfl rfl
    (fun q hh => ⟨hpc q hh, (hw q).call, (hw q).i, hsince q⟩)
    (fun q hq => h.lt q fun hi => hq ((hw q).idle.2 hi)) (fun q c hq => (hw q).waitsOn hq)
    (fun q hd src n hcall hi => ?_)
  have hd' : s.Dirty q := by
    have h1 := hpc q (.inr (by rw [hd.1]; trivial))
    unfold Dirty at hd ⊢
    rwa [h1, (hw q).call, (hw q).i, hsince q] at hd
  rw [(hw q).call] at hcall
  rw [(hw q).i] at hi
  rcases eq_or_ne q p with rfl | hne
  · exact absurd ⟨hd', src, n, hcall, hi⟩ hp
  · rw [hother q hne]
    exact (h.dirty q hd').2 src n hcall hi

theorem Awake.invoke (c : PipeCall) (hlt : p < np)
    (hidle : (s.proc p).pc = .idle) : (s.invoke p c).Awake np := by
  refine h.setProc (s.calls + 1) hlt (by rw [hidle]; exact id) id ?_
  rintro _ (hc | hc) <;> cases hc

end

theorem Start.awake (h : s.Start) : s.Awake np := by
  refine ⟨fun q hq => ?_, fun q hq => absurd (h.idle q) hq, fun q hq => ?_, fun q hd => ?_,
    fun q c j c' hq => ?_, fun q c hq => ?_⟩
  · rw [h.idle q] at hq
    exact hq.elim
  · rw [h.idle q] at hq
    cases hq
  · have := hd.1
    rw [h.idle q] at this
    cases this
  · rw [h.idle q] at hq
    cases hq
  · unfold WaitsOn at hq
    rw [h.idle q] at hq
    simp at hq

section

variable (h : s.Awake np)
include h

/-- A byte is stored: the writer now has to wake the readers, and no writer sleeps. -/
theorem Awake.store {src : ℕ → Byte} {n : ℤ}
    (hst : Stepped np s p ok (s.store p (src (s.proc p).i))) (hpc : (s.proc p).pc = .loop)
    (hcall : (s.proc p).call = .write src n)
    (hend : s.readopen = true ∧ (s.proc p).killed = false) (hfull : ¬ s.Full) :
    (s.store p (src (s.proc p).i)).Awake np := by
  have hself : (s.store p (src (s.proc p).i)).proc p =
      { s.proc p with i := (s.proc p).i + 1 } := proc_setProc_self _
  have hlt : (s.proc p).since < (s.proc p).i + 1 := lt_succ_of_le (h.since p hpc)
  refine h.of_step hst (.inl (h.lock_eq hpc trivial)) (fun _ => ?_)
    (fun _ => ?_) (fun c j c' hn => ?_) (fun c hc => ?_) (fun q c hq _ _ hor => ?_)
  · rw [hself]
    exact hlt.le
  · rw [hself]
    exact ⟨hend.1, fun _ _ _ _ => hend.2⟩
  · simp [hself, hpc] at hn
  · simp [WaitsOn, hself, hpc] at hc
  · cases c with
    | nread =>
      refine .inr (.inr (.inl ⟨rfl, ?_⟩))
      unfold Dirty
      rw [hself]
      exact ⟨hpc, ⟨src, n, hcall⟩, hlt⟩
    | nwrite =>
      rcases hor with hb | hww
      · exact absurd hb.1 hfull
      · cases (hww.eq_nread hpc).1

/-- A byte is taken, and the reader goes on copying or to its `wakeup`: no reader sleeps. -/
theorem Awake.take {x : PipeProc} (hst : Stepped np s p ok (s.take.setProc p x))
    (hpc : (s.proc p).pc = .copy) (hempty : ¬ s.Empty)
    (hx : x.pc = .copy ∨ ∃ r, x.pc = .wake .nwrite 0 (.ret r)) : (s.take.setProc p x).Awake np := by
  have hloop : x.pc ≠ .loop := by obtain hx | ⟨r, hx⟩ := hx <;> simp [hx]
  refine h.of_step hst (.inl (h.lock_eq hpc trivial))
    (fun hn => absurd (by simpa using hn) hloop) (fun hd => absurd (by simpa using hd.1) hloop)
    (fun c j c' hn => ?_) (fun c hc => ?_) (fun q c hq _ _ hor => ?_)
  · rw [proc_setProc_self] at hn
    obtain hx | ⟨r, hx⟩ := hx <;> cases hx.symm.trans hn
  · obtain hx | ⟨r, hx⟩ := hx <;> simp [WaitsOn, hx] at hc
  · cases c with
    | nread =>
      rcases hor with hb | hww
      · exact absurd hb.1 hempty
      · cases hww.eq_nwrite hpc
    | nwrite =>
      obtain hx | ⟨r, hx⟩ := hx
      · exact .inr (.inr (.inr ⟨rfl, by simpa using hx⟩))
      · exact .inr (.inl ⟨0, .ret r, by simpa using hx, zero_le _⟩)

theorem Awake.copy {n : ℤ} (hst : Stepped np s p ok (s.goto p .copy))
    (hpc : (s.proc p).pc = .loop) (hcall : (s.proc p).call = .read n) :
    (s.goto p .copy).Awake np := by
  refine h.of_step hst (.inl (h.lock_eq hpc trivial)) (fun hn => by simp at hn)
    (fun hd => ?_) (fun c j c' hn => by simp at hn) (fun c hc => by simp [WaitsOn] at hc)
    (fun q c hq _ _ hor => .inl ((hor.resolve_right fun hww => ?_).congr rfl rfl rfl rfl))
  · have := hd.1
    simp at this
  · exact not_dirty_of_read hcall (hww.eq_nread hpc).2

end

theorem Stepped.awake (hst : Stepped np s p ok s') (h : s.Awake np) : s'.Awake np := by
  have hstep := hst
  cases hst with
  | enter _ hlock => exact h.enter hstep hlock
  | closeEnd _ hlock => exact h.closeEnd hstep hlock
  | giveUp hpc hcall hi hend =>
    refine h.of_release hpc trivial hstep rfl rfl rfl rfl (.inl (by simp [PipeSys.ret]))
      fun q c _ hww => ?_
    -- a writer with something to announce finds the pipe open and is not killed
    obtain ⟨hro, hk⟩ := h.dirty p (hww.eq_nread hpc).2
    rcases hend with hend | hend
    · cases hro.symm.trans hend
    · cases (hk _ _ hcall hi).symm.trans hend
  | quit hpc hcall =>
    exact h.of_release hpc trivial hstep rfl rfl rfl rfl (.inl (by simp [PipeSys.ret]))
      fun q c _ hww => not_dirty_of_read hcall (hww.eq_nread hpc).2
  | full hpc hcall hi hend hfull =>
    refine h.announce hpc trivial hstep ?_ fun q c hww => (hww.eq_nread hpc).1
    rintro _ ⟨⟩
    exact ⟨hfull, hend⟩
  | store hpc hcall hi hend hfull => exact h.store hstep hpc hcall hend hfull
  | doneWrite hpc =>
    refine h.announce hpc trivial hstep ?_ fun q c hww => (hww.eq_nread hpc).1
    rintro _ ⟨⟩
  | wait hpc hcall hempty hopen =>
    exact h.of_release hpc trivial hstep rfl rfl rfl rfl (.inr ⟨.nread, by simp, hempty, hopen⟩)
      fun q c _ hww => not_dirty_of_read hcall (hww.eq_nread hpc).2
  | copy hpc hcall => exact h.copy hstep hpc hcall
  | take hpc hcall hi hempty => exact h.take hstep hpc hempty (.inl hpc)
  | lose hpc hcall hempty => exact h.take hstep hpc hempty (.inr ⟨_, rfl⟩)
  | doneRead hpc =>
    refine h.announce hpc trivial hstep ?_ fun q c hww => hww.eq_nwrite hpc
    rintro _ ⟨⟩
  | wake hpc hj hfree => exact h.wake hstep hpc (h.lock_eq hpc trivial) hfree
  | sleep hpc hj =>
    exact h.of_release hpc trivial hstep rfl rfl rfl rfl
      (.inr ⟨_, by simp, h.toSleep p _ _ _ hpc⟩) (h.none_left hpc hj)
  | ret b hpc hj =>
    exact h.of_release hpc trivial hstep rfl rfl rfl rfl (.inl (by simp [PipeSys.ret]))
      (h.none_left hpc hj)
  | nod hpc => exact h.nod hpc
  | stuck => exact h

end PipeSys

/-- `kill` does not hit a process that is in the loop of `pipewrite`, has stored bytes since it took
the lock and has bytes left to store. -/
def PipeEvent.Timely (e : PipeEvent) (s : PipeSys) : Prop :=
  match e with
  | .kill p => ¬ (s.Dirty p ∧ ∃ src n, (s.proc p).call = .write src n ∧ (s.proc p).i < n)
  | _ => True

open PipeSys in
/-- **No process sleeps on a pipe that is ready**, in the runs in which no writer is killed between
two of its bytes: whenever the lock is free, a process asleep on `&pi->nread` finds the pipe empty
and open for writing, and one asleep on `&pi->nwrite` finds it full and open for reading. -/
theorem pipe_wakeups {np : ℕ} {s : PipeSys}
    (h : ((pipes np).restrict PipeEvent.Timely).Reachable s) : s.NoLostWakeup := by
  have hawake : s.Awake np := by
    refine h.invariant (fun s hs => Start.awake hs) fun s e s' hs ⟨⟨hok, hc⟩, hrun⟩ => ?_
    cases e with
    | invoke p c =>
      cases hrun
      exact hs.invoke c hok.1 hok.2.1
    | step p ok =>
      cases hrun
      exact (step_stepped hok.2).awake hs
    | kill p =>
      cases hrun
      exact hs.kill hc
  exact hawake.noLostWakeup

/-- A reader falls asleep on the empty pipe. -/
theorem pipe_wakeups_slept : ∃ s, ((pipes 2).restrict PipeEvent.Timely).Reachable s ∧
    (s.proc 1).pc = .asleep .nread ∧ s.lock = none ∧ s.nread = s.nwrite := by
  obtain ⟨s, hs, ht⟩ := Machine.Reachable.test (M := (pipes 2).restrict PipeEvent.Timely)
    (fun e s (h : (decide (e.Ok 2 s) && match e with | .kill _ => false | _ => true) = true) => by
      rw [Bool.and_eq_true, decide_eq_true_eq] at h
      refine ⟨h.1, ?_⟩
      cases e with
      | kill p => cases h.2
      | invoke p c => trivial
      | step p ok => trivial)
    (.init (s := .new 0) ⟨rfl, rfl, rfl, rfl, rfl, fun _ => rfl, rfl, rfl, rfl⟩)
    [.invoke 1 (.read 1), .step 1 true, .step 1 true, .step 1 true]
    (t := fun s => (s.proc 1).pc = .asleep .nread ∧ s.lock = none) (by decide +kernel)
  simp only [decide_eq_true_eq] at ht
  exact ⟨s, hs, ht.1, ht.2, ((pipe_wakeups hs ht.2 1).1 ht.1).1⟩

/-- A reader sleeps on the empty pipe.  A writer of two bytes stores the first and is killed; it
returns, and the reader sleeps on. -/
theorem pipe_lost_wakeup : ∃ s, (pipes 2).Reachable s ∧ ¬ s.NoLostWakeup := by
  obtain ⟨s, hs, ht⟩ := Machine.Reachable.test (M := pipes 2)
    (fun e s => of_decide_eq_true (p := e.Ok 2 s))
    (.init (s := .new 0) ⟨rfl, rfl, rfl, rfl, rfl, fun _ => rfl, rfl, rfl, rfl⟩)
    [.invoke 1 (.read 1), .step 1 true, .step 1 true, .step 1 true,
      .invoke 0 (.write (fun _ => 7) 2), .step 0 true, .step 0 true, .kill 0, .step 0 true]
    (t := fun s => (s.proc 1).pc = .asleep .nread ∧ s.lock = none ∧ s.nread ≠ s.nwrite)
    (by decide +kernel)
  simp only [decide_eq_true_eq] at ht
  exact ⟨s, hs, fun hn => ht.2.2 ((hn ht.2.1 1).1 ht.1).1⟩

end Xv6Swap
