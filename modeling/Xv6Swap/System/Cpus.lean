import Xv6Swap.Kernel.Cpus
import Mathlib.Tactic.SplitIfs

/-!
# One CPU for each process

A process is made `RUNNABLE` while it still executes in `yield`, and can be woken while it still
executes in `sleep`.  What keeps another CPU away from its kernel stack is `p->lock`: the CPU that
runs the process takes the lock before the state changes, and its scheduler releases it after
`swtch`.

* `Cpus.Placed` : who runs what, and who holds which lock.  A process that is some CPU's current one
  is `RUNNING`, or that CPU holds its lock (`held`);
* `Cpus.Placed.act` : a CPU changes a process whose lock no other CPU holds;
* `Cpus.one_cpu` : **one CPU per process**, in every run on any number of CPUs.
-/

namespace Xv6Swap

open Function Option Visit

/-- The context of a process that no CPU runs: the next step releases `p->lock`. -/
def CpPc.Saved : CpPc → Prop
  | .forkret | .resume _ => True
  | .run | .locked _ | .sched _ => False

namespace Cpus

variable {np c j p d : ℕ} {s : Cpus} {x : CpProc} {y : Cpu} {v : Visit}

/-- What the scheduler of a CPU can rely on. -/
def SchedAt (s : Cpus) (c : ℕ) : SchedPc → Prop
  | .scan _ => (s.cpu c).current = none
  | .test j => (s.cpu c).current = none ∧ (s.proc j).lock = some c
  | .switch j => (s.cpu c).current = some j ∧ (s.proc j).lock = some c ∧
      (s.proc j).state = .running
  | .back j => (s.cpu c).current = some j ∧ (s.proc j).lock = some c ∧
      (s.proc j).state ≠ .running

/-- What a process can rely on, on the CPU that executes on its stack. -/
def ProcAt (s : Cpus) (c p : ℕ) : CpPc → Prop
  | .run => (s.proc p).state = .running
  | .forkret | .resume _ | .locked _ => (s.proc p).state = .running ∧ (s.proc p).lock = some c
  | .sched w => (s.proc p).state = w.state ∧ (s.proc p).lock = some c

/-- The code on a CPU holds no lock of its own. -/
def Calm (s : Cpus) (c : ℕ) : Prop :=
  match (s.cpu c).stack with
  | some p => (s.proc p).pc = .run
  | none => (s.cpu c).pc.Open

/-- Who runs what, and who holds which lock. -/
structure Placed (s : Cpus) : Prop where
  stack : ∀ c p, (s.cpu c).stack = some p →
    (s.cpu c).current = some p ∧ (s.cpu c).pc = .back p
  only : ∀ c d p, (s.cpu c).current = some p → (s.cpu d).current = some p → c = d
  running : ∀ p, (s.proc p).state = .running → ∃ c, (s.cpu c).current = some p
  held : ∀ c p, (s.cpu c).current = some p → (s.proc p).state ≠ .running →
    (s.proc p).lock = some c
  sched : ∀ c, (s.cpu c).stack = none → s.SchedAt c (s.cpu c).pc
  proc : ∀ c p, (s.cpu c).stack = some p → s.ProcAt c p (s.proc p).pc
  visit : ∀ c q v, (s.cpu c).visit = some (q, v) → (s.proc q).lock = some c ∧ s.Calm c
  saved : ∀ p, (∀ c, (s.cpu c).stack ≠ some p) → (s.proc p).state ≠ .unused →
    (s.proc p).state ≠ .zombie → (s.proc p).pc.Saved

/-- A CPU changes the process `j`. -/
def act (s : Cpus) (c j : ℕ) (x : CpProc) (y : Cpu) : Cpus := (s.setProc j x).setCpu c y

theorem act_proc_self (c j : ℕ) (x : CpProc) (y : Cpu) : (s.act c j x y).proc j = x :=
  update_self ..

theorem act_proc_ne (h : p ≠ j) : (s.act c j x y).proc p = s.proc p := update_of_ne h ..

theorem act_cpu_self (c j : ℕ) (x : CpProc) (y : Cpu) : (s.act c j x y).cpu c = y :=
  update_self ..

theorem act_cpu_ne (h : d ≠ c) : (s.act c j x y).cpu d = s.cpu d := update_of_ne h ..

theorem lock_ne (h : (s.proc p).lock = some c) (d : ℕ) (hd : d ≠ c) : (s.proc p).lock ≠ some d :=
  fun e => hd (some.inj (e.symm.trans h))

theorem stack_ne (hst : (s.cpu c).stack = none)
    (h : ∀ d, ((s.act c j x y).cpu d).stack ≠ some j) (d : ℕ) : (s.cpu d).stack ≠ some j := by
  rcases eq_or_ne d c with rfl | hd
  · rw [hst]
    exact (some_ne_none j).symm
  · have := h d
    rwa [act_cpu_ne hd] at this

/-! What another CPU relies on, when `c` changes a process whose lock that CPU does not hold. -/

theorem SchedAt.act {pc : SchedPc} (h : s.SchedAt d pc) (hd : d ≠ c)
    (hlock : (s.proc j).lock ≠ some d) : (s.act c j x y).SchedAt d pc := by
  have hne : ∀ {k}, (s.proc k).lock = some d → k ≠ j := by
    rintro k hk rfl
    exact hlock hk
  cases pc with
  | scan k => simpa only [SchedAt, act_cpu_ne hd] using h
  | test k => simpa only [SchedAt, act_cpu_ne hd, act_proc_ne (hne h.2)] using h
  | switch k | back k => simpa only [SchedAt, act_cpu_ne hd, act_proc_ne (hne h.2.1)] using h

theorem ProcAt.act (h : s.ProcAt d p (s.proc p).pc) (hlock : (s.proc j).lock ≠ some d)
    (hx : p = j → x.state = .running ∧ x.pc = (s.proc j).pc) :
    (s.act c j x y).ProcAt d p ((s.act c j x y).proc p).pc := by
  rcases eq_or_ne p j with rfl | hp
  · obtain ⟨hst, hpc⟩ := hx rfl
    rw [act_proc_self, hpc]
    cases hat : (s.proc p).pc with
    | run => simpa only [ProcAt, act_proc_self] using hst
    | forkret | resume w | locked w | sched w =>
      rw [hat] at h
      exact absurd h.2 hlock
  · rw [act_proc_ne hp]
    cases hat : (s.proc p).pc <;> rw [hat] at h <;> simpa only [ProcAt, act_proc_ne hp] using h

theorem Calm.act (h : s.Calm d) (hd : d ≠ c)
    (hx : (s.cpu d).stack = some j → x.pc = (s.proc j).pc) : (s.act c j x y).Calm d := by
  unfold Calm at h ⊢
  rw [act_cpu_ne hd]
  cases hst : (s.cpu d).stack with
  | none =>
    rw [hst] at h
    exact h
  | some p =>
    rw [hst] at h
    rcases eq_or_ne p j with rfl | hp
    · simpa only [act_proc_self, hx hst] using h
    · simpa only [act_proc_ne hp] using h

section

variable (hi : s.Placed)
include hi

/-- **A CPU changes a process whose lock no other CPU holds.**  What the other CPUs rely on stays,
as long as a process that runs elsewhere keeps its state and its position. -/
theorem Placed.act (hlock : ∀ d ≠ c, (s.proc j).lock ≠ some d)
    (hother : ∀ d ≠ c, (s.cpu d).current = some j → x.state = .running ∧ x.pc = (s.proc j).pc)
    (hstack : ∀ p, y.stack = some p → y.current = some p ∧ y.pc = .back p)
    (honly : ∀ d p, d ≠ c → y.current = some p → (s.cpu d).current ≠ some p)
    (hrun : x.state = .running → y.current = some j ∨ ∃ d ≠ c, (s.cpu d).current = some j)
    (hlost : ∀ p, (s.cpu c).current = some p → y.current = some p ∨ p = j ∧ x.state ≠ .running)
    (hheld : ∀ p, y.current = some p → ((s.act c j x y).proc p).state ≠ .running →
      ((s.act c j x y).proc p).lock = some c)
    (hsched : y.stack = none → (s.act c j x y).SchedAt c y.pc)
    (hproc : ∀ p, y.stack = some p → (s.act c j x y).ProcAt c p ((s.act c j x y).proc p).pc)
    (hvisit : ∀ q v, y.visit = some (q, v) →
      ((s.act c j x y).proc q).lock = some c ∧ (s.act c j x y).Calm c)
    (hleft : ∀ p ≠ j, (s.cpu c).stack = some p → y.stack = some p)
    (hsaved : (∀ d, ((s.act c j x y).cpu d).stack ≠ some j) → x.state ≠ .unused →
      x.state ≠ .zombie → x.pc.Saved) : (s.act c j x y).Placed := by
  constructor
  · exact (forall_update_iff s.cpu fun d z => ∀ p, z.stack = some p →
      z.current = some p ∧ z.pc = .back p).2 ⟨hstack, fun d _ => hi.stack d⟩
  · exact sole_update (R := fun (z : Cpu) p => z.current = some p) hi.only
      fun p h d hd => honly d p hd h
  · -- a process that was running on `c` stays its current one, unless it is `j`
    refine (forall_update_iff s.proc fun p z => z.state = .running →
      ∃ d, ((s.act c j x y).cpu d).current = some p).2 ⟨fun hx => ?_, fun p hpj hp => ?_⟩
    · rcases hrun hx with h | ⟨d, hd, h⟩
      · exact ⟨c, by rwa [act_cpu_self]⟩
      · exact ⟨d, by rwa [act_cpu_ne hd]⟩
    · obtain ⟨d, hd⟩ := hi.running p hp
      rcases eq_or_ne d c with rfl | hdc
      · exact ⟨d, by rw [act_cpu_self]; exact (hlost p hd).resolve_right fun h => hpj h.1⟩
      · exact ⟨d, by rwa [act_cpu_ne hdc]⟩
  · refine (forall_update_iff s.cpu fun d z => ∀ p, z.current = some p →
      ((s.act c j x y).proc p).state ≠ .running → ((s.act c j x y).proc p).lock = some d).2
      ⟨hheld, fun d hd p hp hs => ?_⟩
    rcases eq_or_ne p j with rfl | hpj
    · rw [act_proc_self] at hs
      exact absurd (hother d hd hp).1 hs
    · rw [act_proc_ne hpj] at hs ⊢
      exact hi.held d p hp hs
  · exact (forall_update_iff s.cpu fun d z => z.stack = none → (s.act c j x y).SchedAt d z.pc).2
      ⟨hsched, fun d hd h => (hi.sched d h).act hd (hlock d hd)⟩
  · exact (forall_update_iff s.cpu fun d z => ∀ p, z.stack = some p →
      (s.act c j x y).ProcAt d p ((s.act c j x y).proc p).pc).2 ⟨hproc, fun d hd p hp =>
        (hi.proc d p hp).act (hlock d hd) fun hpj => hother d hd (hpj ▸ (hi.stack d p hp).1)⟩
  · refine (forall_update_iff s.cpu fun d z => ∀ q v, z.visit = some (q, v) →
      ((s.act c j x y).proc q).lock = some d ∧ (s.act c j x y).Calm d).2
      ⟨hvisit, fun d hd q v hv => ?_⟩
    obtain ⟨hl, hcalm⟩ := hi.visit d q v hv
    have hqj : q ≠ j := by
      rintro rfl
      exact hlock d hd hl
    rw [act_proc_ne hqj]
    exact ⟨hl, hcalm.act hd fun h => (hother d hd (hi.stack d j h).1).2⟩
  · refine (forall_update_iff s.proc fun p z => (∀ d, ((s.act c j x y).cpu d).stack ≠ some p) →
      z.state ≠ .unused → z.state ≠ .zombie → z.pc.Saved).2 ⟨hsaved, fun p hpj hp hu hz => ?_⟩
    refine hi.saved p (fun d h => ?_) hu hz
    have := hp d
    rcases eq_or_ne d c with rfl | hd
    · rw [act_cpu_self] at this
      exact this (hleft p hpj h)
    · rw [act_cpu_ne hd] at this
      exact this h

/-- A process that another CPU runs, and whose lock that CPU does not hold, is `RUNNING`. -/
theorem Placed.elsewhere (h : (s.cpu d).current = some p)
    (hl : (s.proc p).lock ≠ some d) : (s.proc p).state = .running := by
  by_contra hs
  exact hl (hi.held d p h hs)

/-- The process that a CPU executes on runs nowhere else. -/
theorem Placed.own (h : (s.cpu c).stack = some p) (hd : d ≠ c) : (s.cpu d).current ≠ some p :=
  fun e => hd (hi.only d c p e (hi.stack c p h).1)

/-! ### The scheduler -/

section

variable (hst : (s.cpu c).stack = none) (hv : (s.cpu c).visit = none)
include hst hv

/-- The scheduler takes or releases the lock of a process without running it. -/
theorem Placed.look {l : Option ℕ} {pc : SchedPc}
    (hcur : (s.cpu c).current = none) (hlock : ∀ d ≠ c, (s.proc j).lock ≠ some d)
    (hpc : (pc = .test j ∧ l = some c) ∨ ∃ k, pc = .scan k) :
    (s.act c j { s.proc j with lock := l } { s.cpu c with pc }).Placed := by
  refine hi.act hlock (fun d hd h => ⟨hi.elsewhere h (hlock d hd), rfl⟩) (fun p h => ?_)
    (fun d p _ h => ?_) (fun h => .inr ?_) (fun p h => ?_) (fun p h hs => ?_) (fun _ => ?_)
    (fun p h => ?_) (fun q v h => ?_) (fun p _ h => ?_) (fun hno hu hz => ?_)
  all_goals try simp only [hst, hcur, hv, reduceCtorEq] at h
  · obtain ⟨d, hd⟩ := hi.running j h
    refine ⟨d, ?_, hd⟩
    rintro rfl
    rw [hcur] at hd
    cases hd
  · rcases hpc with ⟨rfl, rfl⟩ | ⟨k, rfl⟩
    · simp only [SchedAt, act_cpu_self, act_proc_self]
      exact ⟨hcur, trivial⟩
    · simp only [SchedAt, act_cpu_self]
      exact hcur
  · exact hi.saved j (stack_ne hst hno) hu hz

theorem Placed.dispatch (hpc : (s.cpu c).pc = .test j)
    (hr : (s.proc j).state = .runnable) : (s.act c j { s.proc j with state := .running }
      { s.cpu c with current := some j, pc := .switch j }).Placed := by
  obtain ⟨hcur, hl⟩ : (s.cpu c).current = none ∧ (s.proc j).lock = some c := by
    have := hi.sched c hst
    rwa [hpc] at this
  -- whoever ran it before has switched away
  have hno : ∀ d, (s.cpu d).current ≠ some j := by
    intro d h
    have hd : d ≠ c := by
      rintro rfl
      rw [hcur] at h
      cases h
    have := hi.elsewhere h (lock_ne hl d hd)
    rw [hr] at this
    cases this
  refine hi.act (lock_ne hl) (fun d _ h => absurd h (hno d)) (fun p h => ?_) (fun d p _ h => ?_)
    (fun h => .inl rfl)
    (fun p h => ?_) (fun p h hs => ?_) (fun _ => ?_) (fun p h => ?_) (fun q v h => ?_)
    (fun p _ h => ?_) (fun _ _ _ => ?_)
  all_goals try simp only [hst, hcur, hv, reduceCtorEq] at h
  · cases h
    exact hno d
  · cases h
    rw [act_proc_self] at hs
    exact absurd rfl hs
  · simp only [SchedAt, act_cpu_self, act_proc_self]
    exact ⟨trivial, hl, trivial⟩
  · refine hi.saved j (fun d h => hno d (hi.stack d j h).1) ?_ ?_ <;> rw [hr] <;>
      exact nofun

/-- `swtch` from the scheduler to the process. -/
theorem Placed.switch (hpc : (s.cpu c).pc = .switch j) :
    (s.act c j (s.proc j) { s.cpu c with stack := some j, pc := .back j }).Placed := by
  obtain ⟨hcur, hl, hr⟩ : (s.cpu c).current = some j ∧ (s.proc j).lock = some c ∧
      (s.proc j).state = .running := by
    have := hi.sched c hst
    rwa [hpc] at this
  have hnot : ∀ d, (s.cpu d).stack ≠ some j := by
    intro d h
    have hd := hi.only d c j (hi.stack d j h).1 hcur
    rw [hd, hst] at h
    cases h
  have hsaved : (s.proc j).pc.Saved := by
    refine hi.saved j hnot ?_ ?_ <;> rw [hr] <;> exact nofun
  refine hi.act (lock_ne hl) (fun d hd h => ⟨hi.elsewhere h (lock_ne hl d hd), rfl⟩) (fun p h => ?_)
    (fun d p hd h => ?_) (fun _ => .inl hcur) (fun p h => .inl h) (fun p h hs => ?_) (fun h => ?_)
    (fun p h => ?_) (fun q v h => ?_) (fun p _ h => ?_) (fun _ _ _ => hsaved)
  · cases h
    exact ⟨hcur, rfl⟩
  · intro e
    exact hd (hi.only d c p e h)
  · rw [hcur] at h
    cases h
    rwa [act_proc_self]
  · cases h
  · cases h
    rw [act_proc_self]
    cases h : (s.proc j).pc with
    | forkret | resume w => simp only [ProcAt, act_proc_self, hr, hl, and_self]
    | run | locked w | sched w =>
      rw [h] at hsaved
      exact hsaved.elim
  · rw [hv] at h
    cases h
  · rw [hst] at h
    cases h

/-- The scheduler after `swtch`. -/
theorem Placed.back (hpc : (s.cpu c).pc = .back j) (k : ℕ) :
    (s.act c j { s.proc j with lock := none }
      { s.cpu c with current := none, pc := .scan k }).Placed := by
  obtain ⟨hcur, hl, hr⟩ : (s.cpu c).current = some j ∧ (s.proc j).lock = some c ∧
      (s.proc j).state ≠ .running := by
    have := hi.sched c hst
    rwa [hpc] at this
  refine hi.act (lock_ne hl) (fun d hd h => absurd (hi.elsewhere h (lock_ne hl d hd)) hr)
    (fun p h => ?_)
    (fun d p hd h => ?_) (fun h => absurd h hr) (fun p h => .inr ?_) (fun p h hs => ?_)
    (fun h => ?_) (fun p h => ?_) (fun q v h => ?_) (fun p _ h => ?_) (fun hno hu hz => ?_)
  all_goals try simp only [hst, hv, reduceCtorEq] at h
  · rw [hcur] at h
    cases h
    exact ⟨rfl, hr⟩
  · simp only [SchedAt, act_cpu_self]
  · exact hi.saved j (stack_ne hst hno) hu hz

theorem Placed.schedStep (hfree : s.SchedFree (s.cpu c).pc) :
    (s.schedStep np c).Placed := by
  have hat := hi.sched c hst
  cases hpc : (s.cpu c).pc with
  | scan j =>
    rw [hpc] at hfree hat
    simp only [Cpus.schedStep, hpc]
    exact hi.look hst hv hat (fun d _ e => by rw [hfree] at e; cases e) (.inl ⟨rfl, rfl⟩)
  | test j =>
    rw [hpc] at hat
    simp only [Cpus.schedStep, hpc]
    split_ifs with hr
    · exact hi.dispatch hst hv hpc hr
    · exact hi.look hst hv hat.1 (lock_ne hat.2) (.inr ⟨_, rfl⟩)
  | switch j =>
    have h := hi.switch hst hv hpc
    simp only [Cpus.schedStep, hpc]
    rwa [Cpus.act, setProc, update_eq_self] at h
  | back j =>
    simp only [Cpus.schedStep, hpc]
    exact hi.back hst hv hpc _

end

end

/-! ### The process on a CPU -/

theorem setProc_self (p : ℕ) (x : CpProc) : (s.setProc p x).proc p = x := update_self ..

section

variable (hi : s.Placed) (hst : (s.cpu c).stack = some p) (hv : (s.cpu c).visit = none)
include hi hst hv

/-- The process that a CPU executes on moves, and keeps the CPU. -/
theorem Placed.move (hlock : ∀ d ≠ c, (s.proc p).lock ≠ some d)
    (hheld : x.state ≠ .running → x.lock = some c)
    (hat : (s.setProc p x).ProcAt c p x.pc) : (s.setProc p x).Placed := by
  have hact : s.setProc p x = s.act c p x (s.cpu c) := by
    rw [Cpus.act, setCpu]
    simp only [setProc, update_eq_self]
  have hcur := (hi.stack c p hst).1
  rw [hact] at hat ⊢
  refine hi.act hlock (fun d hd h => absurd h (hi.own hst hd)) (hi.stack c)
    (fun d q hd h => ?_) (fun _ => .inl hcur) (fun q h => .inl h) (fun q h hs => ?_)
    (fun h => ?_) (fun q h => ?_) (fun q v h => ?_) (fun q _ h => h) (fun hno _ _ => ?_)
  · intro e
    exact hd (hi.only d c q e h)
  · rw [hcur] at h
    cases h
    rw [act_proc_self] at hs ⊢
    exact hheld hs
  · rw [hst] at h
    cases h
  · rw [hst] at h
    cases h
    rwa [act_proc_self]
  · rw [hv] at h
    cases h
  · have := hno c
    rw [act_cpu_self] at this
    exact absurd hst this

/-- `swtch` from the process to the scheduler. -/
theorem Placed.swtch {w : Away} (hpc : (s.proc p).pc = .sched w) :
    (s.act c p { s.proc p with pc := .resume w } { s.cpu c with stack := none }).Placed := by
  obtain ⟨hcur, hback⟩ := hi.stack c p hst
  obtain ⟨hs, hl⟩ : (s.proc p).state = w.state ∧ (s.proc p).lock = some c := by
    have := hi.proc c p hst
    rwa [hpc] at this
  have hr : (s.proc p).state ≠ .running := by
    rw [hs]
    cases w <;> exact nofun
  refine hi.act (lock_ne hl) (fun d hd h => absurd h (hi.own hst hd)) (fun q h => ?_)
    (fun d q hd h => ?_) (fun h => absurd h hr) (fun q h => .inl h) (fun q h _ => ?_)
    (fun h => ?_) (fun q h => ?_) (fun q v h => ?_) (fun q hq h => ?_) (fun hno _ _ => trivial)
  · cases h
  · intro e
    exact hd (hi.only d c q e h)
  · rw [hcur] at h
    cases h
    rwa [act_proc_self]
  · simp only [hback, SchedAt, act_cpu_self, act_proc_self]
    exact ⟨hcur, hl, hr⟩
  · cases h
  · rw [hv] at h
    cases h
  · rw [hst] at h
    cases h
    exact absurd rfl hq

theorem Placed.procStep : (s.procStep c p).Placed := by
  have hat := hi.proc c p hst
  cases hpc : (s.proc p).pc with
  | forkret =>
    rw [hpc] at hat
    simp only [Cpus.procStep, hpc]
    refine hi.move hst hv (lock_ne hat.2) (fun h => absurd hat.1 h) ?_
    simp only [ProcAt, setProc_self]
    exact hat.1
  | run =>
    simp only [Cpus.procStep, hpc]
    exact hi
  | locked w =>
    rw [hpc] at hat
    have hmove : ∀ chan, (s.setProc p { s.proc p with
        chan, state := w.state, pc := .sched w }).Placed := by
      intro chan
      refine hi.move hst hv (lock_ne hat.2) (fun _ => hat.2) ?_
      simp only [ProcAt, setProc_self]
      exact ⟨trivial, hat.2⟩
    cases w <;> simp only [Cpus.procStep, hpc] <;> exact hmove _
  | sched w =>
    simp only [Cpus.procStep, hpc]
    exact hi.swtch hst hv hpc
  | resume w =>
    rw [hpc] at hat
    have hmove : ∀ chan, (s.setProc p { s.proc p with chan, lock := none, pc := .run }).Placed := by
      intro chan
      refine hi.move hst hv (lock_ne hat.2) (fun h => absurd hat.1 h) ?_
      simp only [ProcAt, setProc_self]
      exact hat.1
    cases w <;> simp only [Cpus.procStep, hpc] <;> exact hmove _

end

/-! ### Critical sections -/

theorem effect_running (h : x.state = .running) : v.effect x = x := by
  cases v <;> simp [effect, h]

theorem running_of_effect (h : (v.effect x).state = .running) : x.state = .running := by
  cases v <;> simp only [effect] at h <;> split_ifs at h <;> exact h

/-- A process that no CPU runs stays ready to be resumed. -/
theorem saved_effect (hu : (v.effect x).state ≠ .unused) (hz : (v.effect x).state ≠ .zombie)
    (h : x.state ≠ .unused → x.state ≠ .zombie → x.pc.Saved) : (v.effect x).pc.Saved := by
  cases v with
  | wakeup chan =>
    simp only [effect] at hu hz ⊢
    split_ifs at hu hz ⊢ with hc
    · exact h (by simp [hc.1]) (by simp [hc.1])
    · exact h hu hz
  | kill found =>
    simp only [effect] at hu hz ⊢
    split_ifs at hu hz ⊢ with hc
    · exact h (by simp [hc.2]) (by simp [hc.2])
    · exact h hu hz
  | wait =>
    simp only [effect] at hu hz ⊢
    split_ifs at hu hz ⊢ with hc
    · exact absurd rfl hu
    · exact h hu hz
  | alloc =>
    simp only [effect] at hu hz ⊢
    split_ifs at hu hz ⊢ with hc
    · trivial
    · exact h hu hz
  | publish =>
    simp only [effect] at hu hz ⊢
    split_ifs at hu hz ⊢ with hc
    · exact h (by simp [hc]) (by simp [hc])
    · exact h hu hz
  | undo =>
    simp only [effect] at hu hz ⊢
    split_ifs at hu hz ⊢ with hc
    · exact absurd rfl hu
    · exact h hu hz

/-- The code on a CPU that holds no lock: what its current process is. -/
theorem Placed.calm (hi : s.Placed) (hc : s.Calm c) (hcur : (s.cpu c).current = some p) :
    (s.cpu c).stack = some p ∧ (s.proc p).pc = .run ∧ (s.proc p).state = .running := by
  unfold Calm at hc
  cases hst : (s.cpu c).stack with
  | none =>
    rw [hst] at hc
    have hat := hi.sched c hst
    cases hpc : (s.cpu c).pc with
    | scan j =>
      rw [hpc] at hat
      rw [SchedAt, hcur] at hat
      cases hat
    | test j | switch j | back j =>
      rw [hpc] at hc
      exact hc.elim
  | some q =>
    rw [hst] at hc
    obtain ⟨h, -⟩ := hi.stack c q hst
    rw [hcur] at h
    cases h
    have hat := hi.proc c p hst
    rw [hc] at hat
    exact ⟨rfl, hc, hat⟩

theorem Placed.visiting {q : ℕ} {v : Option (ℕ × Visit)} (hi : s.Placed)
    (hc : s.Calm c) (hlock : ∀ d ≠ c, (s.proc q).lock ≠ some d)
    (hx : (s.proc q).state = .running → x.state = .running ∧ x.pc = (s.proc q).pc)
    (hr : x.state = .running → (s.proc q).state = .running)
    (hs : x.state ≠ .unused → x.state ≠ .zombie →
      ((s.proc q).state ≠ .unused → (s.proc q).state ≠ .zombie → (s.proc q).pc.Saved) → x.pc.Saved)
    (hv : ∀ p u, v = some (p, u) → p = q ∧ x.lock = some c) :
    (s.act c q x { s.cpu c with visit := v }).Placed := by
  refine hi.act hlock (fun d hd h => hx (hi.elsewhere h (hlock d hd))) (hi.stack c)
    (fun d p hd h => ?_) (fun h => ?_) (fun p h => .inl h) (fun p h hs => ?_)
    (fun h => ?_) (fun p h => ?_) (fun p u h => ?_) (fun p _ h => h) (fun hno hu hz => ?_)
  · exact fun e => hd (hi.only d c p e h)
  · obtain ⟨d, hd⟩ := hi.running q (hr h)
    rcases eq_or_ne d c with rfl | hdc
    · exact .inl hd
    · exact .inr ⟨d, hdc, hd⟩
  · obtain ⟨-, -, hrun⟩ := hi.calm hc h
    rcases eq_or_ne p q with rfl | hpq
    · rw [act_proc_self] at hs
      exact absurd (hx hrun).1 hs
    · rw [act_proc_ne hpq] at hs
      exact absurd hrun hs
  · have hat := hi.sched c h
    unfold Calm at hc
    dsimp only at h ⊢
    rw [h] at hc
    cases hpc : (s.cpu c).pc with
    | scan j =>
      rw [hpc] at hat
      simp only [SchedAt, act_cpu_self]
      exact hat
    | test j | switch j | back j =>
      rw [hpc] at hc
      exact hc.elim
  · obtain ⟨-, hpc, hrun⟩ := hi.calm hc (hi.stack c p h).1
    rcases eq_or_ne p q with rfl | hpq
    · rw [act_proc_self, (hx hrun).2, hpc]
      simp only [ProcAt, act_proc_self]
      exact (hx hrun).1
    · rw [act_proc_ne hpq, hpc]
      simp only [ProcAt, act_proc_ne hpq]
      exact hrun
  · obtain ⟨rfl, hl⟩ := hv p u h
    rw [act_proc_self]
    refine ⟨hl, ?_⟩
    unfold Calm at hc ⊢
    rw [act_cpu_self]
    dsimp only
    cases hst : (s.cpu c).stack with
    | none =>
      rw [hst] at hc
      exact hc
    | some r =>
      rw [hst] at hc
      dsimp only at hc ⊢
      rcases eq_or_ne r p with rfl | hrp
      · have hat := hi.proc c r hst
        rw [hc] at hat
        rw [act_proc_self, (hx hat).2, hc]
      · rw [act_proc_ne hrp, hc]
  · refine hs hu hz (hi.saved q fun d => ?_)
    have := hno d
    rcases eq_or_ne d c with rfl | hd
    · rwa [act_cpu_self] at this
    · rwa [act_cpu_ne hd] at this

theorem Placed.next {e : CpEvent} (hi : s.Placed) (hok : e.Ok np s) : (e.next np s).Placed := by
  cases e with
  | sched c => exact hi.schedStep hok.1 hok.2.1 hok.2.2
  | away c p w =>
    obtain ⟨hst, hv, hpc, hl⟩ := hok
    have hat := hi.proc c p hst
    rw [hpc] at hat
    refine hi.move hst hv (fun d _ e => by rw [hl] at e; cases e) (fun h => absurd hat h) ?_
    simp only [ProcAt, setProc_self]
    exact ⟨hat, trivial⟩
  | step c p => exact hi.procStep hok.1 hok.2.1
  | enter c q v =>
    obtain ⟨-, hv, hl, hmay⟩ := hok
    have hcalm : s.Calm c := by
      unfold MayEnter at hmay
      unfold Calm
      cases hst : (s.cpu c).stack with
      | none =>
        rw [hst] at hmay
        exact hmay.1
      | some p =>
        rw [hst] at hmay
        exact hmay.1
    refine hi.visiting hcalm (fun d _ e => by rw [hl] at e; cases e) (fun h => ⟨h, rfl⟩)
      (fun h => h) (fun hu hz h => h hu hz) fun p u h => ?_
    cases h
    exact ⟨rfl, rfl⟩
  | leave c q v =>
    obtain ⟨hl, hcalm⟩ := hi.visit c q v hok
    refine hi.visiting hcalm (lock_ne hl) (fun h => ?_) running_of_effect
      (fun hu hz => saved_effect hu hz) fun p u h => by cases h
    dsimp only
    rw [effect_running h]
    exact ⟨h, rfl⟩

theorem start_placed : Cpus.start.Placed := by
  constructor
  · intro c p h
    cases h
  · intro c d p h
    cases h
  · intro p h
    simp only [Cpus.start] at h
    split_ifs at h
  · intro c p h
    cases h
  · exact fun c _ => rfl
  · intro c p h
    cases h
  · intro c q v h
    cases h
  · exact fun p _ _ _ => trivial

theorem placed_of_reachable (h : (cpus np).Reachable s) : s.Placed := by
  refine h.invariant ?_ ?_
  · rintro s rfl
    exact start_placed
  · rintro s e s' hi ⟨hok, hs⟩
    cases hs
    exact hi.next hok

/-! ### The main result -/

/-- What the hand-over of `p->lock` guarantees. -/
structure OneCpu (s : Cpus) : Prop where
  /-- At most one CPU executes on the kernel stack of a process. -/
  stack : ∀ c d p, (s.cpu c).stack = some p → (s.cpu d).stack = some p → c = d
  /-- A `RUNNING` process is the current process of exactly one CPU. -/
  running : ∀ p, (s.proc p).state = .running →
    ∃ c, (s.cpu c).current = some p ∧ ∀ d, (s.cpu d).current = some p → d = c
  /-- A process that a scheduler has chosen, or is about to choose, has switched away from the CPU
  that ran it before. -/
  resumed : ∀ c j, (s.cpu c).stack = none →
    ((s.cpu c).pc = .test j ∧ (s.proc j).state = .runnable ∨ (s.cpu c).pc = .switch j) →
      ∀ d, (s.cpu d).stack ≠ some j
  /-- A `ZOMBIE` that `wait` frees has switched away. -/
  freed : ∀ c q, (s.cpu c).visit = some (q, .wait) → (s.proc q).state = .zombie →
    ∀ d, (s.cpu d).stack ≠ some q

/-- **One CPU per process.** -/
theorem one_cpu (h : (cpus np).Reachable s) : s.OneCpu := by
  have hi := placed_of_reachable h
  refine ⟨?_, ?_, ?_, ?_⟩
  · intro c d p hc hd
    exact hi.only c d p (hi.stack c p hc).1 (hi.stack d p hd).1
  · intro p hp
    obtain ⟨c, hc⟩ := hi.running p hp
    exact ⟨c, hc, fun d hd => hi.only d c p hd hc⟩
  · intro c j hst hj d hd
    have hat := hi.sched c hst
    have hcur := (hi.stack d j hd).1
    rcases hj with ⟨hpc, hr⟩ | hpc
    · rw [hpc] at hat
      have hl := hi.held d j hcur (by rw [hr]; exact fun h => by cases h)
      rw [hat.2] at hl
      cases hl
      rw [hst] at hd
      cases hd
    · rw [hpc] at hat
      rw [hi.only d c j hcur hat.1, hst] at hd
      cases hd
  · intro c q hv hz d hd
    obtain ⟨hl, hcalm⟩ := hi.visit c q .wait hv
    have hcur := (hi.stack d q hd).1
    have hl' := hi.held d q hcur (by rw [hz]; exact fun h => by cases h)
    rw [hl] at hl'
    cases hl'
    rw [(hi.calm hcalm hcur).2.2] at hz
    cases hz

/-- The first process runs on the second CPU and yields, and the first CPU runs it again. -/
theorem one_cpu_yielded : ∃ s, (cpus 1).Reachable s ∧
    ((s.cpu 0).stack = some 0 ∧ (s.cpu 1).stack = none ∧ (s.proc 0).state = .running) ∧
      s.OneCpu := by
  obtain ⟨s, hs, ht⟩ := Machine.Reachable.test (M := cpus 1)
    (fun e s => of_decide_eq_true (p := e.Ok 1 s)) (.init rfl)
    ([.sched 1, .sched 1, .sched 1, .step 1 0, .away 1 0 .yield, .step 1 0, .step 1 0, .sched 1,
      .sched 0, .sched 0, .sched 0])
    (t := fun s => decide ((s.cpu 0).stack = some 0 ∧ (s.cpu 1).stack = none ∧
      (s.proc 0).state = .running)) (by decide +kernel)
  exact ⟨s, hs, of_decide_eq_true ht, one_cpu hs⟩

end Cpus

end Xv6Swap
