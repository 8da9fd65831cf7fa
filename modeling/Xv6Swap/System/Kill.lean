import Xv6Swap.System.Family

/-!
# What `kill` hits

`kill` compares `p->pid` with its argument and nothing else, and an entry of the table that is not
in use has the pid 0.  So `kill(0)` finds such an entry, sets its `killed` flag and returns 0, and
as `allocproc` does not reset the flag, the next process in that entry is killed as soon as it
returns to user space (`kill_zero`).

* `Ptable.kill_exact` : in every run in which no call has the argument 0, `kill` hits only the
  process with that pid, and a process is marked only if it was asked for.
-/

namespace Xv6Swap

open Ptable

/-- The argument of `kill` is not 0. -/
def PtEvent.Named : PtEvent → Prop
  | .call _ (.kill pid) => pid ≠ 0
  | _ => True

instance (e : PtEvent) : Decidable e.Named := by
  unfold PtEvent.Named
  split <;> infer_instance

/-- An entry, apart from the position of the process and the result of its last `kill`. -/
def PtSlot.rest (x : PtSlot) : PtSlot := { x with pc := .user, ret := 0 }

namespace Ptable

variable {np j since c k p : ℕ} {s s' : Ptable} {pid : BitVec 32} {pc : PtPc}

/-- What a call of `kill` at the entry `j` has seen: the processes before `j` with that pid have
been created since the call was made. -/
structure Passed (s : Ptable) (pid : BitVec 32) (j since : ℕ) : Prop where
  ne : pid ≠ 0
  le : since ≤ s.births
  new : ∀ k < j, (s.slot k).state ≠ .unused → (s.slot k).pid = pid → since ≤ (s.slot k).birth

/-- The flags of the processes. -/
structure Marked (s : Ptable) : Prop where
  free : ∀ k, (s.slot k).state = .unused → (s.slot k).pid = 0 ∧ (s.slot k).killed = false
  asked : ∀ k, (s.slot k).state ≠ .unused → (s.slot k).killed = true → (s.slot k).asked = true
  kill : ∀ p pid j since, (s.slot p).state.Live → (s.slot p).pc = .kill pid j since →
    s.Passed pid j since

/-- A step after which every process in the table is there already, or new. -/
structure Keeps (s s' : Ptable) : Prop where
  births : s.births ≤ s'.births
  slot : ∀ k, (s'.slot k).state ≠ .unused →
    (s.slot k).state ≠ .unused ∧ (s'.slot k).pid = (s.slot k).pid ∧
      (s'.slot k).birth = (s.slot k).birth ∨ s.births ≤ (s'.slot k).birth

theorem Passed.keep (h : s.Passed pid j since) (hk : Keeps s s') : s'.Passed pid j since where
  ne := h.ne
  le := Nat.le_trans h.le hk.births
  new k hkj hu hp := by
    rcases hk.slot k hu with ⟨hu, hp', hb⟩ | hb
    · rw [hb]
      exact h.new k hkj hu (hp' ▸ hp)
    · exact Nat.le_trans h.le hb

section

variable (hi : s.Marked)
include hi

/-- One entry changes, and its process moves. -/
theorem Marked.set {x : PtSlot} (hfree : x.state = .unused → x.pid = 0 ∧ x.killed = false)
    (hasked : x.state ≠ .unused → x.killed = true → x.asked = true) (hkeep : x.state ≠ .unused →
      (s.slot c).state ≠ .unused ∧ x.pid = (s.slot c).pid ∧ x.birth = (s.slot c).birth)
    (hkill : ∀ pid j since, x.state.Live → x.pc = .kill pid j since → s.Passed pid j since) :
    (s.set c x).Marked := by
  have hk : Keeps s (s.set c x) := by
    refine ⟨Nat.le_refl _, fun k hu => .inl ?_⟩
    rw [slot_set] at hu ⊢
    split_ifs at hu ⊢ with h
    · rw [h]
      exact hkeep hu
    · exact ⟨hu, rfl, rfl⟩
  constructor
  · intro k hu
    rw [slot_set] at hu ⊢
    split_ifs at hu ⊢
    · exact hfree hu
    · exact hi.free k hu
  · intro k hu
    rw [slot_set] at hu ⊢
    split_ifs at hu ⊢
    · exact hasked hu
    · exact hi.asked k hu
  · intro p pid j since hl hpc
    rw [slot_set] at hl hpc
    split_ifs at hl hpc
    · exact (hkill pid j since hl hpc).keep hk
    · exact (hi.kill p pid j since hl hpc).keep hk

/-- A process changes other fields than those `kill` reads and writes. -/
theorem Marked.restate {state : PtState} {parent : Option ℕ} {xstate : BitVec 32}
    (hu : (s.slot k).state ≠ .unused) (hst : state ≠ .unused)
    (hpc : ∀ pid j since, state.Live → pc = .kill pid j since → s.Passed pid j since) :
    (s.set k { s.slot k with state, parent, xstate, pc }).Marked :=
  hi.set (fun h => absurd h hst) (fun _ => hi.asked k hu) (fun _ => ⟨hu, rfl, rfl⟩) hpc

theorem Marked.goto
    (hpc : ∀ pid j since, pc = .kill pid j since → s.Passed pid j since) : (s.goto p pc).Marked :=
  hi.set (hi.free p) (hi.asked p) (fun h => ⟨h, rfl, rfl⟩) fun pid j since _ => hpc pid j since

/-- A process returns from `kill`. -/
theorem Marked.killRet {ret : ℤ} : (s.killRet p ret).Marked := by
  have hset : (s.set p { s.slot p with ret }).Marked :=
    hi.set (hi.free p) (hi.asked p) (fun h => ⟨h, rfl, rfl⟩) (hi.kill p)
  exact hset.goto fun _ _ _ h => by cases h

/-- Only the entries and the number of processes matter. -/
theorem Marked.congr (hs : s'.slot = s.slot) (hb : s'.births = s.births) : s'.Marked where
  free := by rw [hs]; exact hi.free
  asked := by rw [hs]; exact hi.asked
  kill p pid j since hl hpc := by
    rw [hs] at hl hpc
    obtain ⟨h1, h2, h3⟩ := hi.kill p pid j since hl hpc
    exact ⟨h1, hb ▸ h2, by rw [hs]; exact h3⟩

theorem Marked.claim (hu : (s.slot j).state = .unused) : (s.claim p j).Marked := by
  have hk : Keeps s (s.claim p j) := by
    refine ⟨Nat.le_succ _, fun k hku => ?_⟩
    simp only [Ptable.claim, slot_set] at hku ⊢
    split_ifs at hku ⊢
    · exact .inr (Nat.le_refl _)
    · exact .inl ⟨hku, rfl, rfl⟩
  constructor
  · intro k hku
    simp only [Ptable.claim, slot_set] at hku ⊢
    split_ifs at hku ⊢
    exact hi.free k hku
  · intro k hku hkk
    simp only [Ptable.claim, slot_set] at hku hkk ⊢
    split_ifs at hku hkk ⊢
    · -- the flag of a free entry is clear
      rw [(hi.free j hu).2] at hkk
      cases hkk
    · exact hi.asked k hku hkk
  · intro q pid i since hl hpc
    simp only [Ptable.claim, slot_set] at hl hpc
    split_ifs at hl hpc
    · exact hl.elim
    · exact (hi.kill q pid i since hl hpc).keep hk

theorem Marked.freeproc : (s.freeproc c).Marked :=
  hi.set (fun _ => ⟨rfl, rfl⟩) (fun h => absurd rfl h) (fun h => absurd rfl h) fun _ _ _ h => h.elim

/-- `kill` finds a process. -/
theorem Marked.hit (hu : (s.slot j).state ≠ .unused) : (s.hit j).Marked := by
  refine hi.set (fun h => ?_) (fun _ _ => if_neg hu) (fun _ => ⟨hu, rfl, rfl⟩)
    fun pid i since h hpc => hi.kill j pid i since ?_ hpc
  · dsimp only at h
    split_ifs at h
    exact absurd h hu
  · dsimp only at h
    split_ifs at h with hs
    · rw [hs]
      trivial
    · exact h

end

theorem Stepped.marked (h : Stepped np s p s') (hi : s.Marked) (hf : s.Family np)
    (hp : (s.slot p).state.Live) : s'.Marked := by
  have hat := hf.pos p hp
  have hpu : (s.slot p).state ≠ .unused := by
    intro h
    rw [h] at hp
    exact hp
  cases h with
  | skipUsed j hpc | noSlot j hpc | framed c hpc | copied c hpc | skipOther j status hpc hj
  | reparented j status hpc hj | scanned j havekids kid hpc hk =>
    exact hi.goto fun _ _ _ h => by cases h
  | exit status hpc hw | wait hpc hw | waitRet j havekids hpc =>
    exact (hi.goto fun _ _ _ h => by cases h).congr rfl rfl
  | claim j hpc hj hu => exact (hi.claim hu).goto fun _ _ _ h => by cases h
  | undo c hpc => exact hi.freeproc.goto fun _ _ _ h => by cases h
  | adopt c hpc hw =>
    rw [hpc] at hat
    have hcu : (s.slot c).state ≠ .unused := by
      rw [hat.1]
      exact fun h => by cases h
    have hset : (s.set c { s.slot c with parent := some p }).Marked :=
      hi.restate hcu hcu (hi.kill c)
    exact hset.goto fun _ _ _ h => by cases h
  | publish c hpc =>
    rw [hpc] at hat
    have hcu : (s.slot c).state ≠ .unused := by
      rw [hat.1]
      exact fun h => by cases h
    have hset : (s.set c { s.slot c with state := .runnable, pc := .user }).Marked :=
      hi.restate hcu (fun h => by cases h) fun _ _ _ _ h => by cases h
    exact hset.goto fun _ _ _ h => by cases h
  | reparent j status hpc hj =>
    have hju : (s.slot j).state ≠ .unused := by
      intro h
      rw [hf.unused j h] at hj
      cases hj
    have hset : (s.set j { s.slot j with parent := some 0 }).Marked :=
      hi.restate hju hju (hi.kill j)
    exact hset.goto fun _ _ _ h => by cases h
  | leave status hpc =>
    have hset : (s.set p { s.slot p with
        xstate := status, state := .zombie, pc := .sched }).Marked :=
      hi.restate hpu (fun h => by cases h) fun _ _ _ h => h.elim
    exact hset.congr rfl rfl
  | reap j havekids hpc hj hz =>
    have hmove : ((s.freeproc j).goto p .user).Marked := hi.freeproc.goto fun _ _ _ h => by cases h
    exact hmove.congr rfl rfl
  | waitSleep j havekids hpc =>
    have hset : (s.set p { s.slot p with state := .sleeping, pc := .wait }).Marked :=
      hi.restate hpu (fun h => by cases h) fun _ _ _ _ h => by cases h
    exact hset.congr rfl rfl
  | killMiss pid j since hpc hj =>
    obtain ⟨hne, hle, hnew⟩ := hi.kill p pid j since hp hpc
    refine hi.goto fun pid' j' since' h => ?_
    cases h
    refine ⟨hne, hle, fun k hk hu he => ?_⟩
    rcases Nat.lt_succ_iff_lt_or_eq.1 hk with h | rfl
    · exact hnew k h hu he
    · exact absurd he hj
  | killHit pid j since hpc hj =>
    have hju : (s.slot j).state ≠ .unused := by
      intro h
      rw [(hi.free j h).1] at hj
      exact (hi.kill p pid j since hp hpc).ne hj.symm
    exact (hi.hit hju).killRet
  | killNone pid j since hpc => exact hi.killRet

/-- One event of a run in which no call of `kill` has the argument 0. -/
theorem Marked.next {e : PtEvent} (hi : s.Marked) (hf : s.Family np) (hok : e.Ok np s)
    (hn : e.Named) : (e.next np s).Marked := by
  cases e with
  | call p c =>
    refine hi.goto fun pid j since h => ?_
    cases c with
    | kill pid' =>
      cases h
      exact ⟨hn, Nat.le_refl _, fun k hk => by omega⟩
    | fork | exit | wait => cases h
  | step p ok =>
    refine (step_stepped ok hok.2).marked hi hf ?_
    rw [hok.2.1]
    trivial
  | resched p state =>
    refine hi.restate ?_ ?_ fun pid j since _ => hi.kill p pid j since hok.2.1
    · intro h
      have := hok.2.1
      rw [h] at this
      exact this
    · intro h
      have := hok.2.2.1
      rw [h] at this
      exact this
  | fault p =>
    have hpu : (s.slot p).state ≠ .unused := by
      rw [hok.2.1]
      exact nofun
    exact hi.set (fun h => absurd h hpu) (fun _ _ => rfl) (fun h => ⟨h, rfl, rfl⟩) (hi.kill p)
  | switched p => exact hi.goto nofun

theorem start_marked : start.Marked := by
  have hslot : ∀ k ≠ 0, start.slot k = .empty := by
    intro k hk
    simp only [start, Function.update_of_ne hk]
  constructor
  · intro k hk
    rcases eq_or_ne k 0 with rfl | h0
    · cases hk
    · rw [hslot k h0]
      exact ⟨rfl, rfl⟩
  · intro k _ hk
    rcases eq_or_ne k 0 with rfl | h0
    · cases hk
    · rw [hslot k h0] at hk
      cases hk
  · intro p pid j since _ hpc
    rcases eq_or_ne p 0 with rfl | h0
    · cases hpc
    · rw [hslot p h0] at hpc
      cases hpc

theorem marked_of_reachable (h : ((ptable np).restrict fun e _ => e.Named).Reachable s) :
    s.Marked := by
  refine (h.invariant (I := fun s => s.Marked ∧ s.Family np) ?_ ?_).1
  · rintro s ⟨rfl, h⟩
    exact ⟨start_marked, start_family h⟩
  · rintro s e s' ⟨hi, hf⟩ ⟨⟨hok, hn⟩, hs⟩
    cases hs
    exact ⟨hi.next hf hok hn, hf.next hok⟩

/-! ### The main result -/

/-- What `kill` guarantees. -/
structure KillExact (np : ℕ) (s : Ptable) : Prop where
  /-- `kill` returns 0 at a process with that pid, and -1 if no process that has been there since
  the call was made has it. -/
  returns : ∀ p pid j since ok, (s.slot p).state = .running → (s.slot p).pc = .kill pid j since →
    j < np ∧ ((s.step np p ok).slot p).pc = .kill pid (j + 1) since ∨
    ((s.step np p ok).slot p).pc = .user ∧
      (((s.step np p ok).slot p).ret = 0 ∧ (s.slot j).state ≠ .unused ∧ (s.slot j).pid = pid ∨
        ((s.step np p ok).slot p).ret = -1 ∧ ∀ k, (s.slot k).state ≠ .unused →
          (s.slot k).pid = pid → since ≤ (s.slot k).birth)
  /-- A step of `kill` changes no process but the one it finds, apart from the position and the
  result of the caller. -/
  only : ∀ p pid j since ok, (s.slot p).pc = .kill pid j since →
    ∀ k, ¬ (k = j ∧ j < np ∧ (s.slot j).pid = pid) →
      ((s.step np p ok).slot k).rest = (s.slot k).rest
  /-- A process is marked only if `kill` was called with its pid since it was created, or it made a
  fault. -/
  asked : ∀ k, (s.slot k).state ≠ .unused → (s.slot k).killed = true → (s.slot k).asked = true
  /-- A new process is not marked. -/
  fresh : ∀ p j ok, (s.slot p).state = .running → (s.slot p).pc = .allocproc j → j < np →
    (s.slot j).state = .unused → ((s.step np p ok).slot j).killed = false

/-- A step of `kill` changes only the entry it has found. -/
theorem kill_only (ok : Bool) (hpc : (s.slot p).pc = .kill pid j since)
    (hk : ¬ (k = j ∧ j < np ∧ (s.slot j).pid = pid)) :
    ((s.step np p ok).slot k).rest = (s.slot k).rest := by
  have hgoto : ∀ (t : Ptable) (pc : PtPc), ((t.goto p pc).slot k).rest = (t.slot k).rest :=
    fun t pc => set_field PtSlot.rest (by rfl) k
  have hret : ∀ (t : Ptable) (ret : ℤ), ((t.killRet p ret).slot k).rest = (t.slot k).rest :=
    fun t ret => (hgoto ..).trans (set_field PtSlot.rest (by rfl) k)
  simp only [step, hpc]
  split_ifs with hj hp
  · rw [hret, hit, slot_set, if_neg fun h => hk ⟨h, hj, hp⟩]
  · exact hgoto ..
  · exact hret ..

theorem killRet_self (ret : ℤ) :
    (s.killRet p ret).slot p = { s.slot p with pc := .user, ret } := by
  simp only [killRet, goto, slot_set, if_true]

/-- **`kill` hits only its target**, in every run in which its argument is not 0. -/
theorem kill_exact (h : ((ptable np).restrict fun e _ => e.Named).Reachable s) :
    s.KillExact np := by
  have hi := marked_of_reachable h
  have hf := family_of_reachable h.of_restrict
  refine ⟨?_, fun p pid j since ok hpc k => kill_only ok hpc, hi.asked, ?_⟩
  · intro p pid j since ok hp hpc
    have hat := hi.kill p pid j since (by rw [hp]; trivial) hpc
    simp only [step, hpc]
    split_ifs with hj hpid
    · rw [killRet_self]
      refine .inr ⟨rfl, .inl ⟨rfl, fun hu => ?_, hpid⟩⟩
      rw [(hi.free j hu).1] at hpid
      exact hat.ne hpid.symm
    · exact .inl ⟨hj, goto_pc_self ..⟩
    · rw [killRet_self]
      refine .inr ⟨rfl, .inr ⟨rfl, fun k hk he => ?_⟩⟩
      have := hf.lt k hk
      exact hat.new k (by omega) hk he
  · intro p j ok hp hpc hj hu
    have hjp : j ≠ p := by
      rintro rfl
      rw [hu] at hp
      cases hp
    simp only [step, hpc, if_pos hj, if_pos hu, goto, claim, set_killed, if_neg hjp, if_true]
    exact (hi.free j hu).2

/-- A process has been killed by its pid, and a second `kill` has found no process. -/
theorem kill_exact_child : ∃ s, ((ptable 2).restrict fun e _ => e.Named).Reachable s ∧
    ((s.slot 1).killed = true ∧ (s.slot 1).pid = 2 ∧ (s.slot 0).ret = -1) ∧ s.KillExact 2 := by
  obtain ⟨s, hs, ht⟩ := Machine.Reachable.test (M := (ptable 2).restrict fun e _ => e.Named)
    (fun e s => of_decide_eq_true (p := e.Ok 2 s ∧ e.Named)) (.init ⟨rfl, by decide⟩)
    ([.resched 0 .running, .call 0 .fork] ++ List.replicate 6 (.step 0 true) ++
      [.call 0 (.kill 2), .step 0 true, .step 0 true, .call 0 (.kill 7)] ++
      List.replicate 3 (.step 0 true))
    (t := fun s => decide ((s.slot 1).killed = true ∧ (s.slot 1).pid = 2 ∧ (s.slot 0).ret = -1))
    (by decide +kernel)
  exact ⟨s, hs, of_decide_eq_true ht, kill_exact hs⟩

/-- `kill(0)`, then `fork`: the new process is marked though nobody asked for it. -/
theorem kill_zero : ∃ s, (ptable 64).Reachable s ∧ ¬ s.KillExact 64 := by
  obtain ⟨s, hs, ht⟩ := Machine.Reachable.test (M := ptable 64)
    (fun e s => of_decide_eq_true (p := e.Ok 64 s)) (.init ⟨rfl, by decide⟩)
    [.resched 0 .running, .call 0 (.kill 0), .step 0 true, .step 0 true,
      .call 0 .fork, .step 0 true, .step 0 true]
    (t := fun s => decide ((s.slot 1).state ≠ .unused ∧ (s.slot 1).killed = true ∧
      (s.slot 1).asked = false)) (by decide +kernel)
  obtain ⟨hu, hk, ha⟩ := of_decide_eq_true ht
  exact ⟨s, hs, fun h => by rw [h.asked 1 hu hk] at ha; cases ha⟩

end Ptable

end Xv6Swap
