import Mathlib.Tactic.SplitIfs
import Xv6Swap.Kernel.Ptable

/-!
# Parents and children

What holds of the process table in every run of `fork`, `exit`, `wait` and `kill`.

* `Ptable.Stepped`, `Ptable.step_stepped` : what one step of a process can do;
* `Ptable.At` : what a process can rely on at its position in the code.  A process in `fork` owns
  the entry of its child, one in `reparent` or in `wait` holds `wait_lock` and knows the parents of
  the entries it has passed;
* `Ptable.Family` : the parent of a process is always alive;
* `Ptable.family_of_reachable` : **this holds in every state reached.**

`fork` drops every lock between its steps.  What keeps the entry of the child from the others in
the meantime is its state `USED`, and that nobody is its parent until `fork` says so.
-/

namespace Xv6Swap

open Function PtSlot Ptable Option

namespace Ptable

variable {np p q c k j : ℕ} {s s' : Ptable} {pc : PtPc} {x : PtSlot} {status : BitVec 32}

theorem slot_set : (s.set k x).slot j = if j = k then x else s.slot j := by
  simp only [set, update_apply]

/-- An entry changes, but not what `f` reads of it. -/
theorem set_field {α : Type} (f : PtSlot → α) (hf : f x = f (s.slot k)) (q : ℕ) :
    f ((s.set k x).slot q) = f (s.slot q) := by
  rw [slot_set]
  split_ifs with h
  · rw [h, hf]
  · rfl

@[simp] theorem set_state :
    ((s.set k x).slot j).state = if j = k then x.state else (s.slot j).state := by
  rw [slot_set, apply_ite state]

@[simp] theorem set_pid : ((s.set k x).slot j).pid = if j = k then x.pid else (s.slot j).pid := by
  rw [slot_set, apply_ite pid]

@[simp] theorem set_parent :
    ((s.set k x).slot j).parent = if j = k then x.parent else (s.slot j).parent := by
  rw [slot_set, apply_ite parent]

@[simp] theorem set_killed :
    ((s.set k x).slot j).killed = if j = k then x.killed else (s.slot j).killed := by
  rw [slot_set, apply_ite killed]

@[simp] theorem set_xstate :
    ((s.set k x).slot j).xstate = if j = k then x.xstate else (s.slot j).xstate := by
  rw [slot_set, apply_ite xstate]

@[simp] theorem set_pc : ((s.set k x).slot j).pc = if j = k then x.pc else (s.slot j).pc := by
  rw [slot_set, apply_ite pc]

@[simp] theorem set_birth :
    ((s.set k x).slot j).birth = if j = k then x.birth else (s.slot j).birth := by
  rw [slot_set, apply_ite birth]

@[simp] theorem set_mother :
    ((s.set k x).slot j).mother = if j = k then x.mother else (s.slot j).mother := by
  rw [slot_set, apply_ite mother]

@[simp] theorem set_waitLock : (s.set k x).waitLock = s.waitLock := rfl

@[simp] theorem set_births : (s.set k x).births = s.births := rfl

@[simp] theorem set_exits : (s.set k x).exits = s.exits := rfl

@[simp] theorem set_reaps : (s.set k x).reaps = s.reaps := rfl

/-- What one step of a process can do. -/
inductive Stepped (np : ℕ) (s : Ptable) (p : ℕ) : Ptable → Prop where
  | skipUsed (j : ℕ) (hpc : (s.slot p).pc = .allocproc j) :
      Stepped np s p (s.goto p (.allocproc (j + 1)))
  | noSlot (j : ℕ) (hpc : (s.slot p).pc = .allocproc j) : Stepped np s p (s.goto p .user)
  | claim (j : ℕ) (hpc : (s.slot p).pc = .allocproc j) (hj : j < np)
      (hu : (s.slot j).state = .unused) : Stepped np s p ((s.claim p j).goto p (.frames j))
  | framed (c : ℕ) (hpc : (s.slot p).pc = .frames c) : Stepped np s p (s.goto p (.uvmcopy c))
  | copied (c : ℕ) (hpc : (s.slot p).pc = .uvmcopy c) : Stepped np s p (s.goto p (.adopt c))
  | undo (c : ℕ) (hpc : (s.slot p).pc = .frames c ∨ (s.slot p).pc = .uvmcopy c) :
      Stepped np s p ((s.freeproc c).goto p .user)
  | adopt (c : ℕ) (hpc : (s.slot p).pc = .adopt c) (hw : s.waitLock = none) :
      Stepped np s p ((s.set c { s.slot c with parent := some p }).goto p (.publish c))
  | publish (c : ℕ) (hpc : (s.slot p).pc = .publish c) :
      Stepped np s p ((s.set c { s.slot c with state := .runnable, pc := .user }).goto p .user)
  | exit (status : BitVec 32) (hpc : (s.slot p).pc = .exit status) (hw : s.waitLock = none) :
      Stepped np s p { s.goto p (.reparent 0 status) with waitLock := some p }
  | reparent (j : ℕ) (status : BitVec 32) (hpc : (s.slot p).pc = .reparent j status)
      (hj : (s.slot j).parent = some p) : Stepped np s p
        ((s.set j { s.slot j with parent := some 0 }).goto p (.reparent (j + 1) status))
  | skipOther (j : ℕ) (status : BitVec 32) (hpc : (s.slot p).pc = .reparent j status)
      (hj : (s.slot j).parent ≠ some p) : Stepped np s p (s.goto p (.reparent (j + 1) status))
  | reparented (j : ℕ) (status : BitVec 32) (hpc : (s.slot p).pc = .reparent j status)
      (hj : np ≤ j) : Stepped np s p (s.goto p (.leave status))
  | leave (status : BitVec 32) (hpc : (s.slot p).pc = .leave status) :
      Stepped np s p (s.leave p status)
  | wait (hpc : (s.slot p).pc = .wait) (hw : s.waitLock = none) :
      Stepped np s p { s.goto p (.scan 0 false) with waitLock := some p }
  | scanned (j : ℕ) (havekids kid : Bool) (hpc : (s.slot p).pc = .scan j havekids)
      (hk : kid = false → havekids = false ∧ (s.slot j).parent ≠ some p) :
      Stepped np s p (s.goto p (.scan (j + 1) kid))
  | reap (j : ℕ) (havekids : Bool) (hpc : (s.slot p).pc = .scan j havekids)
      (hj : (s.slot j).parent = some p) (hz : (s.slot j).state = .zombie) :
      Stepped np s p (s.reap p j)
  | waitRet (j : ℕ) (havekids : Bool) (hpc : (s.slot p).pc = .scan j havekids) :
      Stepped np s p (s.waitRet p)
  | waitSleep (j : ℕ) (havekids : Bool) (hpc : (s.slot p).pc = .scan j havekids) :
      Stepped np s p (s.waitSleep p)
  | killMiss (pid : BitVec 32) (j since : ℕ) (hpc : (s.slot p).pc = .kill pid j since)
      (hj : (s.slot j).pid ≠ pid) : Stepped np s p (s.goto p (.kill pid (j + 1) since))
  | killHit (pid : BitVec 32) (j since : ℕ) (hpc : (s.slot p).pc = .kill pid j since)
      (hj : (s.slot j).pid = pid) : Stepped np s p ((s.hit j).killRet p 0)
  | killNone (pid : BitVec 32) (j since : ℕ) (hpc : (s.slot p).pc = .kill pid j since) :
      Stepped np s p (s.killRet p (-1))

theorem step_stepped (ok : Bool) (hr : s.Ready np p) : Stepped np s p (s.step np p ok) := by
  obtain ⟨-, hf⟩ := hr
  cases hpc : (s.slot p).pc with
  | user => rw [hpc] at hf; exact hf.elim
  | sched => rw [hpc] at hf; exact hf.elim
  | gone => rw [hpc] at hf; exact hf.elim
  | allocproc j =>
    simp only [step, hpc]
    split_ifs with hj hu
    · exact .claim j hpc hj hu
    · exact .skipUsed j hpc
    · exact .noSlot j hpc
  | frames c =>
    simp only [step, hpc]
    split_ifs
    · exact .framed c hpc
    · exact .undo c (.inl hpc)
  | uvmcopy c =>
    simp only [step, hpc]
    split_ifs
    · exact .copied c hpc
    · exact .undo c (.inr hpc)
  | adopt c =>
    rw [hpc] at hf
    simp only [step, hpc]
    exact .adopt c hpc hf
  | publish c =>
    simp only [step, hpc]
    exact .publish c hpc
  | exit status =>
    rw [hpc] at hf
    simp only [step, hpc]
    exact .exit status hpc hf
  | reparent j status =>
    simp only [step, hpc]
    split_ifs with hj hp
    · exact .reparent j status hpc hp
    · exact .skipOther j status hpc hp
    · exact .reparented j status hpc (Nat.le_of_not_lt hj)
  | leave status =>
    simp only [step, hpc]
    exact .leave status hpc
  | wait =>
    rw [hpc] at hf
    simp only [step, hpc]
    exact .wait hpc hf
  | scan j havekids =>
    simp only [step, hpc, scan]
    split_ifs with hj hp hz <;> simp only
    · exact .reap j havekids hpc hp hz
    · exact .waitRet j havekids hpc
    · exact .scanned j havekids true hpc nofun
    · exact .scanned j havekids havekids hpc fun h => ⟨h, hp⟩
    · exact .waitRet j havekids hpc
    · exact .waitRet j havekids hpc
    · exact .waitSleep j havekids hpc
  | kill pid j since =>
    simp only [step, hpc]
    split_ifs with hj hp
    · exact .killHit pid j since hpc hp
    · exact .killMiss pid j since hpc hp
    · exact .killNone pid j since hpc

/-! ### Parents -/

/-- What a process at `pc` can rely on. -/
def At (s : Ptable) (p : ℕ) : PtPc → Prop
  | .frames c | .uvmcopy c | .adopt c => (s.slot c).state = .used ∧ (s.slot c).parent = none
  | .publish c => (s.slot c).state = .used ∧ (s.slot c).parent = some p
  | .exit _ => p ≠ 0
  | .reparent j _ => p ≠ 0 ∧ s.waitLock = some p ∧ ∀ k < j, (s.slot k).parent ≠ some p
  | .leave _ => p ≠ 0 ∧ s.waitLock = some p ∧ ∀ k, (s.slot k).parent ≠ some p
  | .scan j kid => s.waitLock = some p ∧ (kid = false → ∀ k < j, (s.slot k).parent ≠ some p)
  | _ => True

/-- The child of a process in `fork` is `USED`. -/
theorem At.used (h : s.At q pc) (hc : pc.child = some c) : (s.slot c).state = .used := by
  cases pc <;> cases hc <;> exact h.1

/-- The child of a process in `fork` has no parent or that one. -/
theorem At.parent_child (h : s.At q pc) (hc : pc.child = some c) :
    (s.slot c).parent = none ∨ (s.slot c).parent = some q := by
  cases pc <;> cases hc
  case frames | uvmcopy | adopt => exact .inl h.2
  case publish => exact .inr h.2

/-- A process keeps what it relies on if its child and its lock stay, and it gets no new child. -/
theorem At.mono (h : s.At q pc) (hc : ∀ c, pc.child = some c →
      (s'.slot c).state = (s.slot c).state ∧ (s'.slot c).parent = (s.slot c).parent)
    (hw : s.waitLock = some q → s'.waitLock = some q)
    (hp : ∀ k, s.waitLock = some q → (s'.slot k).parent = some q → (s.slot k).parent = some q) :
    s'.At q pc := by
  cases pc with
  | frames c | uvmcopy c | adopt c | publish c =>
    obtain ⟨h1, h2⟩ := hc c rfl
    exact ⟨h1.trans h.1, h2.trans h.2⟩
  | exit status => exact h
  | reparent j status => exact ⟨h.1, hw h.2.1, fun k hk e => h.2.2 k hk (hp k h.2.1 e)⟩
  | leave status => exact ⟨h.1, hw h.2.1, fun k e => h.2.2 k (hp k h.2.1 e)⟩
  | scan j kid => exact ⟨hw h.1, fun hk k hkj e => h.2 hk k hkj (hp k h.1 e)⟩
  | user | allocproc | sched | gone | wait | kill => trivial

/-- The parent of every process is there, and every process in a call has what it relies on. -/
structure Family (np : ℕ) (s : Ptable) : Prop where
  init : (s.slot 0).state.Live
  root : (s.slot 0).parent = none
  lt : ∀ k, (s.slot k).state ≠ .unused → k < np
  parent : ∀ k p, (s.slot k).parent = some p → (s.slot p).state.Live
  orphan : ∀ k, (s.slot k).parent = none →
    (s.slot k).state = .unused ∨ (s.slot k).state = .used ∨ k = 0
  unused : ∀ k, (s.slot k).state = .unused → (s.slot k).parent = none
  pos : ∀ p, (s.slot p).state.Live → s.At p (s.slot p).pc
  inj : ∀ p q c, (s.slot p).state.Live → (s.slot q).state.Live →
    (s.slot p).pc.child = some c → (s.slot q).pc.child = some c → p = q

/-- Two tables with the same states and parents. -/
structure Same (s s' : Ptable) : Prop where
  state : ∀ k, (s'.slot k).state = (s.slot k).state
  parent : ∀ k, (s'.slot k).parent = (s.slot k).parent

/-- A process moves in the code, and may take or give up `wait_lock`. -/
theorem Family.move (hi : s.Family np) (hs : Same s s')
    (hpc : ∀ k ≠ p, (s'.slot k).pc = (s.slot k).pc)
    (hw : ∀ q ≠ p, s.waitLock = some q → s'.waitLock = some q)
    (hat : (s.slot p).state.Live → s'.At p (s'.slot p).pc)
    (hc : ∀ q c, q ≠ p → (s.slot q).state.Live → (s'.slot p).pc.child = some c →
      (s.slot q).pc.child ≠ some c) : s'.Family np := by
  constructor
  · rw [hs.state]
    exact hi.init
  · rw [hs.parent]
    exact hi.root
  · intro k hk
    rw [hs.state] at hk
    exact hi.lt k hk
  · intro k q hk
    rw [hs.parent] at hk
    rw [hs.state]
    exact hi.parent k q hk
  · intro k hk
    rw [hs.parent] at hk
    rw [hs.state]
    exact hi.orphan k hk
  · intro k hk
    rw [hs.state] at hk
    rw [hs.parent]
    exact hi.unused k hk
  · intro q hq
    rw [hs.state] at hq
    rcases eq_or_ne q p with rfl | hqp
    · exact hat hq
    · rw [hpc q hqp]
      exact (hi.pos q hq).mono (fun c _ => ⟨hs.state c, hs.parent c⟩) (hw q hqp)
        fun k _ hk => by rwa [hs.parent] at hk
  · intro q r c hq hr h1 h2
    rw [hs.state] at hq hr
    rcases eq_or_ne q p with rfl | hqp
    · rcases eq_or_ne r q with rfl | hrq
      · rfl
      · rw [hpc r hrq] at h2
        exact absurd h2 (hc r c hrq hr h1)
    · rw [hpc q hqp] at h1
      rcases eq_or_ne r p with rfl | hrp
      · exact absurd h1 (hc q c hqp hq h2)
      · rw [hpc r hrp] at h2
        exact hi.inj q r c hq hr h1 h2

theorem same_goto (s : Ptable) (p : ℕ) (pc : PtPc) : Same s (s.goto p pc) := by
  constructor <;> intro k <;> simp only [goto, set_state, set_parent] <;> split_ifs with h <;>
    first | rw [h] | rfl

theorem goto_pc_self (s : Ptable) (p : ℕ) (pc : PtPc) : ((s.goto p pc).slot p).pc = pc := by
  simp only [goto, set_pc, if_true]

theorem goto_pc_ne (s : Ptable) (pc : PtPc) (h : k ≠ p) :
    ((s.goto p pc).slot k).pc = (s.slot k).pc := by
  simp only [goto, set_pc, if_neg h]

/-- A process moves to a place where it has no other child than before. -/
theorem Family.goto (hi : s.Family np) (hat : s.At p pc)
    (hc : ∀ q c, q ≠ p → (s.slot q).state.Live → pc.child = some c →
      (s.slot q).pc.child ≠ some c) : (s.goto p pc).Family np := by
  refine hi.move (same_goto s p pc) (fun k => goto_pc_ne s pc) (fun _ _ h => h) ?_ ?_
  · intro _
    rw [goto_pc_self]
    exact hat.mono (fun c _ => ⟨(same_goto s p pc).state c, (same_goto s p pc).parent c⟩)
      (fun h => h) fun k _ h => by rwa [(same_goto s p pc).parent] at h
  · rwa [goto_pc_self]

theorem Family.set (hi : s.Family np)
    (hroot : c = 0 → x.parent = none) (hlt : x.state ≠ .unused → c < np)
    (hlive : (s.slot c).state.Live → x.state.Live ∨ c ≠ 0 ∧ ∀ k, (s.slot k).parent ≠ some c)
    (hparent : ∀ q, x.parent = some q → (s.slot c).parent = some q ∨
      q ≠ c ∧ (s.slot q).state.Live ∧ s.waitLock ≠ some q)
    (horphan : x.parent = none → x.state = .unused ∨ x.state = .used ∨ c = 0)
    (hunused : x.state = .unused → x.parent = none)
    (hchild : ∀ q, (s.slot q).state.Live → (s.slot q).pc.child = some c →
      x.state = (s.slot c).state ∧ x.parent = (s.slot c).parent)
    (hpc : x.state.Live → (s.slot c).state.Live ∧ x.pc = (s.slot c).pc ∨ x.pc = .user) :
    (s.set c x).Family np := by
  -- whoever was relied upon to be alive still is
  have halive : ∀ k q, (s.slot k).parent = some q → ((s.set c x).slot q).state.Live := by
    intro k q hk
    rw [set_state]
    split_ifs with h
    · subst h
      rcases hlive (hi.parent k q hk) with h | ⟨-, h⟩
      · exact h
      · exact absurd hk (h k)
    · exact hi.parent k q hk
  have hpos : ∀ q, ((s.set c x).slot q).state.Live →
      ((s.set c x).slot q).pc = .user ∨
        (s.slot q).state.Live ∧ ((s.set c x).slot q).pc = (s.slot q).pc := by
    intro q hq
    rw [set_state] at hq
    rw [set_pc]
    split_ifs at hq ⊢ with h
    · subst h
      exact (hpc hq).symm
    · exact .inr ⟨hq, rfl⟩
  constructor
  · rw [set_state]
    split_ifs with h
    · subst h
      rcases hlive hi.init with h | ⟨h, -⟩
      · exact h
      · exact absurd rfl h
    · exact hi.init
  · rw [set_parent]
    split_ifs with h
    · exact hroot h.symm
    · exact hi.root
  · intro k hk
    rw [set_state] at hk
    split_ifs at hk with h
    · rw [h]
      exact hlt hk
    · exact hi.lt k hk
  · intro k q hk
    rw [set_parent] at hk
    split_ifs at hk with h
    · subst h
      rcases hparent q hk with h | ⟨hq, h, -⟩
      · exact halive _ q h
      · rwa [set_state, if_neg hq]
    · exact halive k q hk
  · intro k hk
    rw [set_parent] at hk
    rw [set_state]
    split_ifs at hk ⊢ with h
    · rw [h]
      exact horphan hk
    · exact hi.orphan k hk
  · intro k hk
    rw [set_state] at hk
    rw [set_parent]
    split_ifs at hk ⊢ with h
    · exact hunused hk
    · exact hi.unused k hk
  · intro q hq
    rcases hpos q hq with h | ⟨hl, h⟩
    · rw [h]
      trivial
    · rw [h]
      refine (hi.pos q hl).mono ?_ (fun h => h) ?_
      · intro d hd
        rw [set_state, set_parent]
        split_ifs with h
        · subst h
          exact hchild q hl hd
        · exact ⟨rfl, rfl⟩
      · intro k hw hk
        rw [set_parent] at hk
        split_ifs at hk with h
        · subst h
          rcases hparent q hk with h | ⟨-, -, h⟩
          · exact h
          · exact absurd hw h
        · exact hk
  · intro q r d hq hr h1 h2
    rcases hpos q hq with h | ⟨hq, h⟩
    · rw [h] at h1
      cases h1
    · rcases hpos r hr with h' | ⟨hr, h'⟩
      · rw [h'] at h2
        cases h2
      · rw [h] at h1
        rw [h'] at h2
        exact hi.inj q r d hq hr h1 h2

/-- A change of an entry before a process moves may be seen after it. -/
theorem set_goto (x : PtSlot) (pc pc' : PtPc) (h : c ≠ p) :
    (s.set c x).goto p pc = ((s.goto p pc').set c x).goto p pc := by
  simp only [goto, set, update_self, update_of_ne h.symm]
  congr 1
  funext k
  simp only [update_apply]
  split_ifs <;> rfl

theorem goto_slot_ne (s : Ptable) (pc : PtPc) (h : k ≠ p) : (s.goto p pc).slot k = s.slot k := by
  rw [goto, slot_set, if_neg h]

section

variable (hi : s.Family np)
include hi

/-- A process in `fork` returns to the place where it has no child. -/
theorem Family.quit : (s.goto p .user).Family np :=
  hi.goto trivial nofun

/-- The child of a process in `fork` is nobody's child after that process has moved on. -/
theorem Family.unclaimed (hp : (s.slot p).state.Live)
    (hc : (s.slot p).pc.child = some c) (hq : ((s.goto p .user).slot q).state.Live) :
    ((s.goto p .user).slot q).pc.child ≠ some c := by
  intro h
  rw [(same_goto s p .user).state] at hq
  rcases eq_or_ne q p with rfl | hqp
  · rw [goto_pc_self] at h
    cases h
  · rw [goto_pc_ne s _ hqp] at h
    exact hqp (hi.inj q p c hq hp h hc)

theorem Family.congr (hs : s'.slot = s.slot) (hw : s'.waitLock = s.waitLock) :
    s'.Family np := by
  refine hi.move (p := 0) ⟨fun k => by rw [hs], fun k => by rw [hs]⟩ (fun k _ => by rw [hs])
    (fun q _ h => by rw [hw, h]) ?_ ?_
  · intro h
    rw [hs]
    exact (hi.pos 0 h).mono (fun c _ => by rw [hs]; exact ⟨rfl, rfl⟩) (fun h => by rw [hw, h])
      fun k _ h => by rwa [hs] at h
  · intro q c hq hl h h'
    rw [hs] at h
    exact hq (hi.inj q 0 c hl hi.init h' h)

theorem Family.claim (hj : j < np)
    (hu : (s.slot j).state = .unused) : ((s.claim p j).goto p (.frames j)).Family np := by
  have hfree : ∀ q, (s.slot q).state.Live → (s.slot q).pc.child ≠ some j := by
    intro q hq h
    have := (hi.pos q hq).used h
    rw [hu] at this
    cases this
  have hparent := hi.unused j hu
  have hclaim : (s.claim p j).Family np := by
    refine (Family.set (c := j) (x := { s.slot j with
        pid := s.nextpid, state := .used
        birth := s.births, mother := (s.slot p).birth, asked := false }) hi
      (fun _ => hparent) (fun _ => hj) (fun h => ?_) (fun q h => ?_) (fun _ => .inr (.inl rfl))
        (fun h => ?_) (fun q hq h => absurd h (hfree q hq))
      (fun h => ?_)).congr rfl rfl
    · rw [hu] at h
      exact h.elim
    · exact .inl h
    · cases h
    · exact h.elim
  refine hclaim.goto ⟨?_, ?_⟩ ?_
  · simp only [Ptable.claim, set_state, if_true]
  · simp only [Ptable.claim, set_parent, if_true, hparent]
  · intro q c _ hq h h'
    cases h
    simp only [Ptable.claim, set_state, set_pc] at hq h'
    split_ifs at hq h' with hqj
    · exact hq
    · exact hfree q hq h'

/-- An entry that nobody is the child of, and that nobody in `fork` has, is freed. -/
theorem Family.freeproc (hc : ¬ (s.slot c).state.Live)
    (hfree : ∀ q, (s.slot q).state.Live → (s.slot q).pc.child ≠ some c) :
    (s.freeproc c).Family np :=
  hi.set (fun _ => rfl) (fun h => absurd rfl h) (fun h => absurd h hc) (fun q h => by cases h)
    (fun _ => .inl rfl) (fun _ => rfl) (fun q hq h => absurd h (hfree q hq)) (fun h => h.elim)

theorem Family.undo (hp : (s.slot p).state.Live)
    (hc : (s.slot p).pc.child = some c) : ((s.freeproc c).goto p .user).Family np := by
  have hused := (hi.pos p hp).used hc
  have hcp : c ≠ p := by
    rintro rfl
    rw [hused] at hp
    exact hp
  have h : ((s.goto p .user).freeproc c).Family np := by
    refine hi.quit.freeproc ?_ fun q hq => hi.unclaimed hp hc hq
    rw [(same_goto s p .user).state, hused]
    exact fun h => h
  have e : (s.freeproc c).goto p .user = ((s.goto p .user).freeproc c).goto p .user := by
    rw [Ptable.freeproc, set_goto _ .user .user hcp, Ptable.freeproc, goto_slot_ne s .user hcp]
  rw [e]
  exact h.quit

/-- The child of a process in `fork`, while that process moves on, becomes a process of its own. -/
theorem Family.grow
    (hp : (s.slot p).state.Live) (hc : (s.slot p).pc.child = some c)
    (hw : (s.slot c).parent = some p ∨ s.waitLock ≠ some p) (hx : x.parent = some p)
    (hst : x.state = .used ∨ x.state = .runnable ∧ x.pc = .user)
    (hpc : pc = .user ∨ pc = .publish c ∧ x.state = .used) : ((s.set c x).goto p pc).Family np := by
  have hused := (hi.pos p hp).used hc
  have hcp : c ≠ p := by
    rintro rfl
    rw [hused] at hp
    exact hp
  have hset : ((s.goto p .user).set c x).Family np := by
    refine hi.quit.set (fun h => ?_) (fun _ => hi.lt c ?_) (fun h => ?_) (fun q h => ?_)
      (fun h => ?_) (fun h => ?_) (fun q hq h => absurd h (hi.unclaimed hp hc hq))
        (fun h => .inr ?_)
    · have h0 := hi.init
      rw [← h, hused] at h0
      exact h0.elim
    · rw [hused]
      exact nofun
    · rw [(same_goto s p .user).state, hused] at h
      exact h.elim
    · obtain rfl : p = q := by
        rw [hx] at h
        cases h
        rfl
      rw [(same_goto s p .user).state, (same_goto s p .user).parent]
      exact hw.imp_right fun hw => ⟨hcp.symm, hp, hw⟩
    · rw [hx] at h
      cases h
    · rcases hst with h' | ⟨h', -⟩ <;> rw [h'] at h <;> cases h
    · rcases hst with h' | ⟨-, h'⟩
      · rw [h'] at h
        exact h.elim
      · exact h'
  rw [set_goto x pc .user hcp]
  rcases hpc with rfl | ⟨rfl, hxu⟩
  · exact hset.quit
  · refine hset.goto ⟨?_, ?_⟩ ?_
    · rw [set_state, if_pos rfl, hxu]
    · rw [set_parent, if_pos rfl, hx]
    · intro q d hq hl h h'
      cases h
      rw [set_state] at hl
      rw [set_pc] at h'
      split_ifs at hl h' with hqc
      · rw [hxu] at hl
        exact hl
      · exact hi.unclaimed hp hc hl h'

theorem Family.reparent
    (hp : (s.slot p).state.Live) (hpc : (s.slot p).pc = .reparent j status)
    (hj : (s.slot j).parent = some p) :
    ((s.set j { s.slot j with parent := some 0 }).goto p (.reparent (j + 1) status)).Family np := by
  have hat := hi.pos p hp
  rw [hpc] at hat
  obtain ⟨hp0, hw, hall⟩ := hat
  have hj0 : j ≠ 0 := by
    rintro rfl
    rw [hi.root] at hj
    cases hj
  have hset : (s.set j { s.slot j with parent := some 0 }).Family np := by
    refine hi.set (fun h => absurd h hj0) (hi.lt j) (fun h => .inl h) (fun q h => ?_)
      nofun (fun h => ?_) (fun q hq h => ?_) (fun h => .inl ⟨h, rfl⟩)
    · cases h
      exact .inr ⟨hj0.symm, hi.init, fun h => by rw [hw] at h; exact hp0 (some.inj h)⟩
    · rw [hi.unused j h] at hj
      cases hj
    · rcases (hi.pos q hq).parent_child h with h' | h' <;> rw [hj] at h' <;> cases h'
      rw [hpc] at h
      cases h
  refine hset.goto ⟨hp0, hw, fun k hk => ?_⟩ nofun
  rw [set_parent]
  split_ifs with h
  · exact fun e => hp0 (some.inj e).symm
  · exact hall k (by omega)

theorem Family.leave
    (hp : (s.slot p).state.Live) (hpc : (s.slot p).pc = .leave status) :
    (s.leave p status).Family np := by
  have hat := hi.pos p hp
  rw [hpc] at hat
  obtain ⟨hp0, hw, hall⟩ := hat
  have hset : (s.set p { s.slot p with xstate := status, state := .zombie, pc := .sched }).Family
      np := by
    refine hi.set (fun h => absurd h hp0) (fun _ => hi.lt p fun h => ?_) (fun _ => .inr ⟨hp0, hall⟩)
      (fun q h => .inl h) (fun h => ?_) nofun (fun q hq h => ?_) (fun h => h.elim)
    · rw [h] at hp
      exact hp
    · rcases hi.orphan p h with h | h | h
      · rw [h] at hp
        exact hp.elim
      · rw [h] at hp
        exact hp.elim
      · exact absurd h hp0
    · rw [(hi.pos q hq).used h] at hp
      exact hp.elim
  refine hset.move (p := p) ⟨fun _ => rfl, fun _ => rfl⟩ (fun _ _ => rfl) ?_ ?_ ?_
  · intro q hq h
    rw [set_waitLock, hw] at h
    exact absurd (some.inj h).symm hq
  · intro h
    rw [set_state, if_pos rfl] at h
    exact h.elim
  · intro q c _ _ h
    simp only [Ptable.leave, set_pc, if_true] at h
    cases h

/-- A process returns from `wait`, or goes to sleep in it, and gives up the lock. -/
theorem Family.release (hw : s.waitLock = some p)
    (hpc : pc = .user ∨ pc = .wait) : { s.goto p pc with waitLock := none }.Family np := by
  refine hi.move (p := p)
    ⟨(same_goto s p pc).state, (same_goto s p pc).parent⟩ (fun k => goto_pc_ne s pc) ?_ ?_ ?_
  · intro q hq h
    rw [hw] at h
    exact absurd (some.inj h).symm hq
  · intro _
    rw [goto_pc_self]
    rcases hpc with rfl | rfl <;> trivial
  · intro q c _ _ h
    rw [goto_pc_self] at h
    rcases hpc with rfl | rfl <;> cases h

/-- A process enters `exit` or `wait`, and takes the lock. -/
theorem Family.acquire (hw : s.waitLock = none)
    (hpc : (∃ status, pc = .reparent 0 status ∧ p ≠ 0) ∨ pc = .scan 0 false) :
    { s.goto p pc with waitLock := some p }.Family np := by
  refine hi.move (p := p)
    ⟨(same_goto s p pc).state, (same_goto s p pc).parent⟩ (fun k => goto_pc_ne s pc) ?_ ?_ ?_
  · intro q hq h
    rw [hw] at h
    cases h
  · intro _
    rw [goto_pc_self]
    rcases hpc with ⟨status, rfl, hp⟩ | rfl
    · exact ⟨hp, rfl, fun k hk => by omega⟩
    · exact ⟨rfl, fun _ k hk => by omega⟩
  · intro q c _ _ h
    rw [goto_pc_self] at h
    rcases hpc with ⟨status, rfl, -⟩ | rfl <;> cases h

/-- The state of a process changes between `SLEEPING`, `RUNNABLE` and `RUNNING`. -/
theorem Family.restate
    (hst : x.state = (s.slot k).state ∨ (s.slot k).state.Live ∧ x.state.Live)
    (hparent : x.parent = (s.slot k).parent) (hpc : x.pc = (s.slot k).pc) :
    (s.set k x).Family np := by
  have hne : x.state ≠ .unused → (s.slot k).state ≠ .unused := by
    rcases hst with h | ⟨h, -⟩
    · rw [h]
      exact fun h => h
    · intro _ h'
      rw [h'] at h
      exact h
  refine hi.set (fun h => ?_) (fun h => hi.lt k (hne h)) (fun h => .inl ?_)
    (fun q h => .inl (hparent ▸ h)) (fun h => ?_) (fun h => ?_) (fun q hq h => ⟨?_, hparent⟩)
    (fun h => .inl ⟨?_, hpc⟩)
  · rw [hparent, h]
    exact hi.root
  · rcases hst with h' | ⟨-, h'⟩
    · rwa [h']
    · exact h'
  · have := hi.orphan k (hparent ▸ h)
    rcases hst with h' | ⟨h', -⟩
    · rwa [h']
    · rcases this with e | e | e
      · rw [e] at h'
        exact h'.elim
      · rw [e] at h'
        exact h'.elim
      · exact .inr (.inr e)
  · rcases hst with h' | ⟨-, h'⟩
    · rw [hparent]
      exact hi.unused k (h' ▸ h)
    · rw [h] at h'
      exact h'.elim
  · rcases hst with h' | ⟨h', -⟩
    · exact h'
    · rw [(hi.pos q hq).used h] at h'
      exact h'.elim
  · rcases hst with h' | ⟨h', -⟩
    · rwa [← h']
    · exact h'

/-- A process returns from `kill`. -/
theorem Family.killRet (ret : ℤ) : (s.killRet p ret).Family np := by
  have hset : (s.set p { s.slot p with ret }).Family np := hi.restate (.inl rfl) rfl rfl
  exact hset.quit

end

theorem Stepped.family (h : Stepped np s p s') (hi : s.Family np)
    (hp : (s.slot p).state.Live) : s'.Family np := by
  have hat := hi.pos p hp
  cases h with
  | skipUsed j hpc => exact hi.goto trivial nofun
  | noSlot j hpc => exact hi.quit
  | claim j hpc hj hu => exact hi.claim hj hu
  | framed c hpc =>
    rw [hpc] at hat
    refine hi.goto hat fun q d hq hl h h' => hq (hi.inj q p d hl hp h' ?_)
    rw [hpc]
    exact h
  | copied c hpc =>
    rw [hpc] at hat
    refine hi.goto hat fun q d hq hl h h' => hq (hi.inj q p d hl hp h' ?_)
    rw [hpc]
    exact h
  | undo c hpc =>
    refine hi.undo hp ?_
    rcases hpc with h | h <;> rw [h] <;> rfl
  | adopt c hpc hw =>
    rw [hpc] at hat
    exact hi.grow hp (by rw [hpc]; rfl) (.inr (by rw [hw]; exact nofun)) rfl
      (.inl hat.1) (.inr ⟨rfl, hat.1⟩)
  | publish c hpc =>
    rw [hpc] at hat
    exact hi.grow hp (by rw [hpc]; rfl) (.inl hat.2) hat.2 (.inr ⟨rfl, rfl⟩) (.inl rfl)
  | exit status hpc hw =>
    rw [hpc] at hat
    exact hi.acquire hw (.inl ⟨status, rfl, hat⟩)
  | reparent j status hpc hj => exact hi.reparent hp hpc hj
  | skipOther j status hpc hj =>
    rw [hpc] at hat
    refine hi.goto ⟨hat.1, hat.2.1, fun k hk => ?_⟩ nofun
    rcases Nat.lt_succ_iff_lt_or_eq.1 hk with h | rfl
    · exact hat.2.2 k h
    · exact hj
  | reparented j status hpc hj =>
    rw [hpc] at hat
    refine hi.goto ⟨hat.1, hat.2.1, fun k e => ?_⟩ nofun
    rcases Nat.lt_or_ge k j with h | h
    · exact hat.2.2 k h e
    · have hu : (s.slot k).state = .unused := by
        by_contra hu
        have := hi.lt k hu
        omega
      rw [hi.unused k hu] at e
      cases e
  | leave status hpc => exact hi.leave hp hpc
  | wait hpc hw => exact hi.acquire hw (.inr rfl)
  | scanned j havekids kid hpc hk =>
    rw [hpc] at hat
    refine hi.goto ⟨hat.1, fun h k hkj => ?_⟩ nofun
    rcases Nat.lt_succ_iff_lt_or_eq.1 hkj with h' | rfl
    · exact hat.2 (hk h).1 k h'
    · exact (hk h).2
  | reap j havekids hpc hj hz =>
    rw [hpc] at hat
    have hfree : (s.freeproc j).Family np := by
      refine hi.freeproc (by rw [hz]; exact fun h => h) fun q hq h => ?_
      have := (hi.pos q hq).used h
      rw [hz] at this
      cases this
    have hrel : ((s.freeproc j).waitRet p).Family np := hfree.release hat.1 (.inl rfl)
    exact hrel.congr rfl rfl
  | waitRet j havekids hpc =>
    rw [hpc] at hat
    exact hi.release hat.1 (.inl rfl)
  | waitSleep j havekids hpc =>
    rw [hpc] at hat
    have h := hi.restate (k := p) (x := { s.slot p with state := .sleeping }) (.inr ⟨hp, trivial⟩)
      rfl rfl
    have hrel : { (s.set p { s.slot p with state := .sleeping }).goto p .wait with
        waitLock := none }.Family np := h.release hat.1 (.inr rfl)
    refine hrel.congr ?_ rfl
    simp only [Ptable.waitSleep, Ptable.goto, Ptable.set, update_self, update_idem]
  | killMiss pid j since hpc hj => exact hi.goto trivial nofun
  | killHit pid j since hpc hj =>
    have hhit : (s.hit j).Family np := by
      refine hi.restate ?_ rfl rfl
      dsimp only
      by_cases h : (s.slot j).state = .sleeping
      · rw [if_pos h, h]
        exact .inr ⟨trivial, trivial⟩
      · rw [if_neg h]
        exact .inl rfl
    exact hhit.killRet 0
  | killNone pid j since hpc => exact hi.killRet (-1)

theorem Family.next {e : PtEvent} (hi : s.Family np) (hok : e.Ok np s) :
    (e.next np s).Family np := by
  cases e with
  | call p c =>
    obtain ⟨-, -, hpc, hc⟩ := hok
    refine hi.goto ?_ fun _ _ _ _ h => by cases c <;> cases h
    cases c with
    | exit status => exact hc
    | fork | wait | kill => trivial
  | step p ok =>
    refine (step_stepped ok hok.2).family hi ?_
    rw [hok.2.1]
    trivial
  | resched p state => exact hi.restate (.inr ⟨hok.2.1, hok.2.2.1⟩) rfl rfl
  | fault p => exact hi.restate (.inl rfl) rfl rfl
  | switched p => exact hi.goto trivial nofun

theorem start_family (h : 0 < np) : start.Family np := by
  have hslot : ∀ k ≠ 0, start.slot k = .empty := by
    intro k hk
    simp only [start, update_of_ne hk]
  constructor
  · trivial
  · rfl
  · intro k hk
    rcases eq_or_ne k 0 with rfl | h0
    · exact h
    · rw [hslot k h0] at hk
      exact absurd rfl hk
  · intro k p hk
    rcases eq_or_ne k 0 with rfl | h0
    · cases hk
    · rw [hslot k h0] at hk
      cases hk
  · intro k _
    rcases eq_or_ne k 0 with rfl | h0
    · exact .inr (.inr rfl)
    · exact .inl (by rw [hslot k h0]; rfl)
  · intro k hk
    rcases eq_or_ne k 0 with rfl | h0
    · cases hk
    · rw [hslot k h0]
      rfl
  · intro p hp
    rcases eq_or_ne p 0 with rfl | h0
    · trivial
    · rw [hslot p h0] at hp
      exact hp.elim
  · intro p q c hp hq _ _
    have hz : ∀ r, (start.slot r).state.Live → r = 0 := by
      intro r hr
      by_contra h0
      rw [hslot r h0] at hr
      exact hr
    rw [hz p hp, hz q hq]

theorem family_of_reachable (h : (ptable np).Reachable s) : s.Family np := by
  refine h.invariant ?_ ?_
  · rintro s ⟨rfl, h⟩
    exact start_family h
  · rintro s e s' hi ⟨hok, hs⟩
    cases hs
    exact hi.next hok

end Ptable

end Xv6Swap
