import Xv6Swap.Lib.Machine
import Mathlib.Logic.Function.Basic
import Mathlib.Tactic.Common

/-!
# Monitors with sleep and wakeup

Processes that share data under a spinlock.  A process that finds that it has to wait goes to sleep
on a channel: it takes its own process lock, gives up the spinlock, marks itself as sleeping and is
switched out.  A process that changes the data wakes the sleepers of a channel: it visits all
processes in turn, taking the process lock of each.  Code outside of the monitor may hold a process
lock at any time, and may wake a process from any sleep.  Every operation on a lock is a step of its
own, and the steps of the processes come in any order.

* `Monitor` : the code of the processes, one piece for each stretch with the spinlock held;
* `Monitor.step`, `Monitor.machine` : a step of a process, and the runs;
* `Monitor.Move` : what can happen in a step;
* `Monitor.Atom` : the effect of a step on the shared data and the points of the processes, each
  piece of code at once;
* `Monitor.keeps_of_reachable` : **an invariant of the atomic pieces is an invariant of the runs**;
* `Monitor.alert_of_reachable` : **no wakeup is lost**, if a piece of code goes to sleep only on a
  channel that is blocked, and one that unblocks a channel wakes it.
-/

namespace Xv6Swap

open Function Option Run

/-- How a piece of code that runs with the lock held ends. -/
inductive Monitor.Act (σ L C ε : Type) where
  /-- Sleep on a channel, then go on at `l`. -/
  | sleep (c : C) (l : L)
  /-- Having changed the data to `t`, wake the sleepers of a channel, then go on at `l`. -/
  | wake (c : C) (t : σ) (l : L)
  /-- Having changed the data to `t`, give up the lock. -/
  | leave (t : σ) (l : L)
  | panic (e : ε)

/-- The code of the processes: `σ` are the shared data, `L` the points in the code, `C` the
channels and `α` the calls. -/
structure Monitor (σ L C α ε : Type) where
  /-- The point with which a call enters the monitor, from a point outside. -/
  call : α → L → Option L
  /-- The piece of code at a point inside, for a process. -/
  body : ℕ → L → σ → Monitor.Act σ L C ε
  /-- The piece of code at a point outside, which runs without the lock. -/
  outside : ℕ → L → σ → Option (σ × L)

namespace Monitor

variable {σ L C α ε : Type} {j r : ℕ} {l : L}

/-- The position of a process. -/
inductive Pc (L C : Type) where
  /-- Outside. -/
  | out (l : L)
  /-- About to take the lock. -/
  | enter (l : L)
  /-- With the lock held. -/
  | inside (l : L)
  /-- About to give up the lock. -/
  | leaving (l : L)
  /-- In `sleep`, about to take its process lock. -/
  | toSleep (c : C) (l : L)
  /-- In `sleep` with both locks, about to give up the lock. -/
  | toDrop (c : C) (l : L)
  /-- In `sleep`, past giving up the lock. -/
  | committed (c : C) (l : L)
  /-- In `sleep`, marked as sleeping, before the switch gives up its process lock. -/
  | switching (l : L)
  /-- Switched out. -/
  | asleep (l : L)
  /-- In `sleep`, running again with its process lock held. -/
  | resumed (l : L)
  /-- In `wakeup`, before the process `j`. -/
  | waking (c : C) (j : ℕ) (l : L)
  /-- In `wakeup`, with the process lock of `j` held. -/
  | testing (c : C) (j : ℕ) (l : L)
  deriving DecidableEq

namespace Pc

/-- The point in the code where the process is or goes on. -/
def point : Pc L C → L
  | out l | enter l | inside l | leaving l | toSleep _ l | toDrop _ l | committed _ l
  | switching l | asleep l | resumed l | waking _ _ l | testing _ _ l => l

/-- The process holds the lock. -/
def Holds : Pc L C → Prop
  | inside _ | leaving _ | toSleep _ _ | toDrop _ _ | waking _ _ _ | testing _ _ _ => True
  | _ => False

/-- The process holds its process lock. -/
def HoldsOwn : Pc L C → Prop
  | toDrop _ _ | committed _ _ | switching _ | resumed _ => True
  | _ => False

/-- The process has marked itself as sleeping, and has not gone on since. -/
def Down : Pc L C → Prop
  | switching _ | asleep _ => True
  | _ => False

/-- The process is on its way into a sleep on the channel and has the lock. -/
def Dozes (c : C) : Pc L C → Prop
  | toSleep c' _ | toDrop c' _ => c' = c
  | _ => False

/-- The process is waking the sleepers of the channel and has not come past `q`. -/
def Wakes (c : C) (q : ℕ) : Pc L C → Prop
  | waking c' j _ | testing c' j _ => c' = c ∧ j ≤ q
  | _ => False

end Pc

/-- A process: its position, whether it is sleeping, and its channel. -/
structure Proc (L C : Type) where
  pc : Pc L C
  sleeping : Bool
  chan : Option C
  deriving DecidableEq

/-- The process sleeps on the channel or is committed to it. -/
def Proc.Waits (x : Proc L C) (c : C) : Prop :=
  (∃ l, x.pc = .committed c l) ∨ (x.sleeping = true ∧ x.chan = some c)

/-- The shared data, the lock with its holder, the processes and their process locks.  The holder
of a process lock is a process of the monitor or, as `none`, code outside of it. -/
structure State (σ L C : Type) where
  shared : σ
  lock : Option ℕ
  proc : ℕ → Proc L C
  plock : ℕ → Option (Option ℕ)

namespace State

/-- Change a process. -/
def setProc (s : State σ L C) (p : ℕ) (x : Proc L C) : State σ L C :=
  { s with proc := update s.proc p x }

/-- Move a process in the code. -/
def goto (s : State σ L C) (p : ℕ) (pc : Pc L C) : State σ L C := s.setProc p { s.proc p with pc }

/-- Change a process lock. -/
def setLock (s : State σ L C) (q : ℕ) (h : Option (Option ℕ)) : State σ L C :=
  { s with plock := update s.plock q h }

/-- Wake a process. -/
def rouse (s : State σ L C) (q : ℕ) : State σ L C :=
  s.setProc q { s.proc q with sleeping := false }

/-- The points of the processes. -/
def points (s : State σ L C) (p : ℕ) : L := (s.proc p).pc.point

end State

section

variable [DecidableEq C]

/-- The next step of the process `p`, in a table of `np` processes. -/
def step (M : Monitor σ L C α ε) (np p : ℕ) : Run (State σ L C) ε Unit := ⟨fun s =>
  match (s.proc p).pc with
  | .out l => match M.outside p l s.shared with
    | some (t, l) => .ok ((), { s.goto p (.out l) with shared := t })
    | none => .ok ((), s)
  | .enter l => .ok ((), { s.goto p (.inside l) with lock := some p })
  | .inside l => match M.body p l s.shared with
    | .sleep c l => .ok ((), s.goto p (.toSleep c l))
    | .wake c t l => .ok ((), { s.goto p (.waking c 0 l) with shared := t })
    | .leave t l => .ok ((), { s.goto p (.leaving l) with shared := t })
    | .panic e => .error e
  | .leaving l => .ok ((), { s.goto p (.out l) with lock := none })
  | .toSleep c l => .ok ((), (s.goto p (.toDrop c l)).setLock p (some (some p)))
  | .toDrop c l => .ok ((), { s.goto p (.committed c l) with lock := none })
  | .committed c l => .ok ((), s.setProc p ⟨.switching l, true, some c⟩)
  | .switching l => .ok ((), (s.goto p (.asleep l)).setLock p none)
  | .asleep l => .ok ((), (s.goto p (.resumed l)).setLock p (some (some p)))
  | .resumed l =>
    .ok ((), (s.setProc p { s.proc p with pc := .enter l, chan := none }).setLock p none)
  | .waking c j l =>
    if j < np then
      if j = p then .ok ((), s.goto p (.waking c (j + 1) l))
      else .ok ((), (s.goto p (.testing c j l)).setLock j (some (some p)))
    else .ok ((), s.goto p (.inside l))
  | .testing c j l =>
    let s := if (s.proc j).sleeping ∧ (s.proc j).chan = some c then s.rouse j else s
    .ok ((), (s.goto p (.waking c (j + 1) l)).setLock j none)⟩

/-- The process can take its step: the lock that it needs is free, and it is not sleeping. -/
def Ready (M : Monitor σ L C α ε) (np : ℕ) (s : State σ L C) (p : ℕ) : Prop :=
  match (s.proc p).pc with
  | .out l => (M.outside p l s.shared).isSome
  | .enter _ => s.lock = none
  | .toSleep _ _ => s.plock p = none
  | .asleep _ => (s.proc p).sleeping = false ∧ s.plock p = none
  | .waking _ j _ => j < np → j ≠ p → s.plock j = none
  | _ => True

instance (M : Monitor σ L C α ε) (np : ℕ) (s : State σ L C) (p : ℕ) :
    Decidable (M.Ready np s p) := by
  unfold Ready
  split <;> infer_instance

/-- What can happen. -/
inductive Event (α : Type) where
  /-- A process makes a call. -/
  | call (p : ℕ) (a : α)
  /-- A process takes its next step. -/
  | step (p : ℕ)
  /-- Code outside of the monitor takes a process lock, -/
  | take (q : ℕ)
  /-- wakes the process, -/
  | kill (q : ℕ)
  /-- gives the process lock up again. -/
  | drop (q : ℕ)
  deriving DecidableEq

namespace Event

/-- The point with which the call of a process would enter. -/
def entry (M : Monitor σ L C α ε) (s : State σ L C) (p : ℕ) (a : α) : Option L :=
  match (s.proc p).pc with
  | .out l => M.call a l
  | _ => none

/-- When it can happen. -/
def Ok (M : Monitor σ L C α ε) (np : ℕ) : Event α → State σ L C → Prop
  | call p a, s => p < np ∧ (entry M s p a).isSome
  | step p, s => p < np ∧ M.Ready np s p
  | take q, s => s.plock q = none
  | kill q, s | drop q, s => s.plock q = some none

instance (M : Monitor σ L C α ε) (np : ℕ) (e : Event α) (s : State σ L C) :
    Decidable (e.Ok M np s) := by
  cases e <;> unfold Ok <;> infer_instance

/-- Its effect. -/
def run (M : Monitor σ L C α ε) (np : ℕ) : Event α → Run (State σ L C) ε Unit
  | call p a => modify fun s => match entry M s p a with
    | some l => s.goto p (.enter l)
    | none => s
  | step p => M.step np p
  | take q => modify fun s => s.setLock q (some none)
  | kill q => modify fun s => s.rouse q
  | drop q => modify fun s => s.setLock q none

end Event

/-- No process is in the monitor, and no lock is held. -/
structure Start (init : σ → (ℕ → L) → Prop) (s : State σ L C) : Prop where
  init : init s.shared s.points
  lock : s.lock = none
  out : ∀ p, ∃ l, (s.proc p).pc = .out l
  awake : ∀ p, (s.proc p).sleeping = false
  plock : ∀ p, s.plock p = none

/-- The runs of the processes of a table of size `np`. -/
def machine (M : Monitor σ L C α ε) (np : ℕ) (init : σ → (ℕ → L) → Prop) :
    Machine (State σ L C) ε (Event α) where
  init := Start init
  guard := Event.Ok M np
  prog := Event.run M np

end

/-! ### What can happen in a step -/

/-- The moves of the processes, with their guards. -/
inductive Move (M : Monitor σ L C α ε) (np : ℕ) (s : State σ L C) : State σ L C → Prop where
  | call {p : ℕ} {a : α} {l l' : L} (hp : p < np) (h : (s.proc p).pc = .out l)
    (hc : M.call a l = some l') : Move M np s (s.goto p (.enter l'))
  | outside {p : ℕ} {l l' : L} {t : σ} (hp : p < np) (h : (s.proc p).pc = .out l)
    (hc : M.outside p l s.shared = some (t, l')) :
    Move M np s { s.goto p (.out l') with shared := t }
  | enter {p : ℕ} {l : L} (hp : p < np) (h : (s.proc p).pc = .enter l) (hl : s.lock = none) :
    Move M np s { s.goto p (.inside l) with lock := some p }
  | sleep {p : ℕ} {c : C} {l l' : L} (hp : p < np) (h : (s.proc p).pc = .inside l)
    (hb : M.body p l s.shared = .sleep c l') : Move M np s (s.goto p (.toSleep c l'))
  | wake {p : ℕ} {c : C} {t : σ} {l l' : L} (hp : p < np) (h : (s.proc p).pc = .inside l)
    (hb : M.body p l s.shared = .wake c t l') :
    Move M np s { s.goto p (.waking c 0 l') with shared := t }
  | leave {p : ℕ} {t : σ} {l l' : L} (hp : p < np) (h : (s.proc p).pc = .inside l)
    (hb : M.body p l s.shared = .leave t l') :
    Move M np s { s.goto p (.leaving l') with shared := t }
  | left {p : ℕ} {l : L} (hp : p < np) (h : (s.proc p).pc = .leaving l) :
    Move M np s { s.goto p (.out l) with lock := none }
  | own {p : ℕ} {c : C} {l : L} (hp : p < np) (h : (s.proc p).pc = .toSleep c l)
    (hl : s.plock p = none) :
    Move M np s ((s.goto p (.toDrop c l)).setLock p (some (some p)))
  | commit {p : ℕ} {c : C} {l : L} (hp : p < np) (h : (s.proc p).pc = .toDrop c l) :
    Move M np s { s.goto p (.committed c l) with lock := none }
  | down {p : ℕ} {c : C} {l : L} (hp : p < np) (h : (s.proc p).pc = .committed c l) :
    Move M np s (s.setProc p ⟨.switching l, true, some c⟩)
  | switch {p : ℕ} {l : L} (hp : p < np) (h : (s.proc p).pc = .switching l) :
    Move M np s ((s.goto p (.asleep l)).setLock p none)
  | resume {p : ℕ} {l : L} (hp : p < np) (h : (s.proc p).pc = .asleep l)
    (hw : (s.proc p).sleeping = false) (hl : s.plock p = none) :
    Move M np s ((s.goto p (.resumed l)).setLock p (some (some p)))
  | back {p : ℕ} {l : L} (hp : p < np) (h : (s.proc p).pc = .resumed l) :
    Move M np s ((s.setProc p { s.proc p with pc := .enter l, chan := none }).setLock p none)
  | skip {p : ℕ} {c : C} {l : L} (hp : p < np) (h : (s.proc p).pc = .waking c p l) :
    Move M np s (s.goto p (.waking c (p + 1) l))
  | visit {p j : ℕ} {c : C} {l : L} (hp : p < np) (h : (s.proc p).pc = .waking c j l)
    (hj : j ≠ p) (hl : s.plock j = none) :
    Move M np s ((s.goto p (.testing c j l)).setLock j (some (some p)))
  | done {p j : ℕ} {c : C} {l : L} (hp : p < np) (h : (s.proc p).pc = .waking c j l)
    (hj : np ≤ j) : Move M np s (s.goto p (.inside l))
  | rouse {p j : ℕ} {c : C} {l : L} (hp : p < np) (h : (s.proc p).pc = .testing c j l)
    (hs : (s.proc j).sleeping = true) (hc : (s.proc j).chan = some c) :
    Move M np s (((s.rouse j).goto p (.waking c (j + 1) l)).setLock j none)
  | pass {p j : ℕ} {c : C} {l : L} (hp : p < np) (h : (s.proc p).pc = .testing c j l)
    (hs : ¬ ((s.proc j).sleeping = true ∧ (s.proc j).chan = some c)) :
    Move M np s ((s.goto p (.waking c (j + 1) l)).setLock j none)
  | take {q : ℕ} (hl : s.plock q = none) : Move M np s (s.setLock q (some none))
  | kill {q : ℕ} (hl : s.plock q = some none) : Move M np s (s.rouse q)
  | drop {q : ℕ} (hl : s.plock q = some none) : Move M np s (s.setLock q none)

open State (goto setProc setLock rouse points)

variable {M : Monitor σ L C α ε} {np : ℕ} {init : σ → (ℕ → L) → Prop} {s s' : State σ L C}
  {p q : ℕ}

theorem move_of_step [DecidableEq C] (hp : p < np) (hr : M.Ready np s p)
    (h : M.step np p s = .ok ((), s')) : Move M np s s' := by
  simp only [step] at h
  simp only [Ready] at hr
  split at h
  case h_1 l hpc =>
    simp only [hpc] at hr
    split at h
    · rename_i t l' ho
      cases h
      exact .outside hp hpc ho
    · rename_i ho
      rw [ho] at hr
      cases hr
  case h_2 l hpc => simp only [hpc] at hr; cases h; exact .enter hp hpc hr
  case h_3 l hpc =>
    split at h
    · rename_i hb; cases h; exact .sleep hp hpc hb
    · rename_i hb; cases h; exact .wake hp hpc hb
    · rename_i hb; cases h; exact .leave hp hpc hb
    · cases h
  case h_4 l hpc => cases h; exact .left hp hpc
  case h_5 c l hpc => simp only [hpc] at hr; cases h; exact .own hp hpc hr
  case h_6 c l hpc => cases h; exact .commit hp hpc
  case h_7 c l hpc => cases h; exact .down hp hpc
  case h_8 l hpc => cases h; exact .switch hp hpc
  case h_9 l hpc => simp only [hpc] at hr; cases h; exact .resume hp hpc hr.1 hr.2
  case h_10 l hpc => cases h; exact .back hp hpc
  case h_11 c j l hpc =>
    simp only [hpc] at hr
    split at h
    · rename_i hj
      split at h
      · rename_i hjp
        subst hjp
        cases h
        exact .skip hp hpc
      · rename_i hjp
        cases h
        exact .visit hp hpc hjp (hr hj hjp)
    · rename_i hj
      cases h
      exact .done hp hpc (Nat.le_of_not_lt hj)
  case h_12 c j l hpc =>
    split at h
    · rename_i hw; cases h; exact .rouse hp hpc hw.1 hw.2
    · rename_i hw; cases h; exact .pass hp hpc hw

/-- **What can happen in a step of a run.** -/
theorem move [DecidableEq C] {e : Event α} (h : (M.machine np init).Step s e s') :
    Move M np s s' := by
  obtain ⟨hg, hr⟩ := h
  cases e with
  | call p a =>
    obtain ⟨hp, hs⟩ := hg
    cases hr
    simp only [Event.entry] at hs ⊢
    split at hs
    · rename_i l hpc
      obtain ⟨l', hl'⟩ := isSome_iff_exists.1 hs
      simp only [hl']
      exact .call hp hpc hl'
    · cases hs
  | step p => exact move_of_step hg.1 hg.2 hr
  | take q => cases hr; exact .take hg
  | kill q => cases hr; exact .kill hg
  | drop q => cases hr; exact .drop hg

/-- A step fails only in a piece of code that panics. -/
theorem panic_of_error [DecidableEq C] {e : Event α} {x : ε}
    (h : (M.machine np init).prog e s = .error x) :
    ∃ p l, e = .step p ∧ (s.proc p).pc = .inside l ∧ M.body p l s.shared = .panic x := by
  cases e with
  | step p =>
    simp only [machine, Event.run, step] at h
    split at h
    case h_3 l hpc =>
      split at h
      · cases h
      · cases h
      · cases h
      · rename_i hb
        cases h
        exact ⟨p, l, rfl, hpc, hb⟩
    all_goals first
      | cases h
      | (split at h <;> first | cases h | (split at h <;> cases h))
  | _ => cases h

/-! ### The shared data and the points -/

/-- The effect of one piece of code, or of a call, on the shared data and the point of `p`. -/
inductive Atom (M : Monitor σ L C α ε) (p : ℕ) (t : σ) (l : L) : σ → L → Prop where
  | call {a : α} {l' : L} (h : M.call a l = some l') : Atom M p t l t l'
  | outside {t' : σ} {l' : L} (h : M.outside p l t = some (t', l')) : Atom M p t l t' l'
  | sleep {c : C} {l' : L} (h : M.body p l t = .sleep c l') : Atom M p t l t l'
  | wake {c : C} {t' : σ} {l' : L} (h : M.body p l t = .wake c t' l') : Atom M p t l t' l'
  | leave {t' : σ} {l' : L} (h : M.body p l t = .leave t' l') : Atom M p t l t' l'

theorem points_setProc (x : Proc L C) : (s.setProc p x).points = update s.points p x.pc.point := by
  funext q
  simp only [points, setProc, update_apply]
  split <;> rfl

theorem points_goto_of_eq {pc : Pc L C} (h : pc.point = s.points p) :
    (s.goto p pc).points = s.points := by
  rw [goto, points_setProc]
  exact update_eq_self_iff.2 h

theorem points_rouse : (s.rouse q).points = s.points := by
  rw [rouse, points_setProc]
  exact update_eq_self_iff.2 rfl

/-- **A step is one piece of code at once**, or it does not touch the shared data and the points. -/
theorem Move.atom (h : Move M np s s') : (s'.shared = s.shared ∧ s'.points = s.points) ∨
    ∃ p l, p < np ∧ M.Atom p s.shared (s.points p) s'.shared l ∧
      s'.points = update s.points p l := by
  have hpt : ∀ {p : ℕ} {pc : Pc L C}, (s.proc p).pc = pc → s.points p = pc.point :=
    fun h => congrArg Pc.point h
  cases h with
  | call hp h hc =>
    have hc' := (congrArg (M.call _) (hpt h)).trans hc
    exact .inr ⟨_, _, hp, .call hc', points_setProc _⟩
  | outside hp h hc =>
    have hc' := (congrArg (M.outside _ · s.shared) (hpt h)).trans hc
    exact .inr ⟨_, _, hp, .outside hc', points_setProc _⟩
  | sleep hp h hb =>
    have hb' := (congrArg (M.body _ · s.shared) (hpt h)).trans hb
    exact .inr ⟨_, _, hp, .sleep hb', points_setProc _⟩
  | wake hp h hb =>
    have hb' := (congrArg (M.body _ · s.shared) (hpt h)).trans hb
    exact .inr ⟨_, _, hp, .wake hb', points_setProc _⟩
  | leave hp h hb =>
    have hb' := (congrArg (M.body _ · s.shared) (hpt h)).trans hb
    exact .inr ⟨_, _, hp, .leave hb', points_setProc _⟩
  | enter hp h | left hp h | own hp h | commit hp h | switch hp h | resume hp h | skip hp h
  | visit hp h | done hp h | pass hp h => exact .inl ⟨rfl, points_goto_of_eq (hpt h).symm⟩
  | down hp h | back hp h =>
    exact .inl ⟨rfl, (points_setProc _).trans (update_eq_self_iff.2 (hpt h).symm)⟩
  | rouse hp h =>
    refine .inl ⟨rfl, (points_goto_of_eq ?_).trans points_rouse⟩
    rw [points_rouse]
    exact (hpt h).symm
  | take | drop => exact .inl ⟨rfl, rfl⟩
  | kill => exact .inl ⟨rfl, points_rouse⟩

/-- A property of the shared data and the points that every piece of code keeps. -/
def Keeps (M : Monitor σ L C α ε) (np : ℕ) (J : σ → (ℕ → L) → Prop) : Prop :=
  ∀ t pt p t' l, p < np → J t pt → M.Atom p t (pt p) t' l → J t' (update pt p l)

/-- **An invariant of the atomic pieces is an invariant of the runs.** -/
theorem keeps_of_reachable [DecidableEq C] {J : σ → (ℕ → L) → Prop}
    (hk : M.Keeps np J) (h0 : ∀ t pt, init t pt → J t pt) (h : (M.machine np init).Reachable s) :
    J s.shared s.points := by
  refine h.invariant (I := fun s => J s.shared s.points) (fun s hs => h0 _ _ hs.init) ?_
  intro s e s' hJ hs
  rcases (move hs).atom with ⟨ht, hpt⟩ | ⟨p, l, hp, ha, hpt⟩
  · rw [ht, hpt]
    exact hJ
  · rw [hpt]
    exact hk _ _ _ _ _ hp hJ ha

/-! ### The locks -/

/-- The process holds the locks that its position says, and sleeps only where it says so. -/
structure Fits (np : ℕ) (s : State σ L C) (p : ℕ) : Prop where
  lock : (s.proc p).pc.Holds → s.lock = some p
  own : (s.proc p).pc.HoldsOwn → p < np ∧ s.plock p = some (some p)
  test : ∀ c j l, (s.proc p).pc = .testing c j l → s.plock j = some (some p)
  down : (s.proc p).sleeping = true → p < np ∧ (s.proc p).pc.Down

theorem Fits.start (h : Start init s) (p : ℕ) : Fits np s p := by
  obtain ⟨l, hl⟩ := h.out p
  refine ⟨?_, ?_, ?_, ?_⟩
  · rw [hl]; exact False.elim
  · rw [hl]; exact False.elim
  · rw [hl]; exact nofun
  · rw [h.awake p]; exact nofun

/-- A process that stays where it is and keeps its locks. -/
theorem Fits.congr (h : Fits np s p) (hpc : (s'.proc p).pc = (s.proc p).pc)
    (hw : (s'.proc p).sleeping = true → (s.proc p).sleeping = true)
    (hl : s.lock = some p → s'.lock = some p)
    (hpl : ∀ j, s.plock j = some (some p) → s'.plock j = some (some p)) : Fits np s' p where
  lock hh := hl (h.lock (hpc ▸ hh))
  own hh := ⟨(h.own (hpc ▸ hh)).1, hpl _ (h.own (hpc ▸ hh)).2⟩
  test c j l hh := hpl _ (h.test c j l (hpc.symm.trans hh))
  down hh := ⟨(h.down (hw hh)).1, by rw [hpc]; exact (h.down (hw hh)).2⟩

/-- A process that is not down does not sleep. -/
theorem Fits.awake (h : Fits np s p) (hd : ¬ (s.proc p).pc.Down) : (s.proc p).sleeping = false :=
  Bool.eq_false_iff.2 fun hw => hd (h.down hw).2

/-- A change of one process lock that the process does not hold. -/
theorem plock_keep {x : Option (Option ℕ)} (hj : s.plock j ≠ some (some q)) (r : ℕ)
    (hr : s.plock r = some (some q)) : update s.plock j x r = some (some q) := by
  have hne : r ≠ j := fun he => hj (he ▸ hr)
  rw [update_of_ne hne]
  exact hr

@[simp] theorem pc_rouse (q r : ℕ) : ((s.rouse q).proc r).pc = (s.proc r).pc := by
  simp only [rouse, setProc, update_apply]
  split
  case isTrue h => rw [h]
  case isFalse => rfl

theorem sleeping_of_rouse (h : ((s.rouse q).proc r).sleeping = true) :
    r ≠ q ∧ (s.proc r).sleeping = true := by
  simp only [rouse, setProc, update_apply] at h
  split at h
  case isTrue => cases h
  case isFalse hne => exact ⟨hne, h⟩

theorem Fits.rouse (h : ∀ q, Fits np s q) (q : ℕ) : Fits np (s.rouse j) q :=
  (h q).congr (pc_rouse j q) (fun hw => (sleeping_of_rouse hw).2) id fun _ => id

/-- In `wakeup`, the process gives the process lock of `j` up again. -/
theorem Fits.passed (h : ∀ q, Fits np s q) {c : C} (hpc : (s.proc p).pc = .testing c j l) (q : ℕ) :
    Fits np ((s.goto p (.waking c (j + 1) l)).setLock j none) q := by
  by_cases hq : q = p
  · subst hq
    have hw := (h q).awake (by rw [hpc]; exact id)
    have hl := (h q).lock (by rw [hpc]; trivial)
    constructor <;> simp_all [goto, setProc, setLock, Pc.HoldsOwn]
  · have hne : s.plock j ≠ some (some q) := by
      rw [(h p).test _ _ _ hpc]
      exact fun he => hq (some.inj (some.inj he)).symm
    refine (h q).congr ?_ ?_ id (plock_keep hne) <;>
      simp [goto, setProc, setLock, hq]

/-- **The locks are held as the positions say**, after every step. -/
theorem Fits.next (h : ∀ q, Fits np s q) (hm : Move M np s s') (q : ℕ) : Fits np s' q := by
  cases hm with
  | @call p _ _ _ _ hpc | @outside p _ _ _ _ hpc | @sleep p _ _ _ _ hpc | @wake p _ _ _ _ _ hpc
  | @leave p _ _ _ _ hpc | @skip p _ _ _ hpc | @done p _ _ _ _ hpc =>
    by_cases hq : q = p
    · subst hq
      have hw := (h q).awake (by rw [hpc]; exact id)
      have hl := (h q).lock
      rw [hpc] at hl
      constructor <;> simp_all [goto, setProc, Pc.Holds, Pc.HoldsOwn]
    · refine (h q).congr ?_ ?_ id fun _ => id <;> simp [goto, setProc, hq]
  | @enter p l hp hpc hl =>
    by_cases hq : q = p
    · subst hq
      have hw := (h q).awake (by rw [hpc]; exact id)
      constructor <;> simp_all [goto, setProc, Pc.HoldsOwn]
    · refine (h q).congr ?_ ?_ ?_ fun _ => id <;> simp [goto, setProc, hq, hl]
  | @left p l hp hpc | @commit p c l hp hpc =>
    have hl := (h p).lock (by rw [hpc]; trivial)
    by_cases hq : q = p
    · subst hq
      have hw := (h q).awake (by rw [hpc]; exact id)
      have ho := (h q).own
      rw [hpc] at ho
      constructor <;> simp_all [goto, setProc, Pc.Holds, Pc.HoldsOwn]
    · have hne : s.lock ≠ some q := by
        rw [hl]
        exact fun he => hq (some.inj he).symm
      refine (h q).congr ?_ ?_ (fun he => absurd he hne) fun _ => id <;>
        simp [goto, setProc, hq]
  | @own p c l hp hpc hn | @resume p l hp hpc _ hn =>
    by_cases hq : q = p
    · subst hq
      have hd := (h q).down
      have hl := (h q).lock
      rw [hpc] at hd hl
      constructor <;>
        simp_all [goto, setProc, setLock, Pc.Holds, Pc.Down]
    · refine (h q).congr ?_ ?_ id (plock_keep (by rw [hn]; exact nofun)) <;>
        simp [goto, setProc, setLock, hq]
  | @down p c l hp hpc =>
    by_cases hq : q = p
    · subst hq
      have ho := (h q).own
      rw [hpc] at ho
      constructor <;> simp_all [setProc, Pc.Holds, Pc.HoldsOwn, Pc.Down]
    · refine (h q).congr ?_ ?_ id fun _ => id <;> simp [setProc, hq]
  | @switch p l hp hpc | @back p l hp hpc =>
    have ho := ((h p).own (by rw [hpc]; trivial)).2
    by_cases hq : q = p
    · subst hq
      have hd := (h q).down
      rw [hpc] at hd
      constructor <;>
        simp_all [goto, setProc, setLock, Pc.Holds, Pc.HoldsOwn, Pc.Down]
    · have hne : s.plock p ≠ some (some q) := by
        rw [ho]
        exact fun he => hq (some.inj (some.inj he)).symm
      refine (h q).congr ?_ ?_ id (plock_keep hne) <;>
        simp [goto, setProc, setLock, hq]
  | @visit p j c l hp hpc hj hn =>
    by_cases hq : q = p
    · subst hq
      have hw := (h q).awake (by rw [hpc]; exact id)
      have hl := (h q).lock (by rw [hpc]; trivial)
      constructor <;> simp_all [goto, setProc, setLock, Pc.HoldsOwn]
    · refine (h q).congr ?_ ?_ id (plock_keep (by rw [hn]; exact nofun)) <;>
        simp [goto, setProc, setLock, hq]
  | rouse hp hpc =>
    exact Fits.passed (Fits.rouse h) ((pc_rouse _ _).trans hpc) q
  | pass hp hpc => exact Fits.passed h hpc q
  | take hn | drop hn => exact (h q).congr rfl id id (plock_keep (by rw [hn]; exact nofun))
  | kill => exact Fits.rouse h q

theorem fits_of_reachable [DecidableEq C] (h : (M.machine np init).Reachable s) :
    ∀ q, Fits np s q :=
  h.invariant (I := fun s => ∀ q, Fits np s q) (fun _ => Fits.start) fun _ _ _ hf hs =>
    Fits.next hf (move hs)

/-- Two processes do not hold the lock at once. -/
theorem Fits.exclusive (h : ∀ q, Fits np s q) (hp : (s.proc p).pc.Holds)
    (hq : (s.proc q).pc.Holds) : p = q :=
  some.inj (((h p).lock hp).symm.trans ((h q).lock hq))

/-! ### Sleepers -/

variable {c : C}

theorem Pc.Dozes.holds {pc : Pc L C} (h : pc.Dozes c) : pc.Holds := by
  cases pc <;> trivial

theorem Pc.Wakes.holds {pc : Pc L C} (h : pc.Wakes c q) : pc.Holds := by
  cases pc <;> trivial

theorem Fits.waits (h : Fits np s q) (hw : (s.proc q).Waits c) :
    q < np ∧ ((∃ l, (s.proc q).pc = .committed c l) ∨ (s.proc q).pc.Down) := by
  rcases hw with hc | ⟨hw, -⟩
  · obtain ⟨l, hl⟩ := hc
    exact ⟨(h.own (by rw [hl]; trivial)).1, .inl ⟨l, hl⟩⟩
  · exact ⟨(h.down hw).1, .inr (h.down hw).2⟩

theorem waits_of_rouse (h : ((s.rouse q).proc r).Waits c) : (s.proc r).Waits c := by
  simp only [rouse, setProc, update_apply] at h
  split at h
  case isTrue he =>
    subst he
    rcases h with h | ⟨h, -⟩
    · exact .inl h
    · cases h
  case isFalse => exact h

/-- A process that moves, but not into a commitment. -/
theorem waits_of_goto {pc : Pc L C} (h : ((s.goto p pc).proc q).Waits c)
    (hpc : ∀ l, pc ≠ .committed c l) : (s.proc q).Waits c := by
  simp only [goto, setProc, update_apply] at h
  split at h
  case isTrue he =>
    subst he
    rcases h with ⟨l, hl⟩ | h
    · exact (hpc l hl).elim
    · exact .inr h
  case isFalse => exact h

/-- A process that comes to wait was on its way to it. -/
theorem Move.waits (hm : Move M np s s') (h : (s'.proc q).Waits c) :
    (s.proc q).Waits c ∨ (s.proc q).pc.Dozes c := by
  cases hm with
  | call | outside | enter | sleep | wake | leave | left | own | switch | resume | skip | visit
  | done | pass => exact .inl (waits_of_goto h nofun)
  | @commit p c' l hp hpc =>
    by_cases hq : q = p
    · subst hq
      rcases h with ⟨l', hl⟩ | h
      · simp only [goto, setProc, update_self, Pc.committed.injEq] at hl
        rw [hpc]
        exact .inr hl.1
      · exact .inl (.inr (by simpa [goto, setProc] using h))
    · exact .inl (by simpa [goto, setProc, hq] using h)
  | @down p c' l hp hpc =>
    by_cases hq : q = p
    · subst hq
      rcases h with ⟨l', hl⟩ | ⟨-, hc⟩
      · simp [setProc] at hl
      · simp only [setProc, update_self, some.injEq] at hc
        exact .inl (.inl ⟨l, hc ▸ hpc⟩)
    · exact .inl (by simpa [setProc, hq] using h)
  | @back p l hp hpc =>
    by_cases hq : q = p
    · subst hq
      rcases h with ⟨l', hl⟩ | ⟨-, hc⟩
      · simp [setProc, setLock] at hl
      · simp [setProc, setLock] at hc
    · exact .inl (by simpa [setProc, setLock, hq] using h)
  | rouse => exact .inl (waits_of_rouse (waits_of_goto h nofun))
  | take | drop => exact .inl h
  | kill => exact .inl (waits_of_rouse h)

/-- A process that is visited does not wait afterwards. -/
theorem not_waits_of_visit (hF : ∀ q, Fits np s q) (hpc : (s.proc p).pc = .testing c j l)
    (hs : ¬ ((s.proc j).sleeping = true ∧ (s.proc j).chan = some c)) : ¬ (s.proc j).Waits c := by
  rintro (⟨l', hl⟩ | h)
  · have hown := ((hF j).own (by rw [hl]; trivial)).2
    rw [(hF p).test _ _ _ hpc] at hown
    cases hown
    rw [hpc] at hl
    cases hl
  · exact hs h

/-- A process that moves from a position in which it wakes nobody. -/
theorem wakes_of_ne {x : Proc L C} {pc : Pc L C} (h : (s.proc p).pc.Wakes c q)
    (hr : (s.proc r).pc = pc) (hpc : ¬ pc.Wakes c q) : ((s.setProc r x).proc p).pc.Wakes c q := by
  have hne : p ≠ r := by
    rintro rfl
    rw [hr] at h
    exact hpc h
  simpa only [setProc, update_of_ne hne] using h

/-- A waking process waits for nothing itself. -/
theorem Fits.ne_of_waits (hF : ∀ q, Fits np s q) (h : (s.proc p).pc.Wakes c q)
    (hw : (s.proc q).Waits c) : p ≠ q := by
  rintro rfl
  rcases ((hF p).waits hw).2 with ⟨l, hl⟩ | hd
  · rw [hl] at h; exact h
  · cases hpc : (s.proc p).pc <;> rw [hpc] at h hd <;> trivial

/-- A process that is waking goes on until it has come past every waiting process. -/
theorem Move.wakes (hF : ∀ q, Fits np s q) (hm : Move M np s s') (h : (s.proc p).pc.Wakes c q)
    (hw : (s'.proc q).Waits c) : (s'.proc p).pc.Wakes c q := by
  have hw₀ : (s.proc q).Waits c := by
    rcases hm.waits hw with hw₀ | hd
    · exact hw₀
    · -- both would hold the lock
      have he := Fits.exclusive hF h.holds hd.holds
      subst he
      cases hpc : (s.proc p).pc <;> rw [hpc] at h hd <;> trivial
  have hne := Fits.ne_of_waits hF h hw₀
  cases hm with
  | call _ hpc | outside _ hpc | enter _ hpc | sleep _ hpc | wake _ hpc | leave _ hpc | left _ hpc
  | own _ hpc | commit _ hpc | down _ hpc | switch _ hpc | resume _ hpc | back _ hpc =>
    exact wakes_of_ne h hpc id
  | take | drop => exact h
  | kill => rw [pc_rouse]; exact h
  | @skip r c' l hr hpc =>
    by_cases hpr : p = r
    · subst hpr
      rw [hpc] at h
      simpa [goto, setProc, Pc.Wakes] using ⟨h.1, Nat.lt_of_le_of_ne h.2 hne⟩
    · simpa [goto, setProc, hpr] using h
  | @visit r j c' l hr hpc =>
    by_cases hpr : p = r
    · subst hpr
      rw [hpc] at h
      simpa [goto, setProc, setLock, Pc.Wakes] using h
    · simpa [goto, setProc, setLock, hpr] using h
  | @done r j c' l hr hpc hj =>
    by_cases hpr : p = r
    · subst hpr
      rw [hpc] at h
      exact absurd ((hF q).waits hw₀).1 (Nat.not_lt.2 (Nat.le_trans hj h.2))
    · simpa [goto, setProc, hpr] using h
  | @rouse r j c' l hr hpc =>
    by_cases hpr : p = r
    · subst hpr
      rw [hpc] at h
      obtain ⟨rfl, hj⟩ := h
      have hjq : j ≠ q := by
        rintro rfl
        refine not_waits_of_visit (Fits.rouse hF (j := j)) ((pc_rouse _ _).trans hpc) ?_
          (waits_of_goto hw nofun)
        exact fun hs => (sleeping_of_rouse hs.1).1 rfl
      simpa [goto, setProc, setLock, Pc.Wakes] using
        Nat.succ_le_of_lt (Nat.lt_of_le_of_ne hj hjq)
    · simpa [goto, setProc, setLock, hpr] using h
  | @pass r j c' l hr hpc hs =>
    by_cases hpr : p = r
    · subst hpr
      rw [hpc] at h
      obtain ⟨rfl, hj⟩ := h
      have hjq : j ≠ q := by
        rintro rfl
        exact not_waits_of_visit hF hpc hs hw₀
      simpa [goto, setProc, setLock, Pc.Wakes] using
        Nat.succ_le_of_lt (Nat.lt_of_le_of_ne hj hjq)
    · simpa [goto, setProc, setLock, hpr] using h

/-- What the pieces of code have to observe for a condition `Blocked` of the channels: one goes to
sleep only on a channel that is blocked, and one that unblocks a channel wakes it. -/
structure Fair (M : Monitor σ L C α ε) (J : σ → (ℕ → L) → Prop) (Blocked : C → σ → Prop) :
    Prop where
  sleep {t : σ} {pt : ℕ → L} {p : ℕ} {c : C} {l : L} : J t pt → M.body p (pt p) t = .sleep c l →
    Blocked c t
  wake {t t' : σ} {pt : ℕ → L} {p : ℕ} {c c' : C} {l : L} : J t pt →
    M.body p (pt p) t = .wake c t' l → Blocked c' t → c' = c ∨ Blocked c' t'
  leave {t t' : σ} {pt : ℕ → L} {p : ℕ} {c : C} {l : L} : J t pt →
    M.body p (pt p) t = .leave t' l → Blocked c t → Blocked c t'
  outside {t t' : σ} {pt : ℕ → L} {p : ℕ} {c : C} {l : L} : J t pt →
    M.outside p (pt p) t = some (t', l) → Blocked c t → Blocked c t'

variable {J : σ → (ℕ → L) → Prop} {Blocked : C → σ → Prop}

/-- A process that moves to a position in which it is not on its way into a sleep. -/
theorem dozes_of_setProc {x : Proc L C} (h : ((s.setProc r x).proc p).pc.Dozes c)
    (hx : ¬ x.pc.Dozes c) : (s.proc p).pc.Dozes c := by
  simp only [setProc, update_apply] at h
  split at h
  case isTrue => exact (hx h).elim
  case isFalse => exact h

/-- A process goes to sleep only on a channel that is blocked. -/
theorem Fair.dozes (hf : M.Fair J Blocked) (hJ : J s.shared s.points) (hm : Move M np s s')
    (h : (s'.proc p).pc.Dozes c) : (s.proc p).pc.Dozes c ∨ Blocked c s.shared := by
  cases hm with
  | call | outside | enter | wake | leave | left | commit | down | switch | resume | back | skip
  | visit | done | pass => exact .inl (dozes_of_setProc h id)
  | @sleep r c' l l' hr hpc hb =>
    by_cases hpr : p = r
    · subst hpr
      have hb' := (congrArg (M.body p · s.shared) (congrArg Pc.point hpc)).trans hb
      have hc : c' = c := by simpa [goto, setProc, Pc.Dozes] using h
      exact .inr (hc ▸ hf.sleep hJ hb')
    · exact .inl (by simpa [goto, setProc, hpr] using h)
  | @own r c' l hr hpc =>
    by_cases hpr : p = r
    · subst hpr
      rw [hpc]
      exact .inl (by simpa [goto, setProc, setLock, Pc.Dozes] using h)
    · exact .inl (by simpa [goto, setProc, setLock, hpr] using h)
  | rouse =>
    have h := dozes_of_setProc h id
    rw [pc_rouse] at h
    exact .inl h
  | take | drop => exact .inl h
  | kill =>
    rw [pc_rouse] at h
    exact .inl h

/-- A channel stays blocked, or its sleepers are being woken. -/
theorem Fair.blocked (hf : M.Fair J Blocked) (hJ : J s.shared s.points) (hm : Move M np s s')
    (h : Blocked c s.shared) : Blocked c s'.shared ∨ ∃ p, (s'.proc p).pc.Wakes c 0 := by
  have hpt : ∀ {p : ℕ} {pc : Pc L C}, (s.proc p).pc = pc → s.points p = pc.point :=
    fun h => congrArg Pc.point h
  cases hm with
  | outside _ hpc hc =>
    exact .inl (hf.outside hJ ((congrArg (M.outside _ · s.shared) (hpt hpc)).trans hc) h)
  | @wake p c' t l l' hp hpc hb =>
    rcases hf.wake hJ ((congrArg (M.body _ · s.shared) (hpt hpc)).trans hb) h with rfl | hb
    · exact .inr ⟨p, by simp [goto, setProc, Pc.Wakes]⟩
    · exact .inl hb
  | leave _ hpc hb =>
    exact .inl (hf.leave hJ ((congrArg (M.body _ · s.shared) (hpt hpc)).trans hb) h)
  | _ => exact .inl h

/-- A waiting process has something to wait for, or is about to be woken. -/
structure Alert (Blocked : C → σ → Prop) (s : State σ L C) : Prop where
  dozes : ∀ p c, (s.proc p).pc.Dozes c → Blocked c s.shared
  waits : ∀ q c, (s.proc q).Waits c → Blocked c s.shared ∨ ∃ p, (s.proc p).pc.Wakes c q

theorem Pc.Wakes.mono {pc : Pc L C} (h : pc.Wakes c q) (hr : q ≤ r) : pc.Wakes c r := by
  cases pc with
  | waking | testing => exact ⟨h.1, Nat.le_trans h.2 hr⟩
  | _ => exact h

theorem Alert.start (h : Start init s) : Alert Blocked s := by
  refine ⟨fun p c hd => ?_, fun q c hw => ?_⟩
  · obtain ⟨l, hl⟩ := h.out p
    rw [hl] at hd
    exact hd.elim
  · obtain ⟨l, hl⟩ := h.out q
    rcases hw with ⟨l', hl'⟩ | ⟨hw, -⟩
    · rw [hl] at hl'; cases hl'
    · rw [h.awake q] at hw; cases hw

theorem Alert.next (h : Alert Blocked s) (hf : M.Fair J Blocked) (hJ : J s.shared s.points)
    (hF : ∀ q, Fits np s q) (hm : Move M np s s') : Alert Blocked s' := by
  constructor
  · intro p c hd
    have hb : Blocked c s.shared := (hf.dozes hJ hm hd).elim (h.dozes p c) id
    rcases hf.blocked hJ hm hb with hb | ⟨r, hr⟩
    · exact hb
    · -- the waking process and this one would both hold the lock
      have he := Fits.exclusive (Fits.next hF hm) hr.holds hd.holds
      subst he
      cases hpc : (s'.proc r).pc <;> rw [hpc] at hr hd <;> trivial
  · intro q c hw
    have hblocked : Blocked c s.shared →
        Blocked c s'.shared ∨ ∃ p, (s'.proc p).pc.Wakes c q := fun hb =>
      (hf.blocked hJ hm hb).imp_right fun ⟨p, hp⟩ => ⟨p, hp.mono (Nat.zero_le q)⟩
    rcases hm.waits hw with hw₀ | hd
    · rcases h.waits q c hw₀ with hb | ⟨p, hp⟩
      · exact hblocked hb
      · exact .inr ⟨p, hm.wakes hF hp hw⟩
    · exact hblocked (h.dozes q c hd)

/-- **No wakeup is lost.** -/
theorem alert_of_reachable [DecidableEq C] (hk : M.Keeps np J) (hf : M.Fair J Blocked)
    (h0 : ∀ t pt, init t pt → J t pt) (h : (M.machine np init).Reachable s) : Alert Blocked s := by
  induction h with
  | init hi => exact Alert.start hi
  | step hr hs ih =>
    exact ih.next hf (keeps_of_reachable hk h0 hr) (fits_of_reachable hr) (move hs)

/-- While the lock is free, a process waits only for a channel that is blocked. -/
theorem Alert.blocked (h : Alert Blocked s) (hF : ∀ q, Fits np s q) (hl : s.lock = none)
    (hw : (s.proc q).Waits c) : Blocked c s.shared := by
  rcases h.waits q c hw with hb | ⟨p, hp⟩
  · exact hb
  · have := (hF p).lock hp.holds
    rw [hl] at this
    cases this

end Monitor

end Xv6Swap
