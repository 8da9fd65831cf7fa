import Xv6Swap.Lib.Run
import Mathlib.Logic.Function.Basic

/-!
# Systems whose actions are programs

A `Machine` takes one action after the other: an action is a program over the state, and a guard
says when it may be taken.

* `Machine.Reachable` : the states of the runs from an initial state;
* `Machine.Reachable.invariant` : the rule of invariants;
* `Machine.restrict` : the same machine with a stronger guard, for what holds of the runs whose
  steps all meet a condition;
* `Machine.path`, `Machine.Reachable.path`, `Machine.Reachable.test` : a given list of actions, run
  with its guards checked;
* `sole_update` : tables in which a thing belongs to one entry at most.
-/

namespace Xv6Swap

/-- A system: initial states, and actions with guards. -/
structure Machine (σ ε α : Type) where
  init : σ → Prop
  guard : α → σ → Prop
  prog : α → Run σ ε Unit

namespace Machine

variable {σ ε α : Type} {M : Machine σ ε α} {s s' : σ} {a : α} {C : α → σ → Prop}
  {ok : α → σ → Bool}

/-- The action `a`, taken from `s`, returns in `s'`. -/
def Step (M : Machine σ ε α) (s : σ) (a : α) (s' : σ) : Prop :=
  M.guard a s ∧ M.prog a s = .ok ((), s')

/-- The states of the runs of a machine. -/
inductive Reachable (M : Machine σ ε α) : σ → Prop where
  | init {s : σ} : M.init s → Reachable M s
  | step {s s' : σ} {a : α} : Reachable M s → M.Step s a s' → Reachable M s'

/-- **The rule of invariants.** -/
theorem Reachable.invariant {I : σ → Prop} (h : M.Reachable s) (h0 : ∀ s, M.init s → I s)
    (hstep : ∀ s a s', I s → M.Step s a s' → I s') : I s := by
  induction h with
  | init hi => exact h0 _ hi
  | step _ hs ih => exact hstep _ _ _ ih hs

/-- The runs whose steps all meet the condition `C`. -/
def restrict (M : Machine σ ε α) (C : α → σ → Prop) : Machine σ ε α :=
  { M with guard := fun a s => M.guard a s ∧ C a s }

theorem Reachable.of_restrict (h : (M.restrict C).Reachable s) : M.Reachable s :=
  h.invariant (fun _ hi => .init hi) fun _ _ _ hr hs => .step hr ⟨hs.1.1, hs.2⟩

/-- The actions of a list one after the other, as long as `ok` lets them be taken. -/
def path (M : Machine σ ε α) (ok : α → σ → Bool) : List α → σ → Option σ
  | [], s => some s
  | a :: as, s =>
    if ok a s then
      match M.prog a s with
      | .ok (_, s') => path M ok as s'
      | .error _ => none
    else none

/-- A path whose checks imply the guards is a run. -/
theorem Reachable.path (hok : ∀ a s, ok a s = true → M.guard a s) :
    ∀ {as : List α} {s s' : σ}, M.Reachable s → M.path ok as s = some s' → M.Reachable s' := by
  intro as
  induction as with
  | nil => rintro s s' h ⟨⟩; exact h
  | cons a as ih =>
    intro s s' h hp
    rw [Machine.path] at hp
    split at hp
    · rename_i ha
      split at hp
      · rename_i t ht
        exact ih (h.step ⟨hok a s ha, ht⟩) hp
      · cases hp
    · cases hp

/-- A path that ends in a state that passes a test. -/
theorem Reachable.test (hok : ∀ a s, ok a s = true → M.guard a s)
    (h : M.Reachable s) (as : List α) {t : σ → Bool} (ht : (M.path ok as s).any t = true) :
    ∃ s', M.Reachable s' ∧ t s' = true := by
  obtain ⟨s', hp, hs'⟩ := (Option.any_eq_true _ _).1 ht
  exact ⟨s', h.path hok hp, hs'⟩

theorem path_restrict : ∀ (as : List α) (s : σ), (M.restrict C).path ok as s = M.path ok as s := by
  intro as
  induction as with
  | nil => exact fun _ => rfl
  | cons a as ih =>
    intro s
    simp only [Machine.path, restrict] at ih ⊢
    split
    · split
      · exact ih _
      · rfl
    · rfl

end Machine

/-! ### Tables -/

/-- Every `b` belongs to one entry of a table at most, also when an entry becomes `x`, if what then
belongs to it belongs to no other. -/
theorem sole_update {ι β γ : Type} [DecidableEq ι] {R : β → γ → Prop} {f : ι → β} {t : ι} {x : β}
    (h : ∀ u v b, R (f u) b → R (f v) b → u = v) (hx : ∀ b, R x b → ∀ u ≠ t, ¬ R (f u) b)
    (u v : ι) (b : γ) (hu : R (Function.update f t x u) b) (hv : R (Function.update f t x v) b) :
    u = v := by
  rw [Function.update_apply] at hu hv
  split at hu <;> split at hv
  case isTrue.isTrue h1 h2 => rw [h1, h2]
  case isTrue.isFalse h1 h2 => exact absurd hv (hx b hu v h2)
  case isFalse.isTrue h1 h2 => exact absurd hu (hx b hv u h1)
  case isFalse.isFalse => exact h u v b hu hv

end Xv6Swap
