import Mathlib.Algebra.BigOperators.Group.Finset.Basic
import Mathlib.Algebra.Order.BigOperators.Group.Finset
import Mathlib.Algebra.Order.Ring.Int

/-!
# Counting references

`tally t P` is the number of places of the finite set `t` for which `P` holds, as an integer, so
that changes of it can be added and subtracted.

* `tally_change` : the effect of a change at one place;
* `tally_pos` : a place that counts makes the number positive.
-/

namespace Xv6Swap

open Finset

variable {ι : Type} {t : Finset ι} {P Q : ι → Prop} [DecidablePred P] [DecidablePred Q] {x : ι}
  {p : Prop}

/-- One if the proposition holds, else zero. -/
def ind (p : Prop) [Decidable p] : ℤ := if p then 1 else 0

@[simp] theorem ind_true [Decidable p] (h : p) : ind p = 1 := if_pos h

@[simp] theorem ind_false [Decidable p] (h : ¬ p) : ind p = 0 := if_neg h

theorem ind_nonneg (p : Prop) [Decidable p] : 0 ≤ ind p := by
  unfold ind; split <;> decide

/-- The number of places for which `P` holds. -/
def tally (t : Finset ι) (P : ι → Prop) [DecidablePred P] : ℤ := ∑ i ∈ t, ind (P i)

theorem tally_nonneg (t : Finset ι) (P : ι → Prop) [DecidablePred P] : 0 ≤ tally t P :=
  sum_nonneg fun _ _ => ind_nonneg _

theorem tally_le_card (t : Finset ι) (P : ι → Prop) [DecidablePred P] : tally t P ≤ t.card := by
  have hle : ∀ i ∈ t, ind (P i) ≤ 1 := fun i _ => by
    unfold ind
    split <;> decide
  calc tally t P ≤ t.card • 1 := sum_le_card_nsmul t _ 1 hle
    _ = t.card := by simp

theorem tally_pos (hx : x ∈ t) (h : P x) : 1 ≤ tally t P :=
  calc 1 = ind (P x) := (ind_true h).symm
    _ ≤ tally t P := single_le_sum (fun i _ => ind_nonneg (P i)) hx

theorem tally_eq_zero (h : ∀ i ∈ t, ¬ P i) : tally t P = 0 :=
  sum_eq_zero fun i hi => ind_false (h i hi)

theorem tally_eq_ind (hx : x ∈ t) (h : ∀ i ∈ t, i ≠ x → ¬ P i) : tally t P = ind (P x) :=
  sum_eq_single_of_mem x hx fun i hi hne => ind_false (h i hi hne)

/-- **A change at one place.** -/
theorem tally_change [DecidableEq ι] (hx : x ∈ t) (h : ∀ i ∈ t, i ≠ x → (Q i ↔ P i)) :
    tally t Q = tally t P + ind (Q x) - ind (P x) := by
  have hrest : ∑ i ∈ t.erase x, ind (Q i) = ∑ i ∈ t.erase x, ind (P i) :=
    sum_congr rfl fun i hi =>
      if_congr (h i (mem_of_mem_erase hi) (ne_of_mem_erase hi)) rfl rfl
  rw [tally, tally, ← add_sum_erase t _ hx, ← add_sum_erase t (fun i => ind (P i)) hx, hrest]
  omega

end Xv6Swap
