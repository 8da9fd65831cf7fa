import Mathlib.Logic.Function.Basic
import Mathlib.Data.Nat.Notation

/-!
# Redo logs

A store of blocks with a redo log: a header lists the blocks of a transaction, and the `j`-th of
them has its new contents in the log block `slot j`.  `Restores` says that such a store stands for
the contents `H`: a block the header lists is found in the log, every other block is where it
belongs.

* `Restores.install` : copying a block from the log to its place changes nothing of this, so that
  copying may be interrupted and started again at any point;
* `Restores.rest_of_installed` : once every listed block is in place the header may be cleared;
* `replay` : the contents after a list of updates.
-/

namespace Xv6Swap

open Function

variable {β : Type}

/-- The blocks `d` after a list of updates. -/
def replay (d : ℕ → β) : List (ℕ × β) → ℕ → β
  | [] => d
  | (b, v) :: us => replay (update d b v) us

theorem replay_append (d : ℕ → β) (us vs : List (ℕ × β)) :
    replay d (us ++ vs) = replay (replay d us) vs := by
  induction us generalizing d with
  | nil => rfl
  | cons u us ih => exact ih _

theorem replay_concat (d : ℕ → β) (us : List (ℕ × β)) (b : ℕ) (v : β) :
    replay d (us ++ [(b, v)]) = update (replay d us) b v := replay_append d us _

/-- A block that no update names keeps its contents. -/
theorem replay_of_notMem {d : ℕ → β} {us : List (ℕ × β)} {b : ℕ} (h : ∀ u ∈ us, u.1 ≠ b) :
    replay d us b = d b := by
  induction us generalizing d with
  | nil => rfl
  | cons u us ih =>
    have hrest : ∀ u ∈ us, u.1 ≠ b := fun u hu => h u (List.mem_cons_of_mem _ hu)
    rw [replay, ih hrest, update_of_ne (h u List.mem_cons_self).symm]

/-- The store `disk`, whose log lists the blocks `head`, stands for the contents `H`. -/
structure Restores (home : ℕ → Prop) (slot : ℕ → ℕ) (head : List ℕ) (H disk : ℕ → β) : Prop where
  logged : ∀ j b, head[j]? = some b → disk (slot j) = H b
  rest : ∀ b, home b → b ∉ head → disk b = H b

namespace Restores

variable {home : ℕ → Prop} {slot : ℕ → ℕ} {head : List ℕ} {H disk disk' : ℕ → β} {j b : ℕ}

theorem nil (h : ∀ b, home b → disk b = H b) : Restores home slot [] H disk :=
  ⟨fun _ _ hj => by simp at hj, fun b hb _ => h b hb⟩

variable (h : Restores home slot head H disk)
include h

theorem congr (hslot : ∀ j b, head[j]? = some b → disk' (slot j) = disk (slot j))
    (hhome : ∀ b, home b → disk' b = disk b) : Restores home slot head H disk' :=
  ⟨fun j b hj => (hslot j b hj).trans (h.logged j b hj),
    fun b hb hn => (hhome b hb).trans (h.rest b hb hn)⟩

/-- **Installing a listed block** keeps what the store stands for. -/
theorem install
    (hslot : ∀ i c, head[i]? = some c → ¬ home (slot i)) (hb : home b) (hj : head[j]? = some b) :
    Restores home slot head H (update disk b (disk (slot j))) := by
  constructor
  · intro i c hi
    have hne : slot i ≠ b := fun he => hslot i c hi (he ▸ hb)
    rw [update_of_ne hne, h.logged i c hi]
  · intro c hc hn
    have hne : c ≠ b := fun he => hn (he ▸ List.mem_of_getElem? hj)
    rw [update_of_ne hne, h.rest c hc hn]

/-- A block that has been installed holds what the store stands for. -/
theorem installed (hj : head[j]? = some b) : update disk b (disk (slot j)) b = H b := by
  rw [update_self, h.logged j b hj]

/-- With every listed block in place the log is no longer needed. -/
theorem rest_of_installed (hin : ∀ b ∈ head, disk b = H b)
    (b : ℕ) (hb : home b) : disk b = H b := by
  by_cases hm : b ∈ head
  · exact hin b hm
  · exact h.rest b hb hm

end Restores

end Xv6Swap
