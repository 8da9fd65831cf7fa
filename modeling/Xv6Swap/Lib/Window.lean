import Mathlib.Algebra.Group.Nat.Defs
import Mathlib.Data.List.Basic
import Mathlib.Data.Finset.Card
import Mathlib.Data.Finset.Range

/-!
# A sequence seen through a ring

A ring of `n` cells holds the entries of a growing sequence `l` from the position `a` on: the entry
`k` is in the cell `k % n`.  The producer writes the next entry and then counts it, the consumer
reads at `a`; the counters are words of fixed width that wrap around.

* `Window n ring l a` : the entries from `a` on are in the ring;
* `Window.write`, `Window.append`, `Window.advance` : the steps of the producer and the consumer;
* `ofNat_eq_ofNat_iff`, `toNat_ofNat_mod` : comparing wrapped counters, and indexing with them;
* `length_le_of_nodup` : a list of different numbers below `n` has at most `n` entries.
-/

namespace Xv6Swap

open List Nat Finset

variable {α : Type} {n a w : ℕ} {ring : ℕ → α} {l : List α} {x : α}

/-- The entries of `l` from `a` on are in the ring. -/
def Window (n : ℕ) (ring : ℕ → α) (l : List α) (a : ℕ) : Prop :=
  ∀ k x, a ≤ k → l[k]? = some x → ring (k % n) = x

/-- Two positions less than `n` apart are in different cells. -/
theorem mod_ne_mod {j k : ℕ} (h : j < k) (hn : k < j + n) : j % n ≠ k % n := by
  intro e
  have := sub_mod_eq_zero_of_mod_eq e.symm
  rw [mod_eq_of_lt (by omega)] at this
  omega

/-- The cell of the next entry is written, while the consumer is less than a round behind. -/
theorem Window.write (h : Window n ring l a) (hn : l.length < a + n) (x : α) :
    Window n (Function.update ring (l.length % n) x) l a := by
  intro k y hk hy
  have hlt : k < l.length := (List.getElem?_eq_some_iff.1 hy).1
  rw [Function.update_of_ne (mod_ne_mod hlt (by omega))]
  exact h k y hk hy

/-- The entry that has been written is counted. -/
theorem Window.append (h : Window n ring l a) (hx : ring (l.length % n) = x) :
    Window n ring (l ++ [x]) a := by
  intro k y hk hy
  rcases lt_or_ge k l.length with hlt | hge
  · rw [getElem?_append_left hlt] at hy
    exact h k y hk hy
  · rw [getElem?_append_right hge, getElem?_singleton] at hy
    split_ifs at hy with h0
    cases hy
    rwa [show k = l.length by omega]

theorem Window.advance (h : Window n ring l a) : Window n ring l (a + 1) :=
  fun k y hk hy => h k y (by omega) hy

/-! ### Wrapping counters -/

theorem ofNat_eq_ofNat_iff {b : ℕ} (hab : a ≤ b) (hlt : b < a + 2 ^ w) :
    BitVec.ofNat w a = BitVec.ofNat w b ↔ a = b := by
  refine ⟨fun h => ?_, fun h => by rw [h]⟩
  have := congrArg BitVec.toNat h
  simp only [BitVec.toNat_ofNat] at this
  by_contra hne
  exact mod_ne_mod (Nat.lt_of_le_of_ne hab hne) hlt this

theorem toNat_ofNat_mod (hn : n ∣ 2 ^ w) : (BitVec.ofNat w a).toNat % n = a % n := by
  rw [BitVec.toNat_ofNat, mod_mod_of_dvd _ hn]

theorem ofNat_succ : BitVec.ofNat w a + 1#w = BitVec.ofNat w (a + 1) := by
  rw [← BitVec.ofNat_add]

theorem length_le_of_nodup {l : List ℕ} (h : l.Nodup) (hlt : ∀ i ∈ l, i < n) : l.length ≤ n := by
  have hsub : l.toFinset ⊆ range n := fun i hi =>
    Finset.mem_range.2 (hlt i (mem_toFinset.1 hi))
  have := card_le_card hsub
  rwa [card_range, toFinset_card_of_nodup h] at this

end Xv6Swap
