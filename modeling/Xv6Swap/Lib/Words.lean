import Xv6Swap.Lib.ByteMem
import Mathlib.Algebra.BigOperators.Group.List.Basic

/-!
# Records and arrays in a byte-addressed memory

Consecutive numbers stored little-endian, as in a C structure without padding or a C array:

* `Mem.storeFields`, `Mem.loadLE_storeFields` : fields of given widths, and what is loaded back;
* `Mem.loadWords`, `Mem.storeWords` : an array of numbers of one width;
* `Mem.loadLE_storeWords` : the round trip of an array;
* `Mem.sameOutside_storeFields`, `Mem.sameOutside_storeWords` : nothing else changes.
-/

namespace Xv6Swap.Mem

open List Nat

theorem loadLE_of_sameOutside {m m' : Mem} {a n b k : ℕ} (h : SameOutside m m' a n)
    (hd : b + k ≤ a ∨ a + n ≤ b) : m'.loadLE k b = m.loadLE k b :=
  loadLE_congr (h.agreeOn hd)

/-! ### Records -/

/-- Store fields, each a width and a number, one after the other from `a` on. -/
def storeFields (m : Mem) (a : ℕ) : List (ℕ × ℕ) → Mem
  | [] => m
  | (w, v) :: l => storeFields (m.storeLE w a v) (a + w) l

/-- The number of bytes of some fields. -/
def width (l : List (ℕ × ℕ)) : ℕ := (l.map Prod.fst).sum

@[simp] theorem width_nil : width [] = 0 := rfl

@[simp] theorem width_cons (f : ℕ × ℕ) (l : List (ℕ × ℕ)) : width (f :: l) = f.1 + width l :=
  sum_cons

theorem width_map_pair (w : ℕ) (l : List ℕ) : width (l.map fun v => (w, v)) = w * l.length := by
  induction l with
  | nil => rfl
  | cons v l ih => rw [map_cons, width_cons, ih, length_cons]; ring

theorem sameOutside_storeFields (m : Mem) (a : ℕ) (l : List (ℕ × ℕ)) :
    SameOutside m (m.storeFields a l) a (width l) := by
  induction l generalizing m a with
  | nil => exact fun _ _ => rfl
  | cons f l ih =>
    rw [width_cons]
    refine SameOutside.trans ((sameOutside_storeLE m f.1 a f.2).mono (le_refl _) (by omega)) ?_
    exact (ih (m.storeLE f.1 a f.2) (a + f.1)).mono (by omega) (by omega)

/-- **What is loaded from a stored record.** -/
theorem loadLE_storeFields (m : Mem) (a : ℕ) (l : List (ℕ × ℕ)) (i : ℕ) (h : i < l.length) :
    (m.storeFields a l).loadLE l[i].1 (a + width (l.take i)) = l[i].2 % 256 ^ l[i].1 := by
  induction l generalizing m a i with
  | nil => cases h
  | cons f l ih =>
    cases i with
    | zero =>
      change ((m.storeLE f.1 a f.2).storeFields (a + f.1) l).loadLE f.1 (a + 0) = _
      rw [add_zero, loadLE_of_sameOutside (sameOutside_storeFields _ (a + f.1) l)
        (.inl (by omega)), loadLE_storeLE_self]
      rfl
    | succ i =>
      have hi := ih (m.storeLE f.1 a f.2) (a + f.1) i (lt_of_succ_lt_succ h)
      rwa [add_assoc, ← width_cons] at hi

/-! ### Arrays -/

/-- The array of `n` numbers of `w` bytes at `a`. -/
def loadWords (m : Mem) (w a n : ℕ) : List ℕ := (range n).map fun i => m.loadLE w (a + w * i)

/-- Store an array of numbers of `w` bytes at `a`. -/
def storeWords (m : Mem) (w a : ℕ) (l : List ℕ) : Mem := m.storeFields a (l.map fun v => (w, v))

@[simp] theorem length_loadWords (m : Mem) (w a n : ℕ) : (m.loadWords w a n).length = n := by
  simp [loadWords]

theorem sameOutside_storeWords (m : Mem) (w a : ℕ) (l : List ℕ) :
    SameOutside m (m.storeWords w a l) a (w * l.length) := by
  rw [← width_map_pair]
  exact sameOutside_storeFields m a _

theorem loadLE_storeWords (m : Mem) (w a : ℕ) (l : List ℕ) (i : ℕ) (h : i < l.length) :
    (m.storeWords w a l).loadLE w (a + w * i) = l[i] % 256 ^ w := by
  have hf := loadLE_storeFields m a (l.map fun v => (w, v)) i (by simpa using h)
  rw [← map_take, width_map_pair, length_take, min_eq_left (le_of_lt h)] at hf
  simpa only [getElem_map, storeWords] using hf

end Xv6Swap.Mem
