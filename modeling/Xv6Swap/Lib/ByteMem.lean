import Mathlib.Data.List.GetD
import Mathlib.Data.Nat.Basic
import Mathlib.Tactic.SplitIfs
import Mathlib.Tactic.Ring

/-!
# Byte-addressed memory

A memory is a function from addresses to bytes.  Words of `n` bytes are stored little-endian:

* `Mem.loadLE`, `Mem.storeLE` : an `n`-byte number;
* `Mem.load64`, `Mem.store64` : a 64-bit word;
* `Mem.fill`, `Mem.copy` : fill a range, copy a range;
* `Mem.bytes`, `Mem.write` : a range as a list, and a list written to a range.

Two memories are compared range by range with `Mem.AgreeOn`.  A store is seen by a load of the
same address (`Mem.load64_store64_self`) and not by a load of another aligned address
(`Mem.load64_store64_of_ne`).  The last section is about single bits tested, set and cleared with
a mask.
-/

namespace Xv6Swap

open Function List Nat BitVec

/-- A byte. -/
abbrev Byte := BitVec 8

instance : LawfulBEq Byte := inferInstance

/-- A 64-bit word. -/
abbrev Word := BitVec 64

/-- A byte-addressed memory. -/
abbrev Mem := ℕ → Byte

namespace Mem

variable {a b k n : ℕ} {w : Word}

/-- The number stored little-endian in the `n` bytes at `a`. -/
def loadLE (m : Mem) : ℕ → ℕ → ℕ
  | 0, _ => 0
  | n + 1, a => (m a).toNat + 256 * loadLE m n (a + 1)

/-- Store the low `n` bytes of `v` little-endian at `a`. -/
def storeLE (m : Mem) (n a v : ℕ) : Mem := fun x =>
  if a ≤ x ∧ x < a + n then BitVec.ofNat 8 (v / 256 ^ (x - a)) else m x

/-- The 64-bit word at `a`. -/
def load64 (m : Mem) (a : ℕ) : Word := BitVec.ofNat 64 (m.loadLE 8 a)

/-- Store the 64-bit word `w` at `a`. -/
def store64 (m : Mem) (a : ℕ) (w : Word) : Mem := m.storeLE 8 a w.toNat

/-- Fill the `n` bytes at `a` with `c`. -/
def fill (m : Mem) (a n : ℕ) (c : Byte) : Mem := fun x => if a ≤ x ∧ x < a + n then c else m x

/-- Copy the `n` bytes at `src` to `dst`. -/
def copy (m : Mem) (dst src n : ℕ) : Mem := fun x =>
  if dst ≤ x ∧ x < dst + n then m (src + (x - dst)) else m x

/-- The `n` bytes at `a`, as a list. -/
def bytes (m : Mem) (a n : ℕ) : List Byte := (range n).map fun k => m (a + k)

/-- Copy a list of bytes to `dst`. -/
def write (m : Mem) (dst : ℕ) (l : List Byte) : Mem := fun x =>
  if dst ≤ x ∧ x < dst + l.length then l.getD (x - dst) 0 else m x

/-- The two memories have the same `n` bytes at `a`. -/
def AgreeOn (m m' : Mem) (a n : ℕ) : Prop := ∀ x, a ≤ x → x < a + n → m' x = m x

/-- The two memories differ at most in the `n` bytes at `a`. -/
def SameOutside (m m' : Mem) (a n : ℕ) : Prop := ∀ x, x < a ∨ a + n ≤ x → m' x = m x

variable {m m' m'' : Mem} {a b n k : ℕ}

namespace AgreeOn

theorem refl (m : Mem) (a n : ℕ) : AgreeOn m m a n := fun _ _ _ => rfl

theorem trans (h : AgreeOn m m' a n) (h' : AgreeOn m' m'' a n) : AgreeOn m m'' a n :=
  fun x h₁ h₂ => (h' x h₁ h₂).trans (h x h₁ h₂)

theorem mono (h : AgreeOn m m' a n) (h₁ : a ≤ b) (h₂ : b + k ≤ a + n) : AgreeOn m m' b k :=
  fun x hx hx' => h x (h₁.trans hx) (hx'.trans_le h₂)

end AgreeOn

namespace SameOutside

theorem trans (h : SameOutside m m' a n) (h' : SameOutside m' m'' a n) : SameOutside m m'' a n :=
  fun x hx => (h' x hx).trans (h x hx)

theorem mono (h : SameOutside m m' b k) (h₁ : a ≤ b) (h₂ : b + k ≤ a + n) :
    SameOutside m m' a n := fun x hx => h x (by omega)

theorem agreeOn (h : SameOutside m m' a n) (hd : b + k ≤ a ∨ a + n ≤ b) : AgreeOn m m' b k :=
  fun x h₁ h₂ => h x (by omega)

end SameOutside

theorem bytes_congr (h : AgreeOn m m' a n) : m'.bytes a n = m.bytes a n :=
  List.map_congr_left fun k hk => h (a + k) (by omega) (by have := mem_range.1 hk; omega)

theorem loadLE_congr (h : AgreeOn m m' a n) : m'.loadLE n a = m.loadLE n a := by
  induction n generalizing a with
  | zero => rfl
  | succ n ih =>
    simp only [loadLE]
    rw [h a (le_refl _) (by omega), ih fun x h₁ h₂ => h x (by omega) (by omega)]

theorem load64_congr (h : AgreeOn m m' a 8) : m'.load64 a = m.load64 a := by
  rw [load64, loadLE_congr h, load64]

variable (m)

theorem loadLE_lt (n a : ℕ) : m.loadLE n a < 256 ^ n := by
  induction n generalizing a with
  | zero => simp [loadLE]
  | succ n ih =>
    have hn := ih (a + 1)
    rw [loadLE, pow_succ]
    omega

/-- A load inside a stored number reads the corresponding digits. -/
theorem loadLE_storeLE_window (N a v : ℕ) :
    ∀ n k, k + n ≤ N → (m.storeLE N a v).loadLE n (a + k) = v / 256 ^ k % 256 ^ n := by
  intro n
  induction n with
  | zero => intro k _; simp [loadLE, mod_one]
  | succ n ih =>
    intro k hk
    have hnext := ih (k + 1) (by omega)
    have hbyte : (m.storeLE N a v) (a + k) = BitVec.ofNat 8 (v / 256 ^ k) := by
      rw [storeLE, if_pos ⟨by omega, by omega⟩, Nat.add_sub_cancel_left]
    have hpow : 256 ^ (n + 1) = 256 * 256 ^ n := pow_succ'
    have hdigit : (BitVec.ofNat 8 (v / 256 ^ k)).toNat = v / 256 ^ k % 256 := toNat_ofNat ..
    rw [loadLE, hbyte, add_assoc, hnext, hdigit, pow_succ 256 k,
      ← Nat.div_div_eq_div_mul, hpow, mod_mul]

theorem loadLE_storeLE_self (n a v : ℕ) : (m.storeLE n a v).loadLE n a = v % 256 ^ n := by
  have h := loadLE_storeLE_window m n a v n 0 (by omega)
  simpa using h

theorem sameOutside_storeLE (n a v : ℕ) : SameOutside m (m.storeLE n a v) a n :=
  fun _ hx => if_neg fun h => by omega

theorem sameOutside_fill (a n : ℕ) (c : Byte) : SameOutside m (m.fill a n c) a n :=
  fun _ hx => if_neg fun h => by omega

theorem sameOutside_copy (dst src n : ℕ) : SameOutside m (m.copy dst src n) dst n :=
  fun _ hx => if_neg fun h => by omega

theorem sameOutside_write (dst : ℕ) (l : List Byte) :
    SameOutside m (m.write dst l) dst l.length := fun _ hx => if_neg fun h => by omega

theorem sameOutside_store64 (a : ℕ) (w : Word) : SameOutside m (m.store64 a w) a 8 :=
  sameOutside_storeLE m 8 a _

theorem sameOutside_update (a : ℕ) (b : Byte) :
    SameOutside m (update m a b) a 1 := fun x hx =>
  update_of_ne (by omega) ..

@[simp] theorem load64_store64_self (a : ℕ) (w : Word) :
    (m.store64 a w).load64 a = w := by
  rw [load64, store64, loadLE_storeLE_self]
  apply eq_of_toNat_eq
  rw [toNat_ofNat]
  omega

theorem agreeOn_store64 (h : b + k ≤ a ∨ a + 8 ≤ b) :
    AgreeOn m (m.store64 a w) b k := (sameOutside_store64 m a w).agreeOn h

/-- Stores to another aligned word are not seen. -/
theorem load64_store64_of_ne (ha : a % 8 = 0) (hb : b % 8 = 0)
    (h : a ≠ b) : (m.store64 a w).load64 b = m.load64 b :=
  load64_congr (agreeOn_store64 m (by omega))

theorem agreeOn_fill {c : Byte} (h : b + k ≤ a ∨ a + n ≤ b) :
    AgreeOn m (m.fill a n c) b k := (sameOutside_fill m a n c).agreeOn h

/-! Writes to disjoint ranges commute. -/

theorem store64_store64_comm (h : a + 8 ≤ b ∨ b + 8 ≤ a) (w w' : Word) :
    (m.store64 a w).store64 b w' = (m.store64 b w').store64 a w := by
  funext x
  simp only [store64, storeLE]
  split_ifs <;> first | rfl | omega

theorem fill_store64_comm (h : a + 8 ≤ b ∨ b + n ≤ a) (c : Byte) (w : Word) :
    (m.fill b n c).store64 a w = (m.store64 a w).fill b n c := by
  funext x
  simp only [store64, storeLE, fill]
  split_ifs <;> first | rfl | omega

theorem update_store64_comm (h : a + 8 ≤ b ∨ b + 1 ≤ a) (c : Byte) (w : Word) :
    Mem.store64 (update m b c) a w = update (m.store64 a w) b c := by
  funext x
  by_cases hx : x = b
  · subst hx
    rw [update_self, sameOutside_store64 _ _ _ _ (by omega), update_self]
  · rw [update_of_ne hx]
    simp only [store64, storeLE, update_of_ne hx]

@[simp] theorem length_bytes (a n : ℕ) : (m.bytes a n).length = n := by simp [bytes]

theorem getD_bytes (h : k < n) : (m.bytes a n).getD k 0 = m (a + k) := by
  simp [bytes, getD_eq_getElem?_getD, h]

theorem write_bytes_apply (f : Mem) {dst x : ℕ} (h₁ : dst ≤ x) (h₂ : x < dst + n) :
    (m.write dst (f.bytes a n)) x = f (a + (x - dst)) := by
  rw [write, length_bytes, if_pos ⟨h₁, h₂⟩, getD_bytes f (by omega)]

/-- A word read from a zeroed range is zero. -/
theorem load64_fill_zero (h₁ : a ≤ b) (h₂ : b + 8 ≤ a + n) :
    (m.fill a n 0).load64 b = 0 := by
  have h0 : ∀ x, b ≤ x → x < b + 8 → (m.fill a n 0) x = 0 := fun x hx hx' =>
    if_pos ⟨by omega, by omega⟩
  have key : ∀ k c, b ≤ c → c + k ≤ b + 8 → (m.fill a n 0).loadLE k c = 0 := by
    intro k
    induction k with
    | zero => intro c _ _; rfl
    | succ k ih =>
      intro c hc hk
      rw [loadLE, h0 c hc (by omega), ih (c + 1) (by omega) (by omega)]
      rfl
  rw [load64, key 8 b (le_refl _) (le_refl _)]
  rfl

end Mem

/-! ### Single bits -/

section Bits

variable {w : ℕ} (e : BitVec w) {i k : ℕ}

theorem getLsbD_one_shiftLeft (hk : k < w) : (1#w <<< k).getLsbD i = decide (i = k) := by
  simp only [getLsbD_shiftLeft, getLsbD_one]
  by_cases hik : i = k
  · subst hik; simp [hk]; omega
  · by_cases hlt : i < k
    · simp [hlt, hik]
    · have : i - k ≠ 0 := by omega
      simp [this, hik]

theorem and_one_shiftLeft_eq_zero (hk : k < w) : e &&& (1#w <<< k) = 0 ↔ e.getLsbD k = false := by
  constructor
  · intro h
    have := congrArg (fun w => getLsbD w k) h
    simpa [getLsbD_one_shiftLeft hk] using this
  · intro h
    apply eq_of_getLsbD_eq
    intro i hi
    rw [getLsbD_and, getLsbD_one_shiftLeft hk]
    by_cases hik : i = k
    · subst hik; simp [h]
    · simp [hik]

theorem getLsbD_or_one_shiftLeft (hk : k < w) :
    (e ||| (1#w <<< k)).getLsbD i = (e.getLsbD i || decide (i = k)) := by
  rw [getLsbD_or, getLsbD_one_shiftLeft hk]

theorem getLsbD_and_not_one_shiftLeft (hk : k < w) (hi : i < w) :
    (e &&& ~~~(1#w <<< k)).getLsbD i = (e.getLsbD i && !decide (i = k)) := by
  rw [getLsbD_and, getLsbD_not, getLsbD_one_shiftLeft hk]
  simp [hi]

end Bits

end Xv6Swap
