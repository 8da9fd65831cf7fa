import Xv6Swap.Lib.ByteMem

/-!
# Pages, addresses and page-table entries

The constants and macros of `kernel/riscv.h`, `kernel/memlayout.h` and `kernel/param.h` that the
memory system uses.  Addresses and sizes are natural numbers below `2 ^ 64`; the places where the
C arithmetic can wrap say so with `% 2 ^ 64`.  A page-table entry is a 64-bit word.

An entry holds a page number in its bits 10 and up and ten flag bits below.  The lemmas here say
that the two halves do not interfere: building an entry and taking it apart again gives back the
address (`pte2pa_pa2pte_or`) or the swap slot (`pte2pa_slot_or`) and the flags
(`getLsbD_shiftLeft_or`).
-/

namespace Xv6Swap

open Nat BitVec

variable {k s f i : ℕ} {w e e' : Word}

/-! ### Layout -/

/-- `PGSIZE`: bytes per page. -/
abbrev pgsize : ℕ := 4096

/-- `BSIZE`: bytes per disk block. -/
abbrev bsize : ℕ := 1024

/-- `BLKS_PER_PG`: disk blocks per page. -/
abbrev blksPerPg : ℕ := pgsize / bsize

/-- `KERNBASE`: the start of physical memory. -/
abbrev kernbase : ℕ := 0x80000000

/-- `PHYSTOP`: the end of physical memory. -/
abbrev phystop : ℕ := kernbase + 128 * 1024 * 1024

/-- The number of entries of `pages[]`. -/
abbrev npages : ℕ := (phystop - kernbase) / pgsize

/-- `MAXVA`: one beyond the highest virtual address. -/
abbrev maxva : ℕ := 2 ^ (9 + 9 + 9 + 12 - 1)

/-- `TRAMPOLINE`: the highest page. -/
abbrev trampolineVa : ℕ := maxva - pgsize

/-- `TRAPFRAME`: the page below it. -/
abbrev trapframeVa : ℕ := trampolineVa - pgsize

/-- `NPROC`. -/
abbrev nproc : ℕ := 64

/-- `KSTACK(p)`: the kernel stacks, with a page that is not mapped above each. -/
def kstack (p : ℕ) : ℕ := trampolineVa - (p + 1) * 2 * pgsize

/-- The number of pages below `TRAPFRAME`: user pages have page numbers below `uvpn`. -/
abbrev uvpn : ℕ := trapframeVa / pgsize

/-- The page number of `TRAMPOLINE`; the one of `TRAPFRAME` is `uvpn`. -/
abbrev trampolineVpn : ℕ := trampolineVa / pgsize

/-- `FSSIZE`: size of the disk in blocks. -/
abbrev fssize : ℕ := 30000

/-- `SWAPBASE`: the first block of the swap area. -/
abbrev swapbase : ℕ := 2000

/-- `SWAPMAX`: the number of blocks of the swap area. -/
abbrev swapmax : ℕ := 30000 - swapbase

/-- `PGROUNDUP`, in 64-bit arithmetic. -/
def pgroundup (sz : ℕ) : ℕ := (sz + (pgsize - 1)) % 2 ^ 64 / pgsize * pgsize

/-- `PGROUNDDOWN`. -/
def pgrounddown (a : ℕ) : ℕ := a / pgsize * pgsize

/-- `PX(level, va)`: the index into the page-table page of a level. -/
def px (level va : ℕ) : ℕ := (va >>> (12 + 9 * level)) &&& 0x1FF

theorem px_eq (level va : ℕ) : px level va = va / 2 ^ (12 + 9 * level) % 512 := by
  rw [px, shiftRight_eq_div_pow, show 0x1FF = 2 ^ 9 - 1 by rfl, and_two_pow_sub_one_eq_mod]

theorem px_lt (level va : ℕ) : px level va < 512 := by
  rw [px_eq]; exact mod_lt _ (by decide)

/-! ### Page-table entries -/

/-- `PTE_V`: valid. -/
def pteV : Word := 1 <<< 0
/-- `PTE_R`: readable. -/
def pteR : Word := 1 <<< 1
/-- `PTE_W`: writable. -/
def pteW : Word := 1 <<< 2
/-- `PTE_X`: executable. -/
def pteX : Word := 1 <<< 3
/-- `PTE_U`: the user can access it. -/
def pteU : Word := 1 <<< 4
/-- `PTE_A`: accessed. -/
def pteA : Word := 1 <<< 6
/-- The dirty bit of the hardware. -/
def pteD : Word := 1 <<< 7
/-- `PTE_SWAPPED`: the page is in a swap slot. -/
def pteSwapped : Word := 1 <<< 9

/-- `PA2PTE`. -/
def pa2pte (pa : ℕ) : Word := (BitVec.ofNat 64 pa >>> 12) <<< 10

/-- `PTE2PA`. -/
def pte2pa (e : Word) : ℕ := ((e >>> 10) <<< 12).toNat

/-- `PTE_FLAGS`. -/
def pteFlags (e : Word) : Word := e &&& 0x3FF

/-- The test `e & flag` of an `if`. -/
def has (e flag : Word) : Bool := e &&& flag != 0

/-- The slot number kept in the entry of a swapped page. -/
def pteSlot (e : Word) : ℕ := pte2pa e / pgsize

/-- The permission bits R, W, X and U. -/
def perms (e : Word) : Word := e &&& (pteR ||| pteW ||| pteX ||| pteU)

theorem has_shiftLeft (e : Word) (hk : k < 64) : has e (1#64 <<< k) = e.getLsbD k := by
  have h := and_one_shiftLeft_eq_zero e hk
  unfold has
  cases hb : e.getLsbD k
  · simpa using h.2 hb
  · have : ¬ e &&& (1#64 <<< k) = 0 := fun h0 => by simp [h.1 h0] at hb
    simpa using this

@[simp] theorem has_pteV (e : Word) : has e pteV = e.getLsbD 0 := has_shiftLeft e (by decide)
@[simp] theorem has_pteR (e : Word) : has e pteR = e.getLsbD 1 := has_shiftLeft e (by decide)
@[simp] theorem has_pteW (e : Word) : has e pteW = e.getLsbD 2 := has_shiftLeft e (by decide)
@[simp] theorem has_pteU (e : Word) : has e pteU = e.getLsbD 4 := has_shiftLeft e (by decide)
@[simp] theorem has_pteA (e : Word) : has e pteA = e.getLsbD 6 := has_shiftLeft e (by decide)
@[simp] theorem has_pteSwapped (e : Word) : has e pteSwapped = e.getLsbD 9 :=
  has_shiftLeft e (by decide)

/-! ### The two halves of an entry -/

/-- A word of flags only. -/
def IsFlags (w : Word) : Prop := w.toNat < 1024

theorem isFlags_pteFlags (e : Word) : IsFlags (pteFlags e) := by
  rw [IsFlags, pteFlags, toNat_and]
  exact lt_of_le_of_lt and_le_right (by decide)

theorem IsFlags.or {w' : Word} (h : IsFlags w) (h' : IsFlags w') : IsFlags (w ||| w') := by
  rw [IsFlags, toNat_or]; exact or_lt_two_pow (n := 10) h h'

theorem IsFlags.and_left (h : IsFlags w) (w' : Word) : IsFlags (w &&& w') := by
  rw [IsFlags, toNat_and]; exact lt_of_le_of_lt and_le_left h

theorem pte2pa_eq (e : Word) : pte2pa e = e.toNat / 1024 % 2 ^ 52 * 4096 := by
  have h := e.isLt
  rw [pte2pa, BitVec.toNat_shiftLeft, BitVec.toNat_ushiftRight, Nat.shiftRight_eq_div_pow,
    Nat.shiftLeft_eq]
  omega

theorem pte2pa_mod (e : Word) : pte2pa e % 4096 = 0 := by
  rw [pte2pa_eq]; omega

theorem toNat_shiftLeft_or {p : ℕ} (hp : p < 2 ^ 54) (hw : IsFlags w) :
    (BitVec.ofNat 64 p <<< 10 ||| w).toNat = 1024 * p + w.toNat := by
  have hp' : (BitVec.ofNat 64 p <<< 10).toNat = 2 ^ 10 * p := by
    rw [BitVec.toNat_shiftLeft, BitVec.toNat_ofNat, Nat.shiftLeft_eq]; omega
  rw [toNat_or, hp', ← two_pow_add_eq_or_of_lt (i := 10) hw]

theorem pte2pa_slot_or (hs : s < 2 ^ 52) (hw : IsFlags w) :
    pte2pa (BitVec.ofNat 64 s <<< 10 ||| w) = s * 4096 := by
  have hw' : w.toNat < 1024 := hw
  rw [pte2pa_eq, toNat_shiftLeft_or (by omega) hw]
  omega

theorem pteSlot_slot_or (hs : s < 2 ^ 52) (hw : IsFlags w) :
    pteSlot (BitVec.ofNat 64 s <<< 10 ||| w) = s := by
  rw [pteSlot, pte2pa_slot_or hs hw, Nat.mul_div_cancel _ (by decide)]

theorem pa2pte_eq (hf : f < 2 ^ 56) : pa2pte f = BitVec.ofNat 64 (f / 4096) <<< 10 := by
  rw [pa2pte]
  congr 1
  apply eq_of_toNat_eq
  rw [toNat_ushiftRight, toNat_ofNat, toNat_ofNat, shiftRight_eq_div_pow]
  omega

theorem pte2pa_pa2pte_or (hf : f < 2 ^ 56) (ha : f % 4096 = 0)
    (hw : IsFlags w) : pte2pa (pa2pte f ||| w) = f := by
  rw [pa2pte_eq hf, pte2pa_slot_or (by omega) hw]
  omega

theorem getLsbD_shiftLeft_or (x w : Word) (hi : i < 10) :
    (x <<< 10 ||| w).getLsbD i = w.getLsbD i := by
  simp [getLsbD_or, getLsbD_shiftLeft, hi]

@[simp] theorem getLsbD_pteFlags (e : Word) (hi : i < 10) :
    (pteFlags e).getLsbD i = e.getLsbD i := by
  have h : (0x3FF : Word).getLsbD i = true := by
    revert i; decide
  rw [pteFlags, getLsbD_and, h, Bool.and_true]

/-- Entries that agree on the bits R, W, X and U have the same permissions. -/
theorem perms_congr (h : ∀ i, 1 ≤ i → i ≤ 4 → e.getLsbD i = e'.getLsbD i) : perms e = perms e' := by
  have hmask : ∀ i < 64, (pteR ||| pteW ||| pteX ||| pteU).getLsbD i = true →
      1 ≤ i ∧ i ≤ 4 := by decide
  apply eq_of_getLsbD_eq
  intro i hi
  simp only [perms, getLsbD_and]
  cases hb : (pteR ||| pteW ||| pteX ||| pteU).getLsbD i
  · simp
  · rw [h i (hmask i hi hb).1 (hmask i hi hb).2]

/-- Entries that agree on the bits above the flags have the same address. -/
theorem pte2pa_congr (h : ∀ i, 10 ≤ i → i < 64 → e.getLsbD i = e'.getLsbD i) :
    pte2pa e = pte2pa e' := by
  have hshift : e >>> 10 = e' >>> 10 := by
    apply eq_of_getLsbD_eq
    intro i hi
    rw [getLsbD_ushiftRight, getLsbD_ushiftRight]
    by_cases hlt : 10 + i < 64
    · exact h _ (by omega) hlt
    · rw [getLsbD_of_ge _ _ (by omega), getLsbD_of_ge _ _ (by omega)]
  rw [pte2pa, pte2pa, hshift]

theorem pte2pa_clear (e : Word) (hk : k < 10) : pte2pa (e &&& ~~~(1#64 <<< k)) = pte2pa e :=
  pte2pa_congr fun i hi hi' => by
    rw [getLsbD_and_not_one_shiftLeft _ (by omega) hi']
    simp [show i ≠ k by omega]

end Xv6Swap
