import Xv6Swap.Kernel.Vm

/-!
# User accesses and system-call arguments

What a process does to its own memory: the hardware translates a load or a store through the page
table and sets the accessed and dirty bits (`translate`); a page fault enters `usertrap` of
`kernel/trap.c`, which calls `swapin`; a system call fetches arguments (`fetchaddr`, `fetchstr` of
`kernel/syscall.c`).  The swap system calls are those of `kernel/sysfile.c`.
-/

namespace Xv6Swap

open K Run

/-! ### The hardware -/

/-- The hardware's translation of a user access to `va` that needs the bit `need` of the entry: the
physical address, or `none` for a page fault.  It sets the accessed bit, and the dirty bit when
the access is a store. -/
def translate (pagetable va : ℕ) (need : Word) (store : Bool) : K (Option ℕ) :=
  if va ≥ maxva then pure none
  else do
    match ← walk0 pagetable va with
    | none => pure none
    | some pte => do
      let e ← load pte
      if !has e pteV || !has e pteU || !has e need then pure none
      else do
        K.store pte (if store then e ||| pteA ||| pteD else e ||| pteA)
        pure (some (pte2pa e + va % pgsize))

/-- A load of the user: the byte at `va`, or `none` for a page fault. -/
def userLoad (pagetable va : ℕ) : K (Option Byte) := do
  match ← translate pagetable va pteR false with
  | none => pure none
  | some pa => do
    let b ← read fun σ => σ.mem pa
    pure (some b)

/-- A store of the user: whether it was done, or `false` for a page fault. -/
def userStore (pagetable va : ℕ) (b : Byte) : K Bool := do
  match ← translate pagetable va pteW true with
  | none => pure false
  | some pa => do
    modify fun σ => { σ with mem := Function.update σ.mem pa b }
    pure true

/-- The page-fault branch of `usertrap`: whether the process goes on; if not, it is killed. -/
def usertrapFault (pagetable va : ℕ) : K Bool :=
  if va ≥ maxva then pure false
  else do
    let r ← swapin pagetable va
    pure (decide (0 ≤ r))

/-! ### Arguments of system calls -/

/-- `fetchaddr`: the word at `addr` of a process of size `sz`, as its bytes. -/
def fetchaddr (pagetable sz addr : ℕ) : K (ℤ × List Byte) :=
  if addr ≥ sz ∨ (addr + 8) % 2 ^ 64 > sz then pure (-1, [])
  else do
    let r ← copyin pagetable addr 8
    if r.1 ≠ 0 then pure (-1, r.2) else pure (0, r.2)

/-- `strlen` of a buffer: the number of bytes before the first 0. -/
def strlen (buf : List Byte) : ℕ := (buf.takeWhile (· ≠ 0)).length

/-- `fetchstr`: the length of the string at `addr`, or -1, and the bytes stored in the buffer. -/
def fetchstr (pagetable addr max : ℕ) : K (ℤ × List Byte) := do
  let r ← copyinstr pagetable addr max
  if r.1 < 0 then pure (-1, r.2) else pure (strlen r.2, r.2)

/-- `argint`: a register as a 32-bit integer. -/
def argint (a : Word) : ℤ := (a.setWidth 32).toInt

/-! ### The swap system calls -/

/-- `sys_swapread`. -/
def sysSwapread (a0 a1 : Word) : K ℤ := do
  swapread a0.toNat (argint a1)
  pure 0

/-- `sys_swapwrite`. -/
def sysSwapwrite (a0 a1 : Word) : K ℤ := do
  swapwrite a0.toNat (argint a1)
  pure 0

/-- The bytes of an `int`. -/
def intBytes (n : BitVec 32) : List Byte :=
  (List.range 4).map fun k => BitVec.ofNat 8 (n.toNat / 256 ^ k)

/-- `sys_swapstat`. -/
def sysSwapstat (pagetable : ℕ) (a0 a1 : Word) : K ℤ := do
  let nrRead ← read KState.nrSectorsRead
  let r ← copyout pagetable a0.toNat (intBytes nrRead)
  if r < 0 then pure (-1)
  else do
    let nrWrite ← read KState.nrSectorsWrite
    let r ← copyout pagetable a1.toNat (intBytes nrWrite)
    if r < 0 then pure (-1) else pure 0

end Xv6Swap
