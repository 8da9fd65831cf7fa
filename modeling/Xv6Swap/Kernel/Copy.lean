import Xv6Swap.Kernel.State

/-!
# Walking page tables and copying to and from user memory

`walk` of `kernel/vm.c` descends a three-level page table.  With `alloc` it asks the page
allocator for missing tables, and the allocator may call `swapout`, which walks page tables
without `alloc`; so `walkWith` takes the allocator as an argument, and `walk0` is the instance
that never allocates.

The copies between the kernel and user memory (`copyout`, `copyin`, `copyinstr`, `either_copyout`,
`either_copyin`) walk without allocating.  A copy to the kernel returns the bytes it has stored
at the destination, also when it fails.
-/

namespace Xv6Swap

open K Run

/-- The loop of `walk`, from the page-table page `pagetable` of a level down to level 0. -/
def walkLevel (kalloc : K (Option ℕ)) (va : ℕ) (alloc : Bool) : ℕ → ℕ → K (Option ℕ)
  | 0, pagetable => pure (some (pagetable + 8 * px 0 va))
  | level + 1, pagetable => do
    let pte := pagetable + 8 * px (level + 1) va
    let e ← load pte
    if has e pteV then
      walkLevel kalloc va alloc level (pte2pa e)
    else if alloc then
      match ← kalloc with
      | none => pure none
      | some pa => do
        memset pa 0
        store pte (pa2pte pa ||| pteV)
        walkLevel kalloc va alloc level pa
    else
      pure none

/-- `walk` with the page allocator `kalloc`: the address of the entry for `va`, or `none`. -/
def walkWith (kalloc : K (Option ℕ)) (pagetable va : ℕ) (alloc : Bool) : K (Option ℕ) :=
  if va ≥ maxva then panic .walk else walkLevel kalloc va alloc 2 pagetable

/-- `walk(pagetable, va, 0)`. -/
def walk0 (pagetable va : ℕ) : K (Option ℕ) := walkWith (pure none) pagetable va false

/-- `walkaddr`: the physical address of a user page, 0 if it is not mapped. -/
def walkaddr (pagetable va : ℕ) : K ℕ :=
  if va ≥ maxva then pure 0
  else do
    match ← walk0 pagetable va with
    | none => pure 0
    | some pte => do
      let e ← load pte
      if !has e pteV then pure 0
      else if !has e pteU then pure 0
      else pure (pte2pa e)

/-! ### Copies -/

/-- The loop of `copyout`; the first argument bounds the number of iterations. -/
def copyoutLoop (pagetable : ℕ) : ℕ → ℕ → List Byte → K ℤ
  | _, _, [] => pure 0
  | 0, _, _ :: _ => stop .loop
  | k + 1, dstva, b :: bs => do
    let src := b :: bs
    let va0 := pgrounddown dstva
    if va0 ≥ maxva then pure (-1)
    else
      match ← walk0 pagetable va0 with
      | none => pure (-1)
      | some pte => do
        let e ← load pte
        if !has e pteV || !has e pteU || !has e pteW then pure (-1)
        else do
          let pa0 := pte2pa e
          let n := min (pgsize - (dstva - va0)) src.length
          modify fun σ => { σ with mem := σ.mem.write (pa0 + (dstva - va0)) (src.take n) }
          copyoutLoop pagetable k (va0 + pgsize) (src.drop n)

/-- `copyout`: copy the bytes `src` to the user address `dstva`. -/
def copyout (pagetable dstva : ℕ) (src : List Byte) : K ℤ :=
  copyoutLoop pagetable src.length dstva src

/-- `copyout` to `addr + i`, where `addr` is what the caller of a system call has passed. -/
def copyoutAt (pagetable addr i : ℕ) (src : List Byte) : K ℤ :=
  copyout pagetable ((addr + i) % 2 ^ 64) src

/-- `copyout` of one byte to `addr + i`. -/
def copyoutByte (pagetable addr i : ℕ) (b : Byte) : K ℤ := copyoutAt pagetable addr i [b]

/-- The loop of `copyin`; the first argument bounds the number of iterations. -/
def copyinLoop (pagetable : ℕ) : ℕ → ℕ → ℕ → K (ℤ × List Byte)
  | _, _, 0 => pure (0, [])
  | 0, _, _ + 1 => stop .loop
  | k + 1, srcva, l + 1 => do
    let len := l + 1
    let va0 := pgrounddown srcva
    let pa0 ← walkaddr pagetable va0
    if pa0 = 0 then pure (-1, [])
    else do
      let n := min (pgsize - (srcva - va0)) len
      let chunk ← read fun σ => σ.mem.bytes (pa0 + (srcva - va0)) n
      let r ← copyinLoop pagetable k (va0 + pgsize) (len - n)
      pure (r.1, chunk ++ r.2)

/-- `copyin`: copy `len` bytes from the user address `srcva`. -/
def copyin (pagetable srcva len : ℕ) : K (ℤ × List Byte) := copyinLoop pagetable len srcva len

/-- The inner loop of `copyinstr`: the bytes stored up to and including the first 0, and whether
there was one. -/
def scanNull : List Byte → List Byte × Bool
  | [] => ([], false)
  | b :: bs =>
    if b = 0 then ([0], true)
    else
      let r := scanNull bs
      (b :: r.1, r.2)

/-- The loop of `copyinstr`; the first argument bounds the number of iterations. -/
def copyinstrLoop (pagetable : ℕ) : ℕ → ℕ → ℕ → K (ℤ × List Byte)
  | _, _, 0 => pure (-1, [])
  | 0, _, _ + 1 => stop .loop
  | k + 1, srcva, l + 1 => do
    let max := l + 1
    let va0 := pgrounddown srcva
    let pa0 ← walkaddr pagetable va0
    if pa0 = 0 then pure (-1, [])
    else do
      let n := min (pgsize - (srcva - va0)) max
      let p ← read fun σ => scanNull (σ.mem.bytes (pa0 + (srcva - va0)) n)
      if p.2 then pure (0, p.1)
      else do
        let r ← copyinstrLoop pagetable k (va0 + pgsize) (max - n)
        pure (r.1, p.1 ++ r.2)

/-- `copyinstr`: copy a NUL-terminated string of at most `max` bytes from `srcva`. -/
def copyinstr (pagetable srcva max : ℕ) : K (ℤ × List Byte) :=
  copyinstrLoop pagetable max srcva max

/-- The `len` bytes at `a` are on a kernel stack. -/
def OnStack (a len : ℕ) : Prop := ∃ p < nproc, kstack p ≤ a ∧ a + len ≤ kstack p + pgsize

instance (a len : ℕ) : Decidable (OnStack a len) := by unfold OnStack; infer_instance

/-- `kvmmake` maps the `len` bytes at `a`: physical memory at its own address, `TRAMPOLINE` and the
kernel stacks. -/
def KernelMapped (a len : ℕ) : Prop :=
  kernbase ≤ a ∧ a + len ≤ phystop ∨ trampolineVa ≤ a ∧ a + len ≤ maxva ∨ OnStack a len

instance (a len : ℕ) : Decidable (KernelMapped a len) := by unfold KernelMapped; infer_instance

/-- What the kernel finds at its addresses. -/
def KState.view (σ : KState) : Mem := fun a =>
  if σ.link.kend ≤ a ∧ a < phystop then σ.mem a else σ.own a

/-- `memmove` to a kernel address.  Physical memory from the end of the text on and the stacks are
mapped writable; below its end the data of the kernel are overwritten. -/
def kernelWrite (dst : ℕ) (src : List Byte) : K Unit := do
  let link ← read KState.link
  if link.kend ≤ dst ∧ dst + src.length ≤ phystop then
    modify fun σ => { σ with mem := σ.mem.write dst src }
  else if link.etext ≤ dst ∧ dst + src.length ≤ phystop ∨ OnStack dst src.length then
    stop .overwrite
  else stop .trap

/-- `memmove` from a kernel address. -/
def kernelRead (src len : ℕ) : K (List Byte) :=
  if KernelMapped src len then read fun σ => σ.view.bytes src len
  else stop .trap

/-- `either_copyout`: to the user address `dst` of a page table, or to a kernel address. -/
def eitherCopyout (userDst : Option ℕ) (dst : ℕ) (src : List Byte) : K ℤ :=
  match userDst with
  | some pagetable => copyout pagetable dst src
  | none => do
    kernelWrite dst src
    pure 0

/-- `either_copyin`: from the user address `src` of a page table, or from a kernel address. -/
def eitherCopyin (userSrc : Option ℕ) (src len : ℕ) : K (ℤ × List Byte) :=
  match userSrc with
  | some pagetable => copyin pagetable src len
  | none => do
    let bs ← kernelRead src len
    pure (0, bs)

end Xv6Swap
