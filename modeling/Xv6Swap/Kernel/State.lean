import Xv6Swap.Lib.Run
import Xv6Swap.Kernel.Riscv

/-!
# The state of the memory system

`KState` is what the functions of `kernel/kalloc.c`, `kernel/vm.c` and the swap part of
`kernel/fs.c` read and write: physical memory, the free list threaded through it, `pages[]` with
the LRU list threaded through it, the swap bitmap and the disk.

* Page tables, the free list's links and the swap bitmap are bytes of `mem`, as in the kernel.
* The disk is seen block by block through the buffer cache: `bread` gives the current contents
  of a block and `bwrite` replaces them.
* `Link` holds the addresses the linker script `kernel/kernel.ld` assigns, with what it
  guarantees about them.
* `trace` is a history variable: the calls of `kalloc` and `kfree` so far, newest first.  No
  function reads it.

The kernel's functions are programs of the type `K`.
-/

namespace Xv6Swap

open Run

/-- The panics of the functions modelled here. -/
inductive Panic where
  | pa2pageidx | walk | mappagesVa | mappagesSizeAlign | mappagesSize | mappagesRemap
  | uvmunmapWalk | uvmunmapNotMapped | uvmunmapNotLeaf | uvmfirst | freewalkLeaf
  | uvmcopyPte | uvmcopyPresent | uvmclear | swapinit | swapoutNoPte | swapoutVanished | kfree
  | swapreadRange | swapreadCopy | swapwriteRange | swapwriteCopy | loadseg | initExiting
  deriving DecidableEq, Repr

/-- Why a call does not return: a panic; an access of the kernel to an address that is not mapped,
such as a null pointer (a trap that ends in `panic("kerneltrap")`, or an access to a device, which
is not followed further); a store over the data or a stack of the kernel, after which anything may
happen; or a loop that goes on past the bound of the model. -/
inductive Stop where
  | panic (p : Panic)
  | trap
  | overwrite
  | loop
  deriving DecidableEq, Repr

/-- `struct page`: the links of the LRU list and the reverse map of a frame.  A pointer into
`pages[]` is an index, `none` is the null pointer. -/
structure Page where
  next : Option ℕ
  prev : Option ℕ
  pagetable : ℕ
  vaddr : ℕ

/-- The symbols of `kernel/kernel.ld`: the trampoline page inside the kernel text, the end of the
text and the end of the kernel. -/
structure Link where
  trampoline : ℕ
  etext : ℕ
  kend : ℕ
  trampoline_mod : trampoline % pgsize = 0
  base_le : kernbase ≤ trampoline
  trampoline_le : trampoline + pgsize ≤ etext
  etext_le : etext ≤ kend
  kend_le : kend ≤ phystop

/-- A call of the page allocator that has returned. -/
inductive Call where
  | kalloc (pa : ℕ)
  | kfree (pa : ℕ)
  deriving DecidableEq, Repr

/-- The state of the memory system. -/
structure KState where
  /-- The linker's symbols. -/
  link : Link
  /-- Physical memory, from the end of the kernel on. -/
  mem : Mem
  /-- The bytes of the kernel itself at its own addresses: its text, its data (where the variables
  below are) and its stacks.  No function depends on them but `kernelRead`. -/
  own : Mem
  /-- `kmem.freelist`, 0 when empty. -/
  freelist : ℕ
  /-- `pages[]`. -/
  pages : ℕ → Page
  /-- `lru_head`. -/
  lruHead : Option ℕ
  /-- `lru_tail`. -/
  lruTail : Option ℕ
  /-- `swap_bitmap`, the address of the bitmap. -/
  swapBitmap : ℕ
  /-- `swap_slots`. -/
  swapSlots : ℕ
  /-- The contents of the disk blocks. -/
  disk : ℕ → ℕ → Byte
  /-- `nr_sectors_read`. -/
  nrSectorsRead : BitVec 32
  /-- `nr_sectors_write`. -/
  nrSectorsWrite : BitVec 32
  /-- History of the allocator's calls. -/
  trace : List Call

/-- Programs of the kernel. -/
abbrev K := Run KState Stop

namespace K

/-- `panic(...)`. -/
def panic {α : Type} (p : Panic) : K α := stop (.panic p)

/-- Read the 64-bit word at a physical address. -/
def load (a : ℕ) : K Word := read fun σ => σ.mem.load64 a

/-- Write the 64-bit word at a physical address. -/
def store (a : ℕ) (w : Word) : K Unit :=
  modify fun σ => { σ with mem := σ.mem.store64 a w }

/-- `memset` of a page. -/
def memset (pa : ℕ) (c : Byte) : K Unit :=
  modify fun σ => { σ with mem := σ.mem.fill pa pgsize c }

/-- `memmove` of a page. -/
def memmove (dst src : ℕ) : K Unit :=
  modify fun σ => { σ with mem := σ.mem.copy dst src pgsize }

end K

end Xv6Swap
