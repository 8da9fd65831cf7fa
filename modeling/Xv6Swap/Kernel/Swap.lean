import Xv6Swap.Kernel.Copy

/-!
# The page allocator and the swap system

`kfree` and `kalloc` of `kernel/kalloc.c`, the LRU list, the swap slots and `swapout` of
`kernel/vm.c`, and `swapread` and `swapwrite` of `kernel/fs.c`.

`swapout` is written as the steps it takes between its sleep points: `swapoutSelect` (choose a
victim and unlink it), `swapoutSlot` (allocate a slot), `swapwriteBlock` (write one of the four
blocks) and `swapoutFinish` (rewrite the entry and free the frame).
-/

namespace Xv6Swap

open K Run KState

/-! ### The free list -/

/-- `kfree`. -/
def kfree (pa : ℕ) : K Unit := do
  let link ← read link
  if pa % pgsize ≠ 0 ∨ pa < link.kend ∨ pa ≥ phystop then panic .kfree
  else do
    memset pa 1
    let next ← read freelist
    store pa (BitVec.ofNat 64 next)
    modify fun σ => { σ with freelist := pa, trace := .kfree pa :: σ.trace }

/-- `freerange`, the `n` pages from `p` on. -/
def freerange : ℕ → ℕ → K Unit
  | 0, _ => pure ()
  | n + 1, p => do
    kfree p
    freerange n (p + pgsize)

/-- `kinit`. -/
def kinit : K Unit := do
  let link ← read link
  let p := pgroundup link.kend
  freerange ((phystop - p) / pgsize) p

/-! ### The LRU list -/

/-- `pa2pageidx`. -/
def pa2pageidx (pa : ℕ) : K ℕ :=
  if pa < kernbase ∨ pa ≥ phystop then panic .pa2pageidx else pure ((pa - kernbase) / pgsize)

/-- `page_to_pa`. -/
def pageToPa (pg : ℕ) : ℕ := kernbase + pg * pgsize

/-- Write to an entry of `pages[]`. -/
def setPage (pg : ℕ) (f : Page → Page) : K Unit :=
  modify fun σ => { σ with pages := Function.update σ.pages pg (f (σ.pages pg)) }

/-- Write `lru_head` and `lru_tail`. -/
def setLru (head tail : Option ℕ) : K Unit :=
  modify fun σ => { σ with lruHead := head, lruTail := tail }

/-- `lru_add`. -/
def lruAdd (pg : ℕ) : K Unit := do
  let lruHead ← read lruHead
  let lruTail ← read lruTail
  match lruHead with
  | none => do
    setLru (some pg) (some pg)
    setPage pg fun p => { p with next := some pg, prev := some pg }
  | some head =>
    match lruTail with
    | none => stop .trap
    | some tail => do
      setPage pg fun p => { p with prev := lruTail, next := lruHead }
      setPage tail fun p => { p with next := some pg }
      setPage head fun p => { p with prev := some pg }
      setLru lruHead (some pg)

/-- `lru_remove`. -/
def lruRemove (pg : ℕ) : K Unit := do
  let p ← read fun σ => σ.pages pg
  match p.next, p.prev with
  | some next, some prev => do
    let lruHead ← read lruHead
    let lruTail ← read lruTail
    if lruHead = some pg ∧ lruTail = some pg then do
      setLru none none
      setPage pg fun q => { q with next := none, prev := none }
    else do
      setLru (if lruHead = some pg then some next else lruHead)
        (if lruTail = some pg then some prev else lruTail)
      setPage prev fun q => { q with next := some next }
      setPage next fun q => { q with prev := some prev }
      setPage pg fun q => { q with next := none, prev := none }
  | _, _ => pure ()

/-! ### Swap slots -/

/-- The byte of the bitmap with the bit of slot `i`. -/
def slotByte (σ : KState) (i : ℕ) : Byte := σ.mem (σ.swapBitmap + i / 8)

/-- Write the byte of the bitmap with the bit of slot `i`. -/
def setSlotByte (i : ℕ) (b : Byte) : K Unit :=
  modify fun σ => { σ with mem := Function.update σ.mem (σ.swapBitmap + i / 8) b }

/-- The loop of `alloc_swap_slot` over the `n` slots from `i` on. -/
def allocSwapSlotLoop : ℕ → ℕ → K (Option ℕ)
  | 0, _ => pure none
  | n + 1, i => do
    let b ← read fun σ => slotByte σ i
    if b &&& (1#8 <<< (i % 8)) = 0 then do
      setSlotByte i (b ||| (1#8 <<< (i % 8)))
      pure (some i)
    else
      allocSwapSlotLoop n (i + 1)

/-- `alloc_swap_slot`. -/
def allocSwapSlot : K (Option ℕ) := do
  let swapSlots ← read swapSlots
  allocSwapSlotLoop swapSlots 0

/-- `free_swap_slot`. -/
def freeSwapSlot (idx : ℕ) : K Unit := do
  let b ← read fun σ => slotByte σ idx
  setSlotByte idx (b &&& ~~~(1#8 <<< (idx % 8)))

/-! ### Swap input and output -/

/-- The disk block `i` of a slot. -/
def slotBlock (slot i : ℕ) : ℕ := swapbase + blksPerPg * slot + i

/-- Overwrite the buffer of a block with `data` and `bwrite` it. -/
def writeBlock (b : ℕ) (data : List Byte) : K Unit :=
  modify fun σ => { σ with disk := Function.update σ.disk b (Mem.write (σ.disk b) 0 data) }

/-- One iteration of `swapread`. -/
def swapreadBlock (pa slot i : ℕ) : K Unit := do
  modify fun σ => { σ with nrSectorsRead := σ.nrSectorsRead + 1 }
  let data ← read fun σ => Mem.bytes (σ.disk (slotBlock slot i)) 0 bsize
  let r ← eitherCopyout none ((pa + i * bsize) % 2 ^ 64) data
  if r = -1 then panic .swapreadCopy else pure ()

/-- `swapread`. -/
def swapread (pa : ℕ) (slot : ℤ) : K Unit :=
  if slot < 0 ∨ slot ≥ (swapmax / blksPerPg : ℕ) then panic .swapreadRange
  else each (swapreadBlock pa slot.toNat) (List.range blksPerPg)

/-- One iteration of `swapwrite`. -/
def swapwriteBlock (pa slot i : ℕ) : K Unit := do
  modify fun σ => { σ with nrSectorsWrite := σ.nrSectorsWrite + 1 }
  let r ← eitherCopyin none ((pa + i * bsize) % 2 ^ 64) bsize
  if r.1 = -1 then panic .swapwriteCopy else writeBlock (slotBlock slot i) r.2

/-- `swapwrite`. -/
def swapwrite (pa : ℕ) (slot : ℤ) : K Unit :=
  if slot < 0 ∨ slot ≥ (swapmax / blksPerPg : ℕ) then panic .swapwriteRange
  else each (swapwriteBlock pa slot.toNat) (List.range blksPerPg)

/-! ### Eviction -/

/-- The loop of `swapout` that looks for a victim; the first argument bounds the number of
examinations. -/
def clock : ℕ → ℕ → K ℕ
  | 0, _ => stop .loop
  | k + 1, cand => do
    let pg ← read fun σ => σ.pages cand
    match ← walk0 pg.pagetable pg.vaddr with
    | none => panic .swapoutNoPte
    | some pte => do
      let e ← load pte
      if !has e pteV then
        match pg.next with
        | none => stop .trap
        | some next => clock k next
      else if has e pteA then do
        store pte (e &&& ~~~pteA)
        setLru pg.next (some cand)
        match pg.next with
        | none => stop .trap
        | some next => clock k next
      else pure cand

/-- First step of `swapout`: choose a victim and unlink it. -/
def swapoutSelect : K (Option ℕ) := do
  match ← read lruHead with
  | none => pure none
  | some head => do
    let victim ← clock (npages + 1) head
    lruRemove victim
    pure (some victim)

/-- Second step of `swapout`: allocate a slot, or put the victim back. -/
def swapoutSlot (victim : ℕ) : K (Option ℕ) := do
  match ← allocSwapSlot with
  | none => do
    lruAdd victim
    pure none
  | some slot => pure (some slot)

/-- The entry `swapout` stores in place of `e`. -/
def swappedPte (slot : ℕ) (e : Word) : Word :=
  BitVec.ofNat 64 slot <<< 10 ||| (pteFlags e &&& ~~~pteV &&& ~~~pteA) ||| pteSwapped

/-- Last step of `swapout`: rewrite the entry, free the frame and clear the reverse map. -/
def swapoutFinish (victim slot : ℕ) : K Unit := do
  let pg ← read fun σ => σ.pages victim
  match ← walk0 pg.pagetable pg.vaddr with
  | none => panic .swapoutVanished
  | some pte => do
    let e ← load pte
    store pte (swappedPte slot e)
    kfree (pageToPa victim)
    setPage victim fun p => { p with pagetable := 0, vaddr := 0 }

/-- `swapout`. -/
def swapout : K ℤ := do
  match ← swapoutSelect with
  | none => pure (-1)
  | some victim => do
    match ← swapoutSlot victim with
    | none => pure (-1)
    | some slot => do
      swapwrite (pageToPa victim) slot
      swapoutFinish victim slot
      pure 0

/-! ### Allocation -/

/-- The loop of `kalloc`; the argument bounds the number of iterations. -/
def kallocLoop : ℕ → K (Option ℕ)
  | 0 => stop .loop
  | k + 1 => do
    let r ← read freelist
    if r ≠ 0 then do
      let next ← load r
      modify fun σ => { σ with freelist := next.toNat, trace := .kalloc r :: σ.trace }
      memset r 5
      pure (some r)
    else do
      let ret ← swapout
      if ret < 0 then pure none else kallocLoop k

/-- `kalloc`. -/
def kalloc : K (Option ℕ) := kallocLoop npages

/-- `swapinit`. -/
def swapinit : K Unit := do
  match ← kalloc with
  | none => panic .swapinit
  | some pa => do
    modify fun σ => { σ with swapBitmap := pa }
    memset pa 0
    modify fun σ => { σ with swapSlots := swapmax / blksPerPg }

end Xv6Swap
