import Xv6Swap.Kernel.Swap

/-!
# User address spaces

The functions of `kernel/vm.c` that build, copy and tear down user page tables, and `swapin`.
Every one of them that allocates may evict pages on the way, through `kalloc`.
-/

namespace Xv6Swap

open K Run

/-- `walk`. -/
def walk (pagetable va : ℕ) (alloc : Bool) : K (Option ℕ) := walkWith kalloc pagetable va alloc

/-! ### Mapping and unmapping -/

/-- The loop of `mappages`; the first argument bounds the number of iterations. -/
def mappagesLoop (pagetable last : ℕ) (perm : Word) : ℕ → ℕ → ℕ → K ℤ
  | 0, _, _ => stop .loop
  | k + 1, a, pa => do
    match ← walk pagetable a true with
    | none => pure (-1)
    | some pte => do
      let e ← load pte
      if has e pteV then panic .mappagesRemap
      else do
        store pte (pa2pte pa ||| perm ||| pteV)
        if a = last then pure 0
        else mappagesLoop pagetable last perm k ((a + pgsize) % 2 ^ 64) ((pa + pgsize) % 2 ^ 64)

/-- `mappages`. -/
def mappages (pagetable va size pa : ℕ) (perm : Word) : K ℤ :=
  if va % pgsize ≠ 0 then panic .mappagesVa
  else if size % pgsize ≠ 0 then panic .mappagesSizeAlign
  else if size = 0 then panic .mappagesSize
  else
    mappagesLoop pagetable ((va + size - pgsize) % 2 ^ 64) perm (size / pgsize) va pa

/-- One iteration of `uvmunmap`. -/
def uvmunmapPage (pagetable a : ℕ) (doFree : Bool) : K Unit := do
  match ← walk pagetable a false with
  | none => panic .uvmunmapWalk
  | some pte => do
    let e ← load pte
    if !has e pteV then
      if has e pteSwapped then
        if doFree then do
          freeSwapSlot (pteSlot e)
          store pte 0
        else store pte 0
      else panic .uvmunmapNotMapped
    else if pteFlags e = pteV then panic .uvmunmapNotLeaf
    else if doFree then do
      let pa := pte2pa e
      let idx ← pa2pageidx pa
      lruRemove idx
      kfree pa
      store pte 0
    else store pte 0

/-- The loop of `uvmunmap`; the first argument bounds the number of iterations. -/
def uvmunmapLoop (pagetable last : ℕ) (doFree : Bool) : ℕ → ℕ → K Unit
  | 0, _ => stop .loop
  | k + 1, a =>
    if a < last then do
      uvmunmapPage pagetable a doFree
      uvmunmapLoop pagetable last doFree k ((a + pgsize) % 2 ^ 64)
    else pure ()

/-- `uvmunmap`. -/
def uvmunmap (pagetable va npages : ℕ) (doFree : Bool) : K Unit :=
  uvmunmapLoop pagetable ((va + npages * pgsize) % 2 ^ 64) doFree (npages + 1) va

/-- `uvmcreate`. -/
def uvmcreate : K (Option ℕ) := do
  match ← kalloc with
  | none => pure none
  | some pagetable => do
    memset pagetable 0
    pure (some pagetable)

/-- `uvmfirst`; `src` is the program, shorter than a page. -/
def uvmfirst (pagetable : ℕ) (src : List Byte) : K Unit :=
  if src.length ≥ pgsize then panic .uvmfirst
  else do
    match ← kalloc with
    | none => stop .trap
    | some mem => do
      memset mem 0
      let _ ← mappages pagetable 0 pgsize mem (pteW ||| pteR ||| pteX ||| pteU)
      modify fun σ => { σ with mem := σ.mem.write mem src }

/-! ### Growing and shrinking -/

/-- An `int` passed as a `uint64`. -/
def intToUint64 (n : ℕ) : ℕ :=
  if n % 2 ^ 32 < 2 ^ 31 then n % 2 ^ 32 else n % 2 ^ 32 + (2 ^ 64 - 2 ^ 32)

/-- `uvmdealloc`. -/
def uvmdealloc (pagetable oldsz newsz : ℕ) : K ℕ :=
  if newsz ≥ oldsz then pure oldsz
  else if pgroundup newsz < pgroundup oldsz then do
    let n := intToUint64 ((pgroundup oldsz - pgroundup newsz) / pgsize)
    uvmunmap pagetable (pgroundup newsz) n true
    pure newsz
  else pure newsz

/-- Record that the frame `pa` holds the page `va` of a page table and add it to the LRU list. -/
def registerPage (pagetable va pa : ℕ) : K Unit := do
  let idx ← pa2pageidx pa
  setPage idx fun p => { p with pagetable := pagetable, vaddr := va }
  lruAdd idx

/-- Map the page `va` to the new frame `mem` and register it; free the frame if there is no memory
for a page-table page.  The end of an iteration of `uvmalloc` and of both cases of `uvmcopy`. -/
def installPage (pagetable va mem : ℕ) (perm : Word) : K Bool := do
  let r ← mappages pagetable va pgsize mem perm
  if r ≠ 0 then do
    kfree mem
    pure false
  else do
    registerPage pagetable va mem
    pure true

/-- The loop of `uvmalloc`, with `oldsz` rounded up; the first argument bounds the number of
iterations. -/
def uvmallocLoop (pagetable oldsz newsz : ℕ) (xperm : Word) : ℕ → ℕ → K ℕ
  | 0, _ => stop .loop
  | k + 1, a =>
    if a < newsz then do
      match ← kalloc with
      | none => do
        let _ ← uvmdealloc pagetable a oldsz
        pure 0
      | some mem => do
        memset mem 0
        let ok ← installPage pagetable a mem (pteR ||| pteU ||| xperm)
        if ok then uvmallocLoop pagetable oldsz newsz xperm k ((a + pgsize) % 2 ^ 64)
        else do
          let _ ← uvmdealloc pagetable a oldsz
          pure 0
    else pure newsz

/-- `uvmalloc`. -/
def uvmalloc (pagetable oldsz newsz : ℕ) (xperm : Word) : K ℕ :=
  if newsz < oldsz then pure oldsz
  else
    uvmallocLoop pagetable (pgroundup oldsz) newsz xperm (newsz / pgsize + 2) (pgroundup oldsz)

/-! ### Tearing down -/

/-- `freewalk`; the first argument bounds the depth of the table. -/
def freewalk : ℕ → ℕ → K Unit
  | 0, _ => stop .loop
  | d + 1, pagetable => do
    each (fun i => do
      let e ← load (pagetable + 8 * i)
      if has e pteV && !has e (pteR ||| pteW ||| pteX) then do
        freewalk d (pte2pa e)
        store (pagetable + 8 * i) 0
      else if has e pteV then panic .freewalkLeaf
      else pure ()) (List.range 512)
    kfree pagetable

/-- `uvmfree`. -/
def uvmfree (pagetable sz : ℕ) : K Unit :=
  if sz > 0 then do
    uvmunmap pagetable 0 (pgroundup sz / pgsize) true
    freewalk 3 pagetable
  else freewalk 3 pagetable

/-! ### Copying -/

/-- One iteration of `uvmcopy`: `false` when it takes the jump to `err`. -/
def uvmcopyPage (old new i : ℕ) : K Bool := do
  match ← walk old i false with
  | none => panic .uvmcopyPte
  | some pte => do
    let e ← load pte
    if has e pteV then do
      let pa := pte2pa e
      let flags := pteFlags e
      match ← kalloc with
      | none => pure false
      | some mem => do
        memmove mem pa
        installPage new i mem flags
    else if has e pteSwapped then do
      let slot := pteSlot e
      let flags := pteFlags e &&& ~~~pteSwapped
      match ← kalloc with
      | none => pure false
      | some mem => do
        swapread mem slot
        installPage new i mem (flags ||| pteV)
    else panic .uvmcopyPresent

/-- The loop of `uvmcopy`; the first argument bounds the number of iterations. -/
def uvmcopyLoop (old new sz : ℕ) : ℕ → ℕ → K ℤ
  | 0, _ => stop .loop
  | k + 1, i =>
    if i < sz then do
      let ok ← uvmcopyPage old new i
      if ok then uvmcopyLoop old new sz k ((i + pgsize) % 2 ^ 64)
      else do
        uvmunmap new 0 (i / pgsize) true
        pure (-1)
    else pure 0

/-- `uvmcopy`. -/
def uvmcopy (old new sz : ℕ) : K ℤ := uvmcopyLoop old new sz (sz / pgsize + 2) 0

/-- `uvmclear`. -/
def uvmclear (pagetable va : ℕ) : K Unit := do
  match ← walk pagetable va false with
  | none => panic .uvmclear
  | some pte => do
    let e ← load pte
    store pte (e &&& ~~~pteU)

/-! ### Bringing a page back -/

/-- `swapin`. -/
def swapin (pagetable va : ℕ) : K ℤ := do
  let va := pgrounddown va
  match ← walk pagetable va false with
  | none => pure (-1)
  | some pte => do
    let e ← load pte
    if !has e pteSwapped || has e pteV then pure (-1)
    else do
      let slot := pteSlot e
      match ← kalloc with
      | none => pure (-1)
      | some pa => do
        swapread pa slot
        freeSwapSlot slot
        let e' ← load pte
        let flags := pteFlags e' &&& ~~~pteSwapped
        store pte (pa2pte pa ||| flags ||| pteV)
        registerPage pagetable va pa
        pure 0

end Xv6Swap
