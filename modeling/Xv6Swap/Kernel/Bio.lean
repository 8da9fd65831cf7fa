import Xv6Swap.Kernel.Layout
import Xv6Swap.Lib.Run

/-!
# The buffer cache

`kernel/bio.c`: `NBUF` buffers on a list sorted by how recently they were used.  A pointer to a
buffer is its index in `bcache.buf[]`; `order` is the list from `head.next` to `head.prev`.

The driver (`virtio_disk_rw`) transfers a block by its number alone and ignores the device, so the
same disk block can be reached under two devices.  A process holds a buffer's sleep-lock from
`bget` to `brelse`; the programs here run such a section as a whole.
-/

namespace Xv6Swap

open Run

/-- `struct buf`. -/
structure Buf where
  valid : Bool
  dev : ℕ
  blockno : ℕ
  refcnt : ℕ
  data : Mem

/-- The buffer cache and the disk behind it. -/
structure Bio where
  buf : ℕ → Buf
  order : List ℕ
  disk : ℕ → Mem

namespace Bio

/-- The state after `binit`: every buffer is zero, and the list holds them all. -/
def binit (disk : ℕ → Mem) : Bio where
  buf _ := { valid := false, dev := 0, blockno := 0, refcnt := 0, data := fun _ => 0 }
  order := (List.range nbuf).reverse
  disk := disk

/-- Change one buffer. -/
def setBuf (s : Bio) (i : ℕ) (f : Buf → Buf) : Bio :=
  { s with buf := Function.update s.buf i (f (s.buf i)) }

/-- The buffer that the first loop of `bget` finds. -/
def cached (s : Bio) (dev blockno : ℕ) : Option ℕ :=
  s.order.find? fun i => (s.buf i).dev = dev ∧ (s.buf i).blockno = blockno

/-- The buffer that the second loop of `bget` finds: the least recently used unused one. -/
def unused (s : Bio) : Option ℕ := s.order.reverse.find? fun i => (s.buf i).refcnt = 0

end Bio

/-- Look through the buffer cache for a block, and allocate a buffer for it if there is none. -/
def bget (dev blockno : ℕ) : Run Bio FsPanic ℕ := do
  let s ← read id
  match s.cached dev blockno with
  | some i =>
    modify fun s => s.setBuf i fun b => { b with refcnt := b.refcnt + 1 }
    pure i
  | none =>
    match s.unused with
    | some i =>
      modify fun s => s.setBuf i fun b => { b with dev, blockno, valid := false, refcnt := 1 }
      pure i
    | none => stop .bgetNoBuffers

/-- A buffer with the contents of a block. -/
def bread (dev blockno : ℕ) : Run Bio FsPanic ℕ := do
  let i ← bget dev blockno
  let valid ← read fun s => (s.buf i).valid
  if valid then pure i
  else do
    -- virtio_disk_rw(b, 0)
    modify fun s => s.setBuf i fun b => { b with data := s.disk b.blockno, valid := true }
    pure i

/-- The caller of `bread` overwrites the data of the buffer. -/
def bset (i : ℕ) (data : Mem) : Run Bio FsPanic Unit :=
  modify fun s => s.setBuf i fun b => { b with data }

/-- Write a buffer's contents to disk. -/
def bwrite (i : ℕ) : Run Bio FsPanic Unit :=
  modify fun s => { s with disk := Function.update s.disk (s.buf i).blockno (s.buf i).data }

/-- Release a buffer; an unused one moves to the head of the list. -/
def brelse (i : ℕ) : Run Bio FsPanic Unit := do
  modify fun s => s.setBuf i fun b => { b with refcnt := b.refcnt - 1 }
  let n ← read fun s => (s.buf i).refcnt
  if n = 0 then modify fun s => { s with order := i :: s.order.erase i }
  else pure ()

/-- Keep a buffer in the cache. -/
def bpin (i : ℕ) : Run Bio FsPanic Unit :=
  modify fun s => s.setBuf i fun b => { b with refcnt := b.refcnt + 1 }

/-- Undo `bpin`. -/
def bunpin (i : ℕ) : Run Bio FsPanic Unit :=
  modify fun s => s.setBuf i fun b => { b with refcnt := b.refcnt - 1 }

end Xv6Swap
