import Xv6Swap.Kernel.Layout
import Xv6Swap.Kernel.Proc
import Xv6Swap.Lib.Links
import Xv6Swap.Lib.Machine

/-!
# The buffer cache under concurrency

`kernel/bio.c` with its pointers, its reference counts and its locks, and any interleaving of the
processes that use it.  A step is what a process does between two points at which it can be
stopped: it runs a section under `bcache.lock`, takes or gives up the sleep-lock of a buffer, or
waits for a transfer of the disk.

The processes follow the rule of the interface: they change a buffer, write it, pin it and release
it only while they hold its lock, and `bunpin` undoes a `bpin`.  `bcache dev` has the processes that
use block `b` of the disk under the device `dev b` only.  A block number is that of a block of the
disk, so that `b->blockno * (BSIZE / 512)` in `virtio_disk_rw` does not wrap; and the log, which is
the only caller of `bpin`, has no room for more than `LOGSIZE` pins.

`left` and `pins` are history: the data that the last `brelse` left in the cache for a block, until
the buffer is recycled, and the calls of `bpin` not yet undone.
-/

namespace Xv6Swap

open Function Run

/-- Why the kernel stops in the buffer cache. -/
inductive BcPanic where
  /-- `panic("bget: no buffers")`. -/
  | noBuffers
  /-- `panic("bwrite")`. -/
  | bwrite
  /-- `panic("brelse")`. -/
  | brelse
  /-- A loop over the list does not end. -/
  | loop
  deriving DecidableEq, Repr

/-- `struct buf`, without `disk` and the links. -/
structure BcBuf (D : Type) where
  valid : Bool
  dev : ℕ
  blockno : ℕ
  /-- The process that holds the sleep-lock. -/
  lock : Option ℕ
  refcnt : BitVec 32
  data : D

/-- The arguments of `bread`. -/
structure BcReq where
  dev : ℕ
  blockno : ℕ
  deriving DecidableEq, Repr

/-- The position of a process. -/
inductive BcPc where
  /-- In no function of the buffer cache. -/
  | idle
  /-- In `bget`, at `acquire(&bcache.lock)`. -/
  | bget (r : BcReq)
  /-- In `bget`, at `acquiresleep(&b->lock)`. -/
  | lock (r : BcReq) (i : ℕ)
  /-- In `bread`, in `virtio_disk_rw(b, 0)` for this place on the disk. -/
  | read (r : BcReq) (i place : ℕ)
  /-- In `bread`, before `b->valid = 1`. -/
  | filled (r : BcReq) (i : ℕ)
  /-- `bread` has returned the buffer, and the process has not yet used it. -/
  | returned (r : BcReq) (i : ℕ)
  /-- In `bwrite`, in `virtio_disk_rw(b, 1)`. -/
  | write (i place : ℕ)
  /-- In `brelse`, at `acquire(&bcache.lock)`. -/
  | release (i : ℕ)
  deriving DecidableEq, Repr

/-- `&bcache.head`; the buffers are their indices in `bcache.buf[]`. -/
abbrev bhead : ℕ := nbuf

/-- The block of the disk at the sector `b->blockno * (BSIZE / 512)`. -/
def diskPlace (blockno : ℕ) : ℕ := blockno * 2 % 2 ^ 32 / 2

/-- The buffer cache, the disk and the processes; blocks hold values of the type `D`. -/
structure Bcache (D : Type) where
  buf : ℕ → BcBuf D
  links : Links ℕ
  disk : ℕ → D
  pc : ℕ → BcPc
  left : ℕ → Option D
  pins : ℕ → ℕ

namespace Bcache

variable {D : Type}

/-- Change one buffer. -/
def setBuf (s : Bcache D) (i : ℕ) (f : BcBuf D → BcBuf D) : Bcache D :=
  { s with buf := update s.buf i (f (s.buf i)) }

/-- Change the position of a process. -/
def goto (s : Bcache D) (t : ℕ) (pc : BcPc) : Bcache D :=
  { s with pc := update s.pc t pc }

/-- After `binit`; the data of the buffers is zero.  The links of a buffer are null until its round
of the loop, and are not read. -/
def binit (disk : ℕ → D) (zero : D) : Bcache D where
  buf _ := { valid := false, dev := 0, blockno := 0, lock := none, refcnt := 0, data := zero }
  links := (List.range nbuf).foldl (fun l b => l.push bhead b) ⟨fun _ => bhead, fun _ => bhead⟩
  disk := disk
  pc _ := .idle
  left _ := none
  pins _ := 0

/-- The first loop of `bget`. -/
def findCached (r : BcReq) (s : Bcache D) : Option (Option ℕ) :=
  Links.seek s.links.next bhead
    (fun i => decide ((s.buf i).dev = r.dev ∧ (s.buf i).blockno = r.blockno)) (nbuf + 1)
    (s.links.next bhead)

/-- The second loop of `bget`. -/
def findUnused (s : Bcache D) : Option (Option ℕ) :=
  Links.seek s.links.prev bhead (fun i => decide ((s.buf i).refcnt = 0)) (nbuf + 1)
    (s.links.prev bhead)

/-- A buffer gets another block. -/
def recycle (s : Bcache D) (r : BcReq) (i : ℕ) : Bcache D :=
  { s.setBuf i fun b => { b with
      dev := r.dev, blockno := r.blockno, valid := false, refcnt := 1 } with
    left := if (s.buf i).valid then update s.left (s.buf i).blockno none else s.left }

/-- The section of `bget` under `bcache.lock`. -/
def bget (t : ℕ) (r : BcReq) : Run (Bcache D) BcPanic Unit := do
  match ← read (findCached r) with
  | none => stop .loop
  | some (some i) =>
    modify fun s =>
      (s.setBuf i fun b => { b with refcnt := b.refcnt + 1 }).goto t (.lock r i)
  | some none => do
    match ← read findUnused with
    | none => stop .loop
    | some (some i) => modify fun s => (s.recycle r i).goto t (.lock r i)
    | some none => stop .noBuffers

/-- `acquiresleep` in `bget`, and `if(!b->valid)` in `bread`. -/
def acquired (s : Bcache D) (t : ℕ) (r : BcReq) (i : ℕ) : Bcache D :=
  (s.setBuf i fun b => { b with lock := some t }).goto t
    (if (s.buf i).valid then .returned r i else .read r i (diskPlace (s.buf i).blockno))

/-- The section of `brelse` under `bcache.lock`. -/
def brelse (s : Bcache D) (t i : ℕ) : Bcache D :=
  let s := (s.setBuf i fun b => { b with refcnt := b.refcnt - 1 }).goto t .idle
  if (s.buf i).refcnt = 0 then { s with links := (s.links.unlink i).push bhead i } else s

/-- The next step of a process. -/
def step (t : ℕ) : Run (Bcache D) BcPanic Unit := do
  match ← read fun s => s.pc t with
  | .idle => pure ()
  | .bget r => bget t r
  | .lock r i => modify fun s => s.acquired t r i
  | .read r i place => modify fun s =>
      (s.setBuf i fun b => { b with data := s.disk place }).goto t (.filled r i)
  | .filled r i => modify fun s =>
      (s.setBuf i fun b => { b with valid := true }).goto t (.returned r i)
  | .returned _ _ => modify fun s => s.goto t .idle
  | .write i place => modify fun s =>
      { s.goto t .idle with disk := update s.disk place (s.buf i).data }
  | .release i => modify fun s => s.brelse t i

/-- The process does not wait for a lock that is taken. -/
def Ready (s : Bcache D) (t : ℕ) : Prop :=
  match s.pc t with
  | .idle => False
  | .lock _ i => (s.buf i).lock = none
  | _ => True

instance (s : Bcache D) (t : ℕ) : Decidable (s.Ready t) := by
  unfold Ready
  cases s.pc t <;> infer_instance

/-- The beginning of `bwrite`. -/
def bwrite (t i : ℕ) : Run (Bcache D) BcPanic Unit := do
  let lock ← read fun s => (s.buf i).lock
  if lock ≠ some t then stop .bwrite
  else modify fun s => s.goto t (.write i (diskPlace (s.buf i).blockno))

/-- `releasesleep` in `brelse`. -/
def released (s : Bcache D) (t i : ℕ) : Bcache D :=
  { (s.setBuf i fun b => { b with lock := none }).goto t (.release i) with
    left := update s.left (s.buf i).blockno (some (s.buf i).data) }

/-- The beginning of `brelse`. -/
def brelseCall (t i : ℕ) : Run (Bcache D) BcPanic Unit := do
  let lock ← read fun s => (s.buf i).lock
  if lock ≠ some t then stop .brelse else modify fun s => s.released t i

/-- `bpin`. -/
def bpin (s : Bcache D) (i : ℕ) : Bcache D :=
  { s.setBuf i fun b => { b with refcnt := b.refcnt + 1 } with
    pins := update s.pins i (s.pins i + 1) }

/-- `bunpin`. -/
def bunpin (s : Bcache D) (i : ℕ) : Bcache D :=
  { s.setBuf i fun b => { b with refcnt := b.refcnt - 1 } with
    pins := update s.pins i (s.pins i - 1) }

end Bcache

/-- What can happen. -/
inductive BcEvent (D : Type) where
  | bread (t : ℕ) (r : BcReq)
  /-- The process changes `b->data`. -/
  | modify (t i : ℕ) (data : D)
  | bwrite (t i : ℕ)
  | brelse (t i : ℕ)
  | bpin (t i : ℕ)
  | bunpin (t i : ℕ)
  | step (t : ℕ)

namespace BcEvent

variable {D : Type}

/-- A process that is in no call holds the buffer. -/
def Holds (s : Bcache D) (t i : ℕ) : Prop :=
  t < nproc ∧ s.pc t = .idle ∧ (s.buf i).lock = some t

/-- When it can happen, with processes that use block `b` under the device `dev b`. -/
def Ok (dev : ℕ → ℕ) (e : BcEvent D) (s : Bcache D) : Prop :=
  match e with
  | .bread t r => t < nproc ∧ s.pc t = .idle ∧ r.dev = dev r.blockno ∧ r.blockno < 2 ^ 31
  | .modify t i _ | .bwrite t i | .brelse t i => Holds s t i
  | .bpin t i => Holds s t i ∧ s.pins i < logsize
  | .bunpin t i => t < nproc ∧ s.pc t = .idle ∧ 0 < s.pins i
  | .step t => t < nproc ∧ s.Ready t

instance (s : Bcache D) (t i : ℕ) : Decidable (Holds s t i) := by
  unfold Holds
  infer_instance

instance (dev : ℕ → ℕ) (e : BcEvent D) (s : Bcache D) : Decidable (e.Ok dev s) := by
  unfold Ok
  cases e <;> infer_instance

/-- Its effect. -/
def run : BcEvent D → Run (Bcache D) BcPanic Unit
  | .bread t r => Run.modify fun s => s.goto t (.bget r)
  | .modify _ i data => Run.modify fun s => s.setBuf i fun b => { b with data }
  | .bwrite t i => Bcache.bwrite t i
  | .brelse t i => Bcache.brelseCall t i
  | .bpin _ i => Run.modify fun s => s.bpin i
  | .bunpin _ i => Run.modify fun s => s.bunpin i
  | .step t => Bcache.step t

end BcEvent

/-- The buffer cache, from `binit` on. -/
def bcache (D : Type) (dev : ℕ → ℕ) : Machine (Bcache D) BcPanic (BcEvent D) where
  init s := ∃ disk zero, s = Bcache.binit disk zero
  guard := BcEvent.Ok dev
  prog := BcEvent.run

end Xv6Swap
