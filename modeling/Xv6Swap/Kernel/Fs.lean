import Xv6Swap.Kernel.Dinode
import Xv6Swap.Lib.Run

/-!
# Blocks and inodes

The block allocator, the inode table and the contents of files of `kernel/fs.c`, on the state `Fs`
of the file system.

* The disk is seen through the buffer cache: `bread` gives the current contents of a block and
  `log_write` replaces them.  `held` are the blocks whose buffers are locked, `lh` and
  `outstanding` the part of `struct log` that decides whether a call panics.
* A pointer into `itable` or `ftable` is an index.  Every inode is on `ROOTDEV`, so the device is
  left out.
* The programs run one system call at a time: a sleep-lock that is found held stays held, and the
  call waits forever (`FsStop.deadlock`).
* `touched` is a history variable, the blocks passed to `bread` so far.  No function reads it.

What the file system exchanges with user memory is an input: `readi` takes the number of bytes that
can be copied out, `writei` the bytes that can be copied in before the copy fails.
-/

namespace Xv6Swap

open Function Run List

/-- `NINODE`. -/
abbrev ninode : ℕ := 50

/-- `NFILE`. -/
abbrev nfile : ℕ := 100

/-- `NOFILE`. -/
abbrev nofile : ℕ := 16

/-- `struct inode`: an entry of `itable`. -/
structure Inode where
  inum : ℕ
  ref : ℤ
  /-- The sleep-lock is held. -/
  locked : Bool
  valid : Bool
  /-- Copy of the disk inode. -/
  d : Dinode

/-- The type of a `struct file`. -/
inductive FdType where
  | none | pipe | inode | device
  deriving DecidableEq, Repr

/-- `struct file`: an entry of `ftable`. -/
structure File where
  type : FdType
  ref : ℤ
  readable : Bool
  writable : Bool
  ip : ℕ
  off : ℕ
  major : BitVec 16

/-- The part of `struct proc` that the file system uses. -/
structure FsProc where
  ofile : ℕ → Option ℕ
  cwd : Option ℕ

/-- The state of the file system. -/
structure Fs where
  disk : ℕ → Mem
  held : List ℕ
  lh : List ℕ
  outstanding : ℤ
  inode : ℕ → Inode
  file : ℕ → File
  proc : ℕ → FsProc
  touched : List ℕ

/-- Why a call does not return. -/
inductive FsStop where
  | panic (p : FsPanic)
  /-- The call waits for a lock that it holds itself, or for log space that only it could free. -/
  | deadlock
  deriving DecidableEq, Repr

/-- Programs of the file system. -/
abbrev F := Run Fs FsStop

namespace Fs

/-- `panic(...)`. -/
def panic {α : Type} (p : FsPanic) : F α := stop (.panic p)

/-- Change an entry of `itable`. -/
def setInode (s : Fs) (k : ℕ) (f : Inode → Inode) : Fs :=
  { s with inode := update s.inode k (f (s.inode k)) }

/-- Change an entry of `itable`. -/
def modifyInode (k : ℕ) (f : Inode → Inode) : F Unit := modify fun s => s.setInode k f

/-- Change the copy of the disk inode in an entry of `itable`. -/
def modifyDinode (k : ℕ) (f : Dinode → Dinode) : F Unit :=
  modifyInode k fun i => { i with d := f i.d }

/-! ### The log and the buffer cache -/

/-- A locked buffer with the contents of a block. -/
def bread (b : ℕ) : F Mem := do
  let s ← read id
  if b ∈ s.held then stop .deadlock
  else do
    modify fun s => { s with held := b :: s.held, touched := b :: s.touched }
    pure (s.disk b)

/-- Release a buffer. -/
def brelse (b : ℕ) : F Unit := modify fun s => { s with held := s.held.erase b }

/-- The caller has changed the buffer of a block to `data`. -/
def logWrite (sb : Superblock) (b : ℕ) (data : Mem) : F Unit := do
  let s ← read id
  if s.lh.length ≥ logsize ∨ s.lh.length ≥ sb.nlog - 1 then panic .tooBig
  else if s.outstanding < 1 then panic .outsideOfTrans
  else modify fun s => { s with
    disk := update s.disk b data
    lh := if b ∈ s.lh then s.lh else s.lh ++ [b] }

/-- Called at the start of each file-system call. -/
def beginOp : F Unit := do
  let s ← read id
  if s.lh.length + (s.outstanding + 1) * maxopblocks > logsize then stop .deadlock
  else modify fun s => { s with outstanding := s.outstanding + 1 }

/-- The blocks that a commit of the logged blocks passes to `bread`, latest first. -/
def commitTouches (sb : Superblock) (lh : List ℕ) : List ℕ :=
  if lh.length > 0 then
    [sb.logstart] ++ (lh.mapIdx fun tail b => [b, sb.logstart + tail + 1]).flatten ++
      [sb.logstart] ++ (lh.mapIdx fun tail b => [b, sb.logstart + tail + 1]).flatten
  else []

/-- Called at the end of each file-system call: the last one commits, which leaves what is seen of
the blocks as it is. -/
def endOp (sb : Superblock) : F Unit := do
  modify fun s => { s with outstanding := s.outstanding - 1 }
  let s ← read id
  if s.outstanding = 0 then
    modify fun s => { s with lh := [], touched := commitTouches sb s.lh ++ s.touched }
  else pure ()

/-! ### Blocks -/

/-- Zero a block. -/
def bzero (sb : Superblock) (b : ℕ) : F Unit := do
  let data ← bread b
  logWrite sb b (data.fill 0 bsize 0)
  brelse b

/-- The loop of `balloc` over the blocks of the free map. -/
def ballocLoop (sb : Superblock) (limit : ℕ) : List ℕ → F ℕ
  | [] => pure 0
  | c :: cs => do
    let b := c * bpb
    let data ← bread (sb.bblock b)
    match (range (min bpb (limit - b))).find? fun bi => !mapBit data (b + bi) with
    | some bi =>
      logWrite sb (sb.bblock b) (orBit data (b + bi))
      brelse (sb.bblock b)
      bzero sb (b + bi)
      pure (b + bi)
    | none =>
      brelse (sb.bblock b)
      ballocLoop sb limit cs

/-- Allocate a zeroed disk block; 0 if out of disk space.  The file system ends at `SWAPBASE`. -/
def balloc (sb : Superblock) : F ℕ :=
  let limit := min swapbase sb.size
  ballocLoop sb limit (range ((limit + (bpb - 1)) / bpb))

/-- Free a disk block. -/
def bfree (sb : Superblock) (b : ℕ) : F Unit := do
  let data ← bread (sb.bblock b)
  if mapBit data b then do
    logWrite sb (sb.bblock b) (clearBit data b)
    brelse (sb.bblock b)
  else panic .freeingFree

/-! ### The inode table -/

/-- The entry that holds an inode. -/
def itableFind (s : Fs) (inum : ℕ) : Option ℕ :=
  (range ninode).find? fun k => 0 < (s.inode k).ref ∧ (s.inode k).inum = inum

/-- The first empty entry. -/
def itableEmpty (s : Fs) : Option ℕ := (range ninode).find? fun k => (s.inode k).ref = 0

/-- The entry of an inode, with one reference more. -/
def iget (inum : ℕ) : F ℕ := do
  let s ← read id
  match s.itableFind inum with
  | some k =>
    modifyInode k fun i => { i with ref := i.ref + 1 }
    pure k
  | none =>
    match s.itableEmpty with
    | some k =>
      modifyInode k fun i => { i with inum, ref := 1, valid := false }
      pure k
    | none => panic .igetNoInodes

/-- The loop of `ialloc` over the inodes. -/
def iallocLoop (sb : Superblock) (type : BitVec 16) : List ℕ → F (Option ℕ)
  | [] => pure none
  | inum :: is => do
    let data ← bread (sb.iblock inum)
    if (Dinode.load data (inum % ipb * dinodeSize)).type = 0 then do
      logWrite sb (sb.iblock inum) (putDinode data inum { Dinode.zero with type })
      brelse (sb.iblock inum)
      let k ← iget inum
      pure (some k)
    else do
      brelse (sb.iblock inum)
      iallocLoop sb type is

/-- Allocate an inode: a referenced entry, or none if there is no free inode. -/
def ialloc (sb : Superblock) (type : BitVec 16) : F (Option ℕ) :=
  iallocLoop sb type (range' 1 (sb.ninodes - 1))

/-- Copy a modified in-memory inode to disk. -/
def iupdate (sb : Superblock) (k : ℕ) : F Unit := do
  let i ← read fun s => s.inode k
  let data ← bread (sb.iblock i.inum)
  logWrite sb (sb.iblock i.inum) (putDinode data i.inum i.d)
  brelse (sb.iblock i.inum)

/-- Increment the reference count of an entry. -/
def idup (k : ℕ) : F ℕ := do
  modifyInode k fun i => { i with ref := i.ref + 1 }
  pure k

/-- Lock an inode, and read it from disk if necessary. -/
def ilock (sb : Superblock) (k : ℕ) : F Unit := do
  let i ← read fun s => s.inode k
  if i.ref < 1 then panic .ilock
  else if i.locked then stop .deadlock
  else do
    modifyInode k fun i => { i with locked := true }
    if i.valid then pure ()
    else do
      let data ← bread (sb.iblock i.inum)
      let d := Dinode.load data (i.inum % ipb * dinodeSize)
      brelse (sb.iblock i.inum)
      modifyInode k fun i => { i with d, valid := true }
      if d.type = 0 then panic .ilockNoType else pure ()

/-- Unlock an inode. -/
def iunlock (k : ℕ) : F Unit := do
  let i ← read fun s => s.inode k
  if !i.locked ∨ i.ref < 1 then panic .iunlock
  else modifyInode k fun i => { i with locked := false }

/-! ### The contents of an inode -/

end Fs

/-- `addrs[j]`. -/
def Dinode.addr (d : Dinode) (j : ℕ) : ℕ :=
  if h : j < ndirect + 1 then (d.addrs ⟨j, h⟩).toNat else 0

/-- `addrs[j] = v`. -/
def Dinode.setAddr (d : Dinode) (j v : ℕ) : Dinode :=
  if h : j < ndirect + 1 then { d with addrs := update d.addrs ⟨j, h⟩ (.ofNat 32 v) } else d

namespace Fs

/-- `addrs[j]` of an inode, a new block if it is 0; 0 if out of disk space. -/
def bmapAddr (sb : Superblock) (k j : ℕ) : F ℕ := do
  let i ← read fun s => s.inode k
  if i.d.addr j = 0 then do
    let addr ← balloc sb
    if addr = 0 then pure 0
    else do
      modifyDinode k fun d => d.setAddr j addr
      pure addr
  else pure (i.d.addr j)

/-- The entry `j` of the indirect block `ind`, a new block if it is 0; 0 if out of disk space. -/
def bmapIndirect (sb : Superblock) (ind j : ℕ) : F ℕ := do
  let a ← bread ind
  if indAt a j = 0 then do
    let addr ← balloc sb
    if addr = 0 then pure () else logWrite sb ind (putInd a j addr)
    brelse ind
    pure addr
  else do
    brelse ind
    pure (indAt a j)

/-- The disk block of the block `bn` of an inode.  If there is no such block, one is allocated; 0 if
out of disk space. -/
def bmap (sb : Superblock) (k bn : ℕ) : F ℕ :=
  if bn < ndirect then bmapAddr sb k bn
  else if bn - ndirect < nindirect then do
    -- load the indirect block, allocating it if necessary
    let ind ← bmapAddr sb k ndirect
    if ind = 0 then pure 0 else bmapIndirect sb ind (bn - ndirect)
  else panic .bmapOutOfRange

/-- One round of the first loop of `itrunc`. -/
def itruncDirect (sb : Superblock) (k j : ℕ) : F Unit := do
  let i ← read fun s => s.inode k
  if i.d.addr j = 0 then pure ()
  else do
    bfree sb (i.d.addr j)
    modifyDinode k fun d => d.setAddr j 0

/-- One round of the second loop of `itrunc`, over the entries `a` of the indirect block. -/
def itruncEntry (sb : Superblock) (a : Mem) (j : ℕ) : F Unit :=
  if indAt a j = 0 then pure () else bfree sb (indAt a j)

/-- Truncate an inode: discard its contents. -/
def itrunc (sb : Superblock) (k : ℕ) : F Unit := do
  each (itruncDirect sb k) (range ndirect)
  let i ← read fun s => s.inode k
  if i.d.addr ndirect = 0 then pure ()
  else do
    let a ← bread (i.d.addr ndirect)
    each (itruncEntry sb a) (range nindirect)
    brelse (i.d.addr ndirect)
    bfree sb (i.d.addr ndirect)
    modifyDinode k fun d => d.setAddr ndirect 0
  modifyDinode k fun d => { d with size := 0 }
  iupdate sb k

/-- The part of `iput` for an inode that has no links and no other references: truncate and
free. -/
def iputFree (sb : Superblock) (k : ℕ) : F Unit := do
  let i ← read fun s => s.inode k
  if i.locked then stop .deadlock
  else do
    modifyInode k fun i => { i with locked := true }
    itrunc sb k
    modifyDinode k fun d => { d with type := 0 }
    iupdate sb k
    modifyInode k fun i => { i with valid := false, locked := false }

/-- Drop a reference to an in-memory inode.  The last reference to an inode without links frees
the inode and its contents. -/
def iput (sb : Superblock) (k : ℕ) : F Unit := do
  let i ← read fun s => s.inode k
  if i.ref = 1 ∧ i.valid ∧ i.d.nlink = 0 then iputFree sb k else pure ()
  modifyInode k fun i => { i with ref := i.ref - 1 }

/-- Unlock, then put. -/
def iunlockput (sb : Superblock) (k : ℕ) : F Unit := do
  iunlock k
  iput sb k

/-- The loop of `readi`: from `off`, `n` bytes are left and `acc` have been copied; `room` bytes can
still be copied out. -/
def readiLoop (sb : Superblock) (k : ℕ) (room : ℕ) :
    ℕ → ℕ → ℕ → List Byte → F (ℤ × List Byte)
  | 0, _, _, acc => pure (acc.length, acc)
  | fuel + 1, off, n, acc =>
    if n = 0 then pure (acc.length, acc)
    else do
      let addr ← bmap sb k (off / bsize)
      if addr = 0 then pure (acc.length, acc)
      else do
        let data ← bread addr
        let m := min n (bsize - off % bsize)
        brelse addr
        if room < acc.length + m then
          pure (-1, acc ++ (data.bytes (off % bsize) m).take (room - acc.length))
        else readiLoop sb k room fuel (off + m) (n - m) (acc ++ data.bytes (off % bsize) m)

/-- Read `n` bytes of an inode at `off`: the number of bytes, or -1, and the bytes that were copied
out.  The destination takes `room` bytes. -/
def readi (sb : Superblock) (k room off n : ℕ) : F (ℤ × List Byte) := do
  let i ← read fun s => s.inode k
  if i.d.size.toNat < off ∨ (off + n) % 2 ^ 32 < off then pure (0, [])
  else do
    let n := if (off + n) % 2 ^ 32 > i.d.size.toNat then i.d.size.toNat - off else n
    readiLoop sb k room (n + 1) off n []

/-- The loop of `writei`: `tot` bytes have been written, up to `off`. -/
def writeiLoop (sb : Superblock) (k : ℕ) (src : List Byte) (n : ℕ) : ℕ → ℕ → ℕ → F (ℕ × ℕ)
  | 0, off, tot => pure (off, tot)
  | fuel + 1, off, tot =>
    if n ≤ tot then pure (off, tot)
    else do
      let addr ← bmap sb k (off / bsize)
      if addr = 0 then pure (off, tot)
      else do
        let data ← bread addr
        let m := min (n - tot) (bsize - off % bsize)
        if src.length < tot + m then do
          -- the bytes before the fault are in the buffer, which is not logged
          modify fun s => { s with
            disk := update s.disk addr (data.write (off % bsize) (src.drop tot)) }
          brelse addr
          pure (off, tot)
        else do
          logWrite sb addr (data.write (off % bsize) ((src.drop tot).take m))
          brelse addr
          writeiLoop sb k src n fuel (off + m) (tot + m)

/-- Write `n` bytes to an inode at `off`: the number of bytes written, or -1.  `src` are the bytes
of the source up to the first one that cannot be read. -/
def writei (sb : Superblock) (k : ℕ) (src : List Byte) (off n : ℕ) : F ℤ := do
  let i ← read fun s => s.inode k
  if i.d.size.toNat < off ∨ (off + n) % 2 ^ 32 < off then pure (-1)
  else if (off + n) % 2 ^ 32 > maxfile * bsize then pure (-1)
  else do
    let r ← writeiLoop sb k src n (n + 1) off 0
    modifyDinode k fun d => if r.1 > d.size.toNat then { d with size := .ofNat 32 r.1 } else d
    -- the loop may have added blocks even if the size did not change
    iupdate sb k
    pure r.2

end Fs

end Xv6Swap
