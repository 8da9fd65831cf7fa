import Xv6Swap.Kernel.Riscv

/-!
# The layout of the disk

The constants and macros of `kernel/fs.h` and `kernel/param.h` that the file system uses, and the
superblock that `mkfs/mkfs.c` computes:

`[ boot block | super block | log | inode blocks | free bit map | data blocks ]`

A `Superblock` carries what the layout promises: the areas follow each other in this order and the
metadata ends below the swap area.
-/

namespace Xv6Swap

/-- `ROOTDEV`: the device of the file system. -/
abbrev rootdev : ℕ := 1

/-- The device under which `swapread` and `swapwrite` reach the same disk. -/
abbrev swapdev : ℕ := 0

/-- `ROOTINO`: the number of the root inode. -/
abbrev rootino : ℕ := 1

/-- `NDIRECT`. -/
abbrev ndirect : ℕ := 12

/-- `NINDIRECT`. -/
abbrev nindirect : ℕ := bsize / 4

/-- `MAXFILE`: the largest file, in blocks. -/
abbrev maxfile : ℕ := ndirect + nindirect

/-- The size of `struct dinode`. -/
abbrev dinodeSize : ℕ := 64

/-- `IPB`: inodes per block. -/
abbrev ipb : ℕ := bsize / dinodeSize

/-- `BPB`: bits of the free map per block. -/
abbrev bpb : ℕ := bsize * 8

/-- `MAXOPBLOCKS`. -/
abbrev maxopblocks : ℕ := 10

/-- `LOGSIZE`. -/
abbrev logsize : ℕ := maxopblocks * 3

/-- `NBUF`. -/
abbrev nbuf : ℕ := maxopblocks * 3

/-- `struct superblock`, without `magic` and `nblocks`, which the kernel only checks or ignores.
The data blocks start at `nmeta`. -/
structure Superblock where
  size : ℕ
  ninodes : ℕ
  nlog : ℕ
  logstart : ℕ
  inodestart : ℕ
  bmapstart : ℕ
  nmeta : ℕ
  logstart_ge : 2 ≤ logstart
  nlog_pos : 1 ≤ nlog
  inodestart_ge : logstart + nlog ≤ inodestart
  bmapstart_ge : inodestart + (ninodes / ipb + 1) ≤ bmapstart
  nmeta_ge : bmapstart + (size / bpb + 1) ≤ nmeta
  nmeta_le : nmeta ≤ swapbase
  ninodes_le : ninodes ≤ 2 ^ 15

/-- The superblock of `mkfs`. -/
def Superblock.mkfs : Superblock where
  size := fssize
  ninodes := 200
  nlog := logsize
  logstart := 2
  inodestart := 32
  bmapstart := 45
  nmeta := 49
  logstart_ge := by decide
  nlog_pos := by decide
  inodestart_ge := by decide
  bmapstart_ge := by decide
  nmeta_ge := by decide
  nmeta_le := by decide
  ninodes_le := by decide

namespace Superblock

variable (sb : Superblock)

/-- `IBLOCK`: the block that contains an inode. -/
def iblock (inum : ℕ) : ℕ := inum / ipb + sb.inodestart

/-- `BBLOCK`: the block of the free map that contains the bit of a block. -/
def bblock (b : ℕ) : ℕ := b / bpb + sb.bmapstart

/-- The blocks of the on-disk log, the header first. -/
def InLog (b : ℕ) : Prop := sb.logstart ≤ b ∧ b < sb.logstart + sb.nlog

instance (b : ℕ) : Decidable (sb.InLog b) := inferInstanceAs (Decidable (_ ∧ _))

/-- The blocks of the file system that are not part of the log. -/
def Home (b : ℕ) : Prop := b < swapbase ∧ ¬ sb.InLog b

instance (b : ℕ) : Decidable (sb.Home b) := inferInstanceAs (Decidable (_ ∧ _))

theorem log_le : sb.logstart + sb.nlog ≤ swapbase :=
  calc sb.logstart + sb.nlog ≤ sb.inodestart := sb.inodestart_ge
    _ ≤ sb.bmapstart := (Nat.le_add_right ..).trans sb.bmapstart_ge
    _ ≤ sb.nmeta := (Nat.le_add_right ..).trans sb.nmeta_ge
    _ ≤ swapbase := sb.nmeta_le

end Superblock

/-- The panics of the file system. -/
inductive FsPanic where
  | bgetNoBuffers | tooBig | outsideOfTrans | logCommitting | freeingFree | igetNoInodes | ilock
  | ilockNoType | iunlock | bmapOutOfRange | dirlookupNotDir | dirlookupRead | dirlinkRead
  | isdirempty | unlinkNlink | unlinkWritei | filedup | fileclose
  deriving DecidableEq, Repr

end Xv6Swap
