import Xv6Swap.Kernel.Dir

/-!
# The program that builds the image

`mkfs/mkfs.c`.  The image is a file of `FSSIZE` sectors; it starts as zeros, which is what the loop
over all sectors in `main` leaves.  `freeinode` and `freeblock` are the two counters from which
inodes and blocks are handed out.

An argument comes with what the calls of `read` on its file return, one chunk after the other, or
`none` if it cannot be opened.  Calls on the image file itself are taken to succeed, except that
there is nothing to read behind its end.  `inums` and `blocks` are history: the inode numbers and
the blocks handed out, in this order.
-/

namespace Xv6Swap

open Run

/-- `NINODES`. -/
abbrev ninodes : ℕ := 200

/-- How `mkfs` fails. -/
inductive MkStop where
  | assert
  | die
  deriving DecidableEq, Repr

/-- The image and the counters of `mkfs`. -/
structure Mk where
  disk : ℕ → Mem
  freeinode : ℕ
  freeblock : ℕ
  inums : List ℕ
  blocks : List ℕ

/-- An argument of `mkfs`: its text, and what `read` returns for the file of this name. -/
structure MkArg where
  name : List Byte
  chunks : Option (List (List Byte))
  /-- The text is a string. -/
  nul : 0 ∉ name

/-- Programs of `mkfs`. -/
abbrev MkProg := Run Mk MkStop

namespace Mk

/-- The superblock that `main` fills in; it is the one of the kernel. -/
abbrev sb : Superblock := .mkfs

/-- `nblocks`. -/
abbrev nblocks : ℕ := 2000 - sb.nmeta

/-- The words of `struct superblock`, `magic` first. -/
def superWords : List ℕ :=
  [0x10203040, sb.size, nblocks, sb.ninodes, sb.nlog, sb.logstart, sb.inodestart, sb.bmapstart]

/-- The place of a sector in the image: `sec * BSIZE` is computed in 32 bits. -/
def imagePlace (sec : ℕ) : ℕ := sec * bsize % 2 ^ 32 / bsize

/-- `rsect`. -/
def rsect (sec : ℕ) : MkProg Mem := do
  if fssize ≤ imagePlace sec then stop .die else read fun s => s.disk (imagePlace sec)

/-- `wsect`. -/
def wsect (sec : ℕ) (buf : Mem) : MkProg Unit :=
  modify fun s => { s with disk := Function.update s.disk (imagePlace sec) buf }

/-- `rinode`. -/
def rinode (inum : ℕ) : MkProg Dinode := do
  let buf ← rsect (sb.iblock inum)
  pure (Dinode.load buf (inum % ipb * dinodeSize))

/-- `winode`. -/
def winode (inum : ℕ) (din : Dinode) : MkProg Unit := do
  let buf ← rsect (sb.iblock inum)
  wsect (sb.iblock inum) (putDinode buf inum din)

/-- `ialloc`. -/
def ialloc (type : BitVec 16) : MkProg ℕ := do
  let inum ← read fun s => s.freeinode
  modify fun s => { s with freeinode := s.freeinode + 1, inums := s.inums ++ [s.freeinode] }
  winode inum { Dinode.zero with type, nlink := 1 }
  pure inum

/-- `freeblock++`. -/
def newBlock : MkProg ℕ := do
  let b ← read fun s => s.freeblock
  modify fun s => { s with
    freeblock := (s.freeblock + 1) % 2 ^ 32
    blocks := s.blocks ++ [s.freeblock] }
  pure b

/-- `addrs[j]` of an inode, a new block if it is 0. -/
def addrBlock (din : Dinode) (j : ℕ) : MkProg Dinode := do
  if din.addr j = 0 then do
    let b ← newBlock
    pure (din.setAddr j b)
  else pure din

/-- The entry `j` of the indirect block `ind`, a new block if it is 0. -/
def entryBlock (ind j : ℕ) : MkProg ℕ := do
  let indirect ← rsect ind
  if indAt indirect j = 0 then do
    let b ← newBlock
    wsect ind (putInd indirect j b)
    pure b
  else pure (indAt indirect j)

/-- The block `fbn` of a file, and the inode with it. -/
def fileBlock (din : Dinode) (fbn : ℕ) : MkProg (Dinode × ℕ) := do
  if fbn < ndirect then do
    let din ← addrBlock din fbn
    pure (din, din.addr fbn)
  else do
    let din ← addrBlock din ndirect
    let x ← entryBlock (din.addr ndirect) (fbn - ndirect)
    pure (din, x)

/-- The loop of `iappend`; the first argument bounds its rounds. -/
def iappendLoop : ℕ → Dinode → ℕ → List Byte → MkProg (Dinode × ℕ)
  | 0, din, off, _ => pure (din, off)
  | fuel + 1, din, off, p =>
    if p = [] then pure (din, off)
    else if maxfile ≤ off / bsize then stop .assert
    else do
      let fbn := off / bsize
      let r ← fileBlock din fbn
      let n1 := min p.length ((fbn + 1) * bsize - off)
      let buf ← rsect r.2
      wsect r.2 (buf.write (off - fbn * bsize) (p.take n1))
      iappendLoop fuel r.1 (off + n1) (p.drop n1)

/-- `iappend`. -/
def iappend (inum : ℕ) (p : List Byte) : MkProg Unit := do
  let din ← rinode inum
  let r ← iappendLoop (p.length + 1) din din.size.toNat p
  winode inum { r.1 with size := .ofNat 32 r.2 }

/-- `balloc`. -/
def balloc (used : ℕ) : MkProg Unit := do
  if bpb ≤ used then stop .assert
  else wsect sb.bmapstart ((List.range used).foldl orBit fun _ => 0)

/-- `"user/"`. -/
abbrev userDir : List Byte := [117, 115, 101, 114, 47]

/-- The argument without `user/`. -/
def stripUser (name : List Byte) : List Byte :=
  if userDir <+: name then name.drop 5 else name

/-- The name without the leading `_`. -/
def stripUnderscore (name : List Byte) : List Byte :=
  if name.head? = some 95 then name.drop 1 else name

/-- The name that the file of an argument gets in the image. -/
def shortName (a : MkArg) : List Byte := stripUnderscore (stripUser a.name)

/-- One round of the loop of `main` over the arguments. -/
def addFile (a : MkArg) : MkProg Unit := do
  if Fs.slash ∈ stripUser a.name then stop .assert
  else match a.chunks with
    | none => stop .die
    | some chunks =>
      if dirsiz < (shortName a).length then stop .assert
      else do
        let inum ← ialloc tFile
        iappend rootino (Dirent.bytes ⟨inum % 2 ^ 16, shortName a⟩)
        each (iappend inum) chunks

/-- The size of the root directory, rounded up to a whole number of blocks. -/
def fixRoot : MkProg Unit := do
  let din ← rinode rootino
  winode rootino { din with size := .ofNat 32 ((din.size.toNat / bsize + 1) * bsize) }

/-- `main`, from the point where the image is all zero. -/
def main (args : List MkArg) : MkProg Unit := do
  wsect 1 (Mem.storeWords (fun _ => 0) 4 0 superWords)
  let root ← ialloc tDir
  if root ≠ rootino then stop .assert
  else do
    iappend rootino (Dirent.bytes ⟨rootino, [46]⟩)
    iappend rootino (Dirent.bytes ⟨rootino, [46, 46]⟩)
    each addFile args
    fixRoot
    let used ← read fun s => s.freeblock
    balloc used

/-- The image of zeros. -/
def start : Mk where
  disk _ _ := 0
  freeinode := 1
  freeblock := sb.nmeta
  inums := []
  blocks := []

end Mk

end Xv6Swap
