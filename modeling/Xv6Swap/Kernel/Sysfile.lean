import Xv6Swap.Kernel.Dir

/-!
# Files and the system calls on them

`kernel/file.c` and `kernel/sysfile.c`, and what `fork`, `exec` and `exit` do with files.  A system
call is a program run by the process `p`.  Its inputs are the fetched arguments: a path that
`argstr` could not fetch is `none`.  What a call asks of the memory system (`kalloc` in `pipealloc`,
`copyout` in `sys_pipe`, the copy of the address space in `fork`, everything but the lookup of the
file in `exec`) is an input, too: whether it succeeds.
-/

namespace Xv6Swap.Fs

open Run List

/-- `NDEV`. -/
abbrev ndev : ℤ := 10

/-! ### `file.c` -/

/-- Change an entry of `ftable`. -/
def setFile (s : Fs) (f : ℕ) (g : File → File) : Fs :=
  { s with file := Function.update s.file f (g (s.file f)) }

/-- Change an entry of `ftable`. -/
def modifyFile (f : ℕ) (g : File → File) : F Unit := modify fun s => s.setFile f g

/-- Allocate a file structure. -/
def filealloc : F (Option ℕ) := do
  let s ← read id
  match (range nfile).find? fun f => (s.file f).ref = 0 with
  | some f =>
    modifyFile f fun x => { x with ref := 1 }
    pure (some f)
  | none => pure none

/-- Increment the reference count of a file. -/
def filedup (f : ℕ) : F Unit := do
  let x ← read fun s => s.file f
  if x.ref < 1 then panic .filedup
  else modifyFile f fun x => { x with ref := x.ref + 1 }

/-- Close a file: the last reference releases what the file refers to. -/
def fileclose (sb : Superblock) (f : ℕ) : F Unit := do
  let x ← read fun s => s.file f
  if x.ref < 1 then panic .fileclose
  else if x.ref - 1 > 0 then modifyFile f fun x => { x with ref := x.ref - 1 }
  else do
    modifyFile f fun x => { x with ref := 0, type := .none }
    match x.type with
    | .inode | .device =>
      beginOp
      iput sb x.ip
      endOp sb
    -- the pipe itself is not part of this state
    | .pipe | .none => pure ()

/-! ### `sysfile.c` -/

/-- Change a process. -/
def setProc (s : Fs) (p : ℕ) (g : FsProc → FsProc) : Fs :=
  { s with proc := Function.update s.proc p (g (s.proc p)) }

/-- Change an entry of `ofile`. -/
def setOfile (p fd : ℕ) (f : Option ℕ) : F Unit :=
  modify fun s => s.setProc p fun x => { x with ofile := Function.update x.ofile fd f }

/-- The file of a descriptor. -/
def argfd (p : ℕ) (fd : ℤ) : F (Option ℕ) :=
  read fun s => if fd < 0 ∨ fd ≥ nofile then none else (s.proc p).ofile fd.toNat

/-- Allocate a file descriptor for a file. -/
def fdalloc (p f : ℕ) : F (Option ℕ) := do
  let s ← read id
  match (range nofile).find? fun fd => (s.proc p).ofile fd = none with
  | some fd =>
    setOfile p fd (some f)
    pure (some fd)
  | none => pure none

/-- `dup`. -/
def sysDup (p : ℕ) (fd : ℤ) : F ℤ := do
  match ← argfd p fd with
  | none => pure (-1)
  | some f =>
    match ← fdalloc p f with
    | none => pure (-1)
    | some fd' =>
      filedup f
      pure fd'

/-- `close`. -/
def sysClose (sb : Superblock) (p : ℕ) (fd : ℤ) : F ℤ := do
  match ← argfd p fd with
  | none => pure (-1)
  | some f =>
    setOfile p fd.toNat none
    fileclose sb f
    pure 0

/-- `if(r > 0) f->off += r`. -/
def moveOff (f : ℕ) (r : ℤ) : F Unit :=
  if r > 0 then modifyFile f fun x => { x with off := (x.off + r.toNat) % 2 ^ 32 } else pure ()

/-- `read` of `n` bytes; `room` of them can be copied out. -/
def sysRead (sb : Superblock) (p : ℕ) (fd : ℤ) (room : ℕ) (n : BitVec 32) : F ℤ := do
  match ← argfd p fd with
  | none => pure (-1)
  | some f =>
    let x ← read fun s => s.file f
    if !x.readable then pure (-1)
    else match x.type with
    | .inode =>
      ilock sb x.ip
      let r ← readi sb x.ip room x.off n.toNat
      moveOff f r.1
      iunlock x.ip
      pure r.1
    -- pipes and devices are not part of this state
    | _ => pure 0

/-- The loop of `filewrite`: a few blocks at a time. -/
def filewriteLoop (sb : Superblock) (f : ℕ) (src : List Byte) (n : ℕ) : ℕ → ℕ → F ℤ
  | 0, i => pure i
  | fuel + 1, i =>
    if n ≤ i then pure n
    else do
      let n1 := min (n - i) ((maxopblocks - 1 - 1 - 2) / 2 * bsize)
      beginOp
      let x ← read fun s => s.file f
      ilock sb x.ip
      let r ← writei sb x.ip (src.drop i) x.off n1
      moveOff f r
      iunlock x.ip
      endOp sb
      if r = n1 then filewriteLoop sb f src n fuel (i + n1) else pure (-1)

/-- `write` of `n` bytes; `src` are those up to the first that cannot be read. -/
def sysWrite (sb : Superblock) (p : ℕ) (fd : ℤ) (src : List Byte) (n : BitVec 32) : F ℤ := do
  match ← argfd p fd with
  | none => pure (-1)
  | some f =>
    let x ← read fun s => s.file f
    if !x.writable then pure (-1)
    else match x.type with
    | .inode =>
      -- `n` is an int
      if n.toInt < 0 then pure (-1) else filewriteLoop sb f src n.toNat (n.toNat + 1) 0
    | _ => pure 0

/-- One link more to an inode. -/
def addLink (sb : Superblock) (k : ℕ) : F Unit := do
  modifyDinode k fun d => { d with nlink := d.nlink + 1 }
  iupdate sb k

/-- One link less to an inode. -/
def dropLink (sb : Superblock) (k : ℕ) : F Unit := do
  modifyDinode k fun d => { d with nlink := d.nlink - 1 }
  iupdate sb k

/-- The part of `sys_link` after the label `bad`. -/
def linkBad (sb : Superblock) (ip : ℕ) : F ℤ := do
  ilock sb ip
  dropLink sb ip
  iunlockput sb ip
  endOp sb
  pure (-1)

/-- The part of `sys_link` after the link has been counted: the new name of the inode. -/
def linkEnter (sb : Superblock) (p ip inum : ℕ) (new : List Byte) : F ℤ := do
  match ← nameiparent sb p new with
  | none => linkBad sb ip
  | some (dp, name) =>
    ilock sb dp
    let ok ← dirlink sb dp name inum
    iunlockput sb dp
    if ok then do
      iput sb ip
      endOp sb
      pure 0
    else linkBad sb ip

/-- `link`. -/
def sysLink (sb : Superblock) (p : ℕ) (old new : Option (List Byte)) : F ℤ :=
  match old, new with
  | some old, some new => do
    beginOp
    match ← namei sb p old with
    | none =>
      endOp sb
      pure (-1)
    | some ip =>
      ilock sb ip
      let i ← read fun s => s.inode ip
      if i.d.type = tDir then do
        iunlockput sb ip
        endOp sb
        pure (-1)
      else do
        addLink sb ip
        iunlock ip
        linkEnter sb p ip i.inum new
  | _, _ => pure (-1)

/-- The loop of `isdirempty`. -/
def isdiremptyLoop (sb : Superblock) (k : ℕ) : List ℕ → F Bool
  | [] => pure true
  | j :: js => do
    match ← readDirent sb k j with
    | none => panic .isdirempty
    | some de => if de.inum ≠ 0 then pure false else isdiremptyLoop sb k js

/-- Is the directory empty except for its first two entries? -/
def isdirempty (sb : Superblock) (k : ℕ) : F Bool := do
  let i ← read fun s => s.inode k
  isdiremptyLoop sb k ((range (entries i.d)).drop 2)

/-- `"."`. -/
abbrev dot : List Byte := [46]

/-- `".."`. -/
abbrev dotdot : List Byte := [46, 46]

/-- The part of `sys_unlink` after the label `bad`. -/
def unlinkBad (sb : Superblock) (dp : ℕ) : F ℤ := do
  iunlockput sb dp
  endOp sb
  pure (-1)

/-- May the inode be unlinked?  A directory only if it is empty. -/
def removable (sb : Superblock) (ip : ℕ) : F Bool := do
  let i ← read fun s => s.inode ip
  if i.d.type = tDir then isdirempty sb ip else pure true

/-- The part of `sys_unlink` after the entry has been found, at `off`: the inode `ip` that it names
goes out of the directory `dp`. -/
def unlinkEntry (sb : Superblock) (dp ip off : ℕ) : F ℤ := do
  ilock sb ip
  let i ← read fun s => s.inode ip
  if i.d.nlink.toInt < 1 then panic .unlinkNlink
  else do
    let ok ← removable sb ip
    if !ok then do
      iunlockput sb ip
      unlinkBad sb dp
    else do
      let r ← writei sb dp (Dirent.bytes ⟨0, []⟩) off direntSize
      if r ≠ direntSize then panic .unlinkWritei
      else do
        -- for ".."
        if i.d.type = tDir then dropLink sb dp else pure ()
        iunlockput sb dp
        dropLink sb ip
        iunlockput sb ip
        endOp sb
        pure 0

/-- `unlink`. -/
def sysUnlink (sb : Superblock) (p : ℕ) (path : Option (List Byte)) : F ℤ :=
  match path with
  | none => pure (-1)
  | some path => do
    beginOp
    match ← nameiparent sb p path with
    | none =>
      endOp sb
      pure (-1)
    | some (dp, name) =>
      ilock sb dp
      if name = dot ∨ name = dotdot then unlinkBad sb dp
      else do
        match ← dirlookup sb dp name with
        | none => unlinkBad sb dp
        | some (ip, off) => unlinkEntry sb dp ip off

/-- The part of `create` after the label `fail`. -/
def createFail (sb : Superblock) (dp ip : ℕ) : F (Option ℕ) := do
  modifyDinode ip fun d => { d with nlink := 0 }
  iupdate sb ip
  iunlockput sb ip
  iunlockput sb dp
  pure none

/-- The entries of a new directory; no link is counted for `"."`: avoid a cyclic reference count. -/
def createDots (sb : Superblock) (dp ip : ℕ) (type : BitVec 16) : F Bool :=
  if type = tDir then do
    let i ← read fun s => s.inode ip
    let ok ← dirlink sb ip dot i.inum
    if ok then do
      let d ← read fun s => s.inode dp
      dirlink sb ip dotdot d.inum
    else pure false
  else pure true

/-- The link of a new directory to its parent, for `".."`. -/
def createParent (sb : Superblock) (dp : ℕ) (type : BitVec 16) : F Unit :=
  if type = tDir then addLink sb dp else pure ()

/-- The part of `create` after an inode has been allocated. -/
def createNew (sb : Superblock) (dp ip : ℕ) (name : List Byte) (type major minor : BitVec 16) :
    F (Option ℕ) := do
  ilock sb ip
  modifyDinode ip fun d => { d with major, minor, nlink := 1 }
  iupdate sb ip
  let ok ← createDots sb dp ip type
  if !ok then createFail sb dp ip
  else do
    let i ← read fun s => s.inode ip
    let ok ← dirlink sb dp name i.inum
    if !ok then createFail sb dp ip
    else do
      -- now that success is guaranteed
      createParent sb dp type
      iunlockput sb dp
      pure (some ip)

/-- Create an inode of a type under a path: a locked inode, or none. -/
def create (sb : Superblock) (p : ℕ) (path : List Byte) (type major minor : BitVec 16) :
    F (Option ℕ) := do
  match ← nameiparent sb p path with
  | none => pure none
  | some (dp, name) =>
    ilock sb dp
    match ← dirlookup sb dp name with
    | some (ip, _) =>
      iunlockput sb dp
      ilock sb ip
      let i ← read fun s => s.inode ip
      if type = tFile ∧ (i.d.type = tFile ∨ i.d.type = tDevice) then pure (some ip)
      else do
        iunlockput sb ip
        pure none
    | none =>
      match ← ialloc sb type with
      | none =>
        iunlockput sb dp
        pure none
      | some ip => createNew sb dp ip name type major minor

/-- `O_WRONLY`, `O_RDWR`, `O_CREATE` and `O_TRUNC`. -/
def oWronly : BitVec 32 := 0x001
@[inherit_doc oWronly] def oRdwr : BitVec 32 := 0x002
@[inherit_doc oWronly] def oCreate : BitVec 32 := 0x200
@[inherit_doc oWronly] def oTrunc : BitVec 32 := 0x400

/-- The part of `sys_open` that gives up a locked inode. -/
def openFail (sb : Superblock) (ip : ℕ) : F ℤ := do
  iunlockput sb ip
  endOp sb
  pure (-1)

/-- What `sys_open` writes into the file for the inode `ip`, whose disk inode is `d`. -/
def fillFile (d : Dinode) (ip : ℕ) (omode : BitVec 32) (x : File) : File :=
  { x with
    type := if d.type = tDevice then .device else .inode
    major := if d.type = tDevice then d.major else x.major
    off := if d.type = tDevice then x.off else 0
    ip
    readable := omode &&& oWronly = 0
    writable := omode &&& oWronly ≠ 0 ∨ omode &&& oRdwr ≠ 0 }

/-- The part of `sys_open` after a file `f` and a descriptor `fd` have been allocated for the
inode. -/
def openFile (sb : Superblock) (ip f fd : ℕ) (omode : BitVec 32) : F ℤ := do
  let i ← read fun s => s.inode ip
  modifyFile f (fillFile i.d ip omode)
  if omode &&& oTrunc ≠ 0 ∧ i.d.type = tFile then itrunc sb ip else pure ()
  iunlock ip
  endOp sb
  pure fd

/-- The part of `sys_open` after the inode has been found or created, and locked. -/
def openInode (sb : Superblock) (p ip : ℕ) (omode : BitVec 32) : F ℤ := do
  let i ← read fun s => s.inode ip
  if i.d.type = tDevice ∧ (i.d.major.toInt < 0 ∨ i.d.major.toInt ≥ ndev) then openFail sb ip
  else do
    match ← filealloc with
    | none => openFail sb ip
    | some f =>
      match ← fdalloc p f with
      | none =>
        fileclose sb f
        openFail sb ip
      | some fd => openFile sb ip f fd omode

/-- `open`. -/
def sysOpen (sb : Superblock) (p : ℕ) (path : Option (List Byte)) (omode : BitVec 32) : F ℤ :=
  match path with
  | none => pure (-1)
  | some path => do
    beginOp
    if omode &&& oCreate ≠ 0 then do
      match ← create sb p path tFile 0 0 with
      | none =>
        endOp sb
        pure (-1)
      | some ip => openInode sb p ip omode
    else do
      match ← namei sb p path with
      | none =>
        endOp sb
        pure (-1)
      | some ip =>
        ilock sb ip
        let i ← read fun s => s.inode ip
        if i.d.type = tDir ∧ omode ≠ 0 then openFail sb ip
        else openInode sb p ip omode

/-- `mkdir` and `mknod`. -/
def sysMake (sb : Superblock) (p : ℕ) (path : Option (List Byte)) (type major minor : BitVec 16) :
    F ℤ := do
  beginOp
  match path with
  | none =>
    endOp sb
    pure (-1)
  | some path =>
    match ← create sb p path type major minor with
    | none =>
      endOp sb
      pure (-1)
    | some ip =>
      iunlockput sb ip
      endOp sb
      pure 0

/-- `mkdir`. -/
def sysMkdir (sb : Superblock) (p : ℕ) (path : Option (List Byte)) : F ℤ :=
  sysMake sb p path tDir 0 0

/-- `mknod`. -/
def sysMknod (sb : Superblock) (p : ℕ) (path : Option (List Byte)) (major minor : BitVec 16) :
    F ℤ := sysMake sb p path tDevice major minor

/-- `chdir`. -/
def sysChdir (sb : Superblock) (p : ℕ) (path : Option (List Byte)) : F ℤ := do
  beginOp
  match path with
  | none =>
    endOp sb
    pure (-1)
  | some path =>
    match ← namei sb p path with
    | none =>
      endOp sb
      pure (-1)
    | some ip =>
      ilock sb ip
      let i ← read fun s => s.inode ip
      if i.d.type ≠ tDir then do
        iunlockput sb ip
        endOp sb
        pure (-1)
      else do
        iunlock ip
        let x ← read fun s => s.proc p
        iput sb (x.cwd.getD 0)
        endOp sb
        modify fun s => s.setProc p fun x => { x with cwd := some ip }
        pure 0

/-- What `exec` does with the file: `reads` are the offsets and sizes of its calls of `readi`, up to
the one after which it gives up or is done. -/
def sysExec (sb : Superblock) (p : ℕ) (path : Option (List Byte)) (reads : List (ℕ × ℕ)) :
    F Unit :=
  match path with
  | none => pure ()
  | some path => do
    beginOp
    match ← namei sb p path with
    | none => endOp sb
    | some ip =>
      ilock sb ip
      each (fun r => readi sb ip r.2 r.1 r.2 >>= fun _ => pure ()) reads
      iunlockput sb ip
      endOp sb

/-- `pipealloc`; `mem` tells whether `kalloc` succeeds. -/
def pipealloc (sb : Superblock) (mem : Bool) : F (Option (ℕ × ℕ)) := do
  match ← filealloc with
  | none => pure none
  | some f0 =>
    match ← filealloc with
    | none =>
      fileclose sb f0
      pure none
    | some f1 =>
      if mem then do
        modifyFile f0 fun x => { x with type := .pipe, readable := true, writable := false }
        modifyFile f1 fun x => { x with type := .pipe, readable := false, writable := true }
        pure (some (f0, f1))
      else do
        fileclose sb f0
        fileclose sb f1
        pure none

/-- `pipe`; `copied` tells whether the descriptors could be copied out. -/
def sysPipe (sb : Superblock) (p : ℕ) (mem copied : Bool) : F ℤ := do
  match ← pipealloc sb mem with
  | none => pure (-1)
  | some (rf, wf) =>
    match ← fdalloc p rf with
    | none =>
      fileclose sb rf
      fileclose sb wf
      pure (-1)
    | some fd0 =>
      match ← fdalloc p wf with
      | none =>
        setOfile p fd0 none
        fileclose sb rf
        fileclose sb wf
        pure (-1)
      | some fd1 =>
        if copied then pure 0
        else do
          setOfile p fd0 none
          setOfile p fd1 none
          fileclose sb rf
          fileclose sb wf
          pure (-1)

/-! ### `proc.c` -/

/-- One round of the loop of `fork` over the open files. -/
def forkFile (p c fd : ℕ) : F Unit := do
  let x ← read fun s => s.proc p
  match x.ofile fd with
  | some f =>
    filedup f
    setOfile c fd (some f)
  | none => pure ()

/-- What `fork` does with files once the child `c` has its memory; nothing if it does not get
that far. -/
def sysFork (p c : ℕ) (mem : Bool) : F Unit :=
  if mem then do
    each (forkFile p c) (range nofile)
    let x ← read fun s => s.proc p
    let k ← idup (x.cwd.getD 0)
    modify fun s => s.setProc c fun x => { x with cwd := some k }
  else pure ()

/-- One round of the loop of `exit` over the open files. -/
def exitFile (sb : Superblock) (p fd : ℕ) : F Unit := do
  let x ← read fun s => s.proc p
  match x.ofile fd with
  | some f =>
    fileclose sb f
    setOfile p fd none
  | none => pure ()

/-- What `exit` does with files. -/
def sysExit (sb : Superblock) (p : ℕ) : F Unit := do
  each (exitFile sb p) (range nofile)
  beginOp
  let x ← read fun s => s.proc p
  iput sb (x.cwd.getD 0)
  endOp sb
  modify fun s => s.setProc p fun x => { x with cwd := none }

end Xv6Swap.Fs
