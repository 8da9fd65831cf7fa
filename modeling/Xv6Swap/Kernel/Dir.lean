import Xv6Swap.Kernel.Fs

/-!
# Directories and path names

The directory layer and path lookup of `kernel/fs.c`.  A directory is a file of `struct dirent`s.
A path is a string without the terminating NUL; a name is an element of it, cut to `DIRSIZ` bytes.

`namecmp` compares two names up to their first NUL or to `DIRSIZ` bytes, so that a name and the
string in an entry are equal exactly if it returns 0.
-/

namespace Xv6Swap.Fs

open Run

/-- Read the directory entry `j` of the directory `k`; `none` if `readi` does not return its
size. -/
def readDirent (sb : Superblock) (k j : ℕ) : F (Option Dirent) := do
  let r ← readi sb k direntSize (j * direntSize) direntSize
  pure (if r.1 = direntSize then some (.ofBytes r.2) else none)

/-- The loop of `dirlookup` over the indices of the entries. -/
def dirlookupLoop (sb : Superblock) (k : ℕ) (name : List Byte) : List ℕ → F (Option (ℕ × ℕ))
  | [] => pure none
  | j :: js => do
    match ← readDirent sb k j with
    | none => panic .dirlookupRead
    | some de =>
      if de.inum ≠ 0 ∧ de.name = name then do
        let next ← iget de.inum
        pure (some (next, j * direntSize))
      else dirlookupLoop sb k name js

/-- The number of entries that the loops over a directory visit. -/
def entries (d : Dinode) : ℕ := (d.size.toNat + (direntSize - 1)) / direntSize

/-- Look for an entry in a directory: the inode it names, with a reference, and its offset. -/
def dirlookup (sb : Superblock) (k : ℕ) (name : List Byte) : F (Option (ℕ × ℕ)) := do
  let i ← read fun s => s.inode k
  if i.d.type ≠ tDir then panic .dirlookupNotDir
  else dirlookupLoop sb k name (List.range (entries i.d))

/-- The loop of `dirlink` for an empty entry: the offset of the first one, or of the end. -/
def dirlinkLoop (sb : Superblock) (k : ℕ) (last : ℕ) : List ℕ → F ℕ
  | [] => pure (last * direntSize)
  | j :: js => do
    match ← readDirent sb k j with
    | none => panic .dirlinkRead
    | some de => if de.inum = 0 then pure (j * direntSize) else dirlinkLoop sb k last js

/-- Write a new entry into a directory; whether it succeeded. -/
def dirlink (sb : Superblock) (k : ℕ) (name : List Byte) (inum : ℕ) : F Bool := do
  match ← dirlookup sb k name with
  | some (next, _) =>
    -- the name is present
    iput sb next
    pure false
  | none =>
    let i ← read fun s => s.inode k
    let off ← dirlinkLoop sb k (entries i.d) (List.range (entries i.d))
    let r ← writei sb k (Dirent.bytes ⟨inum % 2 ^ 16, name⟩) off direntSize
    pure (r = direntSize)

/-- `'/'`. -/
abbrev slash : Byte := 47

/-- The next element of a path, and the rest of the path without leading slashes. -/
def skipelem (path : List Byte) : Option (List Byte × List Byte) :=
  match path.dropWhile fun c => c = slash with
  | [] => none
  | c :: cs => some (((c :: cs).takeWhile fun c => c ≠ slash).take dirsiz,
      ((c :: cs).dropWhile fun c => c ≠ slash).dropWhile fun c => c = slash)

/-- The loop of `namex`, at the directory `k`. -/
def namexLoop (sb : Superblock) (parent : Bool) : ℕ → ℕ → List Byte → List Byte →
    F (Option (ℕ × List Byte))
  | 0, k, name, _ => pure (some (k, name))
  | fuel + 1, k, name, path =>
    match skipelem path with
    | none =>
      if parent then do
        iput sb k
        pure none
      else pure (some (k, name))
    | some (name, path) => do
      ilock sb k
      let i ← read fun s => s.inode k
      if i.d.type ≠ tDir then do
        iunlockput sb k
        pure none
      else if parent ∧ path = [] then do
        -- stop one level early
        iunlock k
        pure (some (k, name))
      else do
        match ← dirlookup sb k name with
        | none =>
          iunlockput sb k
          pure none
        | some (next, _) =>
          iunlockput sb k
          namexLoop sb parent fuel next name path

/-- Look up a path of the process `p`: the inode, or the inode of the parent and the last element of
the path. -/
def namex (sb : Superblock) (p : ℕ) (path : List Byte) (parent : Bool) :
    F (Option (ℕ × List Byte)) := do
  let s ← read id
  let k ← if path.head? = some slash then iget rootino
    else idup ((s.proc p).cwd.getD 0)
  namexLoop sb parent (path.length + 1) k [] path

/-- The inode of a path. -/
def namei (sb : Superblock) (p : ℕ) (path : List Byte) : F (Option ℕ) := do
  let r ← namex sb p path false
  pure (r.map Prod.fst)

/-- The inode of the parent of a path, and the last element. -/
def nameiparent (sb : Superblock) (p : ℕ) (path : List Byte) : F (Option (ℕ × List Byte)) :=
  namex sb p path true

end Xv6Swap.Fs
