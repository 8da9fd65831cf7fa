import Xv6Swap.Kernel.Proc

/-!
# exec

`exec` of `kernel/exec.c` and `sys_exec` of `kernel/sysfile.c`.  A file is its list of bytes;
`readi` reads from it in 32-bit arithmetic, as the C function does.
-/

namespace Xv6Swap

open K P

/-! ### Files -/

/-- `readi`: the bytes read. -/
def readi (file : List Byte) (off n : ℕ) : List Byte :=
  if off > file.length ∨ (off + n) % 2 ^ 32 < off then [] else (file.drop off).take n

/-- The little-endian field of `n` bytes at `off` of a record. -/
def field (rec : List Byte) (off n : ℕ) : ℕ := Mem.loadLE (fun k => rec.getD k 0) n off

/-- `ELF_MAGIC`. -/
abbrev elfMagic : ℕ := 0x464C457F

/-- The size of `struct elfhdr`. -/
abbrev elfhdrSize : ℕ := 64

/-- The size of `struct proghdr`. -/
abbrev proghdrSize : ℕ := 56

/-- The fields of `struct elfhdr` that `exec` reads. -/
structure Elfhdr where
  magic : ℕ
  entry : ℕ
  phoff : ℕ
  phnum : ℕ

/-- The fields of `struct proghdr` that `exec` reads. -/
structure Proghdr where
  type : ℕ
  flags : ℕ
  off : ℕ
  vaddr : ℕ
  filesz : ℕ
  memsz : ℕ

/-- `struct elfhdr`. -/
def Elfhdr.decode (b : List Byte) : Elfhdr where
  magic := field b 0 4
  entry := field b 24 8
  phoff := field b 32 8
  phnum := field b 56 2

/-- `struct proghdr`. -/
def Proghdr.decode (b : List Byte) : Proghdr where
  type := field b 0 4
  flags := field b 4 4
  off := field b 8 8
  vaddr := field b 16 8
  filesz := field b 32 8
  memsz := field b 40 8

/-- `ELF_PROG_LOAD`. -/
abbrev elfProgLoad : ℕ := 1

/-- `flags2perm`. -/
def flags2perm (flags : ℕ) : Word :=
  (if flags.testBit 0 then pteX else 0) ||| (if flags.testBit 1 then pteW else 0)

/-! ### Loading a program -/

/-- The loop of `loadseg`; the first argument bounds the number of iterations. -/
def loadsegLoop (pagetable va : ℕ) (file : List Byte) (offset sz : ℕ) : ℕ → ℕ → K ℤ
  | 0, _ => Run.stop .loop
  | k + 1, i =>
    if i < sz then do
      let pa ← walkaddr pagetable ((va + i) % 2 ^ 64)
      if pa = 0 then panic .loadseg
      else do
        let n := if sz - i < pgsize then sz - i else pgsize
        let data := readi file ((offset + i) % 2 ^ 32) n
        kernelWrite pa data
        if data.length ≠ n then pure (-1)
        else loadsegLoop pagetable va file offset sz k ((i + pgsize) % 2 ^ 32)
    else pure 0

/-- `loadseg`; the offset and the size are 32-bit numbers. -/
def loadseg (pagetable va : ℕ) (file : List Byte) (offset sz : ℕ) : K ℤ :=
  loadsegLoop pagetable va file (offset % 2 ^ 32) (sz % 2 ^ 32) (sz % 2 ^ 32 / pgsize + 2) 0

/-- The loop of `exec` over the program headers, `n` of them from `off` on: the size reached, and
`false` when it takes the jump to `bad`. -/
def execLoad (pagetable : ℕ) (file : List Byte) : ℕ → ℕ → ℕ → K (Bool × ℕ)
  | 0, _, sz => pure (true, sz)
  | n + 1, off, sz => do
    let data := readi file off proghdrSize
    let ph := Proghdr.decode data
    let next := (off + proghdrSize) % 2 ^ 32
    if data.length ≠ proghdrSize then pure (false, sz)
    else if ph.type ≠ elfProgLoad then execLoad pagetable file n next sz
    else if ph.memsz < ph.filesz then pure (false, sz)
    else if (ph.vaddr + ph.memsz) % 2 ^ 64 < ph.vaddr then pure (false, sz)
    else if ph.vaddr % pgsize ≠ 0 then pure (false, sz)
    else do
      let sz1 ← uvmalloc pagetable sz ((ph.vaddr + ph.memsz) % 2 ^ 64) (flags2perm ph.flags)
      if sz1 = 0 then pure (false, sz)
      else do
        let r ← loadseg pagetable ph.vaddr file ph.off ph.filesz
        if r < 0 then pure (false, sz1) else execLoad pagetable file n next sz1

/-! ### The stack -/

/-- `MAXARG`. -/
abbrev maxarg : ℕ := 32

/-- `USERSTACK`. -/
abbrev userstack : ℕ := 1

/-- The stack pointer below `n` more bytes, aligned to 16. -/
def pushSp (sp n : ℕ) : ℕ := addInt sp (-n) / 16 * 16

/-- Copy `data` to the stack at `sp`, if there is room: `false` when `exec` takes the jump to
`bad`. -/
def pushBytes (pagetable stackbase sp : ℕ) (data : List Byte) : K Bool :=
  if sp < stackbase then pure false
  else do
    let r ← copyout pagetable sp data
    pure (decide (0 ≤ r))

/-- The loop of `exec` that pushes the argument strings, with the addresses pushed so far; `none`
when it takes the jump to `bad`. -/
def execArgs (pagetable stackbase : ℕ) : List (List Byte) → ℕ → List ℕ → K (Option (ℕ × List ℕ))
  | [], sp, ustack => pure (some (sp, ustack))
  | arg :: argv, sp, ustack =>
    if ustack.length ≥ maxarg then pure none
    else do
      let sp := pushSp sp (arg.length + 1)
      let ok ← pushBytes pagetable stackbase sp (arg ++ [0])
      if ok then execArgs pagetable stackbase argv sp (ustack ++ [sp]) else pure none

/-- The bytes of a word. -/
def wordBytes (w : ℕ) : List Byte := (List.range 8).map fun k => BitVec.ofNat 8 (w / 256 ^ k)

/-- A new user image, ready to be committed. -/
structure Image where
  pagetable : ℕ
  sz : ℕ
  sp : ℕ
  entry : ℕ
  argc : ℕ

/-- The stack of `exec` in a page table of size `sz`: the image, or the size reached when it takes
the jump to `bad`. -/
def execStack (pagetable sz entry : ℕ) (argv : List (List Byte)) : K (Image ⊕ ℕ) := do
  let sz := pgroundup sz
  let sz1 ← uvmalloc pagetable sz ((sz + (userstack + 1) * pgsize) % 2 ^ 64) pteW
  if sz1 = 0 then pure (.inr sz)
  else do
    uvmclear pagetable (sz1 - (userstack + 1) * pgsize)
    let stackbase := sz1 - userstack * pgsize
    match ← execArgs pagetable stackbase argv sz1 [] with
    | none => pure (.inr sz1)
    | some (sp, ustack) => do
      let sp := pushSp sp ((ustack.length + 1) * 8)
      let ok ← pushBytes pagetable stackbase sp ((ustack ++ [0]).flatMap wordBytes)
      if ok then pure (.inl ⟨pagetable, sz1, sp, entry, ustack.length⟩) else pure (.inr sz1)

/-- `exec` up to the commit, for a process with the given trapframe: the new image, or `none` when
it takes the jump to `bad`, with the new page table freed. -/
def execImage (trapframe : ℕ) (file : List Byte) (argv : List (List Byte)) : K (Option Image) := do
  let data := readi file 0 elfhdrSize
  let elf := Elfhdr.decode data
  if data.length ≠ elfhdrSize then pure none
  else if elf.magic ≠ elfMagic then pure none
  else
    match ← procPagetable trapframe with
    | none => pure none
    | some pagetable => do
      let l ← execLoad pagetable file elf.phnum (elf.phoff % 2 ^ 32) 0
      if !l.1 then do
        procFreepagetable pagetable l.2
        pure none
      else
        match ← execStack pagetable l.2 elf.entry argv with
        | .inr sz => do
          procFreepagetable pagetable sz
          pure none
        | .inl image => pure (some image)

/-- `exec` of the file that `namei` has found, with the argument strings `argv`. -/
def exec (i : ℕ) (file : Option (List Byte)) (argv : List (List Byte)) : P ℤ := do
  match file with
  | none => pure (-1)
  | some file => do
    let p ← get i
    match ← call (execImage p.trapframe file argv) with
    | none => pure (-1)
    | some image => do
      call (store (p.trapframe + tfA1) (BitVec.ofNat 64 image.sp))
      set i fun p => { p with pagetable := image.pagetable, sz := image.sz }
      call (store (p.trapframe + tfEpc) (BitVec.ofNat 64 image.entry))
      call (store (p.trapframe + tfSp) (BitVec.ofNat 64 image.sp))
      call (procFreepagetable p.pagetable p.sz)
      pure image.argc

/-! ### The system call -/

/-- `MAXPATH`. -/
abbrev maxpath : ℕ := 128

/-- The loop of `sys_exec` over the argument pointers at `uargv`, `n` more of them: the buffers
allocated and the strings in them, and `false` when it takes the jump to `bad`. -/
def fetchArgs (pagetable sz uargv : ℕ) : ℕ → ℕ → K (Bool × List (ℕ × List Byte))
  | 0, _ => pure (false, [])
  | n + 1, i => do
    let a ← fetchaddr pagetable sz ((uargv + 8 * i) % 2 ^ 64)
    if a.1 < 0 then pure (false, [])
    else
      let uarg := field a.2 0 8
      if uarg = 0 then pure (true, [])
      else
        match ← kalloc with
        | none => pure (false, [])
        | some mem => do
          let r ← fetchstr pagetable uarg pgsize
          Run.modify fun σ => { σ with mem := σ.mem.write mem r.2 }
          if r.1 < 0 then pure (false, [(mem, [])])
          else do
            let l ← fetchArgs pagetable sz uargv n (i + 1)
            pure (l.1, (mem, r.2.takeWhile (· ≠ 0)) :: l.2)

/-- `sys_exec`; `namei` looks a path up in the file system. -/
def sysExec (namei : List Byte → Option (List Byte)) (i : ℕ) (a0 a1 : Word) : P ℤ := do
  let p ← get i
  let path ← call (fetchstr p.pagetable a0.toNat maxpath)
  if path.1 < 0 then pure (-1)
  else do
    let l ← call (fetchArgs p.pagetable p.sz a1.toNat maxarg 0)
    let ret ← (if l.1 then exec i (namei (path.2.takeWhile (· ≠ 0))) (l.2.map Prod.snd)
      else pure (-1))
    call (Run.each (fun b => kfree b.1) l.2)
    pure ret

end Xv6Swap
