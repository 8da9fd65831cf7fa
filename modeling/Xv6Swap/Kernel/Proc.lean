import Xv6Swap.Kernel.User

/-!
# Processes

The functions of `kernel/proc.c` that create, grow, copy and reap address spaces, over the process
table.  Of `struct proc` the model keeps what these functions read: the state, the pid, the exit
status, the size, the page table and the trapframe.
-/

namespace Xv6Swap

open Function Run

open K

/-- `enum procstate`; `live` stands for `SLEEPING`, `RUNNABLE` and `RUNNING`. -/
inductive ProcState where
  | unused | used | live | zombie
  deriving DecidableEq, Repr

/-- `struct proc`. -/
structure Proc where
  state : ProcState
  pid : ℕ
  xstate : BitVec 32
  sz : ℕ
  pagetable : ℕ
  trapframe : ℕ

/-- An entry of the process table that is not in use. -/
def Proc.empty : Proc := ⟨.unused, 0, 0, 0, 0, 0⟩

/-- The memory system with the process table. -/
structure Sys where
  k : KState
  /-- `proc[]`. -/
  proc : ℕ → Proc
  /-- `nextpid`. -/
  nextpid : ℕ
  /-- `initproc`, as an index. -/
  initproc : ℕ

/-- Replace an entry of the process table. -/
def Sys.put (s : Sys) (i : ℕ) (p : Proc) : Sys := { s with proc := update s.proc i p }

theorem Sys.put_self (s : Sys) (i : ℕ) (p : Proc) : (s.put i p).proc i = p :=
  update_self ..

theorem Sys.put_of_ne (s : Sys) {i j : ℕ} (p : Proc) (h : j ≠ i) :
    (s.put i p).proc j = s.proc j := update_of_ne h ..

theorem Sys.put_put (s : Sys) (i : ℕ) (p q : Proc) : (s.put i p).put i q = s.put i q := by
  simp only [Sys.put, update_idem]

theorem Sys.put_eq_self (s : Sys) (i : ℕ) : s.put i (s.proc i) = s := by
  simp only [Sys.put, update_eq_self]

/-- Programs of the kernel that also use the process table. -/
abbrev P := Run Sys Stop

namespace P

/-- Call a function of the memory system. -/
def call {α : Type} (m : K α) : P α := zoom Sys.k (fun σ s => { s with k := σ }) m

/-- `panic(...)`. -/
def panic {α : Type} (p : Panic) : P α := stop (.panic p)

/-- Read an entry of the process table. -/
def get (i : ℕ) : P Proc := read fun s => s.proc i

/-- Write to an entry of the process table. -/
def set (i : ℕ) (f : Proc → Proc) : P Unit := modify fun s => s.put i (f (s.proc i))

end P

open P

/-! ### Page tables of processes -/

/-- `proc_pagetable`, for a process with the given trapframe. -/
def procPagetable (trapframe : ℕ) : K (Option ℕ) := do
  match ← uvmcreate with
  | none => pure none
  | some pagetable => do
    let trampoline ← read fun σ => σ.link.trampoline
    let r ← mappages pagetable trampolineVa pgsize trampoline (pteR ||| pteX)
    if r < 0 then do
      uvmfree pagetable 0
      pure none
    else do
      let r ← mappages pagetable trapframeVa pgsize trapframe (pteR ||| pteW)
      if r < 0 then do
        uvmunmap pagetable trampolineVa 1 false
        uvmfree pagetable 0
        pure none
      else pure (some pagetable)

/-- `proc_freepagetable`. -/
def procFreepagetable (pagetable sz : ℕ) : K Unit := do
  uvmunmap pagetable trampolineVa 1 false
  uvmunmap pagetable trapframeVa 1 false
  uvmfree pagetable sz

/-! ### Entries of the process table -/

/-- `freeproc`. -/
def freeproc (i : ℕ) : P Unit := do
  let p ← get i
  call (if p.trapframe ≠ 0 then kfree p.trapframe else pure ())
  set i fun p => { p with trapframe := 0 }
  let p ← get i
  call (if p.pagetable ≠ 0 then procFreepagetable p.pagetable p.sz else pure ())
  set i fun _ => Proc.empty

/-- The second half of `allocproc`: the entry `i` gets a trapframe and an empty page table. -/
def allocprocFrames (i : ℕ) : P (Option ℕ) := do
  match ← call kalloc with
  | none => do
    freeproc i
    pure none
  | some trapframe => do
    set i fun p => { p with trapframe := trapframe }
    match ← call (procPagetable trapframe) with
    | none => do
      freeproc i
      pure none
    | some pagetable => do
      set i fun p => { p with pagetable := pagetable }
      pure (some i)

/-- `allocproc`: the index of a new entry. -/
def allocproc : P (Option ℕ) := do
  match ← read fun s => (List.range nproc).find? fun i => (s.proc i).state = .unused with
  | none => pure none
  | some i => do
    let pid ← read Sys.nextpid
    modify fun s => { s with nextpid := pid + 1 }
    set i fun p => { p with pid := pid, state := .used }
    allocprocFrames i

/-! ### The trapframe -/

/-- The size of `struct trapframe`. -/
abbrev trapframeSize : ℕ := 288

/-- The offsets of the fields of `struct trapframe` that the functions here write. -/
abbrev tfEpc : ℕ := 24
@[inherit_doc tfEpc] abbrev tfSp : ℕ := 48
@[inherit_doc tfEpc] abbrev tfA0 : ℕ := 112
@[inherit_doc tfEpc] abbrev tfA1 : ℕ := 120

/-! ### Creating, growing and copying processes -/

/-- `initcode`. -/
def initcode : List Byte :=
  [0x17, 0x05, 0x00, 0x00, 0x13, 0x05, 0x45, 0x02, 0x97, 0x05, 0x00, 0x00, 0x93, 0x85, 0x35, 0x02,
   0x93, 0x08, 0x70, 0x00, 0x73, 0x00, 0x00, 0x00, 0x93, 0x08, 0x20, 0x00, 0x73, 0x00, 0x00, 0x00,
   0xef, 0xf0, 0x9f, 0xff, 0x2f, 0x69, 0x6e, 0x69, 0x74, 0x00, 0x00, 0x24, 0x00, 0x00, 0x00, 0x00,
   0x00, 0x00, 0x00, 0x00]

/-- `userinit`. -/
def userinit : P Unit := do
  match ← allocproc with
  | none => stop .trap
  | some i => do
    modify fun s => { s with initproc := i }
    let p ← get i
    call (uvmfirst p.pagetable initcode)
    set i fun p => { p with sz := pgsize }
    call (store (p.trapframe + tfEpc) 0)
    call (store (p.trapframe + tfSp) (BitVec.ofNat 64 pgsize))
    set i fun p => { p with state := .live }

/-- A size plus an `int`, in 64-bit arithmetic. -/
def addInt (sz : ℕ) (n : ℤ) : ℕ := ((sz + n) % 2 ^ 64).toNat

/-- `growproc`, with any `int`. -/
def growproc (i : ℕ) (n : ℤ) : P ℤ := do
  let p ← get i
  if n > 0 then do
    let sz ← call (uvmalloc p.pagetable p.sz (addInt p.sz n) pteW)
    if sz = 0 then pure (-1)
    else do
      set i fun p => { p with sz := sz }
      pure 0
  else if n < 0 then do
    let sz ← call (uvmdealloc p.pagetable p.sz (addInt p.sz n))
    set i fun p => { p with sz := sz }
    pure 0
  else pure 0

/-- `sys_sbrk`: the old size, or -1. -/
def sysSbrk (i : ℕ) (a0 : Word) : P ℤ := do
  let p ← get i
  let r ← growproc i (argint a0)
  if r < 0 then pure (-1) else pure p.sz

/-- `fork`: the pid of the child, or -1. -/
def fork (i : ℕ) : P ℤ := do
  match ← allocproc with
  | none => pure (-1)
  | some c => do
    let p ← get i
    let np ← get c
    let r ← call (uvmcopy p.pagetable np.pagetable p.sz)
    if r < 0 then do
      freeproc c
      pure (-1)
    else do
      set c fun np => { np with sz := p.sz }
      call (modify fun σ =>
        { σ with mem := σ.mem.copy np.trapframe p.trapframe trapframeSize })
      call (store (np.trapframe + tfA0) 0)
      set c fun np => { np with state := .live }
      pure np.pid

/-! ### Exit, wait and page faults -/

/-- `exit`. -/
def exit (i : ℕ) (status : BitVec 32) : P Unit := do
  let initproc ← read Sys.initproc
  if i = initproc then panic .initExiting
  else set i fun p => { p with xstate := status, state := .zombie }

/-- `wait` of the process `i` when it has found the zombie child `j`. -/
def wait (i j addr : ℕ) : P ℤ := do
  let p ← get i
  let pp ← get j
  let r ← call (if addr ≠ 0 then copyout p.pagetable addr (intBytes pp.xstate) else pure 0)
  if r < 0 then pure (-1)
  else do
    freeproc j
    pure pp.pid

/-- A page fault of the process `i` at `va`: the page is brought back, or the process exits. -/
def usertrap (i va : ℕ) : P Unit := do
  let p ← get i
  let ok ← call (usertrapFault p.pagetable va)
  if ok then pure () else exit i (-1)

end Xv6Swap
