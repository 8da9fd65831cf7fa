import Xv6Swap.Lib.Machine
import Xv6Swap.System.Boot
import Xv6Swap.System.Exec

/-!
# The system and its operations

`World` is the system together with what belongs to no process: the frames that other parts of the
kernel hold (kernel stacks, pipes, argument buffers), the page tables that are being built, and the
eviction in progress, if any.

`Op` is an operation that runs to completion: one of the memory system on behalf of the kernel, an
access of a user, or a system call, a page fault or the death of a process.  `Op.Ok` says what the
caller of each operation promises.  `Op.spec` is the specification of all of them: the accounts
stay in order, and only `exec`, `exit` and a page fault may stop, with the panics of `loadseg` and
`exit`.

`system` is the machine of the complete operations.
-/

namespace Xv6Swap

open Run

variable {β : Type} {E : Stop → Prop}

/-- The system, with the frames and page tables that belong to no process. -/
structure World where
  sys : Sys
  /-- Frames held by the kernel, other than trapframes and the swap bitmap. -/
  held : List ℕ
  /-- Page tables that belong to no process. -/
  spaces : List ℕ
  /-- The eviction in progress. -/
  flight : Option Flight

/-- Operations that run to completion. -/
inductive Op where
  | kalloc
  | kfree (pa : ℕ)
  /-- The kernel writes to a frame that it holds. -/
  | write (pa : ℕ) (data : List Byte)
  | walk (pagetable va : ℕ)
  | mappages (pagetable v pa : ℕ) (perm : Word)
  | uvmcreate
  | uvmalloc (pagetable oldsz newsz : ℕ) (xperm : Word)
  | uvmdealloc (pagetable oldsz newsz : ℕ)
  | uvmunmap (pagetable v npages : ℕ)
  | uvmclear (pagetable v : ℕ)
  | uvmcopy (old new sz : ℕ)
  | uvmfree (pagetable sz : ℕ)
  | swapout
  | swapin (pagetable va : ℕ)
  /-- A load of the user, which sets the accessed bit. -/
  | load (pagetable va : ℕ)
  /-- A store of the user, which sets the accessed and dirty bits. -/
  | store (pagetable va : ℕ) (b : Byte)
  | copyout (pagetable dstva : ℕ) (src : List Byte)
  | userinit
  | sbrk (i : ℕ) (a0 : Word)
  | fork (i : ℕ)
  | exec (namei : List Byte → Option (List Byte)) (i : ℕ) (a0 a1 : Word)
  | fault (i va : ℕ)
  | exit (i : ℕ) (status : BitVec 32)
  | wait (i j addr : ℕ)

namespace World

variable {α : Type}

/-- Call a function of the memory system. -/
def call (m : K α) : Run World Stop α :=
  zoom (fun w => w.sys.k) (fun σ w => { w with sys := { w.sys with k := σ } }) m

/-- Call a function of the process table. -/
def psys (m : P α) : Run World Stop α := zoom World.sys (fun s w => { w with sys := s }) m

/-- `r` is a page table, of a process or not. -/
def IsTable (w : World) (r : ℕ) : Prop :=
  r ∈ w.spaces ∨ ∃ i < nproc, (w.sys.proc i).pagetable ≠ 0 ∧ (w.sys.proc i).pagetable = r

/-- The process `i` is there to run. -/
def Live (w : World) (i : ℕ) : Prop := i < nproc ∧ (w.sys.proc i).state = .live

/-- The pages of `r` from number `a` up to `b` are mapped. -/
def Mapped (w : World) (r a b : ℕ) : Prop := ∀ v, a ≤ v → v < b → logical w.sys.k r v ≠ none

/-- The pages of `r` from number `a` up to `b` are not mapped. -/
def Unmapped (w : World) (r a b : ℕ) : Prop := ∀ v, a ≤ v → v < b → logical w.sys.k r v = none

end World

namespace Op

open World

/-- What the caller of an operation promises. -/
def Ok : Op → World → Prop
  | kalloc, _ | swapout, _ | uvmcreate, _ => True
  | kfree pa, w => pa ∈ w.held
  | write pa data, w => pa ∈ w.held ∧ data.length ≤ pgsize
  | walk r va, w | swapin r va, w => w.IsTable r ∧ va < maxva
  | load r _, w | store r _ _, w | copyout r _ _, w => w.IsTable r
  | mappages r v pa perm, w => r ∈ w.spaces ∧ v < uvpn ∧ logical w.sys.k r v = none ∧ pa ∈ w.held ∧
      IsFlags perm ∧ has perm pteR = true ∧ has perm pteSwapped = false
  | uvmalloc r oldsz _ xperm, w => r ∈ w.spaces ∧ npg oldsz ≤ 2 ^ 25 ∧ IsFlags xperm ∧
      has xperm pteSwapped = false ∧ w.Unmapped r (npg oldsz) uvpn
  | uvmdealloc r oldsz newsz, w => r ∈ w.spaces ∧ npg oldsz ≤ uvpn ∧
      w.Mapped r (npg newsz) (npg oldsz)
  | uvmunmap r v n, w => r ∈ w.spaces ∧ v + n ≤ uvpn ∧ w.Mapped r v (v + n)
  | uvmclear r v, w => r ∈ w.spaces ∧ v < uvpn ∧ logical w.sys.k r v ≠ none
  | uvmcopy old new sz, w => w.IsTable old ∧ new ∈ w.spaces ∧ w.Unmapped new 0 uvpn ∧
      w.Mapped old 0 (min (npg sz) uvpn)
  | uvmfree r sz, w => r ∈ w.spaces ∧ npg sz ≤ uvpn ∧ w.Mapped r 0 (npg sz) ∧
      ∀ v, npg sz ≤ v → v < 2 ^ 27 → leaf w.sys.k.mem r v = 0
  | userinit, w => (∀ i < nproc, (w.sys.proc i).state = .unused) ∧
      ∃ l, Chain w.sys.k.mem w.sys.k.freelist l ∧ 9 ≤ l.length
  | sbrk i _, w | fork i, w | exec _ i _ _, w | fault i _, w | exit i _, w => w.Live i
  | wait i j _, w => w.Live i ∧ j < nproc ∧ (w.sys.proc j).state = .zombie

/-- An operation as a program. -/
def run : Op → Run World Stop Unit
  | kalloc => do
    match ← call Xv6Swap.kalloc with
    | none => pure ()
    | some pa => modify fun w => { w with held := pa :: w.held }
  | kfree pa => do
    call (Xv6Swap.kfree pa)
    modify fun w => { w with held := w.held.erase pa }
  | write pa data => call (modify fun σ => { σ with mem := σ.mem.write pa data })
  | walk r va => do let _ ← call (Xv6Swap.walk r va true)
  | mappages r v pa perm => do
    let ret ← call (Xv6Swap.mappages r (v * pgsize) pgsize pa perm)
    modify fun w => if ret = 0 then { w with held := w.held.erase pa } else w
  | uvmcreate => do
    match ← call Xv6Swap.uvmcreate with
    | none => pure ()
    | some r => modify fun w => { w with spaces := r :: w.spaces }
  | uvmalloc r oldsz newsz xperm => do let _ ← call (Xv6Swap.uvmalloc r oldsz newsz xperm)
  | uvmdealloc r oldsz newsz => do let _ ← call (Xv6Swap.uvmdealloc r oldsz newsz)
  | uvmunmap r v n => call (Xv6Swap.uvmunmap r (v * pgsize) n true)
  | uvmclear r v => call (Xv6Swap.uvmclear r (v * pgsize))
  | uvmcopy old new sz => do let _ ← call (Xv6Swap.uvmcopy old new sz)
  | uvmfree r sz => do
    call (Xv6Swap.uvmfree r sz)
    modify fun w => { w with spaces := w.spaces.erase r }
  | swapout => do let _ ← call Xv6Swap.swapout
  | swapin r va => do let _ ← call (Xv6Swap.swapin r va)
  | load r va => do let _ ← call (userLoad r va)
  | store r va b => do let _ ← call (userStore r va b)
  | copyout r dstva src => do let _ ← call (Xv6Swap.copyout r dstva src)
  | userinit => psys Xv6Swap.userinit
  | sbrk i a0 => do let _ ← psys (sysSbrk i a0)
  | fork i => do let _ ← psys (Xv6Swap.fork i)
  | exec namei i a0 a1 => do let _ ← psys (sysExec namei i a0 a1)
  | fault i va => psys (usertrap i va)
  | exit i status => psys (Xv6Swap.exit i status)
  | wait i j addr => do let _ ← psys (Xv6Swap.wait i j addr)

/-- The pages and page tables that an operation may unmap. -/
def unmaps : Op → World → Touch
  | uvmdealloc r oldsz newsz, _ => { pages := pageRange r (npg newsz) (npg oldsz) }
  | uvmunmap r v n, _ => { pages := pageRange r v (v + n) }
  | uvmfree r _, _ => { frames := {r} }
  | sbrk i a0, w => { pages := shrunkPages (w.sys.proc i) (argint a0) }
  | exec _ i _ _, w => { frames := {(w.sys.proc i).pagetable} }
  | wait _ j _, w => { frames := {(w.sys.proc j).pagetable} }
  | _, _ => {}

/-- How an operation may stop. -/
def MayStop : Op → World → Stop → Prop
  | exec .., _ => LoadsegPanic
  | fault i _, w | exit i _, w => ExitPanic w.sys i
  | _, _ => fun _ => False

end Op

/-! ### The specification of the operations -/

variable {α : Type} {w w' : World} {g : Ghost} {r : ℕ}

/-- The accounts of a world. -/
def World.Acc (w : World) (g : Ghost) : Prop := Accounts w.sys w.held w.spaces w.flight g

/-- **The accounts of the world are in order.** -/
def World.Sound (w : World) : Prop := ∃ g, w.Acc g

/-- A call of the memory system, followed by more. -/
theorem World.call_spec {m : K α} {k : α → Run World Stop β} {Q : α → KState → Prop}
    {R : β → World → Prop} (h : Ensures (m w.sys.k) Q E)
    (hk : ∀ a σ', Q a σ' → Ensures (k a { w with sys := { w.sys with k := σ' } }) R E) :
    Ensures ((call m >>= k) w) R E := by
  refine (h.zoom fun w : World => w.sys.k).bind ?_
  rintro a _ ⟨σ', hq, rfl⟩
  exact hk a σ' hq

/-- A call of the process table, followed by more. -/
theorem World.psys_spec {m : P α} {k : α → Run World Stop β} {Q : α → Sys → Prop}
    {R : β → World → Prop} (h : Ensures (m w.sys) Q E)
    (hk : ∀ a s', Q a s' → Ensures (k a { w with sys := s' }) R E) :
    Ensures ((psys m >>= k) w) R E := by
  refine (h.zoom World.sys).bind ?_
  rintro a _ ⟨s', hq, rfl⟩
  exact hk a s' hq

theorem World.Acc.isTable (h : w.Acc g) : w.IsTable r ↔ g.role r = .root := (h.root.iff r).symm

theorem World.Acc.hasFree (h : w.Acc g) {l : List ℕ} (hl : Chain w.sys.k.mem w.sys.k.freelist l) :
    HasFree g l.length := by
  obtain ⟨l', hl', hnd, hmem⟩ := h.inv.free
  rw [hl.unique hl']
  exact ⟨l', hnd, Nat.le_refl _, fun f hf => (hmem f).1 hf⟩

/-- What an operation does to the accounts. -/
def Carried (w : World) (_ : Unit) (w' : World) : Prop := w'.Sound ∧ w'.flight = w.flight

/-- An operation of the memory system that changes neither list. -/
theorem carried_call {m : K Unit} (h : Ensures (m w.sys.k) (fun _ σ' => ∃ g',
      Accounts { w.sys with k := σ' } w.held w.spaces w.flight g') E) :
    Ensures (World.call m w) (Carried w) E := by
  refine (h.zoom fun w : World => w.sys.k).imp ?_
  rintro - _ ⟨σ', hq, rfl⟩
  exact ⟨hq, rfl⟩

theorem carried_call_ignore {m : K α} (h : Ensures (m w.sys.k) (fun _ σ' => ∃ g',
      Accounts { w.sys with k := σ' } w.held w.spaces w.flight g') E) :
    Ensures ((do let _ ← World.call m : Run World Stop Unit) w) (Carried w) E :=
  World.call_spec h fun _ _ hq => ⟨hq, rfl⟩

theorem carried_psys {m : P Unit}
    (h : Ensures (m w.sys) (fun _ s' => ∃ g', Accounts s' w.held w.spaces w.flight g') E) :
    Ensures (World.psys m w) (Carried w) E := by
  refine (h.zoom World.sys).imp ?_
  rintro - _ ⟨s', hq, rfl⟩
  exact ⟨hq, rfl⟩

theorem carried_psys_ignore {m : P α}
    (h : Ensures (m w.sys) (fun _ s' => ∃ g', Accounts s' w.held w.spaces w.flight g') E) :
    Ensures ((do let _ ← World.psys m : Run World Stop Unit) w) (Carried w) E :=
  World.psys_spec h fun _ _ hq => ⟨hq, rfl⟩

end Xv6Swap
