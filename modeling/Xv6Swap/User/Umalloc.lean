import Mathlib.Algebra.Group.Nat.Defs
import Mathlib.Data.Int.Notation
import Mathlib.Logic.Function.Basic
import Xv6Swap.Lib.Circle
import Xv6Swap.Lib.Machine

/-!
# The memory allocator of user programs

`free`, `morecore` and `malloc` of `user/umalloc.c`.  A block begins with a header of 16 bytes, and
its size is counted in units of that length.  The free blocks are on a circular list that goes
through the static header `base`.

The memory is modelled by the header that stands at each address.  The state `E` behind `sbrk` and
what `sbrk` answers are parameters.  `got` and `live` are history: the regions that `sbrk` has
given, and the results of `malloc` that have not been freed, with the numbers of bytes asked for.
-/

namespace Xv6Swap.Umalloc

open Run

/-- `union header`. -/
structure Header where
  ptr : ℕ
  size : ℕ
  deriving DecidableEq, Repr, Inhabited

/-- `sizeof(Header)` -/
def unit : ℕ := 16

/-- A region of addresses. -/
structure Region where
  addr : ℕ
  bytes : ℕ
  deriving DecidableEq, Repr

/-- The state of the allocator and of what it depends on. -/
structure Heap (E : Type) where
  mem : ℕ → Header
  /-- `freep`; null is 0. -/
  freep : ℕ
  env : E
  got : List Region

/-- A search has not ended. -/
inductive Halt where
  | timeout
  deriving DecidableEq, Repr

variable {E : Type}

/-- Programs of the allocator. -/
abbrev M (E : Type) := Run (Heap E) Halt

/-! ### Headers -/

def ptr (p : ℕ) : M E ℕ := read fun s => (s.mem p).ptr

def size (p : ℕ) : M E ℕ := read fun s => (s.mem p).size

def setPtr (p q : ℕ) : M E Unit :=
  modify fun s => { s with mem := Function.update s.mem p { s.mem p with ptr := q } }

/-- `size` is a `uint`. -/
def setSize (p n : ℕ) : M E Unit :=
  modify fun s => { s with mem := Function.update s.mem p { s.mem p with size := n % 2 ^ 32 } }

def getFreep : M E ℕ := read Heap.freep

def setFreep (p : ℕ) : M E Unit := modify fun s => { s with freep := p }

/-! ### free -/

/-- The loop of `free` ends at `p`: `bp` lies between `p` and the next block, or `p` is the last one
and `bp` lies above it or below the first. -/
def Spot (m : ℕ → Header) (bp p : ℕ) : Bool :=
  p < bp ∧ bp < (m p).ptr ∨ (m p).ptr ≤ p ∧ (p < bp ∨ bp < (m p).ptr)

/-- `free`, with at most `k` rounds of its loop. -/
def free (k ap : ℕ) : M E Unit := do
  let bp := ap - unit
  let spot ← read fun s => Circular.seek (fun p => (s.mem p).ptr) (Spot s.mem bp) k s.freep
  match spot with
  | none => stop .timeout
  | some p => do
    if bp + unit * (← size bp) = (← ptr p) then do
      setSize bp ((← size bp) + (← size (← ptr p)))
      setPtr bp (← ptr (← ptr p))
    else setPtr bp (← ptr p)
    if p + unit * (← size p) = bp then do
      setSize p ((← size p) + (← size bp))
      setPtr p (← ptr bp)
    else setPtr p bp
    setFreep p

/-! ### malloc -/

/-- What the kernel answers to `sbrk` with an `int`: an address, or -1. -/
abbrev Sbrk (E : Type) := ℤ → E → Option ℕ × E

/-- `sbrk`. -/
def sbrk (os : Sbrk E) (n : ℤ) : M E (Option ℕ) := do
  let (answer, e) ← read fun s => os n s.env
  modify fun s => { s with
    env := e
    got := match answer with
      | some p => if 0 < n then ⟨p, n.toNat⟩ :: s.got else s.got
      | none => s.got }
  pure answer

/-- A number of bytes as an `int`. -/
def toInt (n : ℕ) : ℤ := (BitVec.ofNat 32 n).toInt

/-- The units that `morecore` asks for. -/
def coreUnits (nu : ℕ) : ℕ := if nu < 4096 then 4096 else nu

/-- `morecore`: `freep`, or 0. -/
def morecore (os : Sbrk E) (k nu : ℕ) : M E ℕ := do
  match ← sbrk os (toInt (coreUnits nu * unit)) with
  | none => pure 0
  | some hp => do
    setSize hp (coreUnits nu)
    free k (hp + unit)
    getFreep

/-- `malloc` has found the block `p` behind `prevp`: it takes the block, or the end of it. -/
def take (nunits prevp p : ℕ) : M E ℕ := do
  if (← size p) = nunits then do
    setPtr prevp (← ptr p)
    setFreep prevp
    pure (p + unit)
  else do
    setSize p ((← size p) - nunits)
    let q := p + unit * (← size p)
    setSize q nunits
    setFreep prevp
    pure (q + unit)

/-- The loop of `malloc`, with at most so many rounds; `k` is for the loop of `free`. -/
def mallocLoop (os : Sbrk E) (k nunits : ℕ) : ℕ → ℕ → ℕ → M E ℕ
  | 0, _, _ => stop .timeout
  | j + 1, prevp, p => do
    if nunits ≤ (← size p) then take nunits prevp p
    else if p = (← getFreep) then do
      let p ← morecore os k nunits
      if p = 0 then pure 0
      else do
        let next ← ptr p
        mallocLoop os k nunits j p next
    else do
      let next ← ptr p
      mallocLoop os k nunits j p next

/-- The units of a block for so many bytes, with its header. -/
def units (nbytes : ℕ) : ℕ := ((nbytes + unit - 1) / unit + 1) % 2 ^ 32

/-- `malloc`; null is 0.  `base` is the address of the static header. -/
def malloc (os : Sbrk E) (base k nbytes : ℕ) : M E ℕ := do
  let freep ← getFreep
  if freep = 0 then do
    setPtr base base
    setFreep base
    setSize base 0
  let prevp ← getFreep
  let p ← ptr prevp
  mallocLoop os k (units nbytes) k prevp p

/-! ### Programs that use it -/

/-- A result of `malloc`, with the number of bytes asked for. -/
structure Block where
  addr : ℕ
  bytes : ℕ
  deriving DecidableEq, Repr

/-- The address of the header. -/
def Block.header (b : Block) : ℕ := b.addr - unit

/-- A program that uses the allocator. -/
structure Prog (E : Type) where
  heap : Heap E
  live : List Block

/-- What a program does.  The first argument of the calls bounds the rounds of the loops. -/
inductive Event where
  | malloc (k nbytes : ℕ)
  | free (k ap : ℕ)
  /-- The program writes to its blocks. -/
  | write (mem : ℕ → Header)

/-- The 16 bytes at `a` and the bytes of `b` have nothing in common. -/
def Block.Misses (b : Block) (a : ℕ) : Prop := a + unit ≤ b.addr ∨ b.addr + b.bytes ≤ a

/-- `malloc` takes a `uint`, `free` a block that is live; a program writes to its live blocks. -/
def Event.Ok : Event → Prog E → Prop
  | malloc _ nbytes, _ => nbytes < 2 ^ 32
  | free _ ap, s => ∃ b ∈ s.live, b.addr = ap
  | write mem, s => ∀ a, (∀ b ∈ s.live, b.Misses a) → mem a = s.heap.mem a

/-- Run a program of the allocator. -/
def Prog.call {α : Type} (m : M E α) : Run (Prog E) Halt α :=
  zoom Prog.heap (fun h s => { s with heap := h }) m

def Event.run (os : Sbrk E) (base : ℕ) : Event → Run (Prog E) Halt Unit
  | malloc k nbytes => do
    let p ← Prog.call (Umalloc.malloc os base k nbytes)
    modify fun s => if p = 0 then s else { s with live := ⟨p, nbytes⟩ :: s.live }
  | free k ap => do
    Prog.call (Umalloc.free k ap)
    modify fun s => { s with live := s.live.filter fun b => b.addr ≠ ap }
  | write mem => modify fun s => { s with heap := { s.heap with mem := mem } }

/-- A program starts with `freep` null, in a state of the system. -/
def machine (os : Sbrk E) (base : ℕ) (start : E → Prop) : Machine (Prog E) Halt Event where
  init s := s.heap.freep = 0 ∧ start s.heap.env ∧ s.heap.got = [] ∧ s.live = []
  guard e s := e.Ok s
  prog e := e.run os base

end Xv6Swap.Umalloc
