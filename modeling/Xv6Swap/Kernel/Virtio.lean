import Xv6Swap.Lib.Machine
import Mathlib.Logic.Function.Basic

/-!
# The disk driver

`kernel/virtio_disk.c`: `alloc_desc`, `free_desc`, `free_chain`, `alloc3_desc`, `virtio_disk_rw` and
`virtio_disk_intr`, with the device at the other end of the two rings.  Any number of threads make
requests and run the interrupt handler.  A step is what a thread does between two points at which
another thread or the device can see a difference: it takes or gives up `vdisk_lock`, publishes a
request, or handles one completion.

A thread that sleeps can be woken at any time (by `wakeup`, or by `kill`); it then waits for
`vdisk_lock` and looks again.  Callers of `virtio_disk_rw` hold the lock of the buffer, so that no
two calls are made for one buffer at a time.

What is in `ops[]` and in the data buffers, and `len` of a descriptor, matter only to the transfer
itself and are left out.  `calls`, `posts`, `consumed`, `reports` and `processed` are history.
-/

namespace Xv6Swap

open Function Run

/-- `NUM`. -/
abbrev vnum : ℕ := 8

/-- Why the kernel stops in the driver. -/
inductive VdPanic where
  /-- `panic("free_desc 1")`. -/
  | freeDesc1
  /-- `panic("free_desc 2")`. -/
  | freeDesc2
  /-- `panic("virtio_disk_intr status")`. -/
  | status
  /-- A null pointer is used. -/
  | null
  /-- The loop of `free_chain` does not end. -/
  | loop
  deriving DecidableEq, Repr

/-- Where a descriptor points to. -/
inductive VdAddr where
  | null
  /-- `&disk.ops[i]`. -/
  | op (i : ℕ)
  /-- `b->data`. -/
  | data (b : ℕ)
  /-- `&disk.info[i].status`. -/
  | status (i : ℕ)
  deriving DecidableEq, Repr

/-- `struct virtq_desc`. -/
structure VdDesc where
  addr : VdAddr
  flags : BitVec 16
  next : ℕ
  deriving DecidableEq, Repr

/-- `VRING_DESC_F_NEXT`. -/
abbrev descNext : BitVec 16 := 1

/-- `VRING_DESC_F_WRITE`. -/
abbrev descWrite : BitVec 16 := 2

/-- An entry of `disk.info`. -/
structure VdInfo where
  b : Option ℕ
  status : BitVec 8
  deriving DecidableEq, Repr

/-- A request: its number, and the head of its chain. -/
structure VdReq where
  id : ℕ
  head : ℕ
  deriving DecidableEq, Repr

/-- A call of `virtio_disk_rw` that has its descriptors `idx[0]`, `idx[1]` and `idx[2]`. -/
structure VdCall where
  id : ℕ
  b : ℕ
  i0 : ℕ
  i1 : ℕ
  i2 : ℕ
  deriving DecidableEq, Repr

/-- The position of a thread. -/
inductive VdPc where
  | idle
  /-- In `virtio_disk_rw`, at `acquire(&disk.vdisk_lock)`, also that at the end of the first
  `sleep`. -/
  | rw (b : ℕ) (write : Bool)
  /-- The request is in the ring, before `disk.avail->idx += 1`. -/
  | ready (f : VdCall)
  /-- At `while(b->disk == 1)`. -/
  | check (f : VdCall)
  /-- In the second `sleep`. -/
  | asleep (f : VdCall)
  /-- In `virtio_disk_intr`, at `acquire(&disk.vdisk_lock)`. -/
  | intr
  /-- In the loop of `virtio_disk_intr`. -/
  | loop
  deriving DecidableEq, Repr

/-- The call that a thread is in, once it has its descriptors. -/
def VdPc.call : VdPc → Option VdCall
  | .ready f | .check f | .asleep f => some f
  | _ => none

/-- The buffer of the call that a thread is in. -/
def VdPc.buf : VdPc → Option ℕ
  | .rw b _ => some b
  | pc => pc.call.map VdCall.b

/-- The driver, the buffers and the device. -/
structure Vdisk where
  free : ℕ → Bool
  desc : ℕ → VdDesc
  info : ℕ → VdInfo
  /-- `disk.avail->ring` and `disk.avail->idx`. -/
  availRing : ℕ → ℕ
  availIdx : BitVec 16
  /-- `disk.used->ring[].id` and `disk.used->idx`, written by the device. -/
  usedRing : ℕ → ℕ
  usedIdx : BitVec 16
  /-- `disk.used_idx`. -/
  seenIdx : BitVec 16
  /-- The thread that holds `disk.vdisk_lock`. -/
  lock : Option ℕ
  /-- `b->disk`. -/
  busy : ℕ → Bool
  thread : ℕ → VdPc
  /-- How far the device has read the avail ring, and what it has taken and not yet reported. -/
  devIdx : BitVec 16
  taken : List VdReq
  /-- The number of calls that got their descriptors. -/
  calls : ℕ
  /-- The requests published, and how many of them the device has taken. -/
  posts : List VdReq
  consumed : ℕ
  /-- The completions that the device has reported, and the chain heads that the interrupt handler
  has read. -/
  reports : List VdReq
  processed : List ℕ

/-- The driver. -/
abbrev V := Run Vdisk VdPanic

namespace Vdisk

/-- `alloc_desc`. -/
def allocDesc : V (Option ℕ) := do
  match ← read fun s => (List.range vnum).find? fun i => s.free i with
  | some i => do
    modify fun s => { s with free := update s.free i false }
    pure (some i)
  | none => pure none

/-- `free_desc`, without its `wakeup`. -/
def freeDesc (i : ℕ) : V Unit := do
  let free ← read fun s => s.free i
  if i ≥ vnum then stop .freeDesc1
  else if free then stop .freeDesc2
  else modify fun s => { s with
    desc := update s.desc i ⟨.null, 0, 0⟩
    free := update s.free i true }

/-- `free_chain`; the first argument bounds the length of the chain. -/
def freeChain : ℕ → ℕ → V Unit
  | 0, _ => stop .loop
  | n + 1, i => do
    let d ← read fun s => s.desc i
    freeDesc i
    if d.flags &&& descNext ≠ 0 then freeChain n d.next else pure ()

/-- `alloc3_desc`. -/
def alloc3Desc : V (Option (ℕ × ℕ × ℕ)) := do
  match ← allocDesc with
  | none => pure none
  | some i0 => do
    match ← allocDesc with
    | none => do
      freeDesc i0
      pure none
    | some i1 => do
      match ← allocDesc with
      | none => do
        freeDesc i0
        freeDesc i1
        pure none
      | some i2 => pure (some (i0, i1, i2))

/-- Change the position of a thread. -/
def goto (s : Vdisk) (t : ℕ) (pc : VdPc) : Vdisk :=
  { s with thread := update s.thread t pc }

/-- The part of `virtio_disk_rw` that formats the descriptors, up to the entry of the avail ring. -/
def format (s : Vdisk) (f : VdCall) (write : Bool) : Vdisk :=
  { s with
    desc := update (update (update s.desc
      f.i0 ⟨.op f.i0, descNext, f.i1⟩)
      f.i1 ⟨.data f.b, (if write then 0 else descWrite) ||| descNext, f.i2⟩)
      f.i2 ⟨.status f.i0, descWrite, 0⟩
    info := update s.info f.i0 ⟨some f.b, 0xff⟩
    busy := update s.busy f.b true
    availRing := update s.availRing (s.availIdx.toNat % vnum) f.i0 }

/-- A thread that has its descriptors formats them, with the lock held. -/
def launch (s : Vdisk) (t : ℕ) (f : VdCall) (write : Bool) : Vdisk :=
  { (s.format f write).goto t (.ready f) with lock := some t, calls := s.calls + 1 }

/-- `virtio_disk_rw`, from `acquire` to `sleep` or to the entry of the avail ring. -/
def rw (t b : ℕ) (write : Bool) : V Unit := do
  match ← alloc3Desc with
  | none => pure ()
  | some (i0, i1, i2) => modify fun s => s.launch t ⟨s.calls, b, i0, i1, i2⟩ write

/-- `disk.avail->idx += 1`. -/
def publish (s : Vdisk) (t : ℕ) (f : VdCall) : Vdisk :=
  { s.goto t (.check f) with
    availIdx := s.availIdx + 1
    posts := s.posts ++ [⟨f.id, f.i0⟩] }

/-- The end of `virtio_disk_rw`. -/
def finish (t : ℕ) (f : VdCall) : V Unit := do
  modify fun s => { s with info := update s.info f.i0 { s.info f.i0 with b := none } }
  freeChain (vnum + 1) f.i0
  modify fun s => { s.goto t .idle with lock := none }

/-- One round of the loop of `virtio_disk_intr`. -/
def handle : V Unit := do
  let id ← read fun s => s.usedRing (s.seenIdx.toNat % vnum)
  let info ← read fun s => s.info id
  if info.status ≠ 0 then stop .status
  else match info.b with
    | none => stop .null
    | some b => modify fun s => { s with
        busy := update s.busy b false
        seenIdx := s.seenIdx + 1
        processed := s.processed ++ [id] }

/-- The next step of a thread. -/
def step (t : ℕ) : V Unit := do
  match ← read fun s => s.thread t with
  | .idle => pure ()
  | .rw b write => rw t b write
  | .ready f => modify fun s => s.publish t f
  | .check f => do
    let busy ← read fun s => s.busy f.b
    if busy then modify fun s => { s.goto t (.asleep f) with lock := none } else finish t f
  | .asleep f => modify fun s => { s.goto t (.check f) with lock := some t }
  | .intr => modify fun s => { s.goto t .loop with lock := some t }
  | .loop => do
    let more ← read fun s => decide (s.seenIdx ≠ s.usedIdx)
    if more then handle else modify fun s => { s.goto t .idle with lock := none }

/-- The device takes the next chain head out of the avail ring. -/
def take (s : Vdisk) : Vdisk :=
  { s with
    devIdx := s.devIdx + 1
    taken := s.taken ++ [⟨(s.posts[s.consumed]?.map VdReq.id).getD 0,
      s.availRing (s.devIdx.toNat % vnum)⟩]
    consumed := s.consumed + 1 }

/-- The device writes the status of a request: it follows the chain to its third descriptor. -/
def writeStatus (s : Vdisk) (head : ℕ) : Vdisk :=
  match (s.desc (s.desc (s.desc head).next).next).addr with
  | .status i => { s with info := update s.info i { s.info i with status := 0 } }
  | _ => s

/-- The device reports a request that it has taken. -/
def complete (s : Vdisk) (r : VdReq) : Vdisk :=
  { s.writeStatus r.head with
    usedRing := update s.usedRing (s.usedIdx.toNat % vnum) r.head
    usedIdx := s.usedIdx + 1
    taken := s.taken.erase r
    reports := s.reports ++ [r] }

/-- The thread holds the lock, or can take it. -/
def Ready (s : Vdisk) (t : ℕ) : Prop :=
  match s.thread t with
  | .idle => False
  | .rw _ _ | .asleep _ | .intr => s.lock = none
  | .ready _ | .check _ | .loop => True

instance (s : Vdisk) (t : ℕ) : Decidable (s.Ready t) := by
  unfold Ready
  cases s.thread t <;> infer_instance

end Vdisk

/-- What can happen. -/
inductive VdEvent where
  /-- A thread calls `virtio_disk_rw`. -/
  | call (t b : ℕ) (write : Bool)
  /-- A CPU runs `virtio_disk_intr`. -/
  | interrupt (t : ℕ)
  | step (t : ℕ)
  | take
  | complete (r : VdReq)
  deriving DecidableEq, Repr

namespace VdEvent

/-- When it can happen, with threads `t < nt`. -/
def Ok (nt : ℕ) (e : VdEvent) (s : Vdisk) : Prop :=
  match e with
  | .call t b _ => t < nt ∧ s.thread t = .idle ∧ ∀ u < nt, (s.thread u).buf ≠ some b
  | .interrupt t => t < nt ∧ s.thread t = .idle
  | .step t => t < nt ∧ s.Ready t
  | .take => s.devIdx ≠ s.availIdx
  | .complete r => r ∈ s.taken

instance (nt : ℕ) (e : VdEvent) (s : Vdisk) : Decidable (e.Ok nt s) := by
  unfold Ok
  cases e <;> infer_instance

/-- Its effect. -/
def run : VdEvent → V Unit
  | .call t b write => modify fun s => s.goto t (.rw b write)
  | .interrupt t => modify fun s => s.goto t .intr
  | .step t => Vdisk.step t
  | .take => modify Vdisk.take
  | .complete r => modify fun s => s.complete r

end VdEvent

/-- After `virtio_disk_init`. -/
def Vdisk.start : Vdisk where
  free i := decide (i < vnum)
  desc _ := ⟨.null, 0, 0⟩
  info _ := ⟨none, 0⟩
  availRing _ := 0
  availIdx := 0
  usedRing _ := 0
  usedIdx := 0
  seenIdx := 0
  lock := none
  busy _ := false
  thread _ := .idle
  devIdx := 0
  taken := []
  calls := 0
  posts := []
  consumed := 0
  reports := []
  processed := []

/-- The runs with `nt` threads. -/
def vdisk (nt : ℕ) : Machine Vdisk VdPanic VdEvent where
  init s := s = Vdisk.start
  guard := VdEvent.Ok nt
  prog := VdEvent.run

end Xv6Swap
