import Xv6Swap.Spec.Copies
import Xv6Swap.System.Proc

/-!
# exec keeps the accounts

`exec` builds the new image in a table of its own and commits by exchanging it with the table of
the process, whose old address space it frees last.  `sys_exec` holds a frame for every argument
string while it runs.  Both may stop with a panic of `loadseg`, and with no other.
-/

namespace Xv6Swap

open P List Set

variable {s : Sys} {held spaces : List ℕ} {flight : Option Flight} {g : Ghost} {i : ℕ}

/-- The table of a process and one that belongs to no process change places. -/
theorem Accounts.exchange {r sz : ℕ} (h : Accounts s held (r :: spaces) flight g) (hi : i < nproc)
    (hst : (s.proc i).state = .live) (hr : r ≠ 0) (hs : Shape s.k r (npg sz)) :
    Accounts (s.put i { s.proc i with pagetable := r, sz := sz }) held
      ((s.proc i).pagetable :: spaces) flight g := by
  obtain ⟨htf, hp⟩ := (h.procs i hi).inUse (.inl hst)
  refine h.setProc ?_ (h.root.exchange hi hp hr)
    ⟨fun hx => by simp [hst] at hx, fun _ => ⟨htf, hr⟩, fun _ => hs⟩
  rw [Function.update_eq_self]; exact h.kern

section

variable (h : Accounts s held spaces flight g)
include h

/-- **`exec`.** -/
theorem exec_spec (hi : i < nproc)
    (hst : (s.proc i).state = .live) (file : Option (List Byte)) (argv : List (List Byte))
    (hsp : Spared flight { frames := {(s.proc i).pagetable} }) :
    Ensures (exec i file argv s) (fun _ s' => ∃ g', Accounts s' held spaces flight g')
      LoadsegPanic := by
  cases file with
  | none => exact ⟨g, h⟩
  | some file =>
  obtain ⟨htf, hp⟩ := (h.procs i hi).inUse (.inl hst)
  have hk := h.kern_trapframe hi htf
  rw [exec, bind_get]
  have htf56 : (s.proc i).trapframe < 2 ^ 56 := (h.inv.isFrame (by simp [hk])).lt
  refine call_spec (execImage_spec h.inv htf56 file argv) ?_
  rintro (_ | image) σ₁ ⟨g₁, hinv1, hσ₁⟩
  · exact ⟨g₁, h.keep hinv1 hσ₁⟩
  obtain ⟨t, hs⟩ := hσ₁
  have h1 := h.addSpace t
  have hk1 := h1.kern_trapframe hi htf
  have hold := (h1.procs i hi).shape hp
  have hroot := h1.root_pagetable hi hp
  -- the stores to the trapframe touch no page table
  have hne : ∀ {r}, g₁.role r = .root → r ∉ ({(s.proc i).trapframe} : Set ℕ) := by
    rintro r hr rfl
    rw [hr] at hk1; cases hk1
  refine call_spec (h1.storeKern hk1 (by decide) _).weaken ?_
  rintro - σ₂ ⟨h2, k2⟩
  rw [bind_set]
  have h3 := h2.exchange hi hst (t.inv.ne_zero_of_role (by simp [t.root]))
    (hs.of_keeps k2 t.root (hne t.root) fun _ => notMem_empty _)
  refine call_spec (h3.storeKern hk1 (by decide) _).weaken ?_
  rintro - σ₄ ⟨h4, k4⟩
  refine call_spec (h4.storeKern hk1 (by decide) _).weaken ?_
  rintro - σ₅ ⟨h5, k5⟩
  have hold5 := hold.of_keeps (k2.trans (k4.trans k5)) hroot (hne hroot) fun _ => notMem_empty _
  refine call_spec (procFreepagetable_spec h5.inv hroot hold5).weaken ?_
  rintro - σ₆ ⟨g₆, h6, k6, hfree⟩
  have h7 := h5.dropSpace mem_cons_self h6 k6 hfree hsp
  rw [erase_cons_head] at h7
  exact ⟨g₆, h7⟩

/-! ### The argument strings -/

/-- The order of the kernel's frames does not matter. -/
theorem Accounts.perm {held' : List ℕ} (hp : held.Perm held') : Accounts s held' spaces flight g :=
  { h with kern := h.kern.perm hp }

end

/-- The loop of `sys_exec` leaves the kernel with the buffers it returns. -/
theorem fetchArgs_spec (sz uargv : ℕ) : ∀ (n idx : ℕ) (σ : KState) (held : List ℕ) (g : Ghost),
    Accounts { s with k := σ } held spaces flight g → i < nproc → (s.proc i).pagetable ≠ 0 →
    Ensures (fetchArgs (s.proc i).pagetable sz uargv n idx σ) (fun l σ' => ∃ g',
      Accounts { s with k := σ' } (l.2.map Prod.fst ++ held) spaces flight g') fun _ => False := by
  intro n
  induction n with
  | zero => exact fun idx σ held g h _ _ => ⟨g, h⟩
  | succ n ih =>
    intro idx σ held g h hi hp
    have hr : g.role (s.proc i).pagetable = .root := h.root_pagetable hi hp
    rw [fetchArgs]
    refine (fetchaddr_spec h.inv hr _ _).bind ?_
    rintro a _ rfl
    rw [Run.ite_apply]
    split
    · exact ⟨g, h⟩
    generalize field a.2 0 8 = uarg
    rw [Run.ite_apply]
    split
    · exact ⟨g, h⟩
    refine (kalloc_spec h.inv).bind ?_
    rintro (_ | f) σ₁ ha
    · obtain ⟨g₁, h1, -, -, k⟩ := ha
      exact ⟨g₁, h.keep h1 k⟩
    obtain ⟨g₁, h1, hrole, -⟩ := h.take ha
    refine (fetchstr_spec h1.inv (h1.root_pagetable hi hp) _ _).bind ?_
    rintro q _ ⟨rfl, hlen⟩
    rw [Run.bind_modify]
    have hf : g₁.role f = .kern := by rw [hrole, Ghost.setRole_self]
    have h2 := h1.writeKern hf ((Mem.sameOutside_write _ f q.2).mono (Nat.le_refl _)
      (Nat.add_le_add_left hlen _))
    rw [Run.ite_apply]
    split
    · exact ⟨g₁, h2⟩
    refine (ih _ _ _ _ h2 hi hp).bind ?_
    rintro l σ₃ ⟨g₃, h3⟩
    exact ⟨g₃, h3.perm perm_middle⟩

theorem freeArgs_spec : ∀ (l : List (ℕ × List Byte)) (s : Sys) (g : Ghost),
    Accounts s (l.map Prod.fst ++ held) spaces flight g →
    Ensures (Run.each (fun b => kfree b.1) l s.k) (fun _ σ' => ∃ g',
      Accounts { s with k := σ' } held spaces flight g') fun _ => False := by
  intro l
  induction l with
  | nil => intro s g h; rw [Run.each_nil]; exact ⟨g, h⟩
  | cons b l ih =>
    intro s g h
    rw [Run.each_cons]
    refine (h.give (f := b.1) (by simp)).bind ?_
    rintro - σ₁ ⟨h1, -⟩
    rw [map_cons, cons_append, erase_cons_head] at h1
    exact ih _ _ h1

/-- **`sys_exec`**, with any registers and any file system. -/
theorem sysExec_spec (h : Accounts s held spaces flight g) (hi : i < nproc)
    (hst : (s.proc i).state = .live) (namei : List Byte → Option (List Byte)) (a0 a1 : Word)
    (hsp : Spared flight { frames := {(s.proc i).pagetable} }) :
    Ensures (sysExec namei i a0 a1 s) (fun _ s' => ∃ g', Accounts s' held spaces flight g')
      LoadsegPanic := by
  obtain ⟨htf, hp⟩ := (h.procs i hi).inUse (.inl hst)
  rw [sysExec, P.bind_get]
  refine P.call_spec (fetchstr_spec h.inv (h.root_pagetable hi hp) _ _).weaken ?_
  rintro path _ ⟨rfl, -⟩
  rw [Run.ite_apply]
  split
  · exact ⟨g, h⟩
  refine P.call_spec (fetchArgs_spec _ _ _ 0 _ _ g h hi hp).weaken ?_
  rintro l σ₁ ⟨g₁, h1⟩
  have hexec : Ensures ((if l.1 then exec i (namei (path.2.takeWhile (· ≠ 0))) (l.2.map Prod.snd)
      else pure (-1) : P ℤ) { s with k := σ₁ }) (fun _ s' => ∃ g',
      Accounts s' (l.2.map Prod.fst ++ held) spaces flight g') LoadsegPanic := by
    rw [Run.ite_apply]
    split
    · exact exec_spec h1 hi hst _ _ hsp
    · exact ⟨g₁, h1⟩
  refine hexec.bind ?_
  rintro ret s₂ ⟨g₂, h2⟩
  refine P.call_spec (freeArgs_spec _ _ _ h2).weaken ?_
  rintro - σ₃ hσ₃
  exact hσ₃

end Xv6Swap
