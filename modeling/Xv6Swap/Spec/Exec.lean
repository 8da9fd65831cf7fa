import Xv6Swap.Kernel.Exec
import Xv6Swap.Spec.Space

/-!
# Building a new user image

`exec` loads a program into a new page table, adds a guard page and a stack, and copies the
arguments to the stack.  Whatever the file and the arguments are, the new table has the shape of its
size when `exec` commits to it, and when it gives up the table is freed and nothing has changed.

* `execLoad_spec` : the loop over the program headers.  `exec` allocates all pages of a segment and
  then fills them by physical address; the panic of `loadseg` is for a page that has been evicted
  in between;
* `execStack_spec` : the stack;
* `execImage_spec` : `exec` up to the commit.  The only way for it to stop is the panic of
  `loadseg`.
-/

namespace Xv6Swap

open Nat List Run

variable {σ σ' σ₁ σ₂ : KState} {g : Ghost} {f r v j n sz stackbase : ℕ} {data : List Byte}

/-- The panic of `loadseg`. -/
def LoadsegPanic (e : Stop) : Prop := e = .panic .loadseg

/-! ### The program -/

theorem length_readi_le (file : List Byte) (off n : ℕ) : (readi file off n).length ≤ n := by
  rw [readi]
  split
  · exact zero_le n
  · exact length_take_le ..

theorem field_lt (b : List Byte) (off n : ℕ) : field b off n < 256 ^ n := Mem.loadLE_lt ..

theorem add_page (hv : v < 2 ^ 31) (hj : j * 4096 < 2 ^ 31) :
    (v * 4096 + j * 4096) % 2 ^ 64 = (v + j) * 4096 := by omega

theorem next_page (hj : j * 4096 < 2 ^ 31) : (j * 4096 + pgsize) % 2 ^ 32 = (j + 1) * 4096 := by
  simp only [pgsize]
  omega

/-- A write of the kernel to the frame of a user page. -/
theorem kernelWrite_apply (h : Inv σ g) (hf : g.role f = .user r v) {o : ℕ}
    (hd : o + data.length ≤ 4096) :
    kernelWrite (f + o) data σ = .ok ((), { σ with mem := σ.mem.write (f + o) data }) := by
  obtain ⟨-, h2, h3⟩ := h.frame_range (f := f) (by simp [hf])
  rw [kernelWrite, bind_read, if_pos ⟨by omega, by omega⟩]
  rfl

theorem loadsegLoop_spec (hr : g.role r = .root) (file : List Byte) (offset : ℕ)
    (hsz : sz < 2 ^ 31) (hv : v < 2 ^ 31) : ∀ (k : ℕ) (σ : KState) (j : ℕ), Inv σ g →
    j ≤ npg sz → npg sz < j + k →
    Ensures (loadsegLoop r (v * 4096) file offset sz k (j * 4096) σ) (fun _ => OnlyBytes σ g r)
      LoadsegPanic := by
  intro k
  induction k with
  | zero => intro σ j _ h1 h2; omega
  | succ k ih =>
    intro σ j h hj hk
    rw [loadsegLoop, Run.ite_apply]
    split
    case isFalse => exact OnlyBytes.refl h r
    case isTrue hlt =>
      rw [add_page hv (hlt.trans hsz), bind_ok (walkaddr_apply h hr _)]
      cases hf : userFrame σ r (v + j) with
      | none => exact rfl
      | some f =>
        have hrole := h.role_userFrame hr hf
        rw [Option.getD_some, if_neg (h.ne_zero_of_role (by simp [hrole]))]
        dsimp only
        generalize hn : (if sz - j * 4096 < pgsize then sz - j * 4096 else pgsize) = n
        have hn' : n ≤ 4096 := by rw [← hn]; simp only [pgsize]; split <;> omega
        have hlen := length_readi_le file ((offset + j * 4096) % 2 ^ 32) n
        generalize readi file ((offset + j * 4096) % 2 ^ 32) n = data at *
        have hwrite : kernelWrite f data σ = .ok ((), { σ with mem := σ.mem.write f data }) :=
          kernelWrite_apply (o := 0) h hrole (by omega)
        have hb : OnlyBytes σ g r { σ with mem := σ.mem.write f data } :=
          (OnlyBytes.refl h r).write (o := 0) hr hf (by omega)
        rw [bind_ok hwrite, Run.ite_apply]
        split
        case isTrue => exact hb
        case isFalse =>
          rw [next_page (hlt.trans hsz)]
          refine (ih _ (j + 1) hb.inv ?_ (by omega)).imp fun _ _ hb' => hb.trans hb'
          simp only [npg] at *
          omega

/-- **`loadseg`** changes bytes of the pages of the table only. -/
theorem loadseg_spec (h : Inv σ g) (hr : g.role r = .root) (file : List Byte) (offset : ℕ)
    (hsz : sz < 2 ^ 31) (hv : v < 2 ^ 31) :
    Ensures (loadseg r (v * 4096) file offset sz σ) (fun _ => OnlyBytes σ g r) LoadsegPanic := by
  rw [loadseg, mod_eq_of_lt (a := sz) (by omega)]
  have hloop := loadsegLoop_spec hr file (offset % 2 ^ 32) hsz hv (sz / pgsize + 2) σ 0 h
    (zero_le _) (by simp only [npg, pgsize]; omega)
  rwa [zero_mul] at hloop

theorem isFlags_flags2perm (flags : ℕ) : IsFlags (flags2perm flags) ∧
    has (flags2perm flags) pteSwapped = false := by
  rw [flags2perm]
  split <;> split <;> exact ⟨by rw [IsFlags]; decide, by decide⟩

/-- The table `r` has changed, and has the shape of the size `sz` now. -/
def Shaped (σ : KState) (g : Ghost) (r sz : ℕ) (σ' : KState) : Prop :=
  ∃ g', Inv σ' g' ∧ Keeps { pages := allPages r } σ g σ' g' ∧ Shape σ' r (npg sz)

theorem Shaped.trans {g₁ : Ghost} (h : Shaped σ₁ g₁ r sz σ₂)
    (k : Keeps { pages := allPages r } σ g σ₁ g₁) : Shaped σ g r sz σ₂ := by
  obtain ⟨g₂, h2, k2, hs⟩ := h
  exact ⟨g₂, h2, k.trans k2, hs⟩

theorem OnlyBytes.shaped (hb : OnlyBytes σ g r σ') (hr : g.role r = .root)
    (hs : Shape σ r (npg sz)) : Shaped σ g r sz σ' :=
  ⟨g, hb.inv, hb.keeps, hs.of_onlyBytes hb hr⟩

theorem Shape.size_lt (hs : Shape σ r (npg sz)) (h : Inv σ g) (hr : g.role r = .root) :
    sz < 2 ^ 28 := by
  have h1 := hs.le_maxPages h hr
  have h2 : maxPages = 39768 := rfl
  simp only [npg] at h1
  omega

/-- A segment that fits into an address space is small. -/
theorem segment_bound {vaddr memsz sz1 : ℕ} (hv : vaddr < 2 ^ 64) (hm : memsz < 2 ^ 64)
    (hover : ¬ (vaddr + memsz) % 2 ^ 64 < vaddr)
    (hret : sz1 = (vaddr + memsz) % 2 ^ 64 ∧ sz ≤ (vaddr + memsz) % 2 ^ 64 ∨
      sz1 = sz ∧ (vaddr + memsz) % 2 ^ 64 < sz)
    (hsz1 : sz1 < 2 ^ 28) : vaddr < 2 ^ 28 ∧ memsz < 2 ^ 28 := by
  omega

/-- **The program headers.** -/
theorem execLoad_spec (file : List Byte) : ∀ (n : ℕ) (σ : KState) (g : Ghost) (off sz : ℕ),
    Inv σ g → g.role r = .root → Shape σ r (npg sz) →
    Ensures (execLoad r file n off sz σ) (fun q => Shaped σ g r q.2) LoadsegPanic := by
  intro n
  induction n with
  | zero =>
    intro σ g off sz h hr hs
    exact (OnlyBytes.refl h r).shaped hr hs
  | succ n ih =>
    intro σ g off sz h hr hs
    have hrefl := (OnlyBytes.refl h r).shaped hr hs
    rw [execLoad]
    have hvlt := field_lt (readi file off proghdrSize) 16 8
    have hmlt := field_lt (readi file off proghdrSize) 40 8
    change (Proghdr.decode (readi file off proghdrSize)).vaddr < _ at hvlt
    change (Proghdr.decode (readi file off proghdrSize)).memsz < _ at hmlt
    generalize Proghdr.decode (readi file off proghdrSize) = ph at *
    -- a header cut short, one of another kind, and the three checks of a segment
    by_cases hlen : (readi file off proghdrSize).length ≠ proghdrSize
    · rw [if_pos hlen]
      exact hrefl
    by_cases htype : ph.type ≠ elfProgLoad
    · rw [if_neg hlen, if_pos htype]
      exact ih σ g _ sz h hr hs
    by_cases hfile : ph.memsz < ph.filesz
    · rw [if_neg hlen, if_neg htype, if_pos hfile]
      exact hrefl
    by_cases hover : (ph.vaddr + ph.memsz) % 2 ^ 64 < ph.vaddr
    · rw [if_neg hlen, if_neg htype, if_neg hfile, if_pos hover]
      exact hrefl
    by_cases halign : ph.vaddr % pgsize ≠ 0
    · rw [if_neg hlen, if_neg htype, if_neg hfile, if_neg hover, if_pos halign]
      exact hrefl
    rw [if_neg hlen, if_neg htype, if_neg hfile, if_neg hover, if_neg halign]
    obtain ⟨hx, hS⟩ := isFlags_flags2perm ph.flags
    refine ((hs.uvmalloc_spec h hr ((ph.vaddr + ph.memsz) % 2 ^ 64) hx hS).weaken).bind ?_
    rintro sz1 σ₁ ⟨g₁, h1, k1, -, hret⟩
    have k1' := k1.widen (zero_le _) (le_refl _)
    rw [Run.ite_apply]
    split
    case isTrue h0 =>
      refine ⟨g₁, h1, k1', ?_⟩
      obtain ⟨-, hs1⟩ | ⟨hret, hs1⟩ := hret
      · exact hs1
      · obtain rfl : sz = 0 := by omega
        rwa [h0] at hs1
    case isFalse h0 =>
      obtain ⟨hret, hs1⟩ := hret.resolve_left fun hx => h0 hx.1
      have hr1 := (k1.root r (Set.notMem_empty _)).2 hr
      obtain ⟨hv, hm⟩ := segment_bound hvlt hmlt hover hret (hs1.size_lt h1 hr1)
      obtain ⟨v, hvaddr⟩ : ∃ v, ph.vaddr = v * 4096 := ⟨ph.vaddr / 4096, by
        simp only [pgsize] at halign; omega⟩
      rw [hvaddr]
      refine (loadseg_spec h1 hr1 file ph.off (by omega) (by omega)).bind fun ret σ₂ hb => ?_
      have hs2 := hb.shaped hr1 hs1
      rw [Run.ite_apply]
      split
      · exact hs2.trans k1'
      · exact (ih σ₂ g₁ _ sz1 hb.inv hr1 (hs1.of_onlyBytes hb hr1)).imp fun q σ' hq =>
          hq.trans (k1'.trans hb.keeps)

/-! ### The stack -/

theorem pushBytes_spec (h : Inv σ g) (hr : g.role r = .root) (sp : ℕ) (data : List Byte) :
    Ensures (pushBytes r stackbase sp data σ) (fun _ => OnlyBytes σ g r) fun _ => False := by
  rw [pushBytes, Run.ite_apply]
  split
  · exact OnlyBytes.refl h r
  · exact (copyout_spec h hr sp data).bind fun _ _ hb => hb

theorem execArgs_spec (hr : g.role r = .root) :
    ∀ (argv : List (List Byte)) (σ : KState) (sp : ℕ) (ustack : List ℕ), Inv σ g →
    Ensures (execArgs r stackbase argv sp ustack σ) (fun _ => OnlyBytes σ g r) fun _ => False := by
  intro argv
  induction argv with
  | nil => intro σ sp ustack h; exact OnlyBytes.refl h r
  | cons arg argv ih =>
    intro σ sp ustack h
    rw [execArgs, Run.ite_apply]
    split
    · exact OnlyBytes.refl h r
    · refine (pushBytes_spec h hr _ _).bind fun ok σ₁ hb => ?_
      cases ok with
      | false => exact hb
      | true => exact (ih σ₁ _ _ hb.inv).imp fun _ _ hb' => hb.trans hb'

/-- What `exec` has built when it has pushed the arguments. -/
def StackBuilt (σ : KState) (g : Ghost) (r : ℕ) (q : Image ⊕ ℕ) (σ' : KState) : Prop :=
  match q with
  | .inl image => image.pagetable = r ∧ Shaped σ g r image.sz σ'
  | .inr sz => Shaped σ g r sz σ'

/-- **The stack.** -/
theorem execStack_spec (h : Inv σ g) (hr : g.role r = .root) {sz : ℕ} (hs : Shape σ r (npg sz))
    (entry : ℕ) (argv : List (List Byte)) :
    Ensures (execStack r sz entry argv σ) (StackBuilt σ g r) fun _ => False := by
  have hlt := hs.size_lt h hr
  have hup : pgroundup sz = npg sz * 4096 := pgroundup_eq (by omega)
  have hnpg : npg sz < 2 ^ 17 := by simp only [npg]; omega
  have hs0 : Shape σ r (npg (npg sz * 4096)) := by
    rwa [show npg (npg sz * 4096) = npg sz by simp only [npg]; omega]
  rw [execStack, hup]
  generalize npg sz = n at *
  have hnew : (n * 4096 + (userstack + 1) * pgsize) % 2 ^ 64 = (n + 2) * 4096 := by
    simp only [userstack, pgsize]; omega
  rw [hnew]
  refine (hs0.uvmalloc_spec h hr ((n + 2) * 4096) (by rw [IsFlags]; decide) (by decide)).bind ?_
  rintro sz1 σ₁ ⟨g₁, h1, k1, -, hret⟩
  have k1' := k1.widen (zero_le _) (le_refl _)
  obtain ⟨rfl, hs1⟩ | ⟨⟨rfl, -⟩ | ⟨rfl, hlt'⟩, hs1⟩ := hret
  · exact ⟨g₁, h1, k1', hs1⟩
  · have hr1 := (k1.root r (Set.notMem_empty _)).2 hr
    rw [if_neg (by omega), show (n + 2) * 4096 - (userstack + 1) * pgsize = n * 4096 by
      simp only [userstack, pgsize]; omega]
    have hn2 : npg ((n + 2) * 4096) = n + 2 := by simp only [npg]; omega
    have hu : n < uvpn := by
      have : uvpn = 67108862 := rfl
      omega
    refine ((uvmclear_spec h1 hr1 hu).mono (fun _ _ hq => hq) fun _ h0 =>
      (hs1.pages n hu).2 (by omega) h0).bind ?_
    rintro - σ₂ ⟨h2, -, k2, hiff⟩
    have k2' : Keeps { pages := pageRange r n (n + 1) } σ₁ g₁ σ₂ g₁ :=
      k2.mono (by rintro _ rfl; exact ⟨rfl, le_refl _, lt_succ_self _⟩) (fun _ hx => hx)
        fun _ hx => hx
    have hs2 : Shape σ₂ r (npg ((n + 2) * 4096)) := by
      refine hs1.resize k2' hr1 hu (fun v h3 h4 => ?_) fun _ _ _ => Iff.rfl
      obtain rfl : v = n := by omega
      rw [ne_eq, hiff, ← hs1.pages v hu]
    have k12 := k1'.trans (k2'.widen (zero_le _) hu)
    generalize (n + 2) * 4096 - userstack * pgsize = base
    refine (execArgs_spec hr1 argv σ₂ _ _ h2).bind ?_
    rintro (_ | ⟨sp, ustack⟩) σ₃ hb
    · exact (hb.shaped hr1 hs2).trans k12
    · refine (pushBytes_spec hb.inv hr1 _ _).bind fun ok σ₄ hb' => ?_
      have hσ₄ : Shaped σ g r ((n + 2) * 4096) σ₄ := ((hb.trans hb').shaped hr1 hs2).trans k12
      rw [Run.ite_apply]
      split
      · exact ⟨rfl, hσ₄⟩
      · exact hσ₄
  · omega

/-! ### The image -/

/-- What `exec` has built when it commits, or gives up. -/
def ImageBuilt (σ : KState) (g : Ghost) (o : Option Image) (σ' : KState) : Prop :=
  ∃ g', Inv σ' g' ∧ match o with
    | none => Keeps {} σ g σ' g'
    | some image => NewTable σ g image.pagetable σ' g' ∧ Shape σ' image.pagetable (npg image.sz)

/-- **`exec` up to the commit.** -/
theorem execImage_spec (h : Inv σ g) {tf : ℕ} (htf : tf < 2 ^ 56) (file : List Byte)
    (argv : List (List Byte)) :
    Ensures (execImage tf file argv σ) (ImageBuilt σ g) LoadsegPanic := by
  have hrefl : ImageBuilt σ g none σ := ⟨g, h, Keeps.refl _ _ _⟩
  rw [execImage, Run.ite_apply]
  split
  case isTrue => exact hrefl
  case isFalse =>
  rw [Run.ite_apply]
  split
  case isTrue => exact hrefl
  case isFalse =>
  refine (procPagetable_spec h htf).weaken.bind ?_
  rintro (_ | r) σ₁ ⟨g₁, h1, -, hσ₁⟩
  · exact ⟨g₁, h1, hσ₁⟩
  obtain ⟨t1, hs1⟩ := hσ₁
  have hP : ∀ v' r', (r', v') ∈ allPages r → r' = r := fun _ _ hx => (mem_pageRange.1 hx).1
  -- the way out through `bad`, from any state of the new table
  have hbad : ∀ {σ₂ sz}, Shaped σ₁ g₁ r sz σ₂ → Ensures ((do
      procFreepagetable r sz
      pure none : K (Option Image)) σ₂) (ImageBuilt σ g) LoadsegPanic := by
    rintro σ₂ sz ⟨g₂, h2, k2, hs2⟩
    have t2 := t1.step h2 k2 hP
    refine ((procFreepagetable_spec h2 t2.root hs2).weaken).bind ?_
    rintro - σ₃ ⟨g₃, h3, k3, hfree⟩
    exact ⟨g₃, h3, t2.freed h k3 hfree⟩
  refine (execLoad_spec file _ σ₁ g₁ _ 0 h1 t1.root (by simpa [npg] using hs1)).bind ?_
  rintro ⟨ok, sz⟩ σ₂ hσ₂
  cases ok with
  | false => exact hbad hσ₂
  | true =>
    obtain ⟨g₂, h2, k2, hs2⟩ := hσ₂
    have t2 := t1.step h2 k2 hP
    refine ((execStack_spec h2 t2.root hs2 _ argv).weaken).bind ?_
    rintro (image | sz') σ₃ hσ₃
    · obtain ⟨rfl, g₃, h3, k3, hs3⟩ := hσ₃
      exact ⟨g₃, h3, t2.step h3 k3 hP, hs3⟩
    · exact hbad (hσ₃.trans k2)

end Xv6Swap
