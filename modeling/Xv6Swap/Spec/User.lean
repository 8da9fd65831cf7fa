import Xv6Swap.Kernel.User
import Xv6Swap.Spec.Fork

/-!
# Accesses to user memory

The kernel's copies to user memory, the user's own accesses and the reading of system-call
arguments change bytes of pages that are mapped for the user, and accessed and dirty bits, and
nothing else (`OnlyBytes`).  None of them stops.

* `walkaddr_apply` : `walkaddr` finds the pages in memory that the user may access (`userFrame`);
* `copyoutLoop_cons`, `copyinLoop_succ`, `copyinstrLoop_succ` : one iteration of each copy;
* `copyout_spec` : what `copyout` leaves alone;
* `translate_spec`, `userStore_spec` : the hardware.
-/

namespace Xv6Swap

open Keeps Mem Nat List Option Set

variable {σ σ₁ σ₂ σ' : KState} {g : Ghost} {f r v va o n : ℕ} {data : List Byte} {need : Word}

/-! ### walkaddr -/

/-- The frame of page number `v` of the table `r`, if the page is in memory and for the user. -/
def userFrame (σ : KState) (r v : ℕ) : Option ℕ :=
  if v < uvpn ∧ has (leaf σ.mem r v) pteV = true ∧ has (leaf σ.mem r v) pteU = true then
    some (pte2pa (leaf σ.mem r v))
  else none

theorem userFrame_eq_some_iff : userFrame σ r v = some f ↔ v < uvpn ∧
    has (leaf σ.mem r v) pteV = true ∧ has (leaf σ.mem r v) pteU = true ∧
    pte2pa (leaf σ.mem r v) = f := by
  rw [userFrame]
  split
  case isTrue h => simp [h]
  case isFalse h => simp only [reduceCtorEq, false_iff]; exact fun ⟨h1, h2, h3, _⟩ => h ⟨h1, h2, h3⟩

theorem userFrame_eq_none
    (h : has (leaf σ.mem r v) pteV = false ∨ has (leaf σ.mem r v) pteU = false) :
    userFrame σ r v = none := if_neg fun ⟨_, hV, hU⟩ => by
  rcases h with h | h <;> simp_all only [Bool.false_eq_true]

theorem Inv.role_userFrame (h : Inv σ g) (hr : g.role r = .root) (hf : userFrame σ r v = some f) :
    g.role f = .user r v := by
  obtain ⟨hv, hV, -, rfl⟩ := userFrame_eq_some_iff.1 hf
  exact ((h.pteOk hr hv).valid hV).2.2

/-- The permission bits are part of the logical page. -/
theorem has_of_perms {e e' : Word} (h : perms e = perms e') :
    has e pteU = has e' pteU ∧ has e pteW = has e' pteW := by
  have hbit : ∀ i, (pteR ||| pteW ||| pteX ||| pteU).getLsbD i = true →
      e.getLsbD i = e'.getLsbD i := fun i hi => by
    have := congrArg (BitVec.getLsbD · i) h
    simpa only [perms, BitVec.getLsbD_and, hi, Bool.and_true] using this
  rw [has_pteU, has_pteU, has_pteW, has_pteW]
  exact ⟨hbit 4 (by decide), hbit 2 (by decide)⟩

/-- An entry that the user may access is one of a user page. -/
theorem Inv.lt_uvpn (h : Inv σ g) (hr : g.role r = .root) (hv : v < 2 ^ 27)
    (hU : has (leaf σ.mem r v) pteU = true) : v < uvpn := by
  by_contra hge
  rcases h.leaves.special r v hr (by omega) hv with h0 | ⟨-, -, hU'⟩
  · rw [h0, has_zero] at hU; cases hU
  · rw [hU] at hU'; cases hU'

theorem pgrounddown_eq (va : ℕ) : pgrounddown va = va / 4096 * 4096 := rfl

/-- The address of a page, or 0 if it is not in memory for the user. -/
theorem walkaddr_apply (h : Inv σ g) (hr : g.role r = .root) (v : ℕ) :
    walkaddr r (v * 4096) σ = .ok ((userFrame σ r v).getD 0, σ) := by
  rw [walkaddr, Run.ite_apply]
  split
  case isTrue hge =>
    have : ¬ v < uvpn := fun hv => absurd (vaddr_lt hv) (by omega)
    rw [userFrame, if_neg fun hx => this hx.1]; rfl
  case isFalse hlt =>
    have hv27 : v < 2 ^ 27 := by simp only [maxva] at hlt; omega
    rw [Run.bind_ok (walk0_apply (by omega) σ)]
    cases ha : entry σ.mem r (v * 4096) with
    | none =>
      have h0 : leaf σ.mem r v = 0 := by rw [leaf, ha]
      rw [userFrame_eq_none (.inl (by rw [h0, has_zero]))]; rfl
    | some a =>
      simp only [K.load, Run.bind_read, ← Tree.leaf_of_entry ha]
      cases hV : has (leaf σ.mem r v) pteV with
      | false => rw [userFrame_eq_none (.inl hV)]; rfl
      | true =>
        cases hU : has (leaf σ.mem r v) pteU with
        | false => rw [userFrame_eq_none (.inr hU)]; rfl
        | true =>
          rw [userFrame_eq_some_iff.2 ⟨h.lt_uvpn hr hv27 hU, hV, hU, rfl⟩]; rfl

/-! ### Changes of bytes only -/

/-- Nothing but bytes of user pages of `r` has changed. -/
structure OnlyBytes (σ : KState) (g : Ghost) (r : ℕ) (σ' : KState) : Prop where
  inv : Inv σ' g
  keeps : Keeps { pages := pageRange r 0 uvpn } σ g σ' g
  leaf : ∀ r' v, g.role r' = .root → v < 2 ^ 27 → leaf σ'.mem r' v = leaf σ.mem r' v
  pages : σ'.pages = σ.pages

theorem OnlyBytes.refl (h : Inv σ g) (r : ℕ) : OnlyBytes σ g r σ :=
  ⟨h, Keeps.refl _ _ _, fun _ _ _ _ => rfl, rfl⟩

theorem OnlyBytes.trans (h : OnlyBytes σ g r σ₁) (h' : OnlyBytes σ₁ g r σ₂) : OnlyBytes σ g r σ₂ :=
  ⟨h'.inv, h.keeps.trans h'.keeps, fun r' v hr hv =>
    (h'.leaf r' v hr hv).trans (h.leaf r' v hr hv), h'.pages.trans h.pages⟩

/-- A page is mapped after a change of bytes if it was mapped before. -/
theorem OnlyBytes.logical_ne_none (h : OnlyBytes σ g r σ') {r' : ℕ}
    (hr : g.role r' = .root) (hv : v < 2 ^ 27) :
    logical σ' r' v ≠ none ↔ logical σ r' v ≠ none := by
  rw [logical, logical, h.leaf r' v hr hv, ne_eq, ne_eq, pageOf_eq_none_iff, pageOf_eq_none_iff]

theorem Inv.onlyBytes (h : Inv σ g) (hf : g.role f = .user r v) {m' : Mem}
    (hm : SameOutside σ.mem m' f 4096) : OnlyBytes σ g r { σ with mem := m' } := by
  have hv := (h.leaves.user f r v hf).2.1
  obtain ⟨h1, k1⟩ := h.writeUser hf hm
  refine ⟨h1, k1.mono (by rintro _ rfl; exact ⟨rfl, zero_le _, hv⟩) (fun _ hx => hx)
    fun _ hx => hx, fun r' v' hr' hv' => ?_, rfl⟩
  refine h.tree.leaf_congr h1.tree hr' hr' (fun _ _ _ => Iff.rfl) fun l i j hl => ?_
  exact h.agreeOn_of_sameOutside hm (by simp [hf]) (by simp [hl])
    (by rintro rfl; rw [hf] at hl; cases hl)

/-! ### A write to a user page -/

/-- Overwrite the bytes of a page from `o` on. -/
def LPage.overwrite (p : LPage) (o : ℕ) (data : List Byte) : LPage :=
  { p with bytes := fun k =>
      if o ≤ k.val ∧ k.val < o + data.length then data.getD (k.val - o) 0 else p.bytes k }

/-- The page that the kernel writes `data` to. -/
theorem logical_write (h : Inv σ g) (hr : g.role r = .root) (hf : userFrame σ r v = some f)
    (ho : o + data.length ≤ 4096) :
    logical { σ with mem := σ.mem.write (f + o) data } r v =
      (logical σ r v).map (·.overwrite o data) := by
  obtain ⟨hv, hV, -, hpa⟩ := userFrame_eq_some_iff.1 hf
  have hb := h.onlyBytes (h.role_userFrame hr hf)
    ((sameOutside_write σ.mem (f + o) data).mono (le_add_right _ _) (by omega))
  rw [logical, hb.leaf r v hr (lt_trans hv (by decide)), logical, pageOf_valid hV, pageOf_valid hV,
    hpa, map_some]
  congr 2
  funext k
  simp only [frameBytes, write]
  refine if_congr (by omega) ?_ rfl
  congr 1
  omega

theorem userFrame_write (h : Inv σ g) (hr : g.role r = .root) (hf : userFrame σ r v = some f)
    (ho : o + data.length ≤ 4096) (u : ℕ) :
    userFrame { σ with mem := σ.mem.write (f + o) data } r u = userFrame σ r u := by
  have hb := h.onlyBytes (h.role_userFrame hr hf)
    ((sameOutside_write σ.mem (f + o) data).mono (le_add_right _ _) (by omega))
  by_cases hu : u < uvpn
  · simp only [userFrame, hb.leaf r u hr (lt_trans hu (by decide))]
  · rw [userFrame, userFrame, if_neg fun hx => hu hx.1, if_neg fun hx => hu hx.1]

/-- The byte at `va` of the logical memory of the table `r`. -/
def byteAt (σ : KState) (r va : ℕ) : Option Byte :=
  (logical σ r (va / pgsize)).map fun p => p.bytes ⟨va % pgsize, mod_lt _ (by decide)⟩

/-! ### Copies -/

/-- The frame of a page in memory that the user may access and whose entry has the bit `need`. -/
def accessFrame (σ : KState) (r v : ℕ) (need : Word) : Option ℕ :=
  if has (leaf σ.mem r v) need then userFrame σ r v else none

theorem accessFrame_eq_none (h : has (leaf σ.mem r v) pteV = false ∨
    has (leaf σ.mem r v) pteU = false ∨ has (leaf σ.mem r v) need = false) :
    accessFrame σ r v need = none := by
  rw [accessFrame]
  split
  case isTrue hn =>
    rw [hn] at h
    exact userFrame_eq_none (by simpa only [Bool.true_eq_false, or_false] using h)
  case isFalse => rfl

theorem accessFrame_eq_some (h : accessFrame σ r v need = some f) :
    userFrame σ r v = some f ∧ has (leaf σ.mem r v) need = true := by
  rw [accessFrame] at h
  split at h
  case isTrue hn => exact ⟨h, hn⟩
  case isFalse => cases h

theorem accessFrame_of_le (hv : uvpn ≤ v) : accessFrame σ r v need = none := by
  rw [accessFrame, userFrame, if_neg fun hx : v < uvpn ∧ _ => absurd hx.1 (by omega), ite_self]

/-- The number of bytes of one iteration of a copy of `len` bytes at `va`. -/
def chunk (va len : ℕ) : ℕ := min (4096 - va % 4096) len

theorem chunk_le (va len : ℕ) : chunk va len ≤ len := min_le_right ..

theorem chunk_add_le (va len : ℕ) : va % 4096 + chunk va len ≤ 4096 := by
  have := min_le_left (4096 - va % 4096) len
  rw [chunk]
  omega

theorem chunk_pos (va : ℕ) {len : ℕ} (h : 0 < len) : 0 < chunk va len := by
  rw [chunk]
  omega

/-- **One iteration of `copyout`.** -/
theorem copyoutLoop_cons (h : Inv σ g) (hr : g.role r = .root) (k dstva : ℕ) {src : List Byte}
    (hs : src ≠ []) :
    copyoutLoop r (k + 1) dstva src σ = match accessFrame σ r (dstva / 4096) pteW with
      | none => .ok (-1, σ)
      | some pa => copyoutLoop r k ((dstva / 4096 + 1) * 4096) (src.drop (chunk dstva src.length))
          { σ with
            mem := σ.mem.write (pa + dstva % 4096) (src.take (chunk dstva src.length)) } := by
  obtain ⟨b, bs, rfl⟩ := exists_cons_of_ne_nil hs
  have hoff : dstva - pgrounddown dstva = dstva % 4096 := by rw [pgrounddown_eq]; omega
  rw [copyoutLoop, Run.ite_apply, hoff]
  split
  case isTrue hge =>
    have hv : uvpn ≤ dstva / 4096 := by
      by_contra hv
      exact absurd (vaddr_lt (by omega : dstva / 4096 < uvpn))
        (by rw [pgrounddown_eq] at hge; omega)
    rw [accessFrame_of_le hv]
    rfl
  case isFalse hlt =>
    have hva : dstva / 4096 * 4096 < maxva := by rw [pgrounddown_eq] at hlt; omega
    have hv27 : dstva / 4096 < 2 ^ 27 := by simp only [maxva] at hva; omega
    rw [pgrounddown_eq, Run.bind_ok (walk0_apply hva σ)]
    cases ha : entry σ.mem r (dstva / 4096 * 4096) with
    | none =>
      have h0 : leaf σ.mem r (dstva / 4096) = 0 := by rw [leaf, ha]
      rw [accessFrame_eq_none (.inl (by rw [h0, has_zero]))]; rfl
    | some a =>
      simp only [K.load, Run.bind_read, ← Tree.leaf_of_entry ha]
      cases hV : has (leaf σ.mem r (dstva / 4096)) pteV with
      | false => rw [accessFrame_eq_none (.inl hV)]; rfl
      | true =>
        cases hU : has (leaf σ.mem r (dstva / 4096)) pteU with
        | false => rw [accessFrame_eq_none (.inr (.inl hU))]; rfl
        | true =>
          cases hW : has (leaf σ.mem r (dstva / 4096)) pteW with
          | false => rw [accessFrame_eq_none (.inr (.inr hW))]; rfl
          | true =>
            rw [accessFrame, hW, if_pos rfl,
              userFrame_eq_some_iff.2 ⟨h.lt_uvpn hr hv27 hU, hV, hU, rfl⟩]
            simp only [Bool.not_true, Bool.or_self, Bool.false_eq_true, if_false, Run.bind_modify]
            rw [add_mul, one_mul]
            rfl

/-- **What the writes of `copyout` preserve**: they go to pages of the user. -/
theorem copyoutLoop_rule {P : KState → Prop} (hr : g.role r = .root) (hinv : ∀ σ, P σ → Inv σ g)
    (hwrite : ∀ σ v f o (data : List Byte), P σ → userFrame σ r v = some f →
      o + data.length ≤ 4096 → P { σ with mem := σ.mem.write (f + o) data }) :
    ∀ (k : ℕ) (σ : KState) (dstva : ℕ) (src : List Byte), P σ → src.length ≤ k →
    Ensures (copyoutLoop r k dstva src σ) (fun _ => P) fun _ => False := by
  intro k
  induction k with
  | zero =>
    intro σ dstva src h hk
    obtain rfl := length_eq_zero_iff.1 (le_zero.1 hk)
    exact h
  | succ k ih =>
    intro σ dstva src h hk
    by_cases hsrc : src = []
    · subst hsrc
      exact h
    · have hpos := chunk_pos dstva (length_pos_iff.2 hsrc)
      have hle := chunk_add_le dstva src.length
      rw [copyoutLoop_cons (hinv σ h) hr k dstva hsrc]
      cases hf : accessFrame σ r (dstva / 4096) pteW with
      | none => exact h
      | some f =>
        refine ih _ _ _ (hwrite σ _ f _ _ h (accessFrame_eq_some hf).1 ?_) ?_
        · rw [length_take]; omega
        · rw [length_drop]; omega

/-- A write of the kernel to a page of the user changes bytes only. -/
theorem OnlyBytes.write (hb : OnlyBytes σ g r σ')
    (hr : g.role r = .root) (hf : userFrame σ' r v = some f) (ho : o + data.length ≤ 4096) :
    OnlyBytes σ g r { σ' with mem := σ'.mem.write (f + o) data } :=
  hb.trans (hb.inv.onlyBytes (hb.inv.role_userFrame hr hf)
    ((sameOutside_write _ _ _).mono (le_add_right _ _) (by omega)))

/-- **`copyout`** changes bytes only. -/
theorem copyout_spec (h : Inv σ g) (hr : g.role r = .root) (dstva : ℕ) (src : List Byte) :
    Ensures (copyout r dstva src σ) (fun _ => OnlyBytes σ g r) fun _ => False :=
  copyoutLoop_rule hr (fun _ hb => hb.inv) (fun _ _ _ _ _ hb hf ho => hb.write hr hf ho) _ σ dstva
    src (.refl h r) (le_refl _)

section

variable (h : Inv σ g) (hr : g.role r = .root)
include h hr

/-- **One iteration of `copyin`.** -/
theorem copyinLoop_succ (k srcva l : ℕ) :
    copyinLoop r (k + 1) srcva (l + 1) σ = match userFrame σ r (srcva / 4096) with
      | none => .ok ((-1, []), σ)
      | some pa => (do
          let q ← copyinLoop r k ((srcva / 4096 + 1) * 4096) (l + 1 - chunk srcva (l + 1))
          pure (q.1, σ.mem.bytes (pa + srcva % 4096) (chunk srcva (l + 1)) ++ q.2) :
            K (ℤ × List Byte)) σ := by
  have hoff : srcva - pgrounddown srcva = srcva % 4096 := by rw [pgrounddown_eq]; omega
  rw [copyinLoop, hoff, pgrounddown_eq, Run.bind_ok (walkaddr_apply h hr _)]
  cases hf : userFrame σ r (srcva / 4096) with
  | none => rfl
  | some pa =>
    have hne : pa ≠ 0 := h.ne_zero_of_role (by simp [h.role_userFrame hr hf])
    rw [getD_some, if_neg hne, Run.bind_read, add_mul, one_mul]
    rfl

/-- **One iteration of `copyinstr`.** -/
theorem copyinstrLoop_succ (k srcva l : ℕ) :
    copyinstrLoop r (k + 1) srcva (l + 1) σ = match userFrame σ r (srcva / 4096) with
      | none => .ok ((-1, []), σ)
      | some pa =>
        let p := scanNull (σ.mem.bytes (pa + srcva % 4096) (chunk srcva (l + 1)))
        if p.2 then .ok ((0, p.1), σ)
        else (do
          let q ← copyinstrLoop r k ((srcva / 4096 + 1) * 4096) (l + 1 - chunk srcva (l + 1))
          pure (q.1, p.1 ++ q.2) : K (ℤ × List Byte)) σ := by
  have hoff : srcva - pgrounddown srcva = srcva % 4096 := by rw [pgrounddown_eq]; omega
  rw [copyinstrLoop, hoff, pgrounddown_eq, Run.bind_ok (walkaddr_apply h hr _)]
  cases hf : userFrame σ r (srcva / 4096) with
  | none => rfl
  | some pa =>
    have hne : pa ≠ 0 := h.ne_zero_of_role (by simp [h.role_userFrame hr hf])
    rw [getD_some, if_neg hne, Run.bind_read, Run.ite_apply, add_mul, one_mul]
    rfl

end

/-! ### The hardware -/

theorem entry_page (m : Mem) (r va : ℕ) : entry m r va = entry m r (va / 4096 * 4096) := by
  have hpx : ∀ l, px l (va / 4096 * 4096) = px l va := fun l => by
    rw [px_eq, px_eq, pow_add, show 2 ^ 12 = 4096 from rfl, ← Nat.div_div_eq_div_mul,
      ← Nat.div_div_eq_div_mul, Nat.mul_div_cancel _ (by decide)]
  simp only [entry, hpx]

section

variable (h : Inv σ g) (hr : g.role r = .root)
include h hr

/-- The accessed and dirty bits are outside of what an entry means to the kernel. -/
theorem Inv.touchEntry (hv : v < uvpn) {a : ℕ}
    (ha : entry σ.mem r (v * 4096) = some a) (hV : has (leaf σ.mem r v) pteV = true)
    (store : Bool) :
    let e := leaf σ.mem r v
    let σ' := { σ with
      mem := σ.mem.store64 a (if store then e ||| pteA ||| pteD else e ||| pteA) }
    Inv σ' g ∧ Keeps {} σ g σ' g := by
  have hbit : ∀ i ≠ 6, i ≠ 7 → (if store then leaf σ.mem r v ||| pteA ||| pteD
      else leaf σ.mem r v ||| pteA).getLsbD i = (leaf σ.mem r v).getLsbD i := by
    intro i h6 h7
    have hA : ∀ e : Word, (e ||| pteA).getLsbD i = e.getLsbD i := fun e => by
      rw [show pteA = 1#64 <<< 6 from rfl, getLsbD_or_one_shiftLeft _ (by decide)]; simp [h6]
    have hD : ∀ e : Word, (e ||| pteD).getLsbD i = e.getLsbD i := fun e => by
      rw [show pteD = 1#64 <<< 7 from rfl, getLsbD_or_one_shiftLeft _ (by decide)]; simp [h7]
    cases store
    · exact hA _
    · exact (hD _).trans (hA _)
  refine h.reflag hr hv ha hV ?_ ?_ ?_ (perms_congr fun i h1 h2 => hbit i (by omega) (by omega))
    (pte2pa_congr fun i h1 _ => hbit i (by omega) (by omega))
  · rw [has_pteV, hbit 0 (by decide) (by decide), ← has_pteV, hV]
  · rw [has_pteSwapped, has_pteSwapped, hbit 9 (by decide) (by decide)]
  · rw [has_pteR, has_pteR, hbit 1 (by decide) (by decide)]

/-- **The hardware's translation** finds the pages in memory with the right bits, and changes
accessed and dirty bits only. -/
theorem translate_spec (va : ℕ) (need : Word) (store : Bool) :
    Ensures (translate r va need store σ) (fun o σ' =>
      o = (accessFrame σ r (va / 4096) need).map (· + va % 4096) ∧ Inv σ' g ∧ Keeps {} σ g σ' g ∧
      ∃ m', σ' = { σ with mem := m' }) fun _ => False := by
  rw [translate, Run.ite_apply]
  split
  case isTrue hge =>
    have hv : uvpn ≤ va / 4096 := by
      by_contra hv
      exact absurd (vaddr_lt (by omega : va / 4096 < uvpn)) (by simp only [maxva] at *; omega)
    rw [accessFrame_of_le hv]
    exact ⟨rfl, h, refl _ _ _, _, rfl⟩
  case isFalse hlt =>
    have hv27 : va / 4096 < 2 ^ 27 := by simp only [maxva] at hlt; omega
    rw [Run.bind_ok (walk0_apply (by omega) σ), entry_page]
    cases ha : entry σ.mem r (va / 4096 * 4096) with
    | none =>
      have h0 : leaf σ.mem r (va / 4096) = 0 := by rw [leaf, ha]
      rw [accessFrame_eq_none (.inl (by rw [h0, has_zero]))]
      exact ⟨rfl, h, refl _ _ _, _, rfl⟩
    | some a =>
      simp only [K.load, Run.bind_read, ← Tree.leaf_of_entry ha]
      cases hV : has (leaf σ.mem r (va / 4096)) pteV with
      | false =>
        rw [accessFrame_eq_none (.inl hV)]
        exact ⟨rfl, h, refl _ _ _, _, rfl⟩
      | true =>
        cases hU : has (leaf σ.mem r (va / 4096)) pteU with
        | false =>
          rw [accessFrame_eq_none (.inr (.inl hU))]
          exact ⟨rfl, h, refl _ _ _, _, rfl⟩
        | true =>
          cases hn : has (leaf σ.mem r (va / 4096)) need with
          | false =>
            rw [accessFrame_eq_none (.inr (.inr hn))]
            exact ⟨rfl, h, refl _ _ _, _, rfl⟩
          | true =>
            have hv := h.lt_uvpn hr hv27 hU
            obtain ⟨h1, k1⟩ := h.touchEntry hr hv ha hV store
            rw [accessFrame, hn, if_pos rfl, userFrame_eq_some_iff.2 ⟨hv, hV, hU, rfl⟩]
            exact ⟨rfl, h1, k1, _, rfl⟩

theorem userLoad_spec (va : ℕ) :
    Ensures (userLoad r va σ) (fun o σ' => Inv σ' g ∧ Keeps {} σ g σ' g ∧
      o = (accessFrame σ r (va / 4096) pteR).map fun f => σ'.mem (f + va % 4096))
      fun _ => False := by
  refine (translate_spec h hr va pteR false).bind ?_
  rintro o σ₁ ⟨rfl, h1, k1, -⟩
  cases accessFrame σ r (va / 4096) pteR with
  | none => exact ⟨h1, k1, rfl⟩
  | some f => exact ⟨h1, k1, rfl⟩

end

/-- Write a byte of a page. -/
def LPage.write (p : LPage) (k : ℕ) (b : Byte) : LPage :=
  { p with bytes := fun j => if j.val = k then b else p.bytes j }

/-- **A store of the user** writes its byte, or faults. -/
theorem userStore_spec (h : Inv σ g) (hr : g.role r = .root) (va : ℕ) (b : Byte) :
    Ensures (userStore r va b σ) (fun ok σ' => Inv σ' g ∧ (∃ m', σ' = { σ with mem := m' }) ∧
      match accessFrame σ r (va / 4096) pteW with
      | none => ok = false ∧ Keeps {} σ g σ' g
      | some _ => ok = true ∧ Keeps { pages := {(r, va / 4096)} } σ g σ' g ∧
          logical σ' r (va / 4096) = (logical σ r (va / 4096)).map (·.write (va % 4096) b))
      fun _ => False := by
  refine (translate_spec h hr va pteW true).bind ?_
  rintro o σ₁ ⟨rfl, h1, k1, m₁, rfl⟩
  cases hf : accessFrame σ r (va / 4096) pteW with
  | none => exact ⟨h1, ⟨_, rfl⟩, rfl, k1⟩
  | some f =>
    have hrole := h.role_userFrame hr (accessFrame_eq_some hf).1
    have hv := (h.leaves.user f r _ hrole).2.1
    obtain ⟨h2, k2⟩ := h1.writeUser hrole
      ((sameOutside_update m₁ (f + va % 4096) b).mono (le_add_right _ _) (by omega))
    refine ⟨h2, ⟨_, rfl⟩, rfl, (k1.mono_empty _).trans k2, ?_⟩
    have hb := h1.onlyBytes hrole
      ((sameOutside_update m₁ (f + va % 4096) b).mono (le_add_right _ _) (by omega))
    obtain ⟨-, -, hV1, hpa1⟩ := h1.leaves.user f r _ hrole
    rw [← k1.page r _ hr (notMem_empty _) hv (notMem_empty _), logical, logical,
      hb.leaf r _ hr (lt_trans hv (by decide)), pageOf_valid hV1, pageOf_valid hV1, hpa1,
      map_some]
    congr 2
    funext k
    simp only [frameBytes, Function.update_apply]
    exact if_congr (by omega) rfl rfl

end Xv6Swap
