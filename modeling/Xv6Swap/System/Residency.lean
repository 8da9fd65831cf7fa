import Mathlib.Logic.Relation
import Xv6Swap.System.Ops

/-!
# Copies to and from pages that are not resident

The page-fault handler brings an evicted page back, but `copyin`, `copyout` and `copyinstr` walk the
page table themselves, and to them an evicted page is not mapped.

* `copies_agree_iff` : after any evictions, copies at an address return and do the same as before
  **if and only if** every page that they would have copied is still resident;
* `copies_differ` : a page that is evicted cannot be copied from.
-/

namespace Xv6Swap

open World Nat List Set Mem

variable {w : World} {σ σ' : KState} {g g' : Ghost} {f f' r v va : ℕ} {α : Type} {a : α}

/-! ### The same memory with fewer pages resident -/

/-- A complete `swapout`, whatever it returns. -/
def SwappedOut (σ σ' : KState) : Prop := ∃ ret, swapout σ = .ok (ret, σ')

/-- The state `σ'` is `σ` with some of its pages evicted. -/
structure Fewer (σ : KState) (g : Ghost) (σ' : KState) (g' : Ghost) : Prop where
  inv : Inv σ g
  inv' : Inv σ' g'
  root : ∀ r, g.role r = .root → g'.role r = .root
  page : ∀ r v, g.role r = .root → v < uvpn → logical σ' r v = logical σ r v
  user : ∀ f r v, g'.role f = .user r v → g.role f = .user r v

theorem Fewer.refl (h : Inv σ g) : Fewer σ g σ g :=
  ⟨h, h, fun _ hr => hr, fun _ _ _ _ => rfl, fun _ _ _ hf => hf⟩

theorem Fewer.swappedOut (h : Fewer σ g σ' g') {σ'' : KState} (hs : SwappedOut σ' σ'') :
    ∃ g'', Fewer σ g σ'' g'' := by
  obtain ⟨ret, hs⟩ := hs
  have hkeep : ∀ {g'' : Ghost}, Inv σ'' g'' → Keeps {} σ' g' σ'' g'' →
      (∀ f r v, g''.role f = .user r v → g'.role f = .user r v) → ∃ g'', Fewer σ g σ'' g'' :=
    fun h'' k hu => ⟨_, h.inv, h'', fun r hr => (k.root r (notMem_empty _)).2 (h.root r hr),
      fun r v hr hv => (k.page r v (h.root r hr) (notMem_empty _) hv (notMem_empty _)).trans
        (h.page r v hr hv), fun f r v hf => h.user f r v (hu f r v hf)⟩
  rcases (swapout_spec h.inv').of_ok hs with ⟨-, l, h'', k⟩ | ⟨-, i, r, v, s, l, -, -, -, h'', k, -⟩
  · exact hkeep h'' k fun f r v hf => hf
  · refine hkeep h'' k fun f r' v' hf => ?_
    change Function.update g'.role (pageToPa i) .free f = _ at hf
    by_cases he : f = pageToPa i
    · subst he; rw [Function.update_self] at hf; cases hf
    · rwa [Function.update_of_ne he] at hf

theorem Fewer.of_evictions (h : Inv σ g) (hs : Relation.ReflTransGen SwappedOut σ σ') :
    ∃ g', Fewer σ g σ' g' := by
  induction hs with
  | refl => exact ⟨g, .refl h⟩
  | tail _ hs ih =>
    obtain ⟨g₁, h1⟩ := ih
    exact h1.swappedOut hs

namespace Fewer

variable (h : Fewer σ g σ' g') (hr : g.role r = .root)
include h hr

/-- A page that is still resident was resident, in the same frame with the same contents. -/
theorem frame (hf : userFrame σ' r v = some f) : userFrame σ r v = some f ∧
    has (leaf σ'.mem r v) pteW = has (leaf σ.mem r v) pteW ∧
    frameBytes σ'.mem f = frameBytes σ.mem f := by
  obtain ⟨hv, hV', hU', hpa'⟩ := userFrame_eq_some_iff.1 hf
  have hrole := h.user f r v (h.inv'.role_userFrame (h.root r hr) hf)
  obtain ⟨-, -, hV, hpa⟩ := h.inv.leaves.user f r v hrole
  have hlog := h.page r v hr hv
  rw [logical, logical, pageOf_valid hV, pageOf_valid hV', hpa, hpa'] at hlog
  injection hlog with hlog
  injection hlog with hperm hbytes
  obtain ⟨hU, hW⟩ := has_of_perms hperm
  exact ⟨userFrame_eq_some_iff.2 ⟨hv, hV, hU ▸ hU', hpa⟩, hW, hbytes⟩

theorem frame_eq (hf : userFrame σ r v = some f) (hres : userFrame σ' r v ≠ none) :
    userFrame σ' r v = some f := by
  obtain ⟨f', hf'⟩ := Option.ne_none_iff_exists'.1 hres
  rw [hf', ← (h.frame hr hf').1, hf]

theorem frame_none (hf : userFrame σ r v = none) : userFrame σ' r v = none := by
  by_contra hne
  obtain ⟨f', hf'⟩ := Option.ne_none_iff_exists'.1 hne
  rw [(h.frame hr hf').1] at hf
  cases hf

end Fewer

/-! ### The pages that a copy gets to -/

/-- Of the `len` bytes at `va`, those up to the first page that the user cannot access in `σ` anyway
are on pages that are resident in `σ'`. -/
def StillResident (σ σ' : KState) (r va len : ℕ) : Prop :=
  ∀ a, va ≤ a → a < va + len →
    (∀ u, va / pgsize ≤ u → u ≤ a / pgsize → userFrame σ r u ≠ none) →
    userFrame σ' r (a / pgsize) ≠ none

theorem stillResident_succ (l : ℕ) : StillResident σ σ' r va (l + 1) ↔
    (userFrame σ r (va / 4096) ≠ none → userFrame σ' r (va / 4096) ≠ none ∧
      StillResident σ σ' r ((va / 4096 + 1) * 4096) (l + 1 - chunk va (l + 1))) := by
  have hchunk : chunk va (l + 1) = min (4096 - va % 4096) (l + 1) := rfl
  simp only [StillResident, pgsize]
  constructor
  · intro h hv
    refine ⟨h va (le_refl _) (by omega) fun u h1 h2 => ?_, fun a h1 h2 hall => ?_⟩
    · rwa [le_antisymm h2 h1]
    · refine h a (by omega) (by omega) fun u h3 h4 => ?_
      rcases eq_or_lt_of_le h3 with rfl | h3
      · exact hv
      · exact hall u (by omega) h4
  · intro h a h1 h2 hall
    have hle : va / 4096 ≤ a / 4096 := Nat.div_le_div_right h1
    obtain ⟨hres, hrest⟩ := h (hall _ (le_refl _) hle)
    rcases eq_or_lt_of_le hle with he | hlt
    · rwa [← he]
    · exact hrest a (by omega) (by omega) fun u h3 h4 => hall u (by omega) h4

/-! ### Copies from user memory -/

theorem ok_agree_iff {b : α} : (∃ p, (Except.ok (a, σ) : Except Stop (α × KState)) = .ok (p, σ) ∧
      (Except.ok (b, σ') : Except Stop (α × KState)) = .ok (p, σ')) ↔ a = b := by
  constructor
  · rintro ⟨p, ⟨⟩, ⟨⟩⟩; rfl
  · rintro rfl; exact ⟨a, rfl, rfl⟩

section

variable (h : Fewer σ g σ' g') (hr : g.role r = .root)
include h hr

/-- **All bytes that a copy reaches are still resident** exactly if it reaches as many. -/
theorem Fewer.stillResident_iff {len : ℕ} : StillResident σ σ' r va len ↔
    reach (Readable σ' r) va len = reach (Readable σ r) va len := by
  have hread' : ∀ v, Readable σ' r v ↔ userFrame σ' r v ≠ none := fun _ =>
    readable_iff h.inv' (h.root r hr)
  have hread : ∀ v, Readable σ r v ↔ userFrame σ r v ≠ none := fun _ => readable_iff h.inv hr
  constructor
  · intro hres
    refine eq_of_forall_lt_iff fun k => ?_
    rw [lt_reach_iff, lt_reach_iff]
    refine and_congr_right fun hk => ⟨fun hall x h1 h2 => ?_, fun hall x h1 h2 => ?_⟩
    · exact (hread _).2 fun hnone => (hread' _).1 (hall x h1 h2) (h.frame_none hr hnone)
    · refine (hread' _).2 (hres x h1 (by omega) fun u h3 h4 => (hread u).1 ?_)
      -- some byte of the page is among those that are reached
      have hpage : max va (u * pgsize) / pgsize = u := by simp only [pgsize] at h3 ⊢; omega
      rw [← hpage]
      refine hall _ (le_max_left ..) ?_
      simp only [pgsize] at h3 h4 ⊢
      omega
  · intro heq a h1 h2 hall
    obtain ⟨k, rfl⟩ := Nat.exists_eq_add_of_le h1
    have hk : k < reach (Readable σ r) va len := lt_reach_iff.2 ⟨by omega, fun x h3 h4 =>
      (hread _).2 (hall _ (Nat.div_le_div_right h3) (Nat.div_le_div_right h4))⟩
    rw [← heq] at hk
    exact (hread' _).1 (ok_of_lt_reach hk)

theorem Fewer.userBytes_eq (len : ℕ) : userBytes σ' r va (reach (Readable σ' r) va len) =
    userBytes σ r va (reach (Readable σ' r) va len) := by
  refine map_congr_left fun i hi => ?_
  have hR := ok_of_lt_reach (mem_range.1 hi)
  obtain ⟨hf, -, hb⟩ := h.frame hr (hR.userFrame h.inv' (h.root r hr))
  obtain ⟨-, -, -, hpa⟩ := userFrame_eq_some_iff.1 hf
  have hbyte := congrFun hb ⟨(va + i) % pgsize, mod_lt _ (by decide)⟩
  rw [physAddr, physAddr, hpa]
  exact hbyte

/-- **`copyin`** returns the same in both states exactly if the pages it copies are resident. -/
theorem copyin_agree_iff (va len : ℕ) :
    ((∃ q, copyin r va len σ = .ok (q, σ) ∧ copyin r va len σ' = .ok (q, σ')) ↔
      StillResident σ σ' r va len) := by
  rw [copyin, copyinLoop_exact h.inv hr len va len (le_refl _),
    copyinLoop_exact h.inv' (h.root r hr) len va len (le_refl _), ok_agree_iff,
    h.stillResident_iff hr]
  constructor
  · intro heq
    have hlen := congrArg length (congrArg Prod.snd heq)
    rw [length_userBytes, length_userBytes] at hlen
    exact hlen.symm
  · intro heq
    rw [h.userBytes_eq hr, heq]

/-- `copyinstr` returns the same if the pages in the range are resident. -/
theorem copyinstr_agree (va max : ℕ) (hres : StillResident σ σ' r va max) :
    ∃ q, copyinstr r va max σ = .ok (q, σ) ∧ copyinstr r va max σ' = .ok (q, σ') := by
  rw [copyinstr, copyinstrLoop_exact h.inv hr max va max (le_refl _),
    copyinstrLoop_exact h.inv' (h.root r hr) max va max (le_refl _), ok_agree_iff,
    h.userBytes_eq hr, (h.stillResident_iff hr).1 hres]

end

/-! ### Copies to user memory -/

/-- One iteration of `copyout` in both states. -/
theorem Fewer.write (h : Fewer σ g σ' g') (hr : g.role r = .root) (hf : userFrame σ r v = some f)
    (hf' : userFrame σ' r v = some f) {o : ℕ} {data : List Byte} (ho : o + data.length ≤ 4096) :
    Fewer { σ with mem := σ.mem.write (f + o) data } g
      { σ' with mem := σ'.mem.write (f + o) data } g' := by
  have hb := h.inv.onlyBytes (h.inv.role_userFrame hr hf)
    ((sameOutside_write σ.mem (f + o) data).mono (le_add_right _ _) (by omega))
  have hb' := h.inv'.onlyBytes (h.inv'.role_userFrame (h.root r hr) hf')
    ((sameOutside_write σ'.mem (f + o) data).mono (le_add_right _ _) (by omega))
  have k := (h.inv.writeUser (h.inv.role_userFrame hr hf)
    ((sameOutside_write σ.mem (f + o) data).mono (le_add_right _ _) (by omega))).2
  have k' := (h.inv'.writeUser (h.inv'.role_userFrame (h.root r hr) hf')
    ((sameOutside_write σ'.mem (f + o) data).mono (le_add_right _ _) (by omega))).2
  refine ⟨hb.inv, hb'.inv, h.root, fun r' v' hr' hv' => ?_, h.user⟩
  by_cases hrv : (r', v') = (r, v)
  · cases hrv
    rw [logical_write h.inv hr hf ho, logical_write h.inv' (h.root r hr) hf' ho, h.page r v hr hv']
  · rw [k.page r' v' hr' (notMem_empty _) hv' hrv,
      k'.page r' v' (h.root r' hr') (notMem_empty _) hv' hrv, h.page r' v' hr' hv']

/-- **`copyout`** returns and does the same if the pages in the range are resident. -/
theorem copyoutLoop_agree (hr : g.role r = .root) : ∀ (k : ℕ) (σ σ' : KState) (va : ℕ)
    (src : List Byte), Fewer σ g σ' g' → src.length ≤ k → StillResident σ σ' r va src.length →
    ∃ ret σ₁ σ₁', copyoutLoop r k va src σ = .ok (ret, σ₁) ∧
      copyoutLoop r k va src σ' = .ok (ret, σ₁') ∧ Fewer σ₁ g σ₁' g' := by
  intro k
  induction k with
  | zero =>
    intro σ σ' va src h hk _
    obtain rfl := length_eq_zero_iff.1 (le_zero.1 hk)
    exact ⟨_, _, _, rfl, rfl, h⟩
  | succ k ih =>
    intro σ σ' va src h hk hres
    by_cases hsrc : src = []
    · subst hsrc
      exact ⟨_, _, _, rfl, rfl, h⟩
    · obtain ⟨l, hl⟩ : ∃ l, src.length = l + 1 :=
        exists_eq_succ_of_ne_zero fun h0 => hsrc (length_eq_zero_iff.1 h0)
      have hpos := chunk_pos va (by omega : 0 < src.length)
      have hle := chunk_add_le va src.length
      have htake : va % 4096 + (src.take (chunk va src.length)).length ≤ 4096 := by
        rw [length_take]; omega
      rw [hl, stillResident_succ, ← hl] at hres
      rw [copyoutLoop_cons h.inv hr k va hsrc, copyoutLoop_cons h.inv' (h.root r hr) k va hsrc]
      cases hf : userFrame σ r (va / 4096) with
      | none =>
        rw [accessFrame, hf, ite_self, accessFrame, h.frame_none hr hf, ite_self]
        exact ⟨_, _, _, rfl, rfl, h⟩
      | some f =>
        obtain ⟨hres, hrest⟩ := hres (by rw [hf]; simp)
        have hf' := h.frame_eq hr hf hres
        rw [accessFrame, accessFrame, (h.frame hr hf').2.1, hf, hf']
        cases has (leaf σ.mem r (va / 4096)) pteW with
        | false => exact ⟨_, _, _, rfl, rfl, h⟩
        | true =>
          refine ih _ _ _ _ (h.write hr hf hf' htake) (by rw [length_drop]; omega) ?_
          intro a h1 h2 hall
          rw [userFrame_write h.inv' (h.root r hr) hf' htake]
          refine hrest a h1 (by rwa [length_drop] at h2) fun u h3 h4 => ?_
          rw [← userFrame_write h.inv hr hf htake]
          exact hall u h3 h4

/-! ### The copies together -/

/-- A call returns the same in the world and in the state `σ'`, and leaves the same logical
memory. -/
def Agree {α : Type} (w : World) (σ' : KState) (m : K α) : Prop :=
  ∃ a σ₁ σ₁', m w.sys.k = .ok (a, σ₁) ∧ m σ' = .ok (a, σ₁') ∧
    ∀ r v, w.IsTable r → v < uvpn → logical σ₁' r v = logical σ₁ r v

/-- **The copies of `len` bytes at `va`** agree, and the fetching of arguments with them. -/
structure CopiesAgree (w : World) (σ' : KState) (r va len : ℕ) : Prop where
  copyin : Agree w σ' (copyin r va len)
  copyout : ∀ src : List Byte, src.length = len → Agree w σ' (copyout r va src)
  copyinstr : Agree w σ' (copyinstr r va len)
  fetchstr : Agree w σ' (fetchstr r va len)
  fetchaddr : len = 8 → ∀ sz, Agree w σ' (fetchaddr r sz va)

theorem Agree.bind {β : Type} {m : K α} {k : α → K β} {σ' : KState}
    (h : m w.sys.k = .ok (a, w.sys.k)) (h' : m σ' = .ok (a, σ')) (hk : Agree w σ' (k a)) :
    Agree w σ' (m >>= k) := by
  obtain ⟨b, σ₁, σ₁', h1, h2, hlog⟩ := hk
  exact ⟨b, σ₁, σ₁', by rw [Run.bind_ok h, h1], by rw [Run.bind_ok h', h2], hlog⟩

/-- **Copies do not depend on residency as long as the pages they copy stay resident.**  For every
reachable world, every state reached from it by evictions, and every address and length, the copies
return the same, deliver the same bytes and leave the same logical memory in both if and only if the
pages that hold the bytes, up to the first that the user cannot access anyway, are resident after
the evictions. -/
theorem copies_agree_iff (hw : system.Reachable w)
    (hev : Relation.ReflTransGen SwappedOut w.sys.k σ') (hr : w.IsTable r) (va len : ℕ) :
    CopiesAgree w σ' r va len ↔ StillResident w.sys.k σ' r va len := by
  obtain ⟨⟨g, ha⟩, -⟩ := reachable_sound hw
  obtain ⟨g', h⟩ := Fewer.of_evictions ha.inv hev
  have hr := ha.isTable.1 hr
  have hsame : ∀ {α : Type} (a : α), Agree w σ' (pure a : K α) := fun a =>
    ⟨a, _, _, rfl, rfl, fun r v hr hv => h.page r v (ha.isTable.1 hr) hv⟩
  have hiff := copyin_agree_iff h hr va len
  constructor
  · rintro ⟨⟨q, σ₁, σ₁', h1, h2, -⟩, -⟩
    obtain ⟨rfl, -⟩ := (copyin_exact h.inv hr va len).of_ok h1
    obtain ⟨rfl, -⟩ := (copyin_exact h.inv' (h.root r hr) va len).of_ok h2
    exact hiff.1 ⟨q, h1, h2⟩
  · intro hres
    obtain ⟨q, hq, hq'⟩ := hiff.2 hres
    obtain ⟨p, hp, hp'⟩ := copyinstr_agree h hr va len hres
    refine ⟨⟨q, _, _, hq, hq', fun r v hr hv => h.page r v (ha.isTable.1 hr) hv⟩, ?_,
      ⟨p, _, _, hp, hp', fun r v hr hv => h.page r v (ha.isTable.1 hr) hv⟩, ?_, ?_⟩
    · rintro src rfl
      obtain ⟨ret, σ₁, σ₁', h1, h2, h3⟩ :=
        copyoutLoop_agree hr src.length _ _ va src h (le_refl _) hres
      exact ⟨ret, σ₁, σ₁', h1, h2, fun r v hr hv => h3.page r v (ha.isTable.1 hr) hv⟩
    · refine Agree.bind hp hp' ?_
      split <;> exact hsame _
    · rintro rfl sz
      unfold Xv6Swap.fetchaddr
      split
      · exact hsame _
      · refine Agree.bind hq hq' ?_
        split <;> exact hsame _

/-- The first process has grown by a page, which is then evicted; its address space and the outcome
pass a test. -/
def evictTest (t : ℕ → KState → Bool) (w : World) : Bool :=
  match swapout w.sys.k with
  | .ok (_, σ') => w.isTable (w.sys.proc 0).pagetable && t (w.sys.proc 0).pagetable σ'
  | .error _ => false

theorem evictTest_true {t : ℕ → KState → Bool} (h : evictTest t w = true) :
    ∃ r σ', w.IsTable r ∧ SwappedOut w.sys.k σ' ∧ t r σ' = true := by
  unfold evictTest at h
  split at h
  · rename_i ret σ' hs
    obtain ⟨h1, h2⟩ := Bool.and_eq_true_iff.1 h
    exact ⟨_, σ', .of_check h1, ⟨ret, hs⟩, h2⟩
  · cases h

/-- Of two pages the first one is evicted, and the copies from and to the second one agree. -/
theorem copies_agree_second : ∃ w r σ', system.Reachable w ∧ w.IsTable r ∧
    Relation.ReflTransGen SwappedOut w.sys.k σ' ∧ CopiesAgree w σ' r 8192 8 := by
  obtain ⟨w, hw, ht⟩ := reachable_test (n := 13) (by decide) (by decide)
    [.userinit, .sbrk 0 8192#64] (t := evictTest fun r σ' => (userFrame σ' r 2).isSome)
    (by decide +kernel)
  obtain ⟨r, σ', hr, hs, hres⟩ := evictTest_true ht
  refine ⟨w, r, σ', hw, hr, .single hs,
    (copies_agree_iff hw (.single hs) hr 8192 8).2 fun a h1 h2 _ => ?_⟩
  rw [show a / pgsize = 2 by simp only [pgsize]; omega]
  exact Option.isSome_iff_ne_none.1 hres

/-- **A page that has been evicted cannot be copied from**: `copyin` of one byte of the page returns
0 before the eviction and -1 after it. -/
theorem copies_differ : ∃ w r σ', system.Reachable w ∧ w.IsTable r ∧
    Relation.ReflTransGen SwappedOut w.sys.k σ' ∧ ¬ CopiesAgree w σ' r 4096 1 := by
  obtain ⟨w, hw, ht⟩ := reachable_test (n := 13) (by decide) (by decide)
    [.userinit, .sbrk 0 4096#64]
    (t := fun w => evictTest (fun r σ' => (copyin r 4096 1 w.sys.k).toOption.map (·.1.1) ≠
      (copyin r 4096 1 σ').toOption.map (·.1.1)) w) (by decide +kernel)
  obtain ⟨r, σ', hr, hs, hq⟩ := evictTest_true ht
  refine ⟨w, r, σ', hw, hr, .single hs, fun hagree => ?_⟩
  obtain ⟨q, σ₁, σ₁', h1, h2, -⟩ := hagree.copyin
  rw [h1, h2] at hq
  exact of_decide_eq_true hq rfl

end Xv6Swap
