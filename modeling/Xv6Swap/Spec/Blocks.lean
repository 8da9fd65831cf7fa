import Xv6Swap.Kernel.Fs

/-!
# The block references of inodes

An inode refers to blocks from its places: the direct entries of `addrs[]` (`0` to `NDIRECT - 1`),
the entry of the indirect block (`NDIRECT`) and the entries of that block (from `NDIRECT + 1` on).
`Dinode.ref disk d f` is the block at place `f`, or 0.

`BlockOwned disk D n U` says of the inodes `D i`, `i < n`, that the places in use are those for
which `U` holds, and that no block is referred to twice.  It is kept when

* `BlockOwned.assign` : a free place in `addrs[]` gets a new block;
* `BlockOwned.assignEntry` : a free entry of an indirect block gets a new block;
* `BlockOwned.write` : a block that is not an indirect block is written;
* `BlockOwned.congr` : other fields of inodes change.
-/

namespace Xv6Swap

open Function Nat Dinode

/-- The number of places of an inode. -/
abbrev nplaces : ℕ := ndirect + 1 + nindirect

/-- The place of a block of a file. -/
def blockPlace (fbn : ℕ) : ℕ := if fbn < ndirect then fbn else fbn + 1

theorem blockPlace_lt {fbn : ℕ} (h : fbn < maxfile) : blockPlace fbn < nplaces := by
  simp only [blockPlace, maxfile, nplaces] at h ⊢
  split <;> omega

theorem blockPlace_ne (fbn : ℕ) : blockPlace fbn ≠ ndirect := by
  unfold blockPlace
  split <;> omega

theorem blockPlace_inj {a b : ℕ} (h : blockPlace a = blockPlace b) : a = b := by
  unfold blockPlace at h
  split at h <;> split at h <;> omega

namespace Dinode

variable {disk disk' : ℕ → Mem} {d d' : Dinode} {f j v b : ℕ}

theorem addr_setAddr_self (d : Dinode) (hj : j < ndirect + 1) (hv : v < 2 ^ 32) :
    (d.setAddr j v).addr j = v := by
  rw [addr, dif_pos hj, setAddr, dif_pos hj]
  dsimp only
  rw [update_self, BitVec.toNat_ofNat, mod_eq_of_lt hv]

theorem addr_setAddr_of_ne (d : Dinode) (v : ℕ) (h : f ≠ j) :
    (d.setAddr j v).addr f = d.addr f := by
  unfold addr setAddr
  by_cases hf : f < ndirect + 1
  · rw [dif_pos hf, dif_pos hf]
    by_cases hj : j < ndirect + 1
    · rw [dif_pos hj]
      dsimp only
      rw [update_of_ne fun e => h (congrArg Fin.val e)]
    · rw [dif_neg hj]
  · rw [dif_neg hf, dif_neg hf]

/-- The block at a place of an inode, or 0. -/
def ref (disk : ℕ → Mem) (d : Dinode) (f : ℕ) : ℕ :=
  if f ≤ ndirect then d.addr f
  else if d.addr ndirect = 0 then 0
  else indAt (disk (d.addr ndirect)) (f - (ndirect + 1))

theorem ref_direct (h : f ≤ ndirect) : d.ref disk f = d.addr f := if_pos h

theorem ref_entry (h : ndirect < f) (ha : d.addr ndirect ≠ 0) :
    d.ref disk f = indAt (disk (d.addr ndirect)) (f - (ndirect + 1)) := by
  rw [ref, if_neg (not_le.2 h), if_neg ha]

theorem ref_none (h : ndirect < f) (ha : d.addr ndirect = 0) : d.ref disk f = 0 := by
  rw [ref, if_neg (not_le.2 h), if_pos ha]

theorem addr_ndirect_ne (h : ndirect < f) (hr : d.ref disk f ≠ 0) : d.addr ndirect ≠ 0 :=
  fun ha => hr (ref_none h ha)

/-- Only the addresses and the indirect block matter. -/
theorem ref_congr (ha : ∀ j ≤ ndirect, d'.addr j = d.addr j)
    (hd : d.addr ndirect ≠ 0 → disk' (d.addr ndirect) = disk (d.addr ndirect)) :
    d'.ref disk' f = d.ref disk f := by
  by_cases hf : f ≤ ndirect
  · rw [ref_direct hf, ref_direct hf, ha f hf]
  · have hf := Nat.lt_of_not_le hf
    have hn := ha ndirect (le_refl _)
    by_cases h0 : d.addr ndirect = 0
    · rw [ref_none hf h0, ref_none hf (hn.trans h0)]
    · rw [ref_entry hf h0, ref_entry hf (by rwa [hn]), hn, hd h0]

/-- Another block than the indirect block is written. -/
theorem ref_update (data : Mem) (h : d.addr ndirect = 0 ∨ d.addr ndirect ≠ b) :
    d.ref (update disk b data) f = d.ref disk f := by
  refine ref_congr (fun _ _ => rfl) fun h0 => ?_
  exact update_of_ne (h.resolve_left h0) ..

theorem ref_setAddr_self (hj : j ≤ ndirect) (hv : v < 2 ^ 32) : (d.setAddr j v).ref disk j = v := by
  rw [ref_direct hj, addr_setAddr_self d (lt_succ_of_le hj) hv]

theorem ref_setAddr_of_ne (h : f ≠ j) (hj : j ≠ ndirect) :
    (d.setAddr j v).ref disk f = d.ref disk f := by
  by_cases hf : f ≤ ndirect
  · rw [ref_direct hf, ref_direct hf, addr_setAddr_of_ne d v h]
  · have hf := Nat.lt_of_not_le hf
    have hn := addr_setAddr_of_ne d v hj.symm
    by_cases h0 : d.addr ndirect = 0
    · rw [ref_none hf h0, ref_none hf (hn.trans h0)]
    · rw [ref_entry hf h0, ref_entry hf (by rwa [hn]), hn]

theorem ref_setAddr_ndirect (h : f ≠ ndirect) (hlt : f < nplaces) (hv : v < 2 ^ 32)
    (h0 : d.addr ndirect = 0) (hz : ∀ k < nindirect, indAt (disk v) k = 0) :
    (d.setAddr ndirect v).ref disk f = d.ref disk f := by
  by_cases hf : f ≤ ndirect
  · rw [ref_direct hf, ref_direct hf, addr_setAddr_of_ne d v h]
  · have hf := Nat.lt_of_not_le hf
    rw [ref_none hf h0]
    by_cases hv0 : v = 0
    · rw [ref_none hf]
      rw [addr_setAddr_self d (by decide) hv, hv0]
    · rw [ref_entry hf]
      · rw [addr_setAddr_self d (by decide) hv, hz _ (by simp only [nplaces] at hlt; omega)]
      · rwa [addr_setAddr_self d (by decide) hv]

theorem ref_putInd_self (hf : ndirect < f) (hv : v < 2 ^ 32) (h0 : d.addr ndirect ≠ 0) :
    d.ref (update disk (d.addr ndirect)
      (putInd (disk (d.addr ndirect)) (f - (ndirect + 1)) v)) f = v := by
  rw [ref_entry hf h0, update_self, indAt_putInd_self _ _ hv]

theorem ref_putInd_of_ne {g : ℕ} (hg : g ≠ f) (hf : ndirect < f) (h0 : d.addr ndirect ≠ 0) :
    d.ref (update disk (d.addr ndirect)
      (putInd (disk (d.addr ndirect)) (f - (ndirect + 1)) v)) g = d.ref disk g := by
  by_cases hgd : g ≤ ndirect
  · rw [ref_direct hgd, ref_direct hgd]
  · have hgd := Nat.lt_of_not_le hgd
    rw [ref_entry hgd h0, ref_entry hgd h0, update_self, indAt_putInd_of_ne _ _ (by omega)]

end Dinode

/-- The references of the inodes `D i`, `i < n`: `U` holds of the places in use, and no block is
referred to twice. -/
structure BlockOwned (disk : ℕ → Mem) (D : ℕ → Dinode) (n : ℕ) (U : ℕ → ℕ → Prop) : Prop where
  used : ∀ i < n, ∀ f < nplaces, (D i).ref disk f ≠ 0 ↔ U i f
  inj : ∀ i < n, ∀ j < n, ∀ f < nplaces, ∀ g < nplaces, (D i).ref disk f ≠ 0 →
    (D i).ref disk f = (D j).ref disk g → i = j ∧ f = g

/-- No inode refers to the block. -/
def Unref (disk : ℕ → Mem) (D : ℕ → Dinode) (n b : ℕ) : Prop :=
  ∀ i < n, ∀ f < nplaces, (D i).ref disk f ≠ b

namespace BlockOwned

variable {disk disk' : ℕ → Mem} {D D' : ℕ → Dinode} {n b i f j : ℕ} {U U' : ℕ → ℕ → Prop}

variable (h : BlockOwned disk D n U)
include h

theorem congr (hr : ∀ i < n, ∀ f < nplaces, (D' i).ref disk' f = (D i).ref disk f)
    (hu : ∀ i < n, ∀ f < nplaces, U' i f ↔ U i f) : BlockOwned disk' D' n U' := by
  refine ⟨fun i hi f hf => ?_, fun i hi j hj f hf g hg h0 e => ?_⟩
  · rw [hr i hi f hf, hu i hi f hf]
    exact h.used i hi f hf
  · rw [hr i hi f hf] at h0 e
    rw [hr j hj g hg] at e
    exact h.inj i hi j hj f hf g hg h0 e

/-- One place gets a block that nobody refers to. -/
theorem insert (hi : i < n) (hf : f < nplaces) (hb : b ≠ 0)
    (hnew : Unref disk D n b) (hself : (D' i).ref disk' f = b)
    (hother : ∀ j < n, ∀ g < nplaces, ¬ (j = i ∧ g = f) → (D' j).ref disk' g = (D j).ref disk g) :
    BlockOwned disk' D' n fun j g => U j g ∨ (j = i ∧ g = f) := by
  refine ⟨fun j hj g hg => ?_, fun j hj k hk g hg q hq h0 e => ?_⟩
  · by_cases hjg : j = i ∧ g = f
    · obtain ⟨rfl, rfl⟩ := hjg
      rw [hself]
      exact ⟨fun _ => .inr ⟨rfl, rfl⟩, fun _ => hb⟩
    · rw [hother j hj g hg hjg, h.used j hj g hg]
      exact ⟨.inl, fun h => h.resolve_right hjg⟩
  · by_cases hjg : j = i ∧ g = f <;> by_cases hkq : k = i ∧ q = f
    · exact ⟨hjg.1.trans hkq.1.symm, hjg.2.trans hkq.2.symm⟩
    · rw [hjg.1, hjg.2, hself, hother k hk q hq hkq] at e
      exact absurd e.symm (hnew k hk q hq)
    · rw [hkq.1, hkq.2, hself, hother j hj g hg hjg] at e
      exact absurd e (hnew j hj g hg)
    · rw [hother j hj g hg hjg] at h0 e
      rw [hother k hk q hq hkq] at e
      exact h.inj j hj k hk g hg q hq h0 e

/-- A free place of `addrs[]` gets a block. -/
theorem assign (hi : i < n) (hf : f ≤ ndirect) (hb : b ≠ 0)
    (hlt : b < 2 ^ 32) (hnew : Unref disk D n b) (h0 : (D i).addr f = 0)
    (hz : f = ndirect → ∀ k < nindirect, indAt (disk b) k = 0) :
    BlockOwned disk (update D i ((D i).setAddr f b)) n fun j g => U j g ∨ (j = i ∧ g = f) := by
  refine h.insert hi (lt_of_le_of_lt hf (by decide)) hb hnew ?_ fun j hj g hg hjg => ?_
  · rw [update_self, ref_setAddr_self hf hlt]
  · by_cases hji : j = i
    · subst hji
      have hgf : g ≠ f := fun e => hjg ⟨rfl, e⟩
      rw [update_self]
      by_cases hfn : f = ndirect
      · subst hfn
        exact ref_setAddr_ndirect hgf hg hlt h0 (hz rfl)
      · exact ref_setAddr_of_ne hgf hfn
    · rw [update_of_ne hji]

/-- The indirect blocks of different inodes are different. -/
theorem indirect_ne (hi : i < n) (hj : j < n) (hne : j ≠ i) :
    (D j).addr ndirect = 0 ∨ (D j).addr ndirect ≠ (D i).addr ndirect := by
  by_cases hj0 : (D j).addr ndirect = 0
  · exact .inl hj0
  · refine .inr fun e => hne ?_
    have hdir : ∀ k, (D k).ref disk ndirect = (D k).addr ndirect := fun k =>
      ref_direct (le_refl _)
    refine (h.inj j hj i hi ndirect (by decide) ndirect (by decide) ?_ ?_).1
    · rwa [hdir]
    · rw [hdir, hdir, e]

/-- A free entry of an indirect block gets a block. -/
theorem assignEntry (hi : i < n) (hf : ndirect < f) (hlt' : f < nplaces)
    (hb : b ≠ 0) (hlt : b < 2 ^ 32) (hnew : Unref disk D n b) (h0 : (D i).addr ndirect ≠ 0) :
    BlockOwned (update disk ((D i).addr ndirect)
      (putInd (disk ((D i).addr ndirect)) (f - (ndirect + 1)) b)) D n
      fun j g => U j g ∨ (j = i ∧ g = f) := by
  refine h.insert hi hlt' hb hnew (ref_putInd_self hf hlt h0) fun j hj g hg hjg => ?_
  by_cases hji : j = i
  · subst hji
    exact ref_putInd_of_ne (fun e => hjg ⟨rfl, e⟩) hf h0
  · exact ref_update _ (h.indirect_ne hi hj hji)

/-- The block at a place other than that of the indirect block is nobody's indirect block. -/
theorem not_indirect (hi : i < n) (hf : f < nplaces) (hfn : f ≠ ndirect) (hj : j < n) :
    (D j).addr ndirect = 0 ∨ (D j).addr ndirect ≠ (D i).ref disk f := by
  by_cases hj0 : (D j).addr ndirect = 0
  · exact .inl hj0
  · refine .inr fun e => hfn ?_
    have hdir : (D j).ref disk ndirect = (D j).addr ndirect := ref_direct (le_refl _)
    exact (h.inj j hj i hi ndirect (by decide) f hf (by rwa [hdir]) (by rw [hdir, e])).2.symm

/-- A block that is not an indirect block is written. -/
theorem write (data : Mem) (hb : ∀ j < n, (D j).addr ndirect = 0 ∨ (D j).addr ndirect ≠ b) :
    BlockOwned (update disk b data) D n U :=
  h.congr (fun j hj _ _ => ref_update data (hb j hj)) fun _ _ _ _ => Iff.rfl

end BlockOwned

end Xv6Swap
