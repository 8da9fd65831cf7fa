import Xv6Swap.Mkfs.Main
import Xv6Swap.Spec.Blocks
import Mathlib.Algebra.BigOperators.Group.Finset.Basic
import Mathlib.Algebra.Order.BigOperators.Group.Finset

/-!
# Appending to a file of the image

`Mk.Good s type c` says that the image of `s` holds the files `c i`, each in blocks of its own, and
that the blocks handed out are exactly those that files of these lengths need: `freeblock` is
`Mk.total c`.

* `addrBlock_spec`, `entryBlock_spec`, `fileBlock_spec` : a block is found or handed out, and the
  places in use keep theirs (`Base`, `Grow`);
* `Tree.write` : one round of the loop of `iappend`;
* `iappend_spec` : the whole function, with the only reasons for which it fails.

It is about the inodes that the inode blocks have room for (`inodeSlots`).
-/

namespace Xv6Swap

open Function Nat List Dinode Run Finset

/-- The number of inodes that the inode blocks have room for. -/
abbrev inodeSlots : ℕ := 208

/-- A file of `len` bytes has a block at the place `f`. -/
def Filled (len f : ℕ) : Prop := (if f ≤ ndirect then f else f - 1) * bsize < len

/-- The number of blocks of a file of `len` bytes, with the indirect block. -/
def need (len : ℕ) : ℕ := (len + (bsize - 1)) / bsize + if ndirect * bsize < len then 1 else 0

namespace Mk

variable {s s' s'' : Mk} {D D' D'' : ℕ → Dinode} {U U' : ℕ → ℕ → Prop}
  {i f sec x a n b fbn g len j : ℕ} {c : ℕ → List Byte}

theorem imagePlace_eq (h : sec < 2 ^ 22) : imagePlace sec = sec := by
  simp only [imagePlace, bsize]
  omega

theorem rsect_ok (h : sec < fssize) : rsect sec s = .ok (s.disk sec, s) := by
  have hp : imagePlace sec = sec := imagePlace_eq (lt_trans h (by decide))
  rw [rsect, hp, if_neg (not_le.2 h)]
  rfl

theorem rsect_die (h : fssize ≤ sec) (h' : sec < 2 ^ 22) : rsect sec s = .error .die := by
  rw [rsect, imagePlace_eq h', if_pos h]
  rfl

theorem wsect_ok (h : sec < 2 ^ 22) (buf : Mem) :
    wsect sec buf s = .ok ((), { s with disk := update s.disk sec buf }) := by
  rw [wsect, imagePlace_eq h]
  rfl

/-! ### Blocks handed out -/

/-- The blocks handed out so far are those below `freeblock`; `U` are the places in use. -/
structure Base (s : Mk) (D : ℕ → Dinode) (U : ℕ → ℕ → Prop) : Prop where
  owned : BlockOwned s.disk D inodeSlots U
  range : ∀ j < inodeSlots, ∀ g < nplaces, (D j).ref s.disk g ≠ 0 →
    sb.nmeta ≤ (D j).ref s.disk g ∧ (D j).ref s.disk g < s.freeblock
  zero : ∀ b, s.freeblock ≤ b → s.disk b = fun _ => 0
  nmeta_le : sb.nmeta ≤ s.freeblock
  blocks : s.blocks = range' sb.nmeta (s.freeblock - sb.nmeta)

/-- What an append to the inode `i` leaves alone. -/
structure Frame (s s' : Mk) (D D' : ℕ → Dinode) (i : ℕ) : Prop where
  low : ∀ b < sb.nmeta, s'.disk b = s.disk b
  other : ∀ j ≠ i, D' j = D j
  fields : D' i = { D i with addrs := (D' i).addrs }
  inodes : s'.freeinode = s.freeinode ∧ s'.inums = s.inums

theorem Frame.refl (s : Mk) (D : ℕ → Dinode) (i : ℕ) : Frame s s D D i :=
  ⟨fun _ _ => rfl, fun _ _ => rfl, rfl, rfl, rfl⟩

theorem Frame.write (s : Mk) (D : ℕ → Dinode) (i : ℕ) (data : Mem) (hx : sb.nmeta ≤ x) :
    Frame s { s with disk := update s.disk x data } D D i :=
  ⟨fun _ hb => update_of_ne (Nat.ne_of_lt (Nat.lt_of_lt_of_le hb hx)) .., fun _ _ => rfl,
    rfl, rfl, rfl⟩

theorem Frame.trans (h : Frame s s' D D' i) (h' : Frame s' s'' D' D'' i) : Frame s s'' D D'' i := by
  refine ⟨fun b hb => ?_, fun j hj => ?_, ?_, h'.inodes.1.trans h.inodes.1,
    h'.inodes.2.trans h.inodes.2⟩
  · rw [h'.low b hb, h.low b hb]
  · rw [h'.other j hj, h.other j hj]
  · rw [h'.fields, h.fields]

/-- What the allocation of blocks for the inode `i` leaves alone: the places in use keep their
blocks, and those of data keep the data. -/
structure Grow (s s' : Mk) (D D' : ℕ → Dinode) (i : ℕ) (U : ℕ → ℕ → Prop) : Prop extends
    Frame s s' D D' i where
  refs : ∀ j < inodeSlots, ∀ g < nplaces, U j g → (D' j).ref s'.disk g = (D j).ref s.disk g
  data : ∀ j < inodeSlots, ∀ g < nplaces, g ≠ ndirect → U j g →
    s'.disk ((D j).ref s.disk g) = s.disk ((D j).ref s.disk g)

theorem Grow.refl (s : Mk) (D : ℕ → Dinode) (i : ℕ) (U : ℕ → ℕ → Prop) : Grow s s D D i U :=
  ⟨Frame.refl .., fun _ _ _ _ _ => rfl, fun _ _ _ _ _ _ => rfl⟩

theorem Grow.trans (h : Grow s s' D D' i U) (h' : Grow s' s'' D' D'' i U')
    (hU : ∀ j g, U j g → U' j g) : Grow s s'' D D'' i U := by
  refine ⟨h.toFrame.trans h'.toFrame, fun j hj g hg hu => ?_, fun j hj g hg hn hu => ?_⟩
  · rw [h'.refs j hj g hg (hU j g hu), h.refs j hj g hg hu]
  · have := h'.data j hj g hg hn (hU j g hu)
    rw [h.refs j hj g hg hu] at this
    rw [this, h.data j hj g hg hn hu]

theorem Base.congr (h : Base s D U) (hu : ∀ j g, U' j g ↔ U j g) : Base s D U' :=
  ⟨h.owned.congr (fun _ _ _ _ => rfl) fun j _ g _ => hu j g, h.range, h.zero, h.nmeta_le, h.blocks⟩

theorem Base.unref (h : Base s D U) : Unref s.disk D inodeSlots s.freeblock := by
  intro j hj g hg e
  by_cases h0 : (D j).ref s.disk g = 0
  · have := h.nmeta_le
    have hn : sb.nmeta = 49 := rfl
    omega
  · have := (h.range j hj g hg h0).2
    omega

theorem indAt_zero (k : ℕ) : indAt (fun _ => 0) k = 0 := by
  have : ∀ n a, Mem.loadLE (fun _ => 0) n a = 0 := by
    intro n
    induction n with
    | zero => exact fun _ => rfl
    | succ n ih =>
      intro a
      rw [Mem.loadLE, ih]
      rfl
  exact this 4 _

/-- The state after `freeblock++`. -/
def taken (s : Mk) : Mk :=
  { s with freeblock := (s.freeblock + 1) % 2 ^ 32, blocks := s.blocks ++ [s.freeblock] }

theorem taken_freeblock (h : s.freeblock < 2 ^ 22) : s.taken.freeblock = s.freeblock + 1 := by
  simp only [taken]
  omega

theorem newBlock_apply (s : Mk) : newBlock s = .ok (s.freeblock, s.taken) := rfl

theorem range'_concat (h : b = a + n) : range' a n ++ [b] = range' a (n + 1) := by
  rw [h, List.range'_concat, Nat.one_mul]

/-- After `freeblock++`, with one place more in use. -/
theorem Base.take (h : Base s D U) (hb : s.freeblock < 2 ^ 22)
    (hd : s'.blocks = s.taken.blocks) (hf : s'.freeblock = s.taken.freeblock)
    (hz : ∀ b, s.freeblock < b → s'.disk b = s.disk b) (ho : BlockOwned s'.disk D' inodeSlots U')
    (hr : ∀ j < inodeSlots, ∀ g < nplaces, (D' j).ref s'.disk g = s.freeblock ∨
      (D' j).ref s'.disk g = (D j).ref s.disk g) : Base s' D' U' := by
  have hfb : s'.freeblock = s.freeblock + 1 := hf.trans (taken_freeblock hb)
  have hle := h.nmeta_le
  refine ⟨ho, fun j hj g hg h0 => ?_, fun b hb' => ?_, by omega, ?_⟩
  · rcases hr j hj g hg with e | e
    · omega
    · rw [e] at h0 ⊢
      have := h.range j hj g hg h0
      omega
  · rw [hz b (by omega)]
    exact h.zero b (by omega)
  · have hlen : s.freeblock + 1 - sb.nmeta = s.freeblock - sb.nmeta + 1 := by omega
    rw [hd, hfb, hlen, ← range'_concat (b := s.freeblock) (by omega), ← h.blocks]
    rfl

theorem addrBlock_spec (hb : Base s D U) (hi : i < inodeSlots) (hf : f ≤ ndirect)
    (hfb : s.freeblock < 2 ^ 22) :
    ∃ s' D', addrBlock (D i) f s = .ok (D' i, s') ∧ s'.disk = s.disk ∧
      Base s' D' (fun j g => U j g ∨ (j = i ∧ g = f)) ∧ Grow s s' D D' i U ∧
      (s'.freeblock = s.freeblock ∧ U i f ∨
        s'.freeblock = s.freeblock + 1 ∧ (D' i).addr f = s.freeblock ∧ ¬ U i f) := by
  have hlt : f < nplaces := lt_of_le_of_lt hf (by decide)
  have hused := hb.owned.used i hi f hlt
  rw [ref_direct hf] at hused
  by_cases h0 : (D i).addr f = 0
  · have hnot : ¬ U i f := fun hu => hused.2 hu h0
    have hne : s.freeblock ≠ 0 := by
      have := hb.nmeta_le
      have hn : sb.nmeta = 49 := rfl
      omega
    have howned := hb.owned.assign hi hf hne (lt_trans hfb (by decide)) hb.unref h0
      fun _ k _ => by rw [hb.zero _ (le_refl _), indAt_zero]
    have hother : ∀ j < inodeSlots, ∀ g < nplaces, ¬ (j = i ∧ g = f) →
        (update D i ((D i).setAddr f s.freeblock) j).ref s.disk g =
          (D j).ref s.disk g := by
      intro j hj g hg hjg
      by_cases hji : j = i
      · subst hji
        have hgf : g ≠ f := fun e => hjg ⟨rfl, e⟩
        rw [update_self]
        by_cases hfn : f = ndirect
        · subst hfn
          refine ref_setAddr_ndirect hgf hg (lt_trans hfb (by decide)) h0 fun k _ => ?_
          rw [hb.zero _ (le_refl _), indAt_zero]
        · exact ref_setAddr_of_ne hgf hfn
      · rw [update_of_ne hji]
    refine ⟨s.taken, update D i ((D i).setAddr f s.freeblock), ?_, rfl, ?_, ?_,
      .inr ⟨taken_freeblock hfb, ?_, hnot⟩⟩
    · rw [addrBlock, if_pos h0, bind_ok (newBlock_apply s), update_self]
      rfl
    · refine hb.take hfb rfl rfl (fun _ _ => rfl) howned fun j hj g hg => ?_
      by_cases hjg : j = i ∧ g = f
      · obtain ⟨rfl, rfl⟩ := hjg
        left
        rw [update_self]
        exact ref_setAddr_self hf (lt_trans hfb (by decide))
      · exact .inr (hother j hj g hg hjg)
    · refine ⟨⟨fun _ _ => rfl, fun j hj => update_of_ne hj .., ?_, rfl, rfl⟩,
        fun j hj g hg hu => hother j hj g hg ?_, fun _ _ _ _ _ _ => rfl⟩
      · rw [update_self]
        unfold setAddr
        split <;> rfl
      · rintro ⟨rfl, rfl⟩
        exact hnot hu
    · rw [update_self, addr_setAddr_self _ (lt_succ_of_le hf)]
      exact lt_trans hfb (by decide)
  · have hu := hused.1 h0
    refine ⟨s, D, ?_, rfl, hb.congr fun j g => ?_, Grow.refl .., .inl ⟨rfl, hu⟩⟩
    · rw [addrBlock, if_neg h0]
      rfl
    · refine ⟨?_, .inl⟩
      rintro (h | ⟨rfl, rfl⟩)
      · exact h
      · exact hu

theorem entryBlock_spec (hb : Base s D U) (hi : i < inodeSlots) (hf : ndirect < f)
    (hlt : f < nplaces) (hfb : s.freeblock < 2 ^ 22) (hind : U i ndirect)
    (hmax : (D i).addr ndirect < fssize) :
    ∃ s', entryBlock ((D i).addr ndirect) (f - (ndirect + 1)) s = .ok ((D i).ref s'.disk f, s') ∧
      Base s' D (fun j g => U j g ∨ (j = i ∧ g = f)) ∧ Grow s s' D D i U ∧
      (s'.freeblock = s.freeblock ∧ U i f ∨
        s'.freeblock = s.freeblock + 1 ∧ (D i).ref s'.disk f = s.freeblock ∧ ¬ U i f) := by
  have hdir : (D i).ref s.disk ndirect = (D i).addr ndirect := ref_direct (le_refl _)
  have hne : (D i).addr ndirect ≠ 0 := by
    rw [← hdir]
    exact (hb.owned.used i hi ndirect (by decide)).2 hind
  have hused := hb.owned.used i hi f hlt
  have href : (D i).ref s.disk f = indAt (s.disk ((D i).addr ndirect)) (f - (ndirect + 1)) :=
    ref_entry hf hne
  have hrange := hb.range i hi ndirect (by decide) (by rwa [hdir])
  rw [hdir] at hrange
  by_cases h0 : indAt (s.disk ((D i).addr ndirect)) (f - (ndirect + 1)) = 0
  · have hnot : ¬ U i f := fun hu => hused.2 hu (href.trans h0)
    have hfb0 : s.freeblock ≠ 0 := by
      have := hb.nmeta_le
      omega
    have hfb32 : s.freeblock < 2 ^ 32 := lt_trans hfb (by decide)
    have hself : (D i).ref (update s.disk ((D i).addr ndirect)
        (putInd (s.disk ((D i).addr ndirect)) (f - (ndirect + 1)) s.freeblock)) f = s.freeblock :=
      ref_putInd_self hf hfb32 hne
    have hother : ∀ j < inodeSlots, ∀ g < nplaces, ¬ (j = i ∧ g = f) →
        (D j).ref (update s.disk ((D i).addr ndirect) (putInd (s.disk ((D i).addr ndirect))
          (f - (ndirect + 1)) s.freeblock)) g = (D j).ref s.disk g := by
      intro j hj g hg hjg
      by_cases hji : j = i
      · subst hji
        exact ref_putInd_of_ne (fun e => hjg ⟨rfl, e⟩) hf hne
      · exact ref_update _ (hb.owned.indirect_ne hi hj hji)
    refine ⟨{ s.taken with
        disk := update s.disk ((D i).addr ndirect)
          (putInd (s.disk ((D i).addr ndirect)) (f - (ndirect + 1)) s.freeblock) },
      ?_, ?_, ?_, .inr ⟨taken_freeblock hfb, hself, hnot⟩⟩
    · rw [entryBlock, bind_ok (rsect_ok hmax), if_pos h0, bind_ok (newBlock_apply s),
        bind_ok (wsect_ok (lt_trans hmax (by decide)) _)]
      dsimp only
      rw [hself]
      rfl
    · refine hb.take hfb rfl rfl (fun b hlb => update_of_ne ?_ ..)
        (hb.owned.assignEntry hi hf hlt hfb0 hfb32 hb.unref hne) fun j hj g hg => ?_
      · omega
      · by_cases hjg : j = i ∧ g = f
        · obtain ⟨rfl, rfl⟩ := hjg
          exact .inl hself
        · exact .inr (hother j hj g hg hjg)
    · refine ⟨⟨fun b hlb => update_of_ne (by omega) .., fun _ _ => rfl, rfl, rfl, rfl⟩,
        fun j hj g hg hu => hother j hj g hg ?_, fun j hj g hg hgn hu => ?_⟩
      · rintro ⟨rfl, rfl⟩
        exact hnot hu
      · refine update_of_ne (fun e => ?_) ..
        exact ((hb.owned.not_indirect hj hg hgn hi).resolve_left hne) e.symm
  · have hu := hused.1 (by rwa [href])
    refine ⟨s, ?_, hb.congr fun j g => ?_, Grow.refl .., .inl ⟨rfl, hu⟩⟩
    · rw [entryBlock, bind_ok (rsect_ok hmax), if_neg h0, href]
      rfl
    · refine ⟨?_, .inl⟩
      rintro (h | ⟨rfl, rfl⟩)
      · exact h
      · exact hu

/-- The places that a file with a block `fbn` has in use. -/
def Touches (fbn g : ℕ) : Prop := g = blockPlace fbn ∨ (ndirect ≤ fbn ∧ g = ndirect)

theorem touches_direct (h : fbn < ndirect) : Touches fbn g ↔ g = fbn := by
  rw [Touches, blockPlace, if_pos h]
  exact ⟨fun h' => h'.resolve_right fun h'' => not_le.2 h h''.1, .inl⟩

theorem touches_indirect (h : ndirect ≤ fbn) : Touches fbn g ↔ g = fbn + 1 ∨ g = ndirect := by
  rw [Touches, blockPlace, if_neg (Nat.not_lt.2 h)]
  exact or_congr_right ⟨fun h' => h'.2, fun h' => ⟨h, h'⟩⟩

/-- **The block of a file.**  It fails only if the image is full. -/
theorem fileBlock_spec (hb : Base s D U) (hi : i < inodeSlots) (hbn : fbn < maxfile)
    (hfb : s.freeblock ≤ fssize) : Ensures (fileBlock (D i) fbn s)
      (fun r s' => ∃ D', r = (D' i, (D' i).ref s'.disk (blockPlace fbn)) ∧
        Base s' D' (fun j g => U j g ∨ (j = i ∧ Touches fbn g)) ∧ Grow s s' D D' i U ∧
        ∃ m, (m = s.freeblock ∧ (fbn < ndirect ∨ U i ndirect) ∨
            m = s.freeblock + 1 ∧ ndirect ≤ fbn ∧ ¬ U i ndirect) ∧
          (s'.freeblock = m ∧ U i (blockPlace fbn) ∨
            s'.freeblock = m + 1 ∧ r.2 = m ∧ ¬ U i (blockPlace fbn)))
      (fun _ => fssize < s.freeblock + 2) := by
  have hfb22 : s.freeblock < 2 ^ 22 := lt_of_le_of_lt hfb (by decide)
  unfold fileBlock
  by_cases hd : fbn < ndirect
  · have hp : blockPlace fbn = fbn := if_pos hd
    obtain ⟨s', D', hrun, -, hbase, hgrow, hcount⟩ :=
      addrBlock_spec hb hi (le_of_lt hd) hfb22
    rw [if_pos hd, bind_ok hrun]
    refine ⟨D', ?_, hbase.congr fun j g => ?_, hgrow, s.freeblock, .inl ⟨rfl, .inl hd⟩, ?_⟩
    · rw [hp, ref_direct (le_of_lt hd)]
    · rw [touches_direct hd]
    · rw [hp]
      exact hcount
  · have hd := Nat.le_of_not_lt hd
    have hp : blockPlace fbn = fbn + 1 := if_neg (Nat.not_lt.2 hd)
    obtain ⟨s₁, D₁, hrun, hdisk, hbase, hgrow, hcount⟩ :=
      addrBlock_spec hb hi (le_refl ndirect) hfb22
    have hdir : (D₁ i).ref s₁.disk ndirect = (D₁ i).addr ndirect :=
      ref_direct (le_refl _)
    have hne : (D₁ i).ref s₁.disk ndirect ≠ 0 :=
      (hbase.owned.used i hi ndirect (by decide)).2 (.inr ⟨rfl, rfl⟩)
    have hlt := (hbase.range i hi ndirect (by decide) hne).2
    rw [hdir] at hlt
    rw [if_neg (Nat.not_lt.2 hd), bind_ok hrun]
    by_cases hmax : (D₁ i).addr ndirect < fssize
    · have hfs : fssize < 2 ^ 22 - 2 := by decide
      obtain ⟨s₂, hrun₂, hbase₂, hgrow₂, hcount₂⟩ := entryBlock_spec (f := fbn + 1) hbase hi
        (by omega) (by simp only [maxfile, nplaces] at hbn ⊢; omega) (by omega)
        (.inr ⟨rfl, rfl⟩) hmax
      have hsub : fbn + 1 - (ndirect + 1) = fbn - ndirect := by omega
      rw [hsub] at hrun₂
      rw [bind_ok hrun₂]
      have hU : (U i (fbn + 1) ∨ i = i ∧ fbn + 1 = ndirect) ↔ U i (fbn + 1) := by
        refine ⟨fun h => h.resolve_right fun h => ?_, .inl⟩
        omega
      rw [hU] at hcount₂
      refine ⟨D₁, by rw [hp], hbase₂.congr fun j g => ?_, hgrow.trans hgrow₂ fun _ _ => .inl,
        s₁.freeblock, ?_, ?_⟩
      · rw [touches_indirect hd]
        constructor
        · rintro (h | ⟨h, rfl | rfl⟩)
          · exact .inl (.inl h)
          · exact .inr ⟨h, rfl⟩
          · exact .inl (.inr ⟨h, rfl⟩)
        · rintro ((h | ⟨h, rfl⟩) | ⟨h, rfl⟩)
          · exact .inl h
          · exact .inr ⟨h, .inr rfl⟩
          · exact .inr ⟨h, .inl rfl⟩
      · rcases hcount with ⟨h1, h2⟩ | ⟨h1, -, h2⟩
        · exact .inl ⟨h1, .inr h2⟩
        · exact .inr ⟨h1, hd, h2⟩
      · rw [hp]
        exact hcount₂
    · have hmax := Nat.le_of_not_lt hmax
      rw [entryBlock, bind_error (bind_error (rsect_die hmax (by omega)))]
      change fssize < s.freeblock + 2
      omega

/-! ### The files of the image -/

/-- The files of the image are `c i` for the inodes `D i`, in blocks of their own. -/
structure Tree (s : Mk) (D : ℕ → Dinode) (c : ℕ → List Byte) : Prop where
  base : Base s D fun j g => Filled (c j).length g
  fits : ∀ j < inodeSlots, (c j).length ≤ maxfile * bsize
  data : ∀ j < inodeSlots, ∀ x < (c j).length,
    s.disk ((D j).ref s.disk (blockPlace (x / bsize))) (x % bsize) = (c j).getD x 0
  count : s.freeblock = sb.nmeta + ∑ j ∈ range inodeSlots, need (c j).length
  room : s.freeblock ≤ fssize

theorem filled_blockPlace : Filled len (blockPlace fbn) ↔ fbn * bsize < len := by
  have : (if blockPlace fbn ≤ ndirect then blockPlace fbn else blockPlace fbn - 1) = fbn := by
    unfold blockPlace
    split <;> split <;> omega
  rw [Filled, this]

theorem filled_ndirect : Filled len ndirect ↔ ndirect * bsize < len := by
  rw [Filled, if_pos (le_refl _)]

/-- The places of a file that gets longer within its block `fbn`. -/
theorem filled_add (hn : 0 < n) (hlo : fbn * bsize ≤ len)
    (hhi : len + n ≤ (fbn + 1) * bsize) : Filled (len + n) g ↔ Filled len g ∨ Touches fbn g := by
  simp only [Filled, Touches, blockPlace, bsize, ndirect] at hlo hhi ⊢
  split_ifs <;> omega

/-- The blocks of a file that gets longer within its block `fbn`. -/
theorem need_add (hn : 0 < n) (hlo : fbn * bsize ≤ len) (hhi : len + n ≤ (fbn + 1) * bsize) :
    need (len + n) = need len + (if fbn * bsize < len then 0 else 1) +
      (if ndirect ≤ fbn ∧ ¬ ndirect * bsize < len then 1 else 0) := by
  simp only [need, bsize, ndirect] at hlo hhi ⊢
  split_ifs <;> omega

theorem sum_need_update (c : ℕ → List Byte) (l : List Byte) (hi : i < inodeSlots) :
    (∑ j ∈ range inodeSlots, need (update c i l j).length) + need (c i).length =
      (∑ j ∈ range inodeSlots, need (c j).length) + need l.length := by
  have hmem := Finset.mem_range.2 hi
  rw [← add_sum_erase _ _ hmem, ← add_sum_erase _ (fun j => need (c j).length) hmem, update_self]
  have : ∑ j ∈ (Finset.range inodeSlots).erase i, need (update c i l j).length =
      ∑ j ∈ (Finset.range inodeSlots).erase i, need (c j).length :=
    sum_congr rfl fun j hj => by rw [update_of_ne (ne_of_mem_erase hj)]
  omega

theorem write_apply_in (m : Mem) {dst : ℕ} (l : List Byte) (h₁ : dst ≤ x)
    (h₂ : x < dst + l.length) : m.write dst l x = l.getD (x - dst) 0 := if_pos ⟨h₁, h₂⟩

/-- A block of the file `i` has been found or allocated, and the bytes `l` are written to it. -/
theorem Tree.write {l : List Byte} (h : Tree s D c)
    (hi : i < inodeSlots) (hbn : fbn < maxfile) (hl : 0 < l.length)
    (hlo : fbn * bsize ≤ (c i).length)
    (hhi : (c i).length + l.length ≤ (fbn + 1) * bsize)
    (hb : Base s' D' fun j g => Filled (c j).length g ∨ (j = i ∧ Touches fbn g))
    (hg : Grow s s' D D' i fun j g => Filled (c j).length g)
    (hcount : s'.freeblock = s.freeblock + (if fbn * bsize < (c i).length then 0 else 1) +
      (if ndirect ≤ fbn ∧ ¬ ndirect * bsize < (c i).length then 1 else 0))
    (hroom : s'.freeblock ≤ fssize) :
    Tree { s' with
      disk := update s'.disk ((D' i).ref s'.disk (blockPlace fbn))
        ((s'.disk ((D' i).ref s'.disk (blockPlace fbn))).write ((c i).length - fbn * bsize) l) }
      D' (update c i (c i ++ l)) := by
  have hplace := blockPlace_lt hbn
  have hx0 : (D' i).ref s'.disk (blockPlace fbn) ≠ 0 :=
    (hb.owned.used i hi _ hplace).2 (.inr ⟨rfl, .inl rfl⟩)
  have hxr := hb.range i hi _ hplace hx0
  have hnind : ∀ j < inodeSlots, (D' j).addr ndirect = 0 ∨
      (D' j).addr ndirect ≠ (D' i).ref s'.disk (blockPlace fbn) := fun j hj =>
    hb.owned.not_indirect hi hplace (blockPlace_ne fbn) hj
  -- the references are not changed by the write
  have href : ∀ (data : Mem) (j : ℕ), j < inodeSlots → ∀ g, (D' j).ref
      (update s'.disk ((D' i).ref s'.disk (blockPlace fbn)) data) g =
        (D' j).ref s'.disk g := fun data j hj g => ref_update data (hnind j hj)
  have hlen : (update c i (c i ++ l) i).length = (c i).length + l.length := by
    rw [update_self, length_append]
  refine ⟨⟨?_, ?_, ?_, hb.nmeta_le, hb.blocks⟩, ?_, ?_, ?_, hroom⟩
  · refine (hb.owned.write _ hnind).congr (fun _ _ _ _ => rfl) fun j _ g _ => ?_
    by_cases hj : j = i
    · subst hj
      rw [hlen, filled_add hl hlo hhi]
      exact ⟨fun h => h.imp_right fun h => ⟨rfl, h⟩, fun h => h.imp_right fun h => h.2⟩
    · rw [update_of_ne hj]
      exact ⟨.inl, fun h => h.resolve_right fun h => hj h.1⟩
  · intro j hj g hgp
    dsimp only
    rw [href _ j hj]
    exact hb.range j hj g hgp
  · intro b hle
    dsimp only at hle ⊢
    rw [update_of_ne (by omega)]
    exact hb.zero b hle
  · intro j hj
    by_cases hji : j = i
    · rw [hji, hlen]
      exact hhi.trans (mul_le_mul_right _ hbn)
    · rw [update_of_ne hji]
      exact h.fits j hj
  · intro j hj x hx
    dsimp only
    rw [href _ j hj]
    -- what was there before
    have hold : x < (c j).length → (j ≠ i ∨ x / bsize ≠ fbn) →
        update s'.disk ((D' i).ref s'.disk (blockPlace fbn))
          ((s'.disk ((D' i).ref s'.disk (blockPlace fbn))).write ((c i).length - fbn * bsize) l)
          ((D' j).ref s'.disk (blockPlace (x / bsize))) (x % bsize) = (c j).getD x 0 := by
      intro hxc hne
      have hbx : x / bsize < maxfile := by
        have := h.fits j hj
        exact (div_lt_iff_lt_mul (by decide)).2 (lt_of_lt_of_le hxc this)
      have hfil : Filled (c j).length (blockPlace (x / bsize)) :=
        filled_blockPlace.2 (lt_of_le_of_lt (div_mul_le_self _ _) hxc)
      have hneq : (D' j).ref s'.disk (blockPlace (x / bsize)) ≠
          (D' i).ref s'.disk (blockPlace fbn) := by
        intro e
        have h0 := (hb.owned.used j hj _ (blockPlace_lt hbx)).2 (.inl hfil)
        obtain ⟨h1, h2⟩ := hb.owned.inj j hj i hi _ (blockPlace_lt hbx) _ hplace h0 e
        exact hne.elim (fun h => h h1) fun h => h (blockPlace_inj h2)
      rw [update_of_ne hneq, hg.refs j hj _ (blockPlace_lt hbx) hfil,
        hg.data j hj _ (blockPlace_lt hbx) (blockPlace_ne _) hfil]
      exact h.data j hj x hxc
    by_cases hji : j = i
    · subst hji
      rw [hlen] at hx
      rw [update_self]
      by_cases hxb : x / bsize = fbn
      · have hxge : fbn * bsize ≤ x := hxb ▸ div_mul_le_self x bsize
        have hxm : x % bsize = x - fbn * bsize := by
          rw [← hxb]
          have := div_add_mod x bsize
          rw [mul_comm] at this
          omega
        rw [hxb, update_self]
        by_cases hxc : x < (c j).length
        · -- the same block, before the bytes that are written
          have hfil : Filled (c j).length (blockPlace fbn) := by
            refine filled_blockPlace.2 (lt_of_le_of_lt ?_ hxc)
            rw [← hxb]
            exact div_mul_le_self _ _
          rw [Mem.sameOutside_write _ _ _ _ (.inl (by omega)), hg.refs j hj _ hplace hfil,
            hg.data j hj _ hplace (blockPlace_ne _) hfil, getD_append _ _ _ _ hxc]
          have := h.data j hj x hxc
          rwa [hxb] at this
        · rw [write_apply_in _ _ (by omega) (by omega), getD_append_right _ _ _ _ (by omega)]
          congr 1
          omega
      · have hxc : x < (c j).length := by
          by_contra hge
          refine hxb (Nat.div_eq_of_lt_le ?_ ?_) <;> omega
        rw [hold hxc (.inr hxb), getD_append _ _ _ _ hxc]
    · rw [update_of_ne hji] at hx ⊢
      exact hold hx (.inl hji)
  · have h1 := sum_need_update c (c i ++ l) hi
    have h2 := need_add hl hlo hhi
    have h3 := h.count
    rw [length_append] at h1
    dsimp only
    omega

/-- The blocks that the files need, with the metadata. -/
def total (c : ℕ → List Byte) : ℕ := sb.nmeta + ∑ j ∈ range inodeSlots, need (c j).length

theorem need_mono (h : a ≤ b) : need a ≤ need b := by
  simp only [need, bsize, ndirect]
  split_ifs <;> omega

theorem total_append (l : List Byte) (hi : i < inodeSlots) :
    total c ≤ total (update c i (c i ++ l)) := by
  have h1 := sum_need_update c (c i ++ l) hi
  have h2 : need (c i).length ≤ need (c i ++ l).length := need_mono (by simp)
  unfold total
  omega

/-- **The loop of `iappend`** appends the bytes; it fails only if the file or the image gets too
large. -/
theorem iappendLoop_spec {fuel : ℕ} (hi : i < inodeSlots) : ∀ {s : Mk} {D : ℕ → Dinode}
    {c : ℕ → List Byte} {p : List Byte} {off : ℕ}, Tree s D c → off = (c i).length →
    p.length < fuel → Ensures (iappendLoop fuel (D i) off p s)
      (fun r s' => ∃ D', r = (D' i, off + p.length) ∧
        Tree s' D' (update c i (c i ++ p)) ∧ Frame s s' D D' i)
      (fun _ => maxfile * bsize < off + p.length ∨ fssize < total (update c i (c i ++ p)) + 2) := by
  induction fuel with
  | zero => exact fun _ _ h => absurd h (not_lt_zero _)
  | succ fuel ih =>
    intro s D c p off ht hoff hlen
    rw [iappendLoop]
    by_cases hp : p = []
    · subst hp
      rw [if_pos rfl]
      refine ⟨D, rfl, ?_, Frame.refl ..⟩
      rwa [append_nil, update_eq_self]
    rw [if_neg hp]
    have hpos : 0 < p.length := length_pos_iff.2 hp
    by_cases hmax : maxfile ≤ off / bsize
    · rw [if_pos hmax]
      left
      have := (le_div_iff_mul_le (by decide)).1 hmax
      omega
    rw [if_neg hmax]
    have hbn := Nat.lt_of_not_le hmax
    have htot := total_append (c := c) p hi
    have hfb : s.freeblock = total c := ht.count
    have hfile := Ensures.mono (fileBlock_spec ht.base hi hbn ht.room) (fun _ _ h => h)
      fun _ (h : fssize < s.freeblock + 2) =>
        (.inr (by omega) : maxfile * bsize < off + p.length ∨
          fssize < total (update c i (c i ++ p)) + 2)
    refine hfile.bind fun r s₁ hr => ?_
    obtain ⟨D₁, rfl, hbase, hgrow, m, hm, hfb₁⟩ := hr
    have hlo : off / bsize * bsize ≤ off := div_mul_le_self _ _
    have hup : off < (off / bsize + 1) * bsize :=
      lt_mul_of_div_lt (lt_succ_self _) (by decide)
    rw [filled_ndirect, ← hoff] at hm
    rw [filled_blockPlace, ← hoff] at hfb₁
    have hx := (hbase.owned.used i hi _ (blockPlace_lt hbn)).2 (.inr ⟨rfl, .inl rfl⟩)
    have hxlt := (hbase.range i hi _ (blockPlace_lt hbn) hx).2
    have hroom := ht.room
    have hfs : fssize + 2 < 2 ^ 22 := by decide
    -- a block in use lies in an indirect block that is in use
    have hind : off / bsize * bsize < off → ndirect ≤ off / bsize → ndirect * bsize < off :=
      fun h1 h2 => lt_of_le_of_lt (mul_le_mul_right _ h2) h1
    dsimp only
    by_cases hxmax : fssize ≤ (D₁ i).ref s₁.disk (blockPlace (off / bsize))
    · rw [bind_error (rsect_die hxmax (by omega))]
      right
      rcases hfb₁ with ⟨h1, h2⟩ | ⟨h1, h2, -⟩ <;> rcases hm with ⟨h3, -⟩ | ⟨h3, h4, h5⟩
      · omega
      · exact absurd (hind h2 h4) h5
      · dsimp only at h2
        omega
      · dsimp only at h2
        omega
    · have hxmax := Nat.lt_of_not_le hxmax
      rw [bind_ok (rsect_ok hxmax), bind_ok (wsect_ok (by omega) _)]
      obtain ⟨n, hn⟩ : ∃ n, n = min p.length ((off / bsize + 1) * bsize - off) := ⟨_, rfl⟩
      rw [← hn]
      have hl : (p.take n).length = n := by
        rw [length_take]
        omega
      have htree := ht.write hi (l := p.take n) hbn (by omega) (by omega) (by omega) hbase hgrow
        ?_ ?_
      · rw [← hoff] at htree
        have hnext := @ih _ _ _ (p.drop n) (off + n) htree
          (by rw [update_self, length_append, hl, hoff])
          (by rw [length_drop]; omega)
        have hlen' : off + n + (p.drop n).length = off + p.length := by
          rw [length_drop]
          omega
        rw [update_self, update_idem, append_assoc, take_append_drop, hlen'] at hnext
        refine hnext.imp fun r s₂ ⟨D₂, hr, ht₂, hf₂⟩ => ⟨D₂, hr, ht₂, ?_⟩
        have hge := (hbase.range i hi _ (blockPlace_lt hbn) hx).1
        exact hgrow.toFrame.trans ((Frame.write s₁ D₁ i _ hge).trans hf₂)
      · rw [← hoff]
        rcases hfb₁ with ⟨h1, h2⟩ | ⟨h1, h2, h2'⟩ <;> rcases hm with ⟨h3, h4⟩ | ⟨h3, h4, h5⟩
        · rw [if_pos h2, if_neg (fun h => h.2 (hind h2 h.1))]
          omega
        · exact absurd (hind h2 h4) h5
        · rw [if_neg h2', if_neg (fun h => h4.elim (fun h4 => not_le.2 h4 h.1) h.2)]
          omega
        · rw [if_neg h2', if_pos ⟨h4, h5⟩]
          omega
      · rcases hfb₁ with ⟨h1, h2⟩ | ⟨h1, h2, -⟩
        · rcases hm with ⟨h3, -⟩ | ⟨h3, h4, h5⟩
          · omega
          · exact absurd (hind h2 h4) h5
        · dsimp only at h2
          omega

/-! ### Inodes -/

/-- The image holds the files `c i` of the types `type i`. -/
structure Good (s : Mk) (type : ℕ → BitVec 16) (c : ℕ → List Byte) : Prop where
  tree : Tree s (dinodeAt sb s.disk) c
  size : ∀ j < inodeSlots, (dinodeAt sb s.disk j).size.toNat = (c j).length
  type : ∀ j < inodeSlots, (dinodeAt sb s.disk j).type = type j

theorem iblock_lt (h : j < inodeSlots) : sb.iblock j < sb.bmapstart := by
  simp only [inodeSlots, Superblock.iblock, ipb, bsize, dinodeSize, sb, Superblock.mkfs] at h ⊢
  omega

theorem rinode_ok (h : j < inodeSlots) : rinode j s = .ok (dinodeAt sb s.disk j, s) := by
  have : sb.iblock j < fssize := lt_trans (iblock_lt h) (by decide)
  rw [rinode, bind_ok (rsect_ok this)]
  rfl

theorem winode_ok (h : j < inodeSlots) (d : Dinode) :
    winode j d s = .ok ((), { s with disk := setDinode sb s.disk j d }) := by
  have : sb.iblock j < fssize := lt_trans (iblock_lt h) (by decide)
  rw [winode, bind_ok (rsect_ok this), wsect_ok (lt_trans this (by decide))]
  rfl

theorem Tree.store (h : Tree s D c) (hlow : ∀ b, sb.nmeta ≤ b → s'.disk b = s.disk b)
    (ha : ∀ j < inodeSlots, ∀ f ≤ ndirect, (D' j).addr f = (D j).addr f)
    (hfb : s'.freeblock = s.freeblock) (hbl : s'.blocks = s.blocks) : Tree s' D' c := by
  have hind : ∀ j < inodeSlots, (D j).addr ndirect ≠ 0 → sb.nmeta ≤ (D j).addr ndirect := by
    intro j hj h0
    have hdir : (D j).ref s.disk ndirect = (D j).addr ndirect := ref_direct (le_refl _)
    rw [← hdir] at h0 ⊢
    exact (h.base.range j hj ndirect (by decide) h0).1
  have href : ∀ j < inodeSlots, ∀ g, (D' j).ref s'.disk g = (D j).ref s.disk g := fun j hj g =>
    ref_congr (ha j hj) fun h0 => hlow _ (hind j hj h0)
  refine ⟨⟨h.base.owned.congr (fun j hj g _ => href j hj g) fun _ _ _ _ => Iff.rfl,
    fun j hj g hg => ?_, fun b hb => ?_, hfb ▸ h.base.nmeta_le, ?_⟩, h.fits, fun j hj x hx => ?_,
    hfb ▸ h.count, hfb ▸ h.room⟩
  · rw [href j hj g, hfb]
    exact h.base.range j hj g hg
  · have := h.base.nmeta_le
    rw [hfb] at hb
    rw [hlow b (by omega)]
    exact h.base.zero b hb
  · rw [hbl, hfb]
    exact h.base.blocks
  · have hbx : x / bsize < maxfile :=
      (div_lt_iff_lt_mul (by decide)).2 (lt_of_lt_of_le hx (h.fits j hj))
    have h0 := (h.base.owned.used j hj _ (blockPlace_lt hbx)).2
      (filled_blockPlace.2 (lt_of_le_of_lt (div_mul_le_self _ _) hx))
    rw [href j hj, hlow _ (h.base.range j hj _ (blockPlace_lt hbx) h0).1]
    exact h.data j hj x hx

/-- **`iappend`** appends the bytes to the file; it fails only if the file or the image gets too
large. -/
theorem iappend_spec {type : ℕ → BitVec 16} (h : Good s type c)
    (hi : i < inodeSlots) (p : List Byte) : Ensures (iappend i p s)
      (fun _ s' => Good s' type (update c i (c i ++ p)) ∧
        s'.freeinode = s.freeinode ∧ s'.inums = s.inums ∧
        ∀ b < sb.nmeta, (∀ j < inodeSlots, b ≠ sb.iblock j) → s'.disk b = s.disk b)
      (fun _ => maxfile * bsize < (c i).length + p.length ∨
        fssize < total (update c i (c i ++ p)) + 2) := by
  rw [iappend, bind_ok (rinode_ok hi), h.size i hi]
  refine (iappendLoop_spec hi h.tree rfl (lt_succ_self _)).bind fun r s₁ hr => ?_
  obtain ⟨D₁, rfl, ht₁, hf⟩ := hr
  rw [winode_ok hi]
  have hfit : (c i).length + p.length ≤ maxfile * bsize := by
    have := ht₁.fits i hi
    rwa [update_self, length_append] at this
  have hold : ∀ j < inodeSlots, dinodeAt sb s₁.disk j = dinodeAt sb s.disk j := by
    intro j hj
    rw [dinodeAt, hf.low _ (lt_trans (iblock_lt hj) (by decide))]
    rfl
  have hself : dinodeAt sb (setDinode sb s₁.disk i
      { D₁ i with size := .ofNat 32 ((c i).length + p.length) }) i =
      { D₁ i with size := .ofNat 32 ((c i).length + p.length) } := dinodeAt_setDinode_self _
  have hother : ∀ j < inodeSlots, j ≠ i → dinodeAt sb (setDinode sb s₁.disk i
      { D₁ i with size := .ofNat 32 ((c i).length + p.length) }) j = D₁ j := by
    intro j hj hji
    rw [dinodeAt_setDinode_of_ne _ hji, hold j hj, hf.other j hji]
  refine ⟨⟨ht₁.store (fun b hb => ?_) (fun j hj f hle => ?_) rfl rfl, fun j hj => ?_,
    fun j hj => ?_⟩, hf.inodes.1, hf.inodes.2, fun b hb hne => ?_⟩
  · have := iblock_lt hi
    have hmeta : sb.bmapstart < sb.nmeta := by decide
    exact setDinode_of_ne _ (by omega)
  · dsimp only
    by_cases hji : j = i
    · subst hji
      rw [hself]
      rfl
    · rw [hother j hj hji]
  · dsimp only
    by_cases hji : j = i
    · subst hji
      rw [hself, update_self, length_append]
      dsimp only
      rw [BitVec.toNat_ofNat, mod_eq_of_lt (lt_of_le_of_lt hfit (by decide))]
    · rw [hother j hj hji, hf.other j hji, update_of_ne hji]
      exact h.size j hj
  · dsimp only
    by_cases hji : j = i
    · subst hji
      rw [hself, hf.fields]
      exact h.type j hj
    · rw [hother j hj hji, hf.other j hji]
      exact h.type j hj
  · dsimp only
    rw [setDinode_of_ne _ (hne i hi)]
    exact hf.low b hb

end Mk

end Xv6Swap
