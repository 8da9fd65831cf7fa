import Mathlib.Algebra.BigOperators.Group.List.Basic
import Mathlib.Algebra.GroupWithZero.Nat
import Mathlib.Data.List.Pairwise
import Mathlib.Order.Nat
import Mathlib.Tactic.Common
import Xv6Swap.User.Umalloc

/-!
# The free list of the allocator

`Blocks base lo top m nodes live total` : the nodes of the free list, the first of which is `base`,
and the blocks in use, whose headers are `live`, are as they should be in the memory `m`.  The list
is circular and in increasing order, no two of its blocks touch, no two blocks overlap, all lie
between `lo` and `top`, and there are `total` units in them.

* `free_spec` : `free` moves a block from `live` to the list, and its loop ends;
* `take_spec` : `malloc`, having found a block, moves it or the end of it to `live`.
-/

namespace Xv6Swap.Umalloc

open Function List Nat

open Circular (Seg)

variable {E : Type} {m m' : ℕ → Header} {s : Heap E} {base lo top total a b c p q bp n k : ℕ}
  {nodes live P S L : List ℕ}

/-- The address behind the block at `a`. -/
def endOf (m : ℕ → Header) (a : ℕ) : ℕ := a + unit * (m a).size

/-- The blocks at `a` and `b` do not overlap. -/
def Apart (m : ℕ → Header) (a b : ℕ) : Prop := endOf m a ≤ b ∨ endOf m b ≤ a

instance : Std.Symm (Apart m) := ⟨fun _ _ h => h.symm⟩

/-- The units in the blocks of a list. -/
def sizes (m : ℕ → Header) (l : List ℕ) : ℕ := (l.map fun a => (m a).size).sum

theorem sizes_cons : sizes m (a :: P) = (m a).size + sizes m P := sum_cons

theorem sizes_append : sizes m (P ++ S) = sizes m P + sizes m S := by
  rw [sizes, sizes, sizes, map_append, sum_append_nat]

theorem sizes_congr (h : ∀ a ∈ P, (m' a).size = (m a).size) : sizes m' P = sizes m P := by
  rw [sizes, sizes, map_congr_left h]

/-- **The blocks of the allocator are in order.** -/
structure Blocks (base lo top : ℕ) (m : ℕ → Header) (nodes live : List ℕ) (total : ℕ) : Prop where
  head : nodes.head? = some base
  circle : Seg (fun p => (m p).ptr) base nodes base
  order : nodes.Pairwise fun a b => endOf m a < b
  base_size : (m base).size = 0
  base_lo : base + unit ≤ lo
  node : ∀ a ∈ nodes, a = base ∨ lo ≤ a ∧ 0 < (m a).size ∧ endOf m a ≤ top
  used : ∀ a ∈ live, lo ≤ a ∧ 0 < (m a).size ∧ endOf m a ≤ top
  apart : ∀ a ∈ nodes, ∀ b ∈ live, Apart m a b
  live_apart : live.Pairwise (Apart m)
  sum : sizes m nodes + sizes m live = total

namespace Blocks

variable (h : Blocks base lo top m nodes live total)
include h

theorem base_mem : base ∈ nodes := mem_of_mem_head? h.head

theorem sorted : nodes.Pairwise (· < ·) :=
  h.order.imp fun hab => lt_of_le_of_lt (le_add_right _ _) hab

theorem nodup : nodes.Nodup := h.sorted.imp fun hab => hab.ne

theorem base_le (ha : a ∈ nodes) : base ≤ a := by
  rcases h.node a ha with rfl | ⟨hb, -⟩
  · exact le_refl _
  · exact le_trans (le_add_right _ _) (h.base_lo.trans hb)

theorem base_lt (hb : b ∈ live) : base < b := by
  have h1 := h.base_lo
  have h2 := (h.used b hb).1
  simp only [unit] at h1
  omega

theorem ne_of_live (ha : a ∈ nodes) (hb : b ∈ live) : a ≠ b := by
  rintro rfl
  obtain ⟨-, h2, -⟩ := h.used a hb
  rcases h.node a ha with rfl | ⟨-, h3, -⟩
  · exact absurd (h.base_lt hb) (lt_irrefl _)
  · rcases h.apart a ha a hb with h4 | h4 <;> simp only [endOf, unit] at h4 <;> omega

end Blocks

/-- The place of an address in an increasing list that begins below it. -/
theorem exists_place (hs : (a :: L).Pairwise (· < ·)) (ha : a < bp) :
    ∃ P c S, a :: L = P ++ c :: S ∧ c < bp ∧ (∀ y ∈ P, y < c) ∧ ∀ y ∈ S, bp ≤ y := by
  induction L generalizing a with
  | nil => exact ⟨[], a, [], rfl, ha, nofun, nofun⟩
  | cons b L ih =>
    have hs' := pairwise_cons.1 hs
    by_cases hb : b < bp
    · obtain ⟨P, c, S, he, hc, hP, hS⟩ := ih hs'.2 hb
      refine ⟨a :: P, c, S, by rw [he, cons_append], hc, fun y hy => ?_, hS⟩
      rcases mem_cons.1 hy with rfl | hy
      · exact hs'.1 c (by rw [he]; simp)
      · exact hP y hy
    · refine ⟨[], a, b :: L, rfl, ha, nofun, fun y hy => ?_⟩
      have hbL := (pairwise_cons.1 hs'.2).1
      rcases mem_cons.1 hy with rfl | hy
      · omega
      · have := hbL y hy
        omega

/-- The only element that passes a test is found. -/
theorem find?_unique {α : Type} {l : List α} {t : α → Bool} {x : α} (hx : x ∈ l) (ht : t x = true)
    (hu : ∀ y ∈ l, t y = true → y = x) : l.find? t = some x := by
  cases hf : l.find? t with
  | none => exact absurd ht (by simpa using find?_eq_none.1 hf x hx)
  | some y => rw [hu y (mem_of_find?_eq_some hf) (find?_some hf)]

/-! ### The loop of free -/

/-- The block at `bp` belongs between `c` and the nodes of `S`. -/
structure Place (nodes : List ℕ) (bp : ℕ) (P : List ℕ) (c : ℕ) (S : List ℕ) : Prop where
  eq : nodes = P ++ c :: S
  lt : c < bp
  below : ∀ y ∈ P, y < c
  above : ∀ y ∈ S, bp < y

theorem Place.ne_of_below (hp : Place nodes bp P c S) (ha : a ∈ P) : a ≠ c ∧ a ≠ bp := by
  have h1 := hp.below a ha
  have h2 := hp.lt
  exact ⟨by omega, by omega⟩

theorem Place.ne_of_above (hp : Place nodes bp P c S) (ha : a ∈ S) : a ≠ c ∧ a ≠ bp := by
  have h1 := hp.above a ha
  have h2 := hp.lt
  exact ⟨by omega, by omega⟩

namespace Blocks

variable (h : Blocks base lo top m nodes (bp :: live) total)
include h

theorem exists_place : ∃ P c S, Place nodes bp P c S := by
  obtain ⟨L, hL⟩ : ∃ L, nodes = base :: L := by
    cases nodes with
    | nil => cases h.head
    | cons a L => exact ⟨L, by rw [Option.some.inj h.head]⟩
  have hlt := h.base_lt mem_cons_self
  have hsorted := h.sorted
  rw [hL] at hsorted
  obtain ⟨P, c, S, he, hc, hP, hS⟩ := Umalloc.exists_place hsorted hlt
  refine ⟨P, c, S, hL.trans he, hc, hP, fun y hy => lt_of_le_of_ne (hS y hy) ?_⟩
  rintro rfl
  exact h.ne_of_live (hL.trans he ▸ by simp [hy]) mem_cons_self rfl

/-- The successor of a node comes after it, or it is the first one. -/
theorem next_eq (hl : nodes = P ++ a :: S) :
    (∃ b L, S = b :: L ∧ (m a).ptr = b ∧ a < b) ∨ S = [] ∧ (m a).ptr = base := by
  have hcircle := h.circle
  have hsorted := h.sorted
  rw [hl] at hcircle hsorted
  cases S with
  | nil => exact .inr ⟨rfl, hcircle.next_of_mem⟩
  | cons b L =>
    refine .inl ⟨b, L, rfl, hcircle.next_of_mem, ?_⟩
    exact (pairwise_cons.1 (pairwise_append.1 hsorted).2.1).1 b (by simp)

/-- The loop of `free` stops at the place of the block and nowhere else. -/
theorem spot_iff (hp : Place nodes bp P c S) (ha : a ∈ nodes) : Spot m bp a = true ↔ a = c := by
  have hbase : base < bp := lt_of_le_of_lt (h.base_le (by rw [hp.eq]; simp)) hp.lt
  have hlt := hp.lt
  simp only [Spot, Bool.decide_or, Bool.decide_and, Bool.or_eq_true, Bool.and_eq_true,
    decide_eq_true_eq]
  constructor
  · intro hspot
    by_contra hne
    have hmem : a ∈ P ∨ a ∈ S := by
      rw [hp.eq] at ha
      simpa [hne] using ha
    obtain ⟨l₁, l₂, hl⟩ := append_of_mem ha
    rcases hmem with haP | haS
    · -- below the place the successor is at most the place
      have hac := hp.below a haP
      have hsorted := h.sorted
      have hc : c ∈ nodes := by rw [hp.eq]; simp
      rw [hl] at hsorted hc
      have hc₂ : c ∈ l₂ := by
        rcases mem_append.1 hc with hc | hc
        · have := (pairwise_append.1 hsorted).2.2 c hc a (by simp)
          omega
        · exact (mem_cons.1 hc).resolve_left (by omega)
      rcases h.next_eq hl with ⟨b, L, rfl, hb, hab⟩ | ⟨rfl, -⟩
      · have hbc : b ≤ c := by
          rcases mem_cons.1 hc₂ with rfl | hcL
          · exact le_refl _
          · have := (pairwise_cons.1 (pairwise_append.1 hsorted).2.1).2
            exact ((pairwise_cons.1 this).1 c hcL).le
        omega
      · cases hc₂
    · have := hp.above a haS
      rcases h.next_eq hl with ⟨b, L, -, hb, hab⟩ | ⟨-, hb⟩ <;> omega
  · rintro rfl
    rcases h.next_eq hp.eq with ⟨b, L, rfl, hb, -⟩ | ⟨-, hb⟩
    · have := hp.above b (by simp)
      omega
    · have := h.base_le ha
      omega

/-- **The loop of `free` ends**, at the place of the block, wherever it starts. -/
theorem seek_place (hp : Place nodes bp P c S) (hf : a ∈ nodes) (hk : nodes.length ≤ k) :
    Circular.seek (fun p => (m p).ptr) (Spot m bp) k a = some c := by
  obtain ⟨l₁, l₂, hl⟩ := append_of_mem hf
  have hcircle := h.circle
  rw [hl] at hcircle
  have hmem : ∀ y, y ∈ a :: (l₂ ++ l₁) ↔ y ∈ nodes := fun y => by
    rw [hl]; simp only [mem_cons, mem_append]; tauto
  have hseg : Seg (fun p => (m p).ptr) a (a :: (l₂ ++ l₁)) a := ⟨rfl, hcircle.rotate⟩
  refine hseg.seek_eq (find?_unique ((hmem c).2 (by rw [hp.eq]; simp)) ?_ fun y hy ht => ?_) ?_
  · exact (h.spot_iff hp (by rw [hp.eq]; simp)).2 rfl
  · exact (h.spot_iff hp ((hmem y).1 hy)).1 ht
  · rw [hl] at hk
    simp only [length_append, length_cons] at hk ⊢
    omega

end Blocks

/-! ### What free writes -/

/-- The header of `bp` once it is linked to the block at `q` above it, or merged with it. -/
def linkUp (m : ℕ → Header) (bp q : ℕ) : Header :=
  if endOf m bp = q then ⟨(m q).ptr, ((m bp).size + (m q).size) % 2 ^ 32⟩ else ⟨q, (m bp).size⟩

/-- The header of `p` once it is linked to `bp`, whose header is `b`, or merged with it. -/
def linkDown (m : ℕ → Header) (p bp : ℕ) (b : Header) : Header :=
  if endOf m p = bp then ⟨b.ptr, ((m p).size + b.size) % 2 ^ 32⟩ else ⟨bp, (m p).size⟩

/-- The memory after `free` has put `bp` behind `p`. -/
def freed (m : ℕ → Header) (p bp : ℕ) : ℕ → Header :=
  let b := linkUp m bp (m p).ptr
  update (update m bp b) p (linkDown m p bp b)

theorem ptr_update_size (m : ℕ → Header) (a n b : ℕ) :
    (update m a ⟨(m a).ptr, n⟩ b).ptr = (m b).ptr := by
  by_cases hb : b = a
  · rw [hb, update_self]
  · rw [update_of_ne hb]

theorem free_eq (hs : Circular.seek (fun p => (s.mem p).ptr) (Spot s.mem bp) k s.freep = some c)
    (hne : c ≠ bp) : free k (bp + unit) s =
      .ok ((), { s with mem := freed s.mem c bp, freep := c }) := by
  have hne' : bp ≠ c := hne.symm
  rw [free, Run.bind_read, Nat.add_sub_cancel, hs]
  by_cases hup : endOf s.mem bp = (s.mem c).ptr <;> by_cases hdown : endOf s.mem c = bp
  all_goals
    simp only [endOf] at hup hdown
    simp [size, ptr, setSize, setPtr, setFreep, hup, hdown, hne, hne', freed, linkUp, linkDown,
      endOf, ptr_update_size]

/-- What is above the place of `bp` once its header is `b`: the nodes of `L`. -/
structure Upper (base top : ℕ) (m : ℕ → Header) (live : List ℕ) (bp : ℕ) (S : List ℕ) (b : Header)
    (L : List ℕ) : Prop where
  seg : Seg (fun p => (m p).ptr) b.ptr L base
  sublist : L.Sublist S
  lt : ∀ z ∈ L, bp + unit * b.size < z
  sum : b.size + sizes m L = (m bp).size + sizes m S
  le : (m bp).size ≤ b.size
  top : bp + unit * b.size ≤ top
  apart : ∀ x ∈ live, bp + unit * b.size ≤ x ∨ endOf m x ≤ bp

namespace Blocks

variable (h : Blocks base lo top m nodes (bp :: live) total) (hp : Place nodes bp P c S)
  {b : Header}
include h hp

theorem sizes_place : sizes m P + (m c).size + sizes m S + (m bp).size + sizes m live = total := by
  have hsum := h.sum
  rw [hp.eq, sizes_append, sizes_cons, sizes_cons] at hsum
  omega

theorem seg_above : Seg (fun p => (m p).ptr) (m c).ptr S base := by
  have hcircle := h.circle
  rw [hp.eq] at hcircle
  exact hcircle.split.2

theorem order_above : (c :: S).Pairwise fun a b => endOf m a < b := by
  have horder := h.order
  rw [hp.eq] at horder
  exact (pairwise_append.1 horder).2.1

/-- The first half of `free` when `bp` touches the block above it. -/
theorem upper_merged (ht : total < 2 ^ 32) (hup : endOf m bp = (m c).ptr) :
    ∃ L, Upper base top m live bp S (linkUp m bp (m c).ptr) L := by
  have hbase := h.base_lt mem_cons_self
  obtain ⟨q, L, rfl, hq, -⟩ | ⟨-, hq⟩ := h.next_eq hp.eq
  swap
  · rw [hq] at hup
    simp only [endOf] at hup
    omega
  have hqn : q ∈ nodes := by rw [hp.eq]; simp
  have hseg := h.seg_above hp
  have hsum := h.sizes_place hp
  rw [hq] at hup hseg ⊢
  rw [sizes_cons] at hsum
  have hend : bp + unit * ((m bp).size + (m q).size) = endOf m q := by
    rw [Nat.mul_add, ← add_assoc]
    exact congrArg (· + unit * (m q).size) hup
  rw [linkUp, if_pos hup, mod_eq_of_lt (by omega)]
  refine ⟨L, hseg.2, .cons _ (.refl _), fun z hz => ?_, ?_, by simp only; omega, ?_, fun x hx => ?_⟩
  · simp only [hend]
    exact (pairwise_cons.1 (pairwise_cons.1 (h.order_above hp)).2).1 z hz
  · simp only [sizes_cons]; omega
  · simp only [hend]
    rcases h.node q hqn with rfl | ⟨-, -, htop⟩
    · have := hp.above q (by simp)
      omega
    · exact htop
  · -- a block in use does not fit between the two
    simp only [hend]
    obtain ⟨-, hxpos, -⟩ := h.used x (mem_cons_of_mem _ hx)
    have h1 := (pairwise_cons.1 h.live_apart).1 x hx
    have h2 := h.apart q hqn x (mem_cons_of_mem _ hx)
    simp only [Apart, endOf, unit] at h1 h2 hup ⊢
    omega

/-- The first half of `free` when `bp` does not touch the block above it. -/
theorem upper_linked (hup : endOf m bp ≠ (m c).ptr) :
    Upper base top m live bp S (linkUp m bp (m c).ptr) S := by
  obtain ⟨-, -, htop⟩ := h.used bp mem_cons_self
  rw [linkUp, if_neg hup]
  refine ⟨h.seg_above hp, .refl _, fun z hz => ?_, rfl, le_refl _, htop,
    (pairwise_cons.1 h.live_apart).1⟩
  obtain ⟨q, L, rfl, hq, -⟩ | ⟨rfl, -⟩ := h.next_eq hp.eq
  swap
  · cases hz
  have hlt : endOf m bp < q := by
    have hqbp := hp.above q (by simp)
    rcases h.apart q (by rw [hp.eq]; simp) bp mem_cons_self with h1 | h1
    · simp only [endOf] at h1; omega
    · rw [hq] at hup; omega
  rcases mem_cons.1 hz with rfl | hz
  · exact hlt
  · have := (pairwise_cons.1 (pairwise_cons.1 (h.order_above hp)).2).1 z hz
    simp only [endOf] at this hlt ⊢
    omega

/-- **The first half of `free`.** -/
theorem upper (ht : total < 2 ^ 32) :
    ∃ L, Upper base top m live bp S (linkUp m bp (m c).ptr) L := by
  by_cases hup : endOf m bp = (m c).ptr
  · exact h.upper_merged hp ht hup
  · exact ⟨S, h.upper_linked hp hup⟩

theorem ne_of_other (ha : a ∈ live) : a ≠ c ∧ a ≠ bp := by
  refine ⟨fun he => ?_, fun he => ?_⟩
  · exact h.ne_of_live (by rw [hp.eq]; simp) (mem_cons_of_mem _ ha) he.symm
  · obtain ⟨-, hpos, -⟩ := h.used a (mem_cons_of_mem _ ha)
    have := (pairwise_cons.1 h.live_apart).1 a ha
    subst he
    simp only [Apart, endOf, unit] at this
    omega

/-- **The list is put together again**: `c`, perhaps `bp`, and the nodes of `L` above them. -/
theorem rebuild {X : List ℕ} (u : Upper base top m live bp S b L)
    (hX : ∀ a ∈ X, a = bp) (hagree : ∀ a, a ≠ c ∧ a ≠ bp → m' a = m a)
    (hseg : Seg (fun p => (m' p).ptr) (m' c).ptr (X ++ L) base)
    (horder : (c :: X).Pairwise fun a b => endOf m' a < b)
    (hlt : ∀ a ∈ c :: X, ∀ z ∈ L, endOf m' a < z)
    (hsum : (m' c).size + sizes m' X = (m c).size + b.size)
    (hnode : ∀ a ∈ c :: X, a = base ∧ (m' a).size = 0 ∨ lo ≤ a ∧ 0 < (m' a).size ∧ endOf m' a ≤ top)
    (hapart : ∀ a ∈ c :: X, ∀ x ∈ live, endOf m' a ≤ x ∨ endOf m x ≤ a) :
    Blocks base lo top m' (P ++ c :: (X ++ L)) live total := by
  have hP : ∀ a ∈ P, m' a = m a := fun a ha => hagree a (hp.ne_of_below ha)
  have hL : ∀ a ∈ L, m' a = m a := fun a ha => hagree a (hp.ne_of_above (u.sublist.subset ha))
  have hlive : ∀ a ∈ live, m' a = m a := fun a ha => hagree a (h.ne_of_other hp ha)
  have horder₀ := h.order
  have hcircle := h.circle
  rw [hp.eq] at horder₀ hcircle
  obtain ⟨hPP, -, hPc⟩ := pairwise_append.1 horder₀
  have hLn : ∀ a ∈ L, a ∈ nodes := fun a ha => by
    rw [hp.eq]
    simp [u.sublist.subset ha]
  have hPn : ∀ a ∈ P, a ∈ nodes := fun a ha => by
    rw [hp.eq]
    simp [ha]
  have hmem : ∀ {a}, a ∈ P ++ c :: (X ++ L) → a ∈ c :: X ∨ (a ∈ nodes ∧ m' a = m a) := by
    intro a ha
    simp only [mem_append, mem_cons] at ha
    rcases ha with ha | ha | ha | ha
    · exact .inr ⟨hPn a ha, hP a ha⟩
    · exact .inl (by simp [ha])
    · exact .inl (by simp [ha])
    · exact .inr ⟨hLn a ha, hL a ha⟩
  have hcX : ∀ a ∈ c :: X, c ≤ a := fun a ha => by
    rcases mem_cons.1 ha with rfl | ha
    · exact le_refl _
    · rw [hX a ha]
      exact hp.lt.le
  refine ⟨?_, ?_, ?_, ?_, h.base_lo, fun a ha => ?_, fun a ha => ?_, fun a ha x hx => ?_, ?_, ?_⟩
  · have := h.head
    rw [hp.eq] at this
    cases P <;> exact this
  · exact (hcircle.split.1.congr fun a ha => by rw [hP a ha]).join hseg
  · refine pairwise_append.2 ⟨hPP.imp_of_mem fun ha _ hab => ?_, ?_, fun y hy z hz => ?_⟩
    · rw [endOf, hP _ ha]
      exact hab
    · rw [← cons_append]
      refine pairwise_append.2 ⟨horder, ?_, hlt⟩
      refine ((pairwise_cons.1 (h.order_above hp)).2.sublist u.sublist).imp_of_mem ?_
      intro a b ha _ hab
      rw [endOf, hL a ha]
      exact hab
    · rw [endOf, hP y hy]
      have hyc := hPc y hy c (by simp)
      rw [← cons_append] at hz
      rcases mem_append.1 hz with hz | hz
      · exact lt_of_lt_of_le hyc (hcX z hz)
      · exact hPc y hy z (mem_cons_of_mem _ (u.sublist.subset hz))
  · by_cases hbc : base = c
    · rcases hnode c (by simp) with ⟨-, hc⟩ | ⟨hc, -⟩
      · rw [hbc]
        exact hc
      · have := h.base_lo
        simp only [unit] at this
        omega
    · rw [hagree base ⟨hbc, (h.base_lt mem_cons_self).ne⟩]
      exact h.base_size
  · rcases hmem ha with ha | ⟨ha, he⟩
    · exact (hnode a ha).imp_left And.left
    · rw [endOf, he]
      exact h.node a ha
  · rw [endOf, hlive a ha]
    exact h.used a (mem_cons_of_mem _ ha)
  · rw [Apart, endOf, endOf, hlive x hx]
    rcases hmem ha with ha | ⟨ha, he⟩
    · exact hapart a ha x hx
    · rw [he]
      exact h.apart a ha x (mem_cons_of_mem _ hx)
  · refine (pairwise_cons.1 h.live_apart).2.imp_of_mem fun ha hb hab => ?_
    rw [Apart, endOf, endOf, hlive _ ha, hlive _ hb]
    exact hab
  · have h1 := h.sizes_place hp
    have h2 := u.sum
    rw [sizes_append, sizes_cons, sizes_append, sizes_congr fun a ha => congrArg _ (hP a ha),
      sizes_congr fun a ha => congrArg _ (hL a ha),
      sizes_congr fun a ha => congrArg _ (hlive a ha)]
    omega

theorem end_place_le : endOf m c ≤ bp := by
  have hlt := hp.lt
  rcases h.apart c (by rw [hp.eq]; simp) bp mem_cons_self with h1 | h1
  · exact h1
  · simp only [endOf] at h1; omega

/-- The second half of `free` when `bp` touches the block below it. -/
theorem lower_merged (u : Upper base top m live bp S b L) (hdown : endOf m c = bp)
    (hagree : ∀ a, a ≠ c ∧ a ≠ bp → m' a = m a) (hc : m' c = ⟨b.ptr, (m c).size + b.size⟩) :
    Blocks base lo top m' (P ++ c :: L) live total := by
  have hcn : c ∈ nodes := by rw [hp.eq]; simp
  have hend : endOf m' c = bp + unit * b.size := by
    rw [endOf, hc, ← hdown, endOf, Nat.mul_add, add_assoc]
  refine h.rebuild hp u (X := []) nofun hagree ?_ (pairwise_singleton _ _) ?_ ?_ ?_ ?_
  · rw [hc]
    exact u.seg.congr fun a ha => by rw [hagree a (hp.ne_of_above (u.sublist.subset ha))]
  · intro a ha z hz
    rw [mem_singleton.1 ha, hend]
    exact u.lt z hz
  · rw [hc]
    rfl
  · intro a ha
    rw [mem_singleton.1 ha, hend, hc]
    rcases h.node c hcn with hb | ⟨h1, h2, -⟩
    · have h1 := h.base_lt mem_cons_self
      have h2 := h.base_size
      rw [← hb] at h1 h2
      rw [endOf, h2] at hdown
      omega
    · exact .inr ⟨h1, Nat.add_pos_left h2 _, u.top⟩
  · intro a ha x hx
    rw [mem_singleton.1 ha, hend]
    -- a block in use does not fit between the two
    obtain ⟨-, hpos, -⟩ := h.used x (mem_cons_of_mem _ hx)
    have h1 := u.apart x hx
    have h2 := h.apart c hcn x (mem_cons_of_mem _ hx)
    rw [Apart, hdown] at h2
    simp only [endOf, unit] at h1 h2 ⊢
    omega

/-- The second half of `free` when `bp` does not touch the block below it. -/
theorem lower_linked (u : Upper base top m live bp S b L) (hdown : endOf m c ≠ bp)
    (hagree : ∀ a, a ≠ c ∧ a ≠ bp → m' a = m a) (hc : m' c = ⟨bp, (m c).size⟩) (hbp : m' bp = b) :
    Blocks base lo top m' (P ++ c :: bp :: L) live total := by
  have hcn : c ∈ nodes := by rw [hp.eq]; simp
  obtain ⟨hbase, hpos, -⟩ := h.used bp mem_cons_self
  have hlt : endOf m c < bp := lt_of_le_of_ne (h.end_place_le hp) hdown
  have hendc : endOf m' c = endOf m c := by rw [endOf, hc]; rfl
  have hendb : endOf m' bp = bp + unit * b.size := by rw [endOf, hbp]
  have hcases : ∀ {a}, a ∈ [c, bp] → a = c ∨ a = bp := by simp
  refine h.rebuild hp u (X := [bp]) (by simp) hagree ?_ ?_ ?_ ?_ ?_ ?_
  · rw [hc]
    refine ⟨rfl, ?_⟩
    simp only [hbp]
    exact u.seg.congr fun a ha => by rw [hagree a (hp.ne_of_above (u.sublist.subset ha))]
  · rw [pairwise_pair, hendc]
    exact hlt
  · intro a ha z hz
    have hz' := u.lt z hz
    rcases hcases ha with rfl | rfl
    · rw [hendc]
      omega
    · rw [hendb]
      exact hz'
  · rw [hc, sizes, map_singleton, sum_singleton, hbp]
  · intro a ha
    rcases hcases ha with rfl | rfl
    · rw [hendc, hc]
      rcases h.node a hcn with rfl | hnode
      · exact .inl ⟨rfl, h.base_size⟩
      · exact .inr hnode
    · rw [hendb, hbp]
      exact .inr ⟨hbase, lt_of_lt_of_le hpos u.le, u.top⟩
  · intro a ha x hx
    rcases hcases ha with rfl | rfl
    · rw [hendc]
      exact h.apart a hcn x (mem_cons_of_mem _ hx)
    · rw [hendb]
      exact u.apart x hx

/-- **`free` puts the block on the list**: some block of the list is now as large as it was. -/
theorem freed (ht : total < 2 ^ 32) :
    ∃ L, Blocks base lo top (freed m c bp) (P ++ c :: L) live total ∧
    (∀ a ∈ live, Umalloc.freed m c bp a = m a) ∧ L.length ≤ S.length + 1 ∧
    ∃ y ∈ P ++ c :: L, (m bp).size ≤ (Umalloc.freed m c bp y).size := by
  obtain ⟨L, u⟩ := h.upper hp ht
  have hne : bp ≠ c := hp.lt.ne'
  have hagree : ∀ a, a ≠ c ∧ a ≠ bp → Umalloc.freed m c bp a = m a := fun a ha => by
    rw [Umalloc.freed, update_of_ne ha.1, update_of_ne ha.2]
  have hlive : ∀ a ∈ live, Umalloc.freed m c bp a = m a := fun a ha =>
    hagree a (h.ne_of_other hp ha)
  have hc : Umalloc.freed m c bp c = linkDown m c bp (linkUp m bp (m c).ptr) := by
    rw [Umalloc.freed, update_self]
  have hbp : Umalloc.freed m c bp bp = linkUp m bp (m c).ptr := by
    rw [Umalloc.freed, update_of_ne hne, update_self]
  have hle := u.le
  have hsum := h.sizes_place hp
  have hsum' := u.sum
  by_cases hdown : endOf m c = bp
  · rw [linkDown, if_pos hdown, mod_eq_of_lt (by omega)] at hc
    refine ⟨L, h.lower_merged hp u hdown hagree hc, hlive, le_succ_of_le u.sublist.length_le, c,
      by simp, ?_⟩
    rw [hc]
    exact le_trans hle (le_add_left _ _)
  · rw [linkDown, if_neg hdown] at hc
    refine ⟨bp :: L, h.lower_linked hp u hdown hagree hc hbp, hlive,
      succ_le_succ u.sublist.length_le, bp, by simp, ?_⟩
    rw [hbp]
    exact hle

end Blocks

/-- **`free`** of a block in use: its loop ends, and the block is on the list. -/
theorem free_spec (h : Blocks base lo top s.mem nodes (bp :: live) total) (ht : total < 2 ^ 32)
    (hf : s.freep ∈ nodes) (hk : nodes.length ≤ k) :
    ∃ m' c nodes', free k (bp + unit) s = .ok ((), { s with mem := m', freep := c }) ∧
      Blocks base lo top m' nodes' live total ∧ c ∈ nodes' ∧ (∀ a ∈ live, m' a = s.mem a) ∧
      nodes'.length ≤ nodes.length + 1 ∧ ∃ y ∈ nodes', (s.mem bp).size ≤ (m' y).size := by
  obtain ⟨P, c, S, hp⟩ := h.exists_place
  obtain ⟨L, h', hlive, hlen, hlarge⟩ := h.freed hp ht
  refine ⟨_, c, _, free_eq (h.seek_place hp hf hk) hp.lt.ne, h', by simp, hlive, ?_, hlarge⟩
  rw [hp.eq]
  simp only [length_append, length_cons]
  omega

/-! ### What malloc takes -/

namespace Blocks

variable (h : Blocks base lo top m nodes live total)
include h

theorem next_mem (ha : a ∈ nodes) : (m a).ptr ∈ nodes := by
  by_cases hb : (m a).ptr = base
  · rw [hb]
    exact h.base_mem
  · obtain ⟨l₁, l₂, hl⟩ := h.circle.exists_pair ha hb
    rw [hl]
    simp

theorem size_le (ha : a ∈ nodes) : (m a).size ≤ total := by
  have hsum := h.sum
  obtain ⟨l₁, l₂, rfl⟩ := append_of_mem ha
  rw [sizes_append, sizes_cons] at hsum
  omega

/-- **A whole block** is taken off the list. -/
theorem taken_whole (hl : nodes = P ++ a :: p :: S) (hpos : 0 < (m p).size) :
    Blocks base lo top (update m a ⟨(m p).ptr, (m a).size⟩) (P ++ a :: S) (p :: live) total := by
  obtain ⟨m', hm'⟩ : ∃ m', m' = update m a ⟨(m p).ptr, (m a).size⟩ := ⟨_, rfl⟩
  rw [← hm']
  have hsize : ∀ x, (m' x).size = (m x).size := by
    intro x
    rw [hm']
    by_cases hx : x = a
    · rw [hx, update_self]
    · rw [update_of_ne hx]
  have hend : ∀ x, endOf m' x = endOf m x := fun x => by rw [endOf, hsize, endOf]
  have hptr : ∀ x ≠ a, (m' x).ptr = (m x).ptr := fun x hx => by
    rw [hm', update_of_ne hx]
  have hsub : (P ++ a :: S).Sublist nodes := by
    rw [hl]
    exact (Sublist.refl P).append (.cons_cons _ (.cons _ (.refl _)))
  have hnodup := h.nodup
  have hcircle := h.circle
  have horder := h.order
  have hsum := h.sum
  rw [hl] at hnodup hcircle horder hsum
  obtain ⟨hPa, haS⟩ : (∀ x ∈ P, x ≠ a) ∧ ∀ x ∈ S, x ≠ a := by
    obtain ⟨-, h2, h3⟩ := nodup_append.1 hnodup
    refine ⟨fun x hx he => h3 x hx a (by simp) he, fun x hx he => ?_⟩
    exact (nodup_cons.1 h2).1 (by rw [← he]; simp [hx])
  have hpn : p ∈ nodes := by rw [hl]; simp
  have hpbase : p ≠ base := by
    rintro rfl
    have := h.base_size
    omega
  have hp := (h.node p hpn).resolve_left hpbase
  refine ⟨?_, ?_, ?_, ?_, h.base_lo, fun x hx => ?_, fun x hx => ?_, fun x hx y hy => ?_, ?_, ?_⟩
  · have := h.head
    rw [hl] at this
    cases P <;> exact this
  · obtain ⟨h1, -, h2⟩ := hcircle.split
    refine (h1.congr fun x hx => hptr x (hPa x hx)).join ?_
    rw [hm', update_self, ← hm']
    exact h2.congr fun x hx => hptr x (haS x hx)
  · simp only [hend]
    exact h.order.sublist hsub
  · rw [hsize]
    exact h.base_size
  · rw [hsize, hend]
    exact h.node x (hsub.subset hx)
  · rw [hsize, hend]
    rcases mem_cons.1 hx with rfl | hx
    · exact hp
    · exact h.used x hx
  · rw [Apart, hend, hend]
    rcases mem_cons.1 hy with rfl | hy
    · -- the blocks below and above the one that is taken
      rcases mem_append.1 hx with hx | hx
      · exact .inl ((pairwise_append.1 horder).2.2 x hx y (by simp)).le
      · have h2 := pairwise_cons.1 (pairwise_append.1 horder).2.1
        rcases mem_cons.1 hx with rfl | hx
        · exact .inl (h2.1 y (by simp)).le
        · exact .inr ((pairwise_cons.1 h2.2).1 x hx).le
    · exact h.apart x (hsub.subset hx) y hy
  · rw [show Apart m' = Apart m from funext₂ fun x y => by rw [Apart, hend, hend, Apart]]
    exact pairwise_cons.2 ⟨fun x hx => h.apart p hpn x hx, h.live_apart⟩
  · have hs : ∀ l : List ℕ, sizes m' l = sizes m l := fun l => sizes_congr fun x _ => hsize x
    rw [sizes_append, sizes_cons, sizes_cons] at hsum
    rw [hs, hs, sizes_append, sizes_cons, sizes_cons]
    omega

/-- No block begins inside the block at `p`. -/
theorem not_inside (hp : p ∈ nodes) (h1 : p < q) (h2 : q < endOf m p) :
    (∀ x ∈ nodes, x ≠ q) ∧ ∀ x ∈ live, x ≠ q := by
  refine ⟨?_, ?_⟩
  · rintro x hx rfl
    obtain ⟨l₁, l₂, rfl⟩ := append_of_mem hp
    obtain ⟨-, h4, h5⟩ := pairwise_append.1 h.order
    rcases mem_append.1 hx with hx | hx
    · have := h5 x hx p (by simp)
      simp only [endOf] at this
      omega
    · rcases mem_cons.1 hx with rfl | hx
      · omega
      · have := (pairwise_cons.1 h4).1 x hx
        omega
  · rintro x hx rfl
    obtain ⟨-, hpos, -⟩ := h.used x hx
    have := h.apart p hp x hx
    simp only [Apart, endOf] at this h2
    omega

/-- **The end of a block** is taken. -/
theorem taken_end (hp : p ∈ nodes) (hn : 0 < n) (hlt : n < (m p).size)
    (hq : q = p + unit * ((m p).size - n)) :
    Blocks base lo top (update (update m p ⟨(m p).ptr, (m p).size - n⟩) q
      ⟨(m q).ptr, n⟩) nodes (q :: live) total := by
  obtain ⟨m', hm'⟩ : ∃ m', m' = update (update m p ⟨(m p).ptr, (m p).size - n⟩) q
      ⟨(m q).ptr, n⟩ := ⟨_, rfl⟩
  rw [← hm']
  have hpq : p < q := by simp only [unit] at hq; omega
  have hendp : endOf m p = q + unit * n := by simp only [endOf, unit] at hq ⊢; omega
  have hqend : q < endOf m p := by rw [hendp]; simp only [unit]; omega
  obtain ⟨hnode, hlive⟩ := h.not_inside hp hpq hqend
  have hother : ∀ x ≠ p, x ≠ q → m' x = m x := fun x h1 h2 => by
    rw [hm', update_of_ne h2, update_of_ne h1]
  have hp' : m' p = ⟨(m p).ptr, (m p).size - n⟩ := by
    rw [hm', update_of_ne hpq.ne, update_self]
  have hq' : m' q = ⟨(m q).ptr, n⟩ := by rw [hm', update_self]
  have hl : ∀ x ∈ live, m' x = m x := fun x hx =>
    hother x (h.ne_of_live hp hx).symm (hlive x hx)
  have hep : endOf m' p = q := by rw [endOf, hp', hq]
  have heq : endOf m' q = endOf m p := by rw [endOf, hq', hendp]
  have hel : ∀ x ∈ live, endOf m' x = endOf m x := fun x hx => by rw [endOf, hl x hx, endOf]
  -- the blocks of the list only shrink
  have hle : ∀ x ∈ nodes, endOf m' x ≤ endOf m x ∧ (x = p ∨ m' x = m x) := by
    intro x hx
    by_cases hxp : x = p
    · rw [hxp, hep]
      exact ⟨hqend.le, .inl rfl⟩
    · rw [endOf, hother x hxp (hnode x hx)]
      exact ⟨le_refl _, .inr rfl⟩
  have hpbase : p ≠ base := by
    rintro rfl
    have := h.base_size
    omega
  obtain ⟨hb, -, htop⟩ := (h.node p hp).resolve_left hpbase
  refine ⟨h.head, ?_, ?_, ?_, h.base_lo, fun x hx => ?_, fun x hx => ?_,
    fun x hx y hy => ?_, ?_, ?_⟩
  · refine h.circle.congr fun x hx => ?_
    rcases (hle x hx).2 with rfl | he
    · rw [hp']
    · rw [he]
  · exact h.order.imp_of_mem fun hx _ hxy => lt_of_le_of_lt (hle _ hx).1 hxy
  · rw [hother base hpbase.symm (hnode base h.base_mem)]
    exact h.base_size
  · rcases (hle x hx).2 with rfl | he
    · rw [hep, hp']
      exact .inr ⟨hb, Nat.sub_pos_of_lt hlt, hqend.le.trans htop⟩
    · rw [endOf, he]
      exact h.node x hx
  · rcases mem_cons.1 hx with rfl | hx
    · rw [heq, hq']
      exact ⟨by omega, hn, htop⟩
    · rw [hel x hx, hl x hx]
      exact h.used x hx
  · rcases mem_cons.1 hy with rfl | hy
    · rw [Apart, heq]
      by_cases hxp : x = p
      · exact .inl (by rw [hxp, hep])
      · rw [endOf, hother x hxp (hnode x hx)]
        obtain ⟨l₁, l₂, rfl⟩ := append_of_mem hp
        obtain ⟨-, h4, h5⟩ := pairwise_append.1 h.order
        rcases mem_append.1 hx with hx | hx
        · exact .inl ((h5 x hx p (by simp)).le.trans hpq.le)
        · exact .inr ((pairwise_cons.1 h4).1 x ((mem_cons.1 hx).resolve_left hxp)).le
    · rw [Apart, hel y hy]
      exact (h.apart x hx y hy).imp_left fun hxy => (hle x hx).1.trans hxy
  · refine pairwise_cons.2 ⟨fun x hx => ?_, h.live_apart.imp_of_mem fun hx hy hxy => ?_⟩
    · rw [Apart, heq, hel x hx]
      exact (h.apart p hp x hx).imp_right fun hxp => hxp.trans hpq.le
    · rw [Apart, hel _ hx, hel _ hy]
      exact hxy
  · have hsum := h.sum
    have hnodup := h.nodup
    obtain ⟨l₁, l₂, rfl⟩ := append_of_mem hp
    obtain ⟨-, hn2, hn3⟩ := nodup_append.1 hnodup
    have h1 : sizes m' l₁ = sizes m l₁ := sizes_congr fun x hx => by
      rw [hother x (hn3 x hx p (by simp)) (hnode x (by simp [hx]))]
    have h2 : sizes m' l₂ = sizes m l₂ := sizes_congr fun x hx => by
      refine congrArg _ (hother x ?_ (hnode x (by simp [hx])))
      rintro rfl
      exact (nodup_cons.1 hn2).1 hx
    rw [sizes_append, sizes_cons] at hsum ⊢
    rw [sizes_cons, h1, h2, hp', hq', sizes_congr fun x hx => congrArg _ (hl x hx)]
    simp only
    omega

end Blocks

/-- **`malloc`, having found a block behind `a`**, takes it or the end of it. -/
theorem take_spec (h : Blocks base lo top s.mem nodes live total) (ht : total < 2 ^ 32)
    (ha : a ∈ nodes) (hn : 0 < n) (hfit : n ≤ (s.mem (s.mem a).ptr).size) :
    ∃ m' q nodes', take n a (s.mem a).ptr s = .ok (q + unit, { s with mem := m', freep := a }) ∧
      Blocks base lo top m' nodes' (q :: live) total ∧ a ∈ nodes' ∧ (m' q).size = n ∧
      ∀ x ∈ live, m' x = s.mem x := by
  have hp := h.next_mem ha
  have hsize := h.size_le hp
  have hpbase : (s.mem a).ptr ≠ base := by
    intro he
    rw [he, h.base_size] at hfit
    omega
  obtain ⟨P, S, hl⟩ := h.circle.exists_pair ha hpbase
  generalize hpe : (s.mem a).ptr = p at *
  by_cases hwhole : (s.mem p).size = n
  · have h' := h.taken_whole hl (by omega)
    refine ⟨_, p, _, ?_, h', by simp, ?_, fun x hx => ?_⟩
    · simp [take, size, ptr, setPtr, setFreep, hwhole]
    · rw [← hwhole]
      by_cases hpa : p = a
      · rw [hpa, update_self]
      · rw [update_of_ne hpa]
    · rw [update_of_ne (h.ne_of_live ha hx).symm]
  · have h' := h.taken_end hp hn (by omega) rfl
    refine ⟨_, _, nodes, ?_, h', ha, ?_, fun x hx => ?_⟩
    · have h1 : ((s.mem p).size - n) % 4294967296 = (s.mem p).size - n :=
        mod_eq_of_lt (by omega)
      have h2 : n % 4294967296 = n := mod_eq_of_lt (by omega)
      simp [take, size, setSize, setFreep, hwhole, h1, h2, ptr_update_size]
    · rw [update_self]
    · have hin := (h.not_inside hp (q := p + unit * ((s.mem p).size - n))
        (by simp only [unit]; omega) (by simp only [endOf, unit]; omega)).2 x hx
      rw [update_of_ne hin, update_of_ne (h.ne_of_live hp hx).symm]

end Xv6Swap.Umalloc
