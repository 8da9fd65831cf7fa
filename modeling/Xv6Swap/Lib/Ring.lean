import Mathlib.Data.List.Chain
import Mathlib.Data.List.Nodup
import Mathlib.Logic.Function.Basic
import Mathlib.Tactic.SplitIfs
import Mathlib.Tactic.Push

/-!
# Circular doubly linked lists

Nodes carry a `next` and a `prev` pointer, and two further pointers name the head and the tail of
the list.  `IsRing next prev head tail l` says that these pointers represent the list `l`: its
nodes are distinct, consecutive nodes are linked both ways, the last is linked to the first, and
a node that is not on the list has null pointers.

The list is changed in three ways:

* `IsRing.add_nil`, `IsRing.add` : a node is added at the tail;
* `IsRing.rotate` : the head becomes the tail;
* `IsRing.remove_single`, `IsRing.remove` : a node is unlinked, wherever it is.
-/

namespace Xv6Swap

open Function List Option

variable {ι : Type*} {next prev : ι → Option ι} {head tail : Option ι} {l l₁ l₂ : List ι}
  {a b x y : ι}

/-- `a` and `b` are linked both ways. -/
def Linked (next prev : ι → Option ι) (a b : ι) : Prop := next a = some b ∧ prev b = some a

/-- Consecutive nodes of `l` are linked, and the last is linked to the first. -/
structure Cyclic (next prev : ι → Option ι) (l : List ι) : Prop where
  chain : l.IsChain (Linked next prev)
  close : ∀ a ∈ l.getLast?, ∀ b ∈ l.head?, Linked next prev a b

/-- The pointers represent the circular list `l`. -/
structure IsRing (next prev : ι → Option ι) (head tail : Option ι) (l : List ι) : Prop where
  nodup : l.Nodup
  cyclic : Cyclic next prev l
  head_eq : head = l.head?
  tail_eq : tail = l.getLast?
  off : ∀ x, x ∉ l → next x = none ∧ prev x = none

namespace Cyclic

theorem cons_iff_append : Cyclic next prev (a :: l) ↔ Cyclic next prev (l ++ [a]) := by
  cases l with
  | nil => simp
  | cons b l =>
    constructor
    · intro h
      obtain ⟨hab, hbl⟩ := isChain_cons_cons.1 h.chain
      refine ⟨?_, ?_⟩
      · refine isChain_append.2 ⟨hbl, isChain_singleton a, fun x hx y hy => ?_⟩
        obtain rfl : a = y := by simpa using hy
        exact h.close x (by simpa using hx) a (by simp)
      · intro x hx y hy
        obtain rfl : a = x := by rw [getLast?_concat] at hx; simpa using hx
        obtain rfl : b = y := by simpa using hy
        exact hab
    · intro h
      obtain ⟨hbl, -, hlast⟩ := isChain_append.1 h.chain
      refine ⟨isChain_cons_cons.2 ⟨?_, hbl⟩, ?_⟩
      · exact h.close a (by rw [getLast?_concat]; rfl) b (by simp)
      · intro x hx y hy
        obtain rfl : a = y := by simpa using hy
        exact hlast x (by simpa using hx) a (by simp)

theorem append_comm : Cyclic next prev (l₁ ++ l₂) ↔ Cyclic next prev (l₂ ++ l₁) := by
  induction l₁ generalizing l₂ with
  | nil => simp
  | cons a l₁ ih =>
    rw [cons_append, cons_iff_append, append_assoc, ih, append_assoc]
    rfl

end Cyclic

namespace IsRing

section

variable (h : IsRing next prev head tail l)
include h

theorem head_eq_none_iff : head = none ↔ l = [] := by
  rw [h.head_eq, head?_eq_none_iff]

theorem next_mem (hx : x ∈ l) : ∃ y ∈ l, next x = some y := by
  obtain ⟨l₁, l₂, rfl⟩ := append_of_mem hx
  have hc : Cyclic next prev (x :: (l₂ ++ l₁)) := Cyclic.append_comm.1 h.cyclic
  cases hl : l₂ ++ l₁ with
  | nil =>
    rw [hl] at hc
    exact ⟨x, by simp, (hc.close x (by simp) x (by simp)).1⟩
  | cons y t =>
    rw [hl] at hc
    have hy : y ∈ l₂ ++ l₁ := by rw [hl]; exact mem_cons_self
    exact ⟨y, by simp only [mem_append, mem_cons] at hy ⊢; tauto,
      (isChain_cons_cons.1 hc.chain).1.1⟩

theorem prev_mem (hx : x ∈ l) : ∃ y ∈ l, prev x = some y := by
  obtain ⟨l₁, l₂, rfl⟩ := append_of_mem hx
  have hc : Cyclic next prev (x :: (l₂ ++ l₁)) := Cyclic.append_comm.1 h.cyclic
  obtain ⟨y, hy⟩ : ∃ y, (x :: (l₂ ++ l₁)).getLast? = some y := ⟨_, getLast?_cons⟩
  have hmem : y ∈ x :: (l₂ ++ l₁) := mem_of_getLast? hy
  exact ⟨y, by simp only [mem_append, mem_cons] at hmem ⊢; tauto,
    (hc.close y hy x (by simp)).2⟩

end

/-- A list whose first and last nodes are the same has no other. -/
theorem eq_singleton (h : IsRing next prev (some x) (some x) l) : l = [x] := by
  have hhead := h.head_eq
  have hlast := h.tail_eq
  cases l with
  | nil => cases hhead
  | cons a t =>
    obtain rfl : x = a := by simpa using hhead
    cases t with
    | nil => rfl
    | cons b t =>
      have hmem : x ∈ b :: t := mem_of_getLast? (by simpa using hlast.symm)
      exact absurd hmem (nodup_cons.1 h.nodup).1

theorem rotate (h : IsRing next prev head tail (a :: l)) :
    IsRing next prev (next a) (some a) (l ++ [a]) := by
  have hnext : next a = (l ++ [a]).head? := by
    cases l with
    | nil => simpa using (h.cyclic.close a (by simp) a (by simp)).1
    | cons b l => simpa using (isChain_cons_cons.1 h.cyclic.chain).1.1
  refine ⟨?_, Cyclic.cons_iff_append.1 h.cyclic, hnext, by simp, fun x hx => h.off x ?_⟩
  · exact (perm_append_singleton a l).nodup_iff.2 h.nodup
  · simpa [or_comm] using hx

section Update

variable [DecidableEq ι]

theorem add_nil (h : IsRing next prev head tail []) (x : ι) :
    IsRing (update next x (some x)) (update prev x (some x)) (some x) (some x) [x] := by
  refine ⟨nodup_singleton x, ⟨isChain_singleton x, ?_⟩, rfl, rfl, fun y hy => ?_⟩
  · intro a ha b hb
    obtain rfl : x = a := by simpa using ha
    obtain rfl : x = b := by simpa using hb
    exact ⟨update_self .., update_self ..⟩
  · have hyx : y ≠ x := by simpa using hy
    rw [update_of_ne hyx, update_of_ne hyx]
    exact h.off y (by simp)

theorem add {t : ι} (h : IsRing next prev (some a) (some t) l) (hx : x ∉ l) :
    IsRing (update (update next x (some a)) t (some x))
      (update (update prev x (some t)) a (some x)) (some a) (some x) (l ++ [x]) := by
  have ha : a ∈ l := mem_of_mem_head? h.head_eq.symm
  have ht : t ∈ l := mem_of_mem_getLast? h.tail_eq.symm
  have hxa : x ≠ a := fun he => hx (he ▸ ha)
  have hxt : x ≠ t := fun he => hx (he ▸ ht)
  have hnd := h.nodup
  -- the node before the last keeps its `next`, the node after the first its `prev`
  have hchain : l.IsChain (Linked (update (update next x (some a)) t (some x))
      (update (update prev x (some t)) a (some x))) := by
    rw [isChain_iff_getElem]
    intro i hi
    obtain ⟨h1, h2⟩ := isChain_iff_getElem.1 h.cyclic.chain i hi
    have hit : l[i] ≠ t := by
      have hlast := h.tail_eq
      rw [getLast?_eq_getElem?, getElem?_eq_getElem (by omega)] at hlast
      intro he
      rw [some.inj hlast] at he
      have := (hnd.getElem_inj_iff).1 he
      omega
    have hia : l[i + 1] ≠ a := by
      have hhead := h.head_eq
      rw [head?_eq_getElem?, getElem?_eq_getElem (by omega)] at hhead
      intro he
      rw [some.inj hhead] at he
      have := (hnd.getElem_inj_iff).1 he
      omega
    have hix : l[i] ≠ x := fun he => hx (he ▸ getElem_mem _)
    have hix' : l[i + 1] ≠ x := fun he => hx (he ▸ getElem_mem _)
    exact ⟨by rw [update_of_ne hit, update_of_ne hix]; exact h1,
      by rw [update_of_ne hia, update_of_ne hix']; exact h2⟩
  refine ⟨?_, ⟨?_, ?_⟩, ?_, by simp, fun y hy => ?_⟩
  · exact (perm_append_singleton x l).nodup_iff.2 (nodup_cons.2 ⟨hx, hnd⟩)
  · refine isChain_append.2 ⟨hchain, isChain_singleton x, fun y hy z hz => ?_⟩
    obtain rfl : x = z := by simpa using hz
    obtain rfl : t = y := by rw [← h.tail_eq] at hy; simpa using hy
    exact ⟨update_self .., by
      rw [update_of_ne hxa, update_self]⟩
  · intro y hy z hz
    obtain rfl : x = y := by simpa using hy
    obtain rfl : a = z := by
      rw [head?_append, ← h.head_eq] at hz; simpa using hz
    exact ⟨by rw [update_of_ne hxt, update_self], update_self ..⟩
  · rw [head?_append, ← h.head_eq]; rfl
  · rw [mem_append, mem_singleton, not_or] at hy
    have hyt : y ≠ t := fun he => hy.1 (he ▸ ht)
    have hya : y ≠ a := fun he => hy.1 (he ▸ ha)
    rw [update_of_ne hyt, update_of_ne hya, update_of_ne hy.2, update_of_ne hy.2]
    exact h.off y hy.1

/-- A node other than the only one is unlinked: its neighbours `p` and `n` are linked to each
other. -/
theorem remove {p n : ι} (h : IsRing next prev head tail l) (hx : x ∈ l) (hl : l ≠ [x])
    (hn : next x = some n) (hp : prev x = some p) : IsRing (update (update next p (some n)) x none)
      (update (update prev n (some p)) x none)
      (if head = some x then some n else head) (if tail = some x then some p else tail)
      (l.erase x) := by
  obtain ⟨l₁, l₂, rfl⟩ := append_of_mem hx
  have hnd := h.nodup
  have hx₁ : x ∉ l₁ := fun h₁ => (disjoint_of_nodup_append hnd) h₁ mem_cons_self
  have hx₂ : x ∉ l₂ := (nodup_cons.1 (nodup_append.1 hnd).2.1).1
  have herase : (l₁ ++ x :: l₂).erase x = l₁ ++ l₂ := by
    rw [erase_append_right _ hx₁, erase_cons_head]
  rw [herase]
  have hc : Cyclic next prev (x :: (l₂ ++ l₁)) := Cyclic.append_comm.1 h.cyclic
  have hnd' : (l₂ ++ l₁).Nodup := by
    have := (@perm_append_comm _ l₁ (x :: l₂)).nodup_iff.1 hnd
    exact (nodup_cons.1 this).2
  have hxt : x ∉ l₂ ++ l₁ := by simp [hx₁, hx₂]
  have hne : l₂ ++ l₁ ≠ [] := by
    intro he
    rw [append_eq_nil_iff] at he
    exact hl (by rw [he.1, he.2]; rfl)
  -- seen from `x`, the rest of the ring starts with `n` and ends with `p`
  have hhead : (l₂ ++ l₁).head? = some n := by
    cases ht : l₂ ++ l₁ with
    | nil => exact absurd ht hne
    | cons b t =>
      rw [ht] at hc
      have := (isChain_cons_cons.1 hc.chain).1.1
      rw [hn] at this
      simpa using this.symm
  have hlast : (l₂ ++ l₁).getLast? = some p := by
    obtain ⟨q, hq⟩ : ∃ q, (l₂ ++ l₁).getLast? = some q := by
      cases hq : (l₂ ++ l₁).getLast? with
      | none => exact absurd (getLast?_eq_none_iff.1 hq) hne
      | some q => exact ⟨q, rfl⟩
    have hlx : (x :: (l₂ ++ l₁)).getLast? = some q := by
      rw [getLast?_cons, hq]; rfl
    have := (hc.close q hlx x (by simp)).2
    rw [hp] at this
    rw [hq, this]
  have hcyc : Cyclic (update (update next p (some n)) x none)
      (update (update prev n (some p)) x none) (l₂ ++ l₁) := by
    have hch : (l₂ ++ l₁).IsChain (Linked next prev) := by
      cases ht : l₂ ++ l₁ with
      | nil => exact absurd ht hne
      | cons b t => rw [ht] at hc; exact (isChain_cons_cons.1 hc.chain).2
    refine ⟨?_, fun a ha b hb => ?_⟩
    · rw [isChain_iff_getElem]
      intro i hi
      obtain ⟨h1, h2⟩ := isChain_iff_getElem.1 hch i hi
      have hip : (l₂ ++ l₁)[i] ≠ p := by
        have hl' := hlast
        rw [getLast?_eq_getElem?, getElem?_eq_getElem (by omega)] at hl'
        intro he
        rw [← some.inj hl'] at he
        have := (hnd'.getElem_inj_iff).1 he
        omega
      have hin : (l₂ ++ l₁)[i + 1] ≠ n := by
        have hh' := hhead
        rw [head?_eq_getElem?, getElem?_eq_getElem (by omega)] at hh'
        intro he
        rw [← some.inj hh'] at he
        have := (hnd'.getElem_inj_iff).1 he
        omega
      have hix : (l₂ ++ l₁)[i] ≠ x := fun he => hxt (he ▸ getElem_mem _)
      have hix' : (l₂ ++ l₁)[i + 1] ≠ x := fun he => hxt (he ▸ getElem_mem _)
      exact ⟨by rw [update_of_ne hix, update_of_ne hip]; exact h1,
        by rw [update_of_ne hix', update_of_ne hin]; exact h2⟩
    · obtain rfl : p = a := by rw [hlast] at ha; simpa using ha
      obtain rfl : n = b := by rw [hhead] at hb; simpa using hb
      have hpx : p ≠ x := fun he => hxt (he ▸ mem_of_mem_getLast? hlast)
      have hnx : n ≠ x := fun he => hxt (he ▸ mem_of_mem_head? hhead)
      exact ⟨by rw [update_of_ne hpx, update_self],
        by rw [update_of_ne hnx, update_self]⟩
  refine ⟨(perm_append_comm.nodup_iff).1 hnd', Cyclic.append_comm.1 hcyc, ?_, ?_, fun y hy => ?_⟩
  · rw [h.head_eq]
    cases l₁ with
    | nil =>
      rw [append_nil] at hhead
      simp [hhead]
    | cons c l₁ =>
      have hcx : c ≠ x := by rintro rfl; exact hx₁ mem_cons_self
      simp [hcx]
  · rw [h.tail_eq]
    cases l₂ using reverseRecOn with
    | nil =>
      rw [nil_append] at hlast
      rw [getLast?_concat, if_pos rfl, append_nil, hlast]
    | append_singleton l₂ c _ =>
      have hcx : c ≠ x := by rintro rfl; exact hx₂ (by simp)
      rw [← append_assoc, getLast?_concat, ← cons_append, ← append_assoc,
        getLast?_concat, if_neg (by simpa using hcx)]
  · by_cases hyx : y = x
    · subst hyx; exact ⟨update_self .., update_self ..⟩
    · have hy' : y ∉ l₁ ++ x :: l₂ := by
        simp only [mem_append, mem_cons] at hy ⊢; tauto
      have hyl : y ∉ l₂ ++ l₁ := by
        simp only [mem_append] at hy ⊢; tauto
      have hyp : y ≠ p := fun he => hyl (he ▸ mem_of_mem_getLast? hlast)
      have hyn : y ≠ n := fun he => hyl (he ▸ mem_of_mem_head? hhead)
      rw [update_of_ne hyx, update_of_ne hyx, update_of_ne hyp, update_of_ne hyn]
      exact h.off y hy'

theorem remove_single (h : IsRing next prev head tail [x]) :
    IsRing (update next x none) (update prev x none) none none [] := by
  refine ⟨nodup_nil, ⟨isChain_nil, by simp⟩, rfl, rfl, fun y _ => ?_⟩
  by_cases hy : y = x
  · subst hy; exact ⟨update_self .., update_self ..⟩
  · rw [update_of_ne hy, update_of_ne hy]
    exact h.off y (by simpa using hy)

end Update

end IsRing

end Xv6Swap
