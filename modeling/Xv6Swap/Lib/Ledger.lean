import Mathlib.Data.List.Nodup
import Mathlib.Logic.Function.Basic
import Mathlib.Data.Nat.Notation

/-!
# Ledgers of resources with one owner each

A resource is held in one of two ways: it stands on a list, or in a register of a table of `n`
registers, where `null` marks a register that holds nothing.  `Owned null n raw slot P` says that
the resources with the property `P` are exactly those held, and that none is held twice.

* `Owned.push`, `Owned.erase` : a resource put on the list, or taken off it;
* `Owned.toSlot`, `Owned.unslot` : a resource put from the list into a register, or back;
* `Owned.exchange` : a resource of the list and one of a register change places.
-/

namespace Xv6Swap

open Function List

variable {α : Type} {null : α} {n : ℕ} {raw : List α} {slot : ℕ → α}
  {P P' : α → Prop} {a : α} {i : ℕ}

/-- The resources with the property `P` are those on the list `raw` or in a register of `slot`,
and each is held once. -/
structure Owned (null : α) (n : ℕ) (raw : List α) (slot : ℕ → α) (P : α → Prop) : Prop where
  nodup : raw.Nodup
  inj : ∀ i j, i < n → j < n → slot i ≠ null → slot i = slot j → i = j
  apart : ∀ i < n, slot i ≠ null → slot i ∉ raw
  iff : ∀ a, P a ↔ a ∈ raw ∨ ∃ i < n, slot i ≠ null ∧ slot i = a

/-! ### Properties that change at one resource -/

section

variable (h : ∀ x, x ≠ a → (P' x ↔ P x))
include h

theorem iff_insert (ha : P' a) (x : α) : P' x ↔ x = a ∨ P x := by
  by_cases hx : x = a
  · subst hx; simp [ha]
  · rw [h x hx]; simp [hx]

theorem iff_remove (ha : ¬ P' a) (x : α) : P' x ↔ x ≠ a ∧ P x := by
  by_cases hx : x = a
  · subst hx; simp [ha]
  · rw [h x hx]; simp [hx]

theorem iff_same (ha : P' a ↔ P a) (x : α) : P' x ↔ P x := by
  by_cases hx : x = a
  · subst hx; exact ha
  · exact h x hx

end

/-! ### Changes of a ledger -/

namespace Owned

section

variable (h : Owned null n raw slot P)
include h

theorem of_slot (hi : i < n) (hs : slot i ≠ null) : P (slot i) :=
  (h.iff _).2 (.inr ⟨i, hi, hs, rfl⟩)

theorem of_mem (ha : a ∈ raw) : P a := (h.iff a).2 (.inl ha)

theorem congr (hP : ∀ a, P' a ↔ P a) : Owned null n raw slot P' :=
  ⟨h.nodup, h.inj, h.apart, fun a => (hP a).trans (h.iff a)⟩

theorem push (ha : ¬ P a) (hP : ∀ x, P' x ↔ x = a ∨ P x) : Owned null n (a :: raw) slot P' := by
  refine ⟨nodup_cons.2 ⟨fun hm => ha (h.of_mem hm), h.nodup⟩, h.inj, fun i hi hs hm => ?_,
    fun x => ?_⟩
  · rcases mem_cons.1 hm with he | hm
    · exact ha (he ▸ h.of_slot hi hs)
    · exact h.apart i hi hs hm
  · rw [hP, h.iff, mem_cons, or_assoc]

theorem erase [DecidableEq α] (ha : a ∈ raw)
    (hP : ∀ x, P' x ↔ x ≠ a ∧ P x) : Owned null n (raw.erase a) slot P' := by
  refine ⟨h.nodup.erase a, h.inj, fun i hi hs hm => h.apart i hi hs (mem_of_mem_erase hm),
    fun x => ?_⟩
  rw [hP, h.iff, h.nodup.mem_erase_iff]
  constructor
  · rintro ⟨hne, hx | hx⟩
    · exact .inl ⟨hne, hx⟩
    · exact .inr hx
  · rintro (⟨hne, hx⟩ | ⟨i, hi, hs, rfl⟩)
    · exact ⟨hne, .inl hx⟩
    · exact ⟨fun he => h.apart i hi hs (he ▸ ha), .inr ⟨i, hi, hs, rfl⟩⟩

theorem perm {raw' : List α} (hp : raw.Perm raw') : Owned null n raw' slot P :=
  ⟨hp.nodup_iff.1 h.nodup, h.inj, fun i hi hs hm => h.apart i hi hs (hp.mem_iff.2 hm), fun a => by
    rw [h.iff, hp.mem_iff]⟩

end

/-- A resource of the list is put into an empty register. -/
theorem toSlot (h : Owned null n (a :: raw) slot P) (hi : i < n) (hs : slot i = null)
    (ha : a ≠ null) : Owned null n raw (update slot i a) P := by
  have hself : update slot i a i = a := update_self ..
  have hother : ∀ {j}, j ≠ i → update slot i a j = slot j := fun hj =>
    update_of_ne hj ..
  have hnd := nodup_cons.1 h.nodup
  have hne : ∀ {j}, j < n → slot j ≠ null → slot j ≠ a := fun hj hsj he =>
    h.apart _ hj hsj (he ▸ mem_cons_self)
  refine ⟨hnd.2, fun j k hj hk hsj he => ?_, fun j hj hsj hm => ?_, fun x => ?_⟩
  · by_cases hji : j = i <;> by_cases hki : k = i
    · rw [hji, hki]
    · rw [hji, hself, hother hki] at he
      exact absurd he.symm (hne hk (he ▸ ha))
    · rw [hki, hself, hother hji] at he
      exact absurd he (hne hj (he ▸ ha))
    · rw [hother hji] at hsj he
      rw [hother hki] at he
      exact h.inj j k hj hk hsj he
  · by_cases hji : j = i
    · rw [hji, hself] at hm
      exact hnd.1 hm
    · rw [hother hji] at hsj hm
      exact h.apart j hj hsj (mem_cons_of_mem _ hm)
  · rw [h.iff]
    constructor
    · rintro (hx | ⟨j, hj, hsj, rfl⟩)
      · rcases mem_cons.1 hx with rfl | hx
        · exact .inr ⟨i, hi, by rwa [hself], hself⟩
        · exact .inl hx
      · have hji : j ≠ i := by rintro rfl; exact hsj hs
        exact .inr ⟨j, hj, by rwa [hother hji], hother hji⟩
    · rintro (hx | ⟨j, hj, hsj, rfl⟩)
      · exact .inl (mem_cons_of_mem _ hx)
      · by_cases hji : j = i
        · subst hji; rw [hself]; exact .inl mem_cons_self
        · rw [hother hji] at hsj ⊢
          exact .inr ⟨j, hj, hsj, rfl⟩

/-- A register is emptied: what it held, if anything, is put on the list. -/
theorem unslot [DecidableEq α] (h : Owned null n raw slot P) (hi : i < n) :
    Owned null n (if slot i = null then raw else slot i :: raw) (update slot i null) P := by
  by_cases hs : slot i = null
  · rw [if_pos hs, update_eq_iff.2 ⟨hs.symm, fun _ _ => rfl⟩]
    exact h
  rw [if_neg hs]
  have hself : update slot i null i = null := update_self ..
  have hother : ∀ {j}, j ≠ i → update slot i null j = slot j := fun hj =>
    update_of_ne hj ..
  have hne : ∀ {j}, update slot i null j ≠ null → j ≠ i := by
    rintro j hj rfl; exact hj hself
  refine ⟨nodup_cons.2 ⟨h.apart i hi hs, h.nodup⟩, fun j k hj hk hsj he => ?_,
    fun j hj hsj hm => ?_, fun x => ?_⟩
  · have hji := hne hsj
    have hki := hne (he ▸ hsj)
    rw [hother hji] at hsj he
    rw [hother hki] at he
    exact h.inj j k hj hk hsj he
  · have hji := hne hsj
    rw [hother hji] at hsj hm
    rcases mem_cons.1 hm with he | hm
    · exact hji (h.inj j i hj hi hsj he)
    · exact h.apart j hj hsj hm
  · rw [h.iff]
    constructor
    · rintro (hm | ⟨j, hj, hsj, rfl⟩)
      · exact .inl (mem_cons_of_mem _ hm)
      · by_cases hji : j = i
        · subst hji; exact .inl mem_cons_self
        · exact .inr ⟨j, hj, by rwa [hother hji], hother hji⟩
    · rintro (hm | ⟨j, hj, hsj, rfl⟩)
      · rcases mem_cons.1 hm with rfl | hm
        · exact .inr ⟨i, hi, hs, rfl⟩
        · exact .inl hm
      · have hji := hne hsj
        rw [hother hji] at hsj ⊢
        exact .inr ⟨j, hj, hsj, rfl⟩

/-- A resource of the list and one of a register change places. -/
theorem exchange [DecidableEq α] (h : Owned null n (a :: raw) slot P) (hi : i < n)
    (hs : slot i ≠ null) (ha : a ≠ null) : Owned null n (slot i :: raw) (update slot i a) P := by
  have h1 := h.unslot hi
  rw [if_neg hs] at h1
  have h2 := (h1.perm (.swap a (slot i) raw)).toSlot hi (update_self ..) ha
  rwa [update_idem] at h2

end Owned

end Xv6Swap
