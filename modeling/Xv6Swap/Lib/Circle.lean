import Mathlib.Data.List.Nodup
import Mathlib.Data.Nat.Notation

/-!
# Circular lists with one pointer

Every node has a `next` pointer.  `Seg next a l b` says that from `a` on one meets the nodes of `l`
and then comes to `b`; a circle that is entered at `a` is `Seg next a (a :: l) a`.

* `Seg.append_iff` : segments one after the other;
* `Seg.rotate` : a circle can be entered at any of its nodes;
* `Seg.next_of_mem` : the successor of a node is the next one of the list, or the first;
* `seek`, `Seg.seek_eq` : the search for the first node that passes a test, and that it ends.
-/

namespace Xv6Swap.Circular

open List

variable {ι : Type} {next next' : ι → ι} {a b x y : ι} {l l₁ l₂ : List ι}

/-- From `a` on one meets the nodes of `l` and then comes to `b`. -/
def Seg (next : ι → ι) : ι → List ι → ι → Prop
  | a, [], b => a = b
  | a, x :: l, b => a = x ∧ Seg next (next x) l b

namespace Seg

theorem append_iff : Seg next a (l₁ ++ l₂) b ↔ ∃ c, Seg next a l₁ c ∧ Seg next c l₂ b := by
  induction l₁ generalizing a with
  | nil => simp [Seg]
  | cons x l₁ ih => simp only [cons_append, Seg, ih, and_assoc, exists_and_left]

/-- A segment up to a node of it and the rest of it. -/
theorem split (h : Seg next a (l₁ ++ x :: l₂) b) : Seg next a l₁ x ∧ Seg next (next x) l₂ b := by
  obtain ⟨c, h1, rfl, h2⟩ := append_iff.1 h
  exact ⟨h1, h2⟩

theorem join (h₁ : Seg next a l₁ x) (h₂ : Seg next (next x) l₂ b) : Seg next a (l₁ ++ x :: l₂) b :=
  append_iff.2 ⟨x, h₁, rfl, h₂⟩

theorem congr (h : Seg next a l b) (hn : ∀ y ∈ l, next' y = next y) : Seg next' a l b := by
  induction l generalizing a with
  | nil => exact h
  | cons x l ih =>
    refine ⟨h.1, ?_⟩
    rw [hn x mem_cons_self]
    exact ih h.2 fun y hy => hn y (mem_cons_of_mem _ hy)

/-- **A circle can be entered anywhere.** -/
theorem rotate (h : Seg next a (l₁ ++ x :: l₂) a) : Seg next (next x) (l₂ ++ l₁) x :=
  append_iff.2 ⟨a, h.split.2, h.split.1⟩

theorem next_of_mem (h : Seg next a (l₁ ++ x :: l₂) a) : next x = (l₂ ++ [a]).head (by simp) := by
  cases l₂ with
  | nil => exact h.split.2
  | cons y l₂ => exact h.split.2.1

/-- A node whose successor is not the first comes right before it. -/
theorem exists_pair (h : Seg next a l a) (hx : x ∈ l) (hne : next x ≠ a) :
    ∃ l₁ l₂, l = l₁ ++ x :: next x :: l₂ := by
  obtain ⟨l₁, l₂, rfl⟩ := append_of_mem hx
  have hn := h.next_of_mem
  cases l₂ with
  | nil => exact absurd hn hne
  | cons y l₂ => exact ⟨l₁, l₂, by rw [hn]; rfl⟩

end Seg

/-! ### Searching -/

/-- The first node from `a` on that passes the test, within so many steps. -/
def seek (next : ι → ι) (stop : ι → Bool) : ℕ → ι → Option ι
  | 0, _ => none
  | k + 1, a => if stop a then some a else seek next stop k (next a)

/-- **A search along a segment** finds what there is to be found in the list. -/
theorem Seg.seek_eq {stop : ι → Bool} (h : Seg next a l b) (hf : l.find? stop = some x) :
    ∀ {k : ℕ}, l.length ≤ k → seek next stop k a = some x := by
  induction l generalizing a with
  | nil => cases hf
  | cons y l ih =>
    obtain ⟨rfl, h⟩ := h
    intro k hk
    obtain ⟨k, rfl⟩ : ∃ k', k = k' + 1 := ⟨k - 1, by simp only [length_cons] at hk; omega⟩
    rw [seek]
    cases hs : stop a with
    | true => rw [if_pos rfl, ← hf, find?_cons_of_pos hs]
    | false =>
      rw [if_neg (by decide)]
      rw [find?_cons_of_neg (by simp [hs])] at hf
      exact ih h hf (by simpa using hk)

end Xv6Swap.Circular
