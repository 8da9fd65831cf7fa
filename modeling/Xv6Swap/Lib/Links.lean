import Mathlib.Data.List.Nodup
import Mathlib.Logic.Function.Basic

/-!
# Circular lists with a head node

A doubly linked list is a `next` and a `prev` pointer at every node; a node of its own, the head,
closes the circle.  `Links.Loop s h l` says that from the head `h` one meets the nodes of `l` one
after the other and then `h` again, and the same backwards.

* `Links.Loop.push`, `Links.Loop.foldl_push` : nodes are put after the head;
* `Links.Loop.unlink` : a node is taken out;
* `Links.Loop.seek_next`, `Links.Loop.seek_prev` : a search along the pointers, in either direction,
  is a search in the list, and ends.
-/

namespace Xv6Swap

open Function List Nat

/-- The pointers of all nodes. -/
structure Links (ι : Type) where
  next : ι → ι
  prev : ι → ι

namespace Links

section Path

variable {ι : Type} {next prev next' prev' : ι → ι} {a b x : ι} {l l₁ l₂ : List ι}

/-- From `a` one meets the nodes of `l` and then `b`, and the same backwards. -/
def Path (next prev : ι → ι) : ι → List ι → ι → Prop
  | a, [], b => next a = b ∧ prev b = a
  | a, x :: l, b => next a = x ∧ prev x = a ∧ Path next prev x l b

theorem path_append : Path next prev a (l₁ ++ x :: l₂) b ↔
    Path next prev a l₁ x ∧ Path next prev x l₂ b := by
  induction l₁ generalizing a with
  | nil => simp only [nil_append, Path, and_assoc]
  | cons y l₁ ih => simp only [cons_append, Path, ih, and_assoc]

/-- Only the `next` pointers of all nodes but the last, and the `prev` pointers of all but the first
matter. -/
theorem Path.congr (h : Path next prev a l b) (hn : ∀ y ∈ a :: l, next' y = next y)
    (hp : ∀ y ∈ b :: l, prev' y = prev y) : Path next' prev' a l b := by
  induction l generalizing a with
  | nil => exact ⟨(hn a mem_cons_self).trans h.1, (hp b mem_cons_self).trans h.2⟩
  | cons x l ih =>
    obtain ⟨h1, h2, h3⟩ := h
    refine ⟨(hn a mem_cons_self).trans h1, (hp x (by simp)).trans h2, ih h3 ?_ ?_⟩
    · exact fun y hy => hn y (mem_cons_of_mem _ hy)
    · intro y hy
      refine hp y ?_
      rcases mem_cons.1 hy with rfl | hy
      · exact mem_cons_self
      · exact mem_cons_of_mem _ (mem_cons_of_mem _ hy)

theorem Path.next_mem (h : Path next prev a l b) : next a ∈ b :: l := by
  cases l with
  | nil => exact mem_singleton.2 h.1
  | cons x l =>
    rw [h.1]
    simp

theorem Path.prev_mem (h : Path next prev a l b) : prev b ∈ a :: l := by
  induction l generalizing a with
  | nil => exact mem_singleton.2 h.2
  | cons x l ih => exact mem_cons_of_mem _ (ih h.2.2)

theorem Path.reverse (hp : Path next prev a l b) : Path prev next b l.reverse a := by
  induction l generalizing a with
  | nil => exact ⟨hp.2, hp.1⟩
  | cons x l ih =>
    obtain ⟨h1, h2, h3⟩ := hp
    rw [reverse_cons]
    exact path_append.2 ⟨ih h3, h2, h1⟩

variable [DecidableEq ι]

/-- The node `x` between two paths is taken out. -/
theorem Path.bypass (h₁ : Path next prev a l₁ x) (h₂ : Path next prev x l₂ b)
    (hnd : (a :: (l₁ ++ l₂)).Nodup) (hb : b ∉ l₁ ++ l₂) :
    Path (update next (prev x) (next x)) (update prev (next x) (prev x)) a (l₁ ++ l₂) b := by
  induction l₁ generalizing a with
  | nil =>
    obtain ⟨-, rfl⟩ := h₁
    cases l₂ with
    | nil =>
      obtain ⟨rfl, -⟩ := h₂
      exact ⟨update_self .., update_self ..⟩
    | cons y l₂ =>
      obtain ⟨rfl, -, h₂⟩ := h₂
      have hy : next x ∉ l₂ := (nodup_cons.1 (nodup_cons.1 hnd).2).1
      refine ⟨update_self .., update_self .., h₂.congr ?_ ?_⟩
      · rintro z hz
        refine update_of_ne ?_ ..
        rintro rfl
        exact (nodup_cons.1 hnd).1 hz
      · rintro z hz
        refine update_of_ne ?_ ..
        rintro rfl
        rcases mem_cons.1 hz with h | h
        · exact hb (by simp [h])
        · exact hy h
  | cons z l₁ ih =>
    obtain ⟨h1, h2, h3⟩ := h₁
    have hz : z ∉ b :: l₂ := by
      intro h
      rcases mem_cons.1 h with rfl | h
      · exact hb (by simp)
      · exact (nodup_cons.1 (nodup_cons.1 hnd).2).1 (mem_append_right _ h)
    have ha : a ∉ z :: l₁ := by
      intro h
      refine (nodup_cons.1 hnd).1 ?_
      rcases mem_cons.1 h with rfl | h
      · simp
      · simp [h]
    refine ⟨?_, ?_, ih h3 (nodup_cons.1 hnd).2 fun h => hb (mem_cons_of_mem _ h)⟩
    · have hne : a ≠ prev x := fun e => ha (e ▸ h3.prev_mem)
      rw [update_of_ne hne]
      exact h1
    · have hne : z ≠ next x := fun e => hz (e ▸ h₂.next_mem)
      rw [update_of_ne hne]
      exact h2

/-- A node `x` is put after the first. -/
theorem Path.insert (h : Path next prev a l b) (hx : x ∉ a :: l) (hxb : x ≠ b)
    (hnd : (a :: l).Nodup) (hb : b ∉ l) : Path (update (update next x (next a)) a x)
      (update (update prev x a) (next a) x) a (x :: l) b := by
  have hxa : x ≠ a := fun e => hx (e ▸ mem_cons_self)
  have hxn : x ≠ next a := by
    intro e
    rcases mem_cons.1 h.next_mem with h' | h'
    · exact hxb (e.trans h')
    · exact hx (mem_cons_of_mem _ (e ▸ h'))
  refine ⟨update_self .., ?_, ?_⟩
  · rw [update_of_ne hxn, update_self]
  cases l with
  | nil =>
    obtain ⟨rfl, -⟩ := h
    refine ⟨?_, update_self ..⟩
    rw [update_of_ne hxa, update_self]
  | cons y l =>
    obtain ⟨rfl, -, h⟩ := h
    refine ⟨?_, update_self .., h.congr ?_ ?_⟩
    · rw [update_of_ne hxa, update_self]
    · intro z hz
      have hza : z ≠ a := by
        rintro rfl
        exact (nodup_cons.1 hnd).1 hz
      have hzx : z ≠ x := by
        rintro rfl
        exact hx (mem_cons_of_mem _ hz)
      rw [update_of_ne hza, update_of_ne hzx]
    · intro z hz
      have hzn : z ≠ next a := by
        rintro rfl
        rcases mem_cons.1 hz with h | h
        · exact hb (by simp [h])
        · exact (nodup_cons.1 (nodup_cons.1 hnd).2).1 h
      have hzx : z ≠ x := by
        rintro rfl
        rcases mem_cons.1 hz with h | h
        · exact hxb h
        · exact hx (by simp [h])
      rw [update_of_ne hzn, update_of_ne hzx]

end Path

/-- The pointers represent the list `l`, with the head `h`. -/
structure Loop {ι : Type} (s : Links ι) (h : ι) (l : List ι) : Prop where
  nodup : (h :: l).Nodup
  path : Path s.next s.prev h l h

variable {ι : Type} {s : Links ι} {h x : ι} {l : List ι}

theorem Loop.head_notMem (hl : s.Loop h l) : h ∉ l := (nodup_cons.1 hl.nodup).1

variable [DecidableEq ι]

/-- Take a node out of the list. -/
def unlink (s : Links ι) (x : ι) : Links ι :=
  let s := { s with prev := update s.prev (s.next x) (s.prev x) }
  { s with next := update s.next (s.prev x) (s.next x) }

/-- Put a node after `h`. -/
def push (s : Links ι) (h x : ι) : Links ι :=
  let s := { s with next := update s.next x (s.next h) }
  let s := { s with prev := update s.prev x h }
  let s := { s with prev := update s.prev (s.next h) x }
  { s with next := update s.next h x }

/-- From `b` on, along `step`, the first node before `h` for which `p` holds; nothing if there are
too many nodes on the way. -/
def seek (step : ι → ι) (h : ι) (p : ι → Bool) : ℕ → ι → Option (Option ι)
  | 0, _ => none
  | n + 1, b => if b = h then some none else if p b then some (some b) else seek step h p n (step b)

namespace Loop

variable {p : ι → Bool} {n : ℕ}

theorem push (hl : s.Loop h l) (hx : x ∉ h :: l) : (s.push h x).Loop h (x :: l) := by
  have hxh : h ≠ x := fun e => hx (e ▸ mem_cons_self)
  refine ⟨?_, ?_⟩
  · exact (Perm.swap x h l).nodup_iff.2 (nodup_cons.2 ⟨hx, hl.nodup⟩)
  · have := hl.path.insert hx hxh.symm hl.nodup hl.head_notMem
    simpa only [Links.push, update_of_ne hxh] using this

/-- The nodes of a list are put after the head, one after the other. -/
theorem foldl_push {m : List ι} (hl : s.Loop h l) (hm : m.Nodup) (hmh : h ∉ m)
    (hml : ∀ x ∈ m, x ∉ l) : (m.foldl (fun s x => s.push h x) s).Loop h (m.reverse ++ l) := by
  induction m generalizing s l with
  | nil => exact hl
  | cons x m ih =>
    obtain ⟨hx, hm⟩ := nodup_cons.1 hm
    have hxl : x ∉ h :: l := by
      intro hmem
      rcases mem_cons.1 hmem with rfl | hmem
      · exact hmh mem_cons_self
      · exact hml x mem_cons_self hmem
    have := ih (hl.push hxl) hm (fun e => hmh (mem_cons_of_mem _ e)) fun y hy hyl => by
      rcases mem_cons.1 hyl with rfl | hyl
      · exact hx hy
      · exact hml y (mem_cons_of_mem _ hy) hyl
    rwa [reverse_cons, append_assoc]

theorem unlink (hl : s.Loop h l) (hx : x ∈ l) : (s.unlink x).Loop h (l.erase x) := by
  obtain ⟨l₁, l₂, rfl⟩ := append_of_mem hx
  have hnd := (nodup_cons.1 hl.nodup).2
  have hx₁ : x ∉ l₁ := fun h₁ => (disjoint_of_nodup_append hnd) h₁ mem_cons_self
  have hx₂ : x ∉ l₂ := (nodup_cons.1 (nodup_append.1 hnd).2.1).1
  have herase : (l₁ ++ x :: l₂).erase x = l₁ ++ l₂ := by
    rw [erase_append_right _ hx₁, erase_cons_head]
  have hsub : (h :: (l₁ ++ l₂)).Nodup := by
    refine hl.nodup.sublist ?_
    exact ((Sublist.refl l₁).append (sublist_cons_self x l₂)).cons_cons h
  obtain ⟨hp₁, hp₂⟩ := path_append.1 hl.path
  have hxh : x ≠ h := fun e => hl.head_notMem (e ▸ hx)
  have hnx : x ≠ s.next x := by
    intro e
    have := hp₂.next_mem
    rw [← e] at this
    rcases mem_cons.1 this with h | h
    · exact hxh h
    · exact hx₂ h
  rw [herase]
  refine ⟨hsub, ?_⟩
  have := hp₁.bypass hp₂ hsub (nodup_cons.1 hsub).1
  simpa only [Links.unlink, update_of_ne hnx] using this

theorem seek_path {next prev : ι → ι} {a : ι} (hp : Path next prev a l h)
    (hh : h ∉ l) (hn : l.length < n) : seek next h p n (next a) = some (l.find? p) := by
  induction l generalizing a n with
  | nil =>
    obtain ⟨m, rfl⟩ := exists_eq_succ_of_ne_zero (Nat.ne_of_gt hn)
    rw [hp.1, seek, if_pos rfl]
    rfl
  | cons x l ih =>
    obtain ⟨m, rfl⟩ := exists_eq_succ_of_ne_zero (Nat.ne_of_gt (zero_lt_of_lt hn))
    have hxh : x ≠ h := fun e => hh (e ▸ mem_cons_self)
    rw [hp.1, seek, if_neg hxh, find?_cons]
    cases p x with
    | true => rfl
    | false => exact ih hp.2.2 (fun e => hh (mem_cons_of_mem _ e)) (lt_of_succ_lt_succ hn)

/-- The search along `next` from the head. -/
theorem seek_next (hl : s.Loop h l) (hn : l.length < n) :
    seek s.next h p n (s.next h) = some (l.find? p) :=
  seek_path hl.path hl.head_notMem hn

/-- The search along `prev` from the head. -/
theorem seek_prev (hl : s.Loop h l) (hn : l.length < n) :
    seek s.prev h p n (s.prev h) = some (l.reverse.find? p) :=
  seek_path hl.path.reverse (fun e => hl.head_notMem (mem_reverse.1 e))
    (by rwa [length_reverse])

end Loop

end Links

end Xv6Swap
