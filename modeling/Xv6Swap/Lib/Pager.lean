import Mathlib.Logic.Function.Iterate
import Mathlib.Logic.Function.Basic

/-!
# Second-chance paging

A pager hands out frames.  When none is free, it takes one from the first page of a queue that has
not been used since it was looked at: the pages in front of it that have been used go to the end of
the queue, with their marks cleared.

* `Pager.turn` : the second chances;
* `Pager.victim`, `Pager.alloc` : the page that loses its frame when one is taken, and what follows;
* `Pager.push` : a page enters the queue.
-/

namespace Xv6Swap

open Function

/-- The number of free frames, the pages that may lose theirs, and which pages have been used. -/
structure Pager (α : Type*) where
  free : ℕ
  queue : List α
  used : α → Bool

namespace Pager

variable {α : Type*} [DecidableEq α]

/-- The first page gets a second chance. -/
def spare (p : Pager α) : Pager α :=
  match p.queue with
  | [] => p
  | x :: q => { p with queue := q ++ [x], used := update p.used x false }

/-- Every page in front that has been used gets a second chance. -/
def turn (p : Pager α) : Pager α := spare^[(p.queue.takeWhile p.used).length] p

/-- The next page to be evicted. -/
def next (p : Pager α) : Option α := p.turn.queue.head?

/-- The next page to be evicted leaves the queue. -/
def unlink (p : Pager α) : Pager α := { p.turn with queue := p.turn.queue.tail }

/-- The page that loses its frame if one is taken now. -/
def victim (p : Pager α) : Option α := if p.free = 0 then p.next else none

/-- The next page to be evicted gives its frame away. -/
def evict (p : Pager α) : Pager α :=
  p.next.elim p fun x => { p.unlink with used := update p.unlink.used x false }

/-- A frame is taken. -/
def alloc (p : Pager α) : Pager α :=
  if p.free = 0 then p.evict else { p with free := p.free - 1 }

/-- It is known whether the page has been used. -/
def mark (p : Pager α) (x : α) (b : Bool) : Pager α := { p with used := update p.used x b }

/-- A page enters the queue. -/
def push (p : Pager α) (x : α) : Pager α := { p with queue := p.queue ++ [x] }

theorem spare_free (p : Pager α) : p.spare.free = p.free := by
  unfold spare
  split <;> rfl

theorem turn_free (p : Pager α) : p.turn.free = p.free := by
  have h : ∀ n, (spare^[n] p).free = p.free := fun n => by
    induction n with
    | zero => rfl
    | succ n ih => rw [iterate_succ_apply', spare_free, ih]
  exact h _

theorem evict_free (p : Pager α) : p.evict.free = p.free := by
  unfold evict
  cases p.next with
  | none => rfl
  | some x => exact p.turn_free

end Pager

end Xv6Swap
