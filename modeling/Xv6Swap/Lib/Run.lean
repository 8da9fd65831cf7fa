import Mathlib.Logic.Basic
import Mathlib.Data.Nat.Notation

/-!
# Computations that read and write a state and may stop

`Run σ ε α` is the type of programs over a state `σ` that either return an `α` in a new state or
stop for a reason in `ε`.  This file gives the monad, its primitive operations and the rules of
pre- and postconditions used everywhere else:

* `Ensures x Q E` : the outcome `x` is a return satisfying `Q` or a stop satisfying `E`;
* `Ensures.bind` : the rule of sequencing, one obligation for each half;
* `Ensures.mono` : consequence;
* `Run.each_range_spec` : the invariant rule of a counting loop.

A total-correctness statement is `Ensures x Q fun _ => False`: the program returns.
-/

namespace Xv6Swap

open List

/-- Programs over the state `σ` that return an `α` or stop with an `ε`. -/
structure Run (σ ε α : Type) where
  /-- Run the program from a state. -/
  run : σ → Except ε (α × σ)

namespace Run

variable {σ ε α β γ τ : Type} {m : Run σ ε α} {k : α → Run σ ε β} {s s' : σ} {a : α} {get : τ → σ}
  {put : σ → τ → τ} {t : τ}

instance : CoeFun (Run σ ε α) fun _ => σ → Except ε (α × σ) := ⟨run⟩

instance : Monad (Run σ ε) where
  pure a := ⟨fun s => .ok (a, s)⟩
  bind m k := ⟨fun s => match m s with
    | .ok (a, s') => k a s'
    | .error e => .error e⟩

/-- A value computed from the state, which stays as it is. -/
def read (f : σ → α) : Run σ ε α := ⟨fun s => .ok (f s, s)⟩

/-- Replace the state. -/
def modify (f : σ → σ) : Run σ ε Unit := ⟨fun s => .ok ((), f s)⟩

/-- Stop. -/
def stop (e : ε) : Run σ ε α := ⟨fun _ => .error e⟩

/-- Run a program on a part of the state: `get` takes the part out, `put` puts it back. -/
def zoom {τ : Type} (get : τ → σ) (put : σ → τ → τ) (m : Run σ ε α) : Run τ ε α := ⟨fun t =>
  match m (get t) with
  | .ok (a, s) => .ok (a, put s t)
  | .error e => .error e⟩

/-- Run `f` on the inputs of a list, from left to right. -/
def each (f : β → Run σ ε Unit) : List β → Run σ ε Unit
  | [] => pure ()
  | b :: bs => do
    f b
    each f bs

@[simp] theorem pure_apply (a : α) (s : σ) : (pure a : Run σ ε α) s = .ok (a, s) := rfl

@[simp] theorem modify_apply (f : σ → σ) (s : σ) :
    (modify f : Run σ ε Unit) s = .ok ((), f s) := rfl

@[simp] theorem bind_pure_apply (a : α) (k : α → Run σ ε β) (s : σ) :
    (pure a >>= k) s = k a s := rfl

@[simp] theorem bind_read (f : σ → α) (k : α → Run σ ε β) (s : σ) :
    (read f >>= k) s = k (f s) s := rfl

@[simp] theorem bind_modify (f : σ → σ) (k : Unit → Run σ ε β) (s : σ) :
    (modify f >>= k) s = k () (f s) := rfl

theorem bind_ok (h : m s = .ok (a, s')) : (m >>= k) s = k a s' := by
  change (match m s with
    | .ok (a, s') => k a s'
    | .error e => .error e) = _
  rw [h]

theorem bind_error {e : ε} (h : m s = .error e) : (m >>= k) s = .error e := by
  change (match m s with
    | .ok (a, s') => k a s'
    | .error e => .error e) = _
  rw [h]

@[simp] theorem bind_assoc_apply (m : Run σ ε α) (k : α → Run σ ε β) (l : β → Run σ ε γ) (s : σ) :
    ((m >>= k) >>= l) s = (m >>= fun a => k a >>= l) s := by
  cases h : m s with
  | ok p => rw [bind_ok (k := fun a => k a >>= l) h]; cases hk : k p.1 p.2 with
    | ok q => rw [bind_ok hk, bind_ok (m := m >>= k) ((bind_ok h).trans hk)]
    | error e => rw [bind_error hk, bind_error (m := m >>= k) ((bind_ok h).trans hk)]
  | error e => rw [bind_error h, bind_error (m := m >>= k) (bind_error h)]

theorem zoom_ok (h : m (get t) = .ok (a, s)) : zoom get put m t = .ok (a, put s t) := by
  simp only [zoom, h]

theorem each_nil (f : β → Run σ ε Unit) : each f [] = pure () := rfl

theorem each_cons (f : β → Run σ ε Unit) (b : β) (bs : List β) :
    each f (b :: bs) = f b >>= fun _ => each f bs := rfl

theorem ite_apply (c : Prop) [Decidable c] (m n : Run σ ε α) (s : σ) :
    (if c then m else n) s = if c then m s else n s := by
  split <;> rfl

theorem ite_bind_apply (c : Prop) [Decidable c] (m n : Run σ ε α) (k : α → Run σ ε β) (s : σ) :
    ((if c then m else n) >>= k) s = if c then (m >>= k) s else (n >>= k) s := by
  split <;> rfl

/-- A program that returns from `s`, inverted: the first half returned and the second half
returned from where it left off. -/
theorem bind_eq_ok {b : β}
    (h : (m >>= k) s = .ok (b, s')) : ∃ a t, m s = .ok (a, t) ∧ k a t = .ok (b, s') := by
  cases hm : m s with
  | ok p => exact ⟨p.1, p.2, rfl, (bind_ok hm).symm.trans h⟩
  | error e => rw [bind_error hm] at h; cases h

end Run

/-! ### Postconditions -/

variable {σ ε α β : Type}

/-- The outcome `x` is a return that satisfies `Q` or a stop that satisfies `E`. -/
def Ensures (x : Except ε (α × σ)) (Q : α → σ → Prop) (E : ε → Prop) : Prop :=
  match x with
  | .ok (a, s) => Q a s
  | .error e => E e

namespace Ensures

variable {Q Q' : α → σ → Prop} {E E' : ε → Prop} {a : α} {s : σ} {x : Except ε (α × σ)}
  {m : Run σ ε α}

@[simp] theorem ok_iff : Ensures (.ok (a, s)) Q E ↔ Q a s := Iff.rfl

theorem mono (h : Ensures x Q E) (hQ : ∀ a s, Q a s → Q' a s)
    (hE : ∀ e, E e → E' e) : Ensures x Q' E' := by
  cases x with
  | ok p => exact hQ _ _ h
  | error e => exact hE _ h

theorem imp (h : Ensures x Q E) (hQ : ∀ a s, Q a s → Q' a s) :
    Ensures x Q' E := h.mono hQ fun _ he => he

/-- A program that always returns satisfies any condition on stops. -/
theorem weaken (h : Ensures x Q fun _ => False) : Ensures x Q E :=
  h.mono (fun _ _ hq => hq) fun _ he => he.elim

/-- **Sequencing.** -/
theorem bind {k : α → Run σ ε β} {R : β → σ → Prop}
    (h : Ensures (m s) Q E) (hk : ∀ a t, Q a t → Ensures (k a t) R E) :
    Ensures ((m >>= k) s) R E := by
  cases hm : m s with
  | ok p => rw [hm] at h; rw [Run.bind_ok hm]; exact hk _ _ h
  | error e => rw [hm] at h; rw [Run.bind_error hm]; exact h

theorem zoom {τ : Type} (get : τ → σ) {put : σ → τ → τ} {t : τ} (h : Ensures (m (get t)) Q E) :
    Ensures (Run.zoom get put m t) (fun a t' => ∃ s, Q a s ∧ t' = put s t) E := by
  unfold Run.zoom
  dsimp only
  cases hm : m (get t) with
  | ok p => rw [hm] at h; exact ⟨_, h, rfl⟩
  | error e => rw [hm] at h; exact h

/-- A program that always returns, in the form of an equation. -/
theorem exists_ok (h : Ensures x Q fun _ => False) : ∃ a s, x = .ok (a, s) ∧ Q a s := by
  cases x with
  | ok p => exact ⟨p.1, p.2, rfl, h⟩
  | error e => exact h.elim

theorem of_ok (h : Ensures x Q E) (hx : x = .ok (a, s)) : Q a s := by
  subst hx; exact h

theorem of_error {e : ε} (h : Ensures x Q E) (hx : x = .error e) : E e := by
  subst hx; exact h

end Ensures

/-- The invariant rule of a counting loop: iteration `k` takes `I k` to `I (k + 1)`. -/
theorem Run.each_range_spec {f : ℕ → Run σ ε Unit} {I : ℕ → σ → Prop} {E : ε → Prop} {n : ℕ} {s : σ}
    (hf : ∀ k < n, ∀ s, I k s → Ensures (f k s) (fun _ => I (k + 1)) E) (h0 : I 0 s) :
    Ensures (Run.each f (range n) s) (fun _ => I n) E := by
  have key : ∀ m k s, k + m = n → I k s →
      Ensures (Run.each f (range' k m) s) (fun _ => I n) E := by
    intro m
    induction m with
    | zero => rintro k s rfl hs; exact hs
    | succ m ih =>
      intro k s hk hs
      exact (hf k (by omega) s hs).bind fun _ t ht => ih (k + 1) t (by omega) ht
  rw [range_eq_range']
  exact key n 0 s (by omega) h0

-- a loop is used through its rule: unfolding one over a literal range is never wanted
attribute [irreducible] Run.each

end Xv6Swap
