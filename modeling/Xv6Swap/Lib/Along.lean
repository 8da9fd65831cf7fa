import Xv6Swap.Lib.Run
import Mathlib.Order.Defs.Unbundled

/-!
# Programs that move along a preorder

`Run.Along R E m` says that wherever `m` starts it either returns in a state related to the first
by `R`, or stops for a reason in `E`.  With `R` a preorder such programs compose: what every step of
a program leaves alone the program leaves alone.
-/

namespace Xv6Swap.Run

open Run

variable {σ ε α β : Type} {R : σ → σ → Prop} {E : ε → Prop}

/-- The program moves along `R`, and stops only for reasons in `E`. -/
def Along (R : σ → σ → Prop) (E : ε → Prop) (m : Run σ ε α) : Prop :=
  ∀ s, Ensures (m s) (fun _ s' => R s s') E

namespace Along

theorem pure [Std.Refl R] (a : α) : Along R E (Pure.pure a : Run σ ε α) := fun s => refl_of R s

theorem read [Std.Refl R] (f : σ → α) : Along R E (read f) := fun s => refl_of R s

theorem stop {e : ε} (h : E e) : Along R E (stop e : Run σ ε α) := fun _ => h

theorem modify {f : σ → σ} (h : ∀ s, R s (f s)) : Along R E (modify f) := h

theorem bind [IsTrans σ R] {m : Run σ ε α} {k : α → Run σ ε β} (h : Along R E m)
    (hk : ∀ a, Along R E (k a)) : Along R E (m >>= k) := fun s =>
  (h s).bind fun a t ht => (hk a t).imp fun _ _ hu => trans_of R ht hu

theorem ite {c : Prop} [Decidable c] {m n : Run σ ε α} (hm : c → Along R E m)
    (hn : ¬ c → Along R E n) : Along R E (if c then m else n) := by
  split
  case isTrue h => exact hm h
  case isFalse h => exact hn h

theorem each [Std.Refl R] [IsTrans σ R] {f : β → Run σ ε Unit} {l : List β}
    (h : ∀ b ∈ l, Along R E (f b)) : Along R E (each f l) := by
  induction l with
  | nil => rw [each_nil]; exact pure ()
  | cons b l ih =>
    rw [each_cons]
    exact bind (h b List.mem_cons_self) fun _ => ih fun c hc => h c (List.mem_cons_of_mem _ hc)

end Along

end Xv6Swap.Run
