import Xv6Swap.Lib.Run

/-!
# Programs that simulate each other

`Run.Sim R m n` : from related states, the program `m` returns what `n` returns, in related states,
and stops when `n` stops, for the same reason.  A program that is put together in the same way from
parts that simulate each other simulates it.
-/

namespace Xv6Swap.Run

variable {σ τ ε α β : Type} {R : σ → τ → Prop}

/-- **From related states `m` does what `n` does.** -/
def Sim (R : σ → τ → Prop) (m : Run σ ε α) (n : Run τ ε α) : Prop :=
  ∀ s t, R s t → (∀ a t', n t = .ok (a, t') → ∃ s', m s = .ok (a, s') ∧ R s' t') ∧
    ∀ e, n t = .error e → m s = .error e

namespace Sim

theorem pure (a : α) : Sim (ε := ε) R (Pure.pure a) (Pure.pure a) := by
  intro s t h
  refine ⟨?_, nofun⟩
  rintro _ _ ⟨⟩
  exact ⟨s, rfl, h⟩

theorem stop (e : ε) : Sim (α := α) R (Run.stop e) (Run.stop e) := by
  intro s t _
  refine ⟨nofun, ?_⟩
  rintro _ ⟨⟩
  rfl

theorem bind {m : Run σ ε α} {n : Run τ ε α} {f : α → Run σ ε β} {g : α → Run τ ε β}
    (h : Sim R m n) (hf : ∀ a, Sim R (f a) (g a)) : Sim R (m >>= f) (n >>= g) := by
  intro s t hR
  obtain ⟨hok, herr⟩ := h s t hR
  cases hn : n t with
  | ok p =>
    obtain ⟨s', hm, hR'⟩ := hok p.1 p.2 hn
    rw [bind_ok hm, bind_ok hn]
    exact hf p.1 s' p.2 hR'
  | error e =>
    rw [bind_error (herr e hn), bind_error hn]
    exact (stop e) s t hR

theorem ite {c : Prop} [Decidable c] {m m' : Run σ ε α} {n n' : Run τ ε α} (h : Sim R m n)
    (h' : Sim R m' n') : Sim R (if c then m else m') (if c then n else n') := by
  split
  · exact h
  · exact h'

end Sim

end Xv6Swap.Run
