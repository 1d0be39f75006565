import Mathlib.Data.List.Range
import Mathlib.Tactic

set_option autoImplicit false

/-! # Counting loops that may fail

The loop `for (i = a; i < n; i++)`, whose body may go out of the bounds of an array, is a fold in
`Option` over the indices. What carries it from one end to the other is an invariant that speaks of
the index (`foldlM_range'`).
-/

namespace OSLab

variable {σ : Type*} {f : σ → Nat → Option σ} {P : Nat → σ → Prop} {a n : Nat} {s : σ}

/-- **The rule for a counting loop.** -/
theorem foldlM_range' (h : a ≤ n) (hstart : P a s)
    (hstep : ∀ i s, a ≤ i → i < n → P i s → ∃ s', f s i = some s' ∧ P (i + 1) s') :
    ∃ s', (List.range' a (n - a)).foldlM f s = some s' ∧ P n s' := by
  induction n, h using Nat.le_induction with
  | base => exact ⟨s, by simp, hstart⟩
  | succ n han ih =>
      obtain ⟨s₁, hrun, h₁⟩ := ih fun i s hai hin => hstep i s hai (by omega)
      obtain ⟨s₂, hlast, h₂⟩ := hstep n s₁ han (Nat.lt_succ_self n) h₁
      have hlen : n + 1 - a = n - a + 1 := by omega
      have hend : a + (n - a) = n := by omega
      refine ⟨s₂, ?_, h₂⟩
      rw [hlen, List.range'_1_concat, hend, List.foldlM_append, hrun]
      simpa using hlast

/-- The same from `0`. -/
theorem foldlM_range (hstart : P 0 s)
    (hstep : ∀ i s, i < n → P i s → ∃ s', f s i = some s' ∧ P (i + 1) s') :
    ∃ s', (List.range n).foldlM f s = some s' ∧ P n s' := by
  rw [List.range_eq_range']
  exact foldlM_range' (Nat.zero_le n) hstart fun i s _ => hstep i s

end OSLab
