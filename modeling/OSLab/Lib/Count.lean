import Mathlib.Data.Nat.Count
import Mathlib.Tactic

set_option autoImplicit false

/-! # Counting the parties in a place

The invariants of a semaphore say that its value and the number of parties in some place add
up to a constant. Parties are numbered `0, …, n - 1` and the number of them with a property is
`Nat.count p n`. One step of one party changes the property at one index only, so the count
moves by what that index gains or loses (`count_change`).
-/

namespace OSLab

variable {p q : Nat → Prop} [DecidablePred p] [DecidablePred q] {n i : Nat}

theorem count_congr (h : ∀ j, j < n → (p j ↔ q j)) : Nat.count p n = Nat.count q n :=
  le_antisymm (Nat.count_mono_left fun j hj => (h j hj).mp)
    (Nat.count_mono_left fun j hj => (h j hj).mpr)

/-- **One index changes.** If `p` and `q` agree off `i`, their counts differ by what `i`
contributes to each. -/
theorem count_change (hi : i < n) (h : ∀ j, j < n → j ≠ i → (p j ↔ q j)) :
    Nat.count q n + (if p i then 1 else 0) = Nat.count p n + (if q i then 1 else 0) := by
  induction n with
  | zero => omega
  | succ n ih =>
      rw [Nat.count_succ, Nat.count_succ]
      by_cases hin : i = n
      · subst hin
        have hc : Nat.count p i = Nat.count q i :=
          count_congr fun j hj => h j (by omega) (by omega)
        omega
      · have hn := h n (by omega) (fun hc => hin hc.symm)
        have ih' := ih (by omega) fun j hj hji => h j (by omega) hji
        by_cases hp : p n
        · have hq : q n := hn.mp hp
          simp only [hp, hq, if_true]
          omega
        · have hq : ¬ q n := fun hc => hp (hn.mpr hc)
          simp only [hp, hq, if_false]
          omega

/-- `i` gains the property. -/
theorem count_gain (hi : i < n) (h : ∀ j, j < n → j ≠ i → (p j ↔ q j)) (hp : ¬ p i) (hq : q i) :
    Nat.count q n = Nat.count p n + 1 := by
  have := count_change hi h
  simp only [hp, hq, if_true, if_false] at this
  omega

/-- `i` loses the property. -/
theorem count_lose (hi : i < n) (h : ∀ j, j < n → j ≠ i → (p j ↔ q j)) (hp : p i) (hq : ¬ q i) :
    Nat.count q n + 1 = Nat.count p n := by
  have := count_change hi h
  simp only [hp, hq, if_true, if_false] at this
  omega

theorem count_pos (hi : i < n) (hp : p i) : 0 < Nat.count p n :=
  Nat.pos_of_ne_zero (Nat.count_ne_iff_exists.mpr ⟨i, hi, hp⟩)

/-- If at most one index has the property, two that have it are the same. -/
theorem eq_of_count_le_one {j : Nat} (h : Nat.count p n ≤ 1) (hi : i < n) (hj : j < n)
    (hpi : p i) (hpj : p j) : i = j := by
  by_contra hij
  have hlose := count_lose (q := fun k => p k ∧ k ≠ i) hi
    (fun k _ hk => by simp [hk]) hpi (by simp)
  have := count_pos (p := fun k => p k ∧ k ≠ i) hj ⟨hpj, fun hc => hij hc.symm⟩
  omega

/-- A property that implies another and is as frequent is implied by it. -/
theorem of_count_le (hpq : ∀ j, j < n → p j → q j) (h : Nat.count q n ≤ Nat.count p n) :
    ∀ j, j < n → q j → p j := by
  intro j hj hq
  by_contra hp
  have hlose := count_lose (q := fun k => q k ∧ k ≠ j) hj
    (fun k _ hk => by simp [hk]) hq (by simp)
  have hmono : Nat.count p n ≤ Nat.count (fun k => q k ∧ k ≠ j) n :=
    Nat.count_mono_left fun k hk hpk => ⟨hpq k hk hpk, fun hkj => hp (hkj ▸ hpk)⟩
  omega

/-- Each index has the property or not. -/
theorem count_add_count_not (p : Nat → Prop) [DecidablePred p] (n : Nat) :
    Nat.count p n + Nat.count (fun i => ¬ p i) n = n := by
  induction n with
  | zero => rfl
  | succ n ih =>
      rw [Nat.count_succ, Nat.count_succ]
      by_cases hp : p n
      · rw [if_pos hp, if_neg (not_not.mpr hp)]
        omega
      · rw [if_neg hp, if_pos hp]
        omega

/-- Indices that are all in a list are at most as many as its length. -/
theorem count_le_length {l : List Nat} (h : ∀ i < n, p i → i ∈ l) : Nat.count p n ≤ l.length := by
  have hsub : (Finset.range n).filter p ⊆ l.toFinset := by
    intro i hi
    obtain ⟨hn, hp⟩ := Finset.mem_filter.mp hi
    exact List.mem_toFinset.mpr (h i (Finset.mem_range.mp hn) hp)
  calc Nat.count p n = ((Finset.range n).filter p).card := Nat.count_eq_card_filter_range p n
    _ ≤ l.toFinset.card := Finset.card_le_card hsub
    _ ≤ l.length := l.toFinset_card_le

/-- The same for a sum: one index changes, and the sum moves by what it changes by. -/
theorem sum_change {M : Type*} [AddCommMonoid M] {f g : Nat → M} (hi : i < n)
    (h : ∀ j, j < n → j ≠ i → f j = g j) :
    (∑ j ∈ Finset.range n, g j) + f i = (∑ j ∈ Finset.range n, f j) + g i := by
  have hmem : i ∈ Finset.range n := Finset.mem_range.mpr hi
  have hrest : ∑ j ∈ (Finset.range n).erase i, g j = ∑ j ∈ (Finset.range n).erase i, f j :=
    Finset.sum_congr rfl fun j hj =>
      (h j (Finset.mem_range.mp (Finset.mem_of_mem_erase hj)) (Finset.ne_of_mem_erase hj)).symm
  rw [← Finset.add_sum_erase _ g hmem, ← Finset.add_sum_erase _ f hmem, hrest]
  exact add_right_comm (g i) _ (f i) |>.trans (by rw [add_comm (g i) (f i), add_right_comm])

end OSLab
