import OSLab.Lib.Machine
import Mathlib.Data.Nat.Pairing
import Mathlib.Tactic.Common

set_option autoImplicit false

/-! # Fair runs

A schedule gives the turn to one label after the other; a label that cannot move passes. A run is fair
when every label gets the turn again and again, so that a label that can move all the time does move.
Programs that poll have runs that go on for ever, and all that can be said is what fair runs come to.

The rule (`FairRun.reaches`) asks for a rank that no step raises, and for each state short of the goal
for a helper: a label that can move, whose move lowers the rank, and which stays the helper as
long as the rank stays.
-/

namespace OSLab.Machine

variable {σ ι : Type*} {M : Machine σ ι}

/-- The states and the turns of a run in which every label gets its turn again and again. -/
structure FairRun (M : Machine σ ι) (run : Nat → σ) (turn : Nat → ι) : Prop where
  moves : ∀ i, M.next (run i) (turn i) = some (run (i + 1))
    ∨ M.next (run i) (turn i) = none ∧ run (i + 1) = run i
  fair : ∀ a i, ∃ j, i ≤ j ∧ turn j = a

variable {run : Nat → σ} {turn : Nat → ι}

theorem FairRun.keeps {I : σ → Prop} (hr : M.FairRun run turn)
    (hinv : ∀ s a s', I s → M.next s a = some s' → I s') {i j : Nat} (hij : i ≤ j)
    (h : I (run i)) : I (run j) := by
  induction j, hij using Nat.le_induction with
  | base => exact h
  | succ j _ ih =>
      rcases hr.moves j with hmove | ⟨-, hsame⟩
      · exact hinv _ _ _ ih hmove
      · rw [hsame]
        exact ih

section Reaches

variable {I goal : σ → Prop} {rank : σ → Nat} {helper : σ → ι}
  (hinv : ∀ s a s', I s → M.next s a = some s' → I s')
  (hcan : ∀ s, I s → ¬ goal s → M.next s (helper s) ≠ none)
  (hstep : ∀ s a s', I s → ¬ goal s → M.next s a = some s' →
    rank s' < rank s ∨ rank s' = rank s ∧ helper s' = helper s ∧ a ≠ helper s)

include hinv hstep in
/-- From `i` on the goal is reached, or the rank sinks, or both the rank and the helper are as they
were. -/
theorem FairRun.waits (hr : M.FairRun run turn) {i : Nat} (h : I (run i)) (n : Nat) :
    (∃ j, i ≤ j ∧ (goal (run j) ∨ rank (run j) < rank (run i)))
      ∨ rank (run (i + n)) = rank (run i) ∧ helper (run (i + n)) = helper (run i) := by
  induction n with
  | zero => exact .inr ⟨rfl, rfl⟩
  | succ n ih =>
      rcases ih with hdone | ⟨hrank, hhelper⟩
      · exact .inl hdone
      · by_cases hgoal : goal (run (i + n))
        · exact .inl ⟨i + n, Nat.le_add_right i n, .inl hgoal⟩
        · rcases hr.moves (i + n) with hmove | ⟨-, hsame⟩
          · rcases hstep _ _ _ (hr.keeps hinv (Nat.le_add_right i n) h) hgoal hmove with
              hlt | ⟨heq, hkept, -⟩
            · exact .inl ⟨i + n + 1, by omega, .inr (by omega)⟩
            · exact .inr ⟨heq.trans hrank, hkept.trans hhelper⟩
          · exact .inr ⟨by rw [← hrank, ← hsame]; rfl, by rw [← hhelper, ← hsame]; rfl⟩

include hinv hcan hstep in
/-- **The rule for fair runs.** -/
theorem FairRun.reaches (hr : M.FairRun run turn) {i : Nat} (h : I (run i)) :
    ∃ j, i ≤ j ∧ goal (run j) := by
  -- by induction on the rank: when the helper has its turn the rank has sunk
  induction hk : rank (run i) using Nat.strongRecOn generalizing i with
  | _ k ih =>
      have hlower : ∀ j, i ≤ j → rank (run j) < rank (run i) → ∃ l, i ≤ l ∧ goal (run l) := by
        intro j hij hlt
        obtain ⟨l, hjl, hgoal⟩ := ih _ (hk ▸ hlt) (hr.keeps hinv hij h) rfl
        exact ⟨l, hij.trans hjl, hgoal⟩
      obtain ⟨j, hij, hturn⟩ := hr.fair (helper (run i)) i
      obtain ⟨n, rfl⟩ := Nat.exists_eq_add_of_le hij
      rcases hr.waits hinv hstep h n with ⟨l, hil, hgoal | hlt⟩ | ⟨hrank, hhelper⟩
      · exact ⟨l, hil, hgoal⟩
      · exact hlower l hil hlt
      · by_cases hgoal : goal (run (i + n))
        · exact ⟨i + n, hij, hgoal⟩
        · have hI := hr.keeps hinv hij h
          rw [← hhelper] at hturn
          rcases hr.moves (i + n) with hmove | ⟨hnone, -⟩
          · rcases hstep _ _ _ hI hgoal hmove with hlt | ⟨-, -, hother⟩
            · exact hlower (i + n + 1) (by omega) (by omega)
            · exact absurd hturn hother
          · rw [hturn] at hnone
            exact absurd hnone (hcan _ hI hgoal)

end Reaches

/-- The run of a schedule. -/
def follow (M : Machine σ ι) (s : σ) (turn : Nat → ι) : Nat → σ
  | 0 => s
  | i + 1 => (M.next (M.follow s turn i) (turn i)).getD (M.follow s turn i)

/-- **Every state has a fair run**, if the labels can be enumerated. -/
theorem exists_fairRun (M : Machine σ ι) (s : σ) {e : Nat → ι} (he : Function.Surjective e) :
    ∃ run turn, run 0 = s ∧ M.FairRun run turn := by
  refine ⟨M.follow s fun i => e i.unpair.1, fun i => e i.unpair.1, rfl, fun i => ?_, fun a i => ?_⟩
  · cases hn : M.next (M.follow s (fun i => e i.unpair.1) i) (e i.unpair.1) with
    | some s' => exact .inl (by rw [follow, hn]; rfl)
    | none => exact .inr ⟨rfl, by rw [follow, hn]; rfl⟩
  · obtain ⟨k, rfl⟩ := he a
    exact ⟨Nat.pair k i, Nat.right_le_pair k i, by rw [Nat.unpair_pair]⟩

end OSLab.Machine
