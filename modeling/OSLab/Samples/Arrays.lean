import OSLab.Samples.Workers
import Mathlib.Logic.Function.Iterate

set_option autoImplicit false

/-! # What the workers do to the arrays

Every update of `A[i]` replaces the value by the next one of the `3x + 1` sequence, and `C[i]` counts
the updates. So at any time `A[i]` is as far in the sequence from its first value as `C[i]` says, and
one further when a worker is between its two writes (`Accounts`). The counts of the workers add up
to the same total (`total`), up to those who have not added theirs yet.

The first values are below `1000`, and from none of them the sequence ever goes past `250504`, which
is checked for each of them up to where it gets below that value (`sinks_start`). So `3 * s + 1` never
goes past the range of an `int`.
-/

namespace OSLab.Samples.Workers

open Pthread

variable {rand : Nat → Nat} {s s' : State} {w i : Nat} {p p' : WorkerPc}

/-! ## The invariant -/

/-- The worker has written `A[i]` and not `C[i]`. -/
def updated (i : Nat) : WorkerPc → Bool
  | .readC j | .writeC j _ => j == i
  | _ => false

/-- The worker has written `C[i]` and not its own count. -/
def uncounted : WorkerPc → Bool
  | .unlockCs | .addCount => true
  | _ => false

/-- The index that the worker has drawn. -/
def WorkerPc.index : WorkerPc → Option Nat
  | .lockCs i | .readA i | .writeA i _ | .readC i | .writeC i _ => some i
  | _ => none

/-- The arrays account for the updates made, and the workers' counts for those they have added. -/
structure Accounts (rand : Nat → Nat) (s : State) : Prop where
  index : ∀ w p i, s.place (.worker w) = some p → p.index = some i → i < S
  value : ∀ w i v, s.place (.worker w) = some (.writeA i v) → s.data.A i = v
  updates : ∀ w i v, s.place (.worker w) = some (.writeC i v) → s.data.C i = v
  arrays : ∀ i, s.data.A i = newValue^[s.data.C i + number (updated i) s] (initArrays rand i)
  total : ∑ i ∈ Finset.range S, s.data.C i
    = (∑ w ∈ Finset.range N, s.data.count w) + number uncounted s

theorem accounts_start : Accounts rand (start rand) where
  index w p i h := by cases h
  value w i v h := by cases h
  updates w i v h := by cases h
  arrays i := by simp [start, number, isAt]
  total := by simp [start, number, isAt]

/-- The arrays, when none of them changes. -/
theorem Accounts.stays (h : Accounts rand s) {b : Bool} {k : Nat}
    (hdata : s'.data = { s.data with mdone := b, calls := k }) (hstays : ∀ u, Stays s s' u) :
    Accounts rand s' where
  index u q i hq hi := by
    refine h.index u q i ((hstays u).same hq ?_ ?_) hi
    · rintro rfl
      cases hi
    · rintro rfl
      cases hi
  value u i v hq := by
    rw [hdata]
    exact h.value u i v ((hstays u).same hq WorkerPc.noConfusion WorkerPc.noConfusion)
  updates u i v hq := by
    rw [hdata]
    exact h.updates u i v ((hstays u).same hq WorkerPc.noConfusion WorkerPc.noConfusion)
  arrays i := by
    rw [hdata, number_stays hstays rfl rfl]
    exact h.arrays i
  total := by
    rw [hdata, number_stays hstays rfl rfl]
    exact h.total

/-! ## One move of a worker -/

section Move

variable {x x' : Shared} {n n' a v : Nat} (h : WorkerMove rand w x p x' p')
include h

theorem WorkerMove.index (hi : p'.index = some i) : p.index = some i ∨ i < S := by
  cases h with
  | draw =>
      cases hi
      exact .inr (Nat.mod_lt _ (by decide))
  | _ => first | exact .inl hi | cases hi

theorem WorkerMove.keeps_A : x'.A = x.A ∨ ∃ j v, p = .writeA j v := by
  cases h with
  | writeA => exact .inr ⟨_, _, rfl⟩
  | _ => exact .inl rfl

theorem WorkerMove.keeps_C : x'.C = x.C ∨ ∃ j v, p = .writeC j v := by
  cases h with
  | writeC => exact .inr ⟨_, _, rfl⟩
  | _ => exact .inl rfl

/-- A worker that has read `A[i]` knows it. -/
theorem WorkerMove.value (hp : p' = .writeA i v) : x'.A i = v := by
  cases h with
  | readA =>
      cases hp
      rfl
  | _ => cases hp

theorem WorkerMove.updates (hp : p' = .writeC i v) : x'.C i = v := by
  cases h with
  | readC =>
      cases hp
      rfl
  | _ => cases hp

/-- The entry `i` and the updates of it. -/
theorem WorkerMove.arrays (hvalue : ∀ j v, p = .writeA j v → x.A j = v)
    (hupdates : ∀ j v, p = .writeC j v → x.C j = v)
    (hn : n' + (if updated i p = true then 1 else 0) = n + if updated i p' = true then 1 else 0)
    (hA : x.A i = newValue^[x.C i + n] a) : x'.A i = newValue^[x'.C i + n'] a := by
  cases h with
  | @writeA j v =>
      have hv := hvalue j v rfl
      simp only
      by_cases hj : j = i
      · subst hj
        have hlen : n' = n + 1 := by simpa [updated] using hn
        rw [Function.update_self, hlen, ← Nat.add_assoc, Function.iterate_succ_apply', ← hA, hv]
      · have hlen : n' = n := by simpa [updated, hj] using hn
        rw [Function.update_of_ne (Ne.symm hj), hlen, hA]
  | @writeC j v =>
      have hv := hupdates j v rfl
      simp only
      by_cases hj : j = i
      · subst hj
        have hlen : n' + 1 = n := by simpa [updated] using hn
        rw [Function.update_self, ← hv, Nat.add_assoc, Nat.add_comm 1 n', hlen, hA]
      · have hlen : n' = n := by simpa [updated, hj] using hn
        rw [Function.update_of_ne (Ne.symm hj), hlen, hA]
  | _ =>
      have hlen : n' = n := by simpa [updated] using hn
      rw [hlen, hA]

/-- All updates and those that the workers have counted. -/
theorem WorkerMove.total (hw : w < N) (hindex : ∀ j, p.index = some j → j < S)
    (hupdates : ∀ j v, p = .writeC j v → x.C j = v)
    (hn : n' + (if uncounted p = true then 1 else 0) = n + if uncounted p' = true then 1 else 0)
    (ht : ∑ j ∈ Finset.range S, x.C j = (∑ u ∈ Finset.range N, x.count u) + n) :
    ∑ j ∈ Finset.range S, x'.C j = (∑ u ∈ Finset.range N, x'.count u) + n' := by
  cases h with
  | @writeC j v =>
      have hsum := sum_change (f := x.C) (g := Function.update x.C j (v + 1)) (hindex j rfl)
        fun k _ hk => (Function.update_of_ne hk _ _).symm
      have hv := hupdates j v rfl
      have hlen : n' = n + 1 := by simpa [uncounted] using hn
      rw [Function.update_self] at hsum
      simp only
      omega
  | addCount =>
      have hsum := sum_change (f := x.count) (g := Function.update x.count w (x.count w + 1)) hw
        fun k _ hk => (Function.update_of_ne hk _ _).symm
      have hlen : n' + 1 = n := by simpa [uncounted] using hn
      rw [Function.update_self] at hsum
      simp only
      omega
  | _ =>
      have hlen : n' = n := by simpa [uncounted] using hn
      rw [hlen]
      exact ht

end Move

/-- **A step of a worker** keeps the accounts: nobody else is between reading and writing. -/
theorem Accounts.move (h : Accounts rand s) (hb : Basic s) (hw : w < N)
    (hp : s.place (.worker w) = some p) (hp' : s'.place (.worker w) = some p')
    (hm : WorkerMove rand w s.data p s'.data p') (hstays : ∀ u, u ≠ w → Stays s s' u) :
    Accounts rand s' where
  index u q i hq hi := by
    by_cases hu : u = w
    · subst hu
      obtain rfl := Option.some.inj (hp'.symm.trans hq)
      exact (hm.index hi).elim (h.index u p i hp) id
    · refine h.index u q i ((hstays u hu).same hq ?_ ?_) hi
      · rintro rfl
        cases hi
      · rintro rfl
        cases hi
  value u i v hq := by
    by_cases hu : u = w
    · subst hu
      exact hm.value (Option.some.inj (hp'.symm.trans hq))
    · have hq := (hstays u hu).same hq WorkerPc.noConfusion WorkerPc.noConfusion
      rcases hm.keeps_A with hA | ⟨j, v', rfl⟩
      · rw [hA]
        exact h.value u i v hq
      · exact absurd (Tid.worker.inj (hb.exclusive.unique (m := .cs) hq hp rfl rfl)) hu
  updates u i v hq := by
    by_cases hu : u = w
    · subst hu
      exact hm.updates (Option.some.inj (hp'.symm.trans hq))
    · have hq := (hstays u hu).same hq WorkerPc.noConfusion WorkerPc.noConfusion
      rcases hm.keeps_C with hC | ⟨j, v', rfl⟩
      · rw [hC]
        exact h.updates u i v hq
      · exact absurd (Tid.worker.inj (hb.exclusive.unique (m := .cs) hq hp rfl rfl)) hu
  arrays i := by
    refine hm.arrays (fun j v hj => h.value w j v (hj ▸ hp)) (fun j v hj => h.updates w j v (hj ▸ hp))
      (number_move hw hp hp' hstays rfl rfl) (h.arrays i)
  total := by
    refine hm.total hw (fun j hj => h.index w p j hp hj) (fun j v hj => h.updates w j v (hj ▸ hp))
      (number_move hw hp hp' hstays rfl rfl) h.total

theorem accounts_reachable {ok : State → Label Tid → Prop}
    (h : (machine rand).ReachableWhen ok s) : Accounts rand s := by
  refine h.invariant_of (J := Basic) (fun s hs => basic_reachable hs) ?_ ?_
  · rintro s rfl
    exact accounts_start
  · intro s a s' hb ha _ hs
    obtain ⟨w, p, p', hw, hp, hp', hm, hstays, -⟩ | ⟨⟨b, k, hdata⟩, hstays⟩ := change_cases hb hs
    · exact ha.move hb hw hp hp' hm hstays
    · exact ha.stays hdata hstays

/-! ## How far the sequence goes -/

/-- From `a` the sequence gets below `b` in less than `fuel` steps, and not past `bound` before. -/
def sinks (bound b : Nat) : Nat → Nat → Bool
  | 0, _ => false
  | fuel + 1, a => Nat.blt a b || Nat.ble a bound && sinks bound b fuel (newValue a)

theorem iterate_one (k : Nat) :
    newValue^[k] 1 = 1 ∨ newValue^[k] 1 = 2 ∨ newValue^[k] 1 = 4 := by
  induction k with
  | zero => exact .inl rfl
  | succ k ih =>
      rw [Function.iterate_succ_apply']
      rcases ih with h | h | h <;> rw [h] <;> decide

theorem newValue_pos {a : Nat} (h : 1 ≤ a) : 1 ≤ newValue a := by
  unfold newValue
  split <;> omega

/-- Where the sequence gets below `b`, its bound is that of the numbers below `b`. -/
theorem iterate_of_sinks {bound b fuel a : Nat} (ha : 1 ≤ a)
    (hlow : ∀ c, 1 ≤ c → c < b → ∀ k, 1 ≤ newValue^[k] c ∧ newValue^[k] c ≤ bound)
    (h : sinks bound b fuel a = true) (k : Nat) :
    1 ≤ newValue^[k] a ∧ newValue^[k] a ≤ bound := by
  induction fuel generalizing a k with
  | zero => cases h
  | succ fuel ih =>
      simp only [sinks, Bool.or_eq_true, Nat.blt_eq, Bool.and_eq_true, Nat.ble_eq] at h
      rcases h with hlt | ⟨hle, hrest⟩
      · exact hlow a ha hlt k
      · cases k with
        | zero => exact ⟨ha, hle⟩
        | succ k => exact ih (newValue_pos ha) hrest k

/-- The largest number that the sequence reaches from a first value. -/
def peak : Nat := 250504

/-- Every first value but `1` leads to a smaller one. -/
theorem sinks_start : ∀ a < 998, sinks peak (a + 2) 150 (a + 2) = true := by decide +kernel

theorem iterate_le {a : Nat} (hpos : 1 ≤ a) (hlt : a < 1000) (k : Nat) :
    1 ≤ newValue^[k] a ∧ newValue^[k] a ≤ peak := by
  induction a using Nat.strongRecOn generalizing k with
  | _ a ih =>
      by_cases hone : a = 1
      · subst hone
        have := iterate_one k
        have hpeak : 4 ≤ peak := by decide
        omega
      · have h := sinks_start (a - 2) (by omega)
        rw [Nat.sub_add_cancel (by omega)] at h
        exact iterate_of_sinks hpos (fun c hc hca => ih c hca hc (by omega)) h k

theorem iterate_start_le (rand : Nat → Nat) (i k : Nat) :
    1 ≤ newValue^[k] (initArrays rand i) ∧ newValue^[k] (initArrays rand i) ≤ peak := by
  have hmod := Nat.mod_lt (rand i) (by decide : 0 < 999)
  exact iterate_le (by simp [initArrays]) (by rw [initArrays]; omega) k

/-! ## The arrays in every state -/

/-- Of the workers that hold `csmutex` there is one at most, and none when it is free. -/
theorem number_le_one {f : WorkerPc → Bool} (hb : Basic s)
    (hf : ∀ w (p : WorkerPc), f p = true → holds (.worker w) p = some .cs) :
    number f s ≤ 1 ∧ (s.owner .cs = none → number f s = 0) := by
  refine ⟨?_, fun hfree => ?_⟩
  · by_cases hex : ∃ w, isAt f s w = true
    · obtain ⟨w, hw⟩ := hex
      obtain ⟨p, hp, hfp⟩ := isAt_iff.mp hw
      refine count_le_length (l := [w]) fun u _ hu => ?_
      obtain ⟨q, hq, hfq⟩ := isAt_iff.mp hu
      have heq := hb.exclusive.unique hq hp (hf u q hfq) (hf w p hfp)
      exact List.mem_singleton.mpr (Tid.worker.inj heq)
    · have hnone : number f s = 0 :=
        Nat.count_iff_forall_not.mpr fun w _ hw => hex ⟨w, hw⟩
      omega
  · refine Nat.count_iff_forall_not.mpr fun w _ hw => ?_
    obtain ⟨p, hp, hfp⟩ := isAt_iff.mp hw
    have howner := (hb.exclusive .cs (.worker w)).mpr ((holding_of hp).trans (hf w p hfp))
    rw [hfree] at howner
    cases howner

/-- **The arrays agree in every interleaving**: `A[i]` is what `C[i]` updates make of its first value,
or one update more while a worker is between its two writes, which takes `csmutex`. -/
theorem arrays_iterated (h : (machine rand).Reachable s) (i : Nat) :
    ∃ k, s.data.A i = newValue^[s.data.C i + k] (initArrays rand i) ∧ k ≤ 1
      ∧ (s.owner .cs = none → k = 0) := by
  refine ⟨number (updated i) s, (accounts_reachable h).arrays i, ?_⟩
  refine number_le_one (basic_reachable h) fun w p hp => ?_
  cases p with
  | readC j => rfl
  | writeC j v => rfl
  | _ => cases hp

/-- **No overflow**: neither an entry of `A` nor what a worker makes of one is ever past `250504`. -/
theorem arrays_bounded (h : (machine rand).Reachable s) :
    (∀ i, 1 ≤ s.data.A i ∧ s.data.A i ≤ peak)
      ∧ ∀ w i v, s.place (.worker w) = some (.writeA i v) →
        1 ≤ newValue v ∧ newValue v ≤ peak := by
  have ha := accounts_reachable h
  refine ⟨fun i => ?_, fun w i v hp => ?_⟩
  · rw [ha.arrays i]
    exact iterate_start_le rand i _
  · rw [← ha.value w i v hp, ha.arrays i, ← Function.iterate_succ_apply' newValue]
    exact iterate_start_le rand i _

/-- The first worker is between its two writes. -/
theorem arrays_run : ∃ s, (machine fun _ => 0).Reachable s
    ∧ s.place (.worker 0) = some (.readC 0) := by
  obtain ⟨s, hr, hs⟩ := Machine.exists_reachable_of_exec (M := machine fun _ => 0)
    (s := start fun _ => 0)
    (l := List.replicate 1 (.step .master none) ++ List.replicate 7 (.step (.worker 0) none))
    (p := fun s => decide (s.place (.worker 0) = some (.readC 0))) rfl (by decide +kernel)
  exact ⟨s, hr, of_decide_eq_true hs⟩

theorem arrays_iterated_run : ∃ s, (machine fun _ => 0).Reachable s
    ∧ s.place (.worker 0) = some (.readC 0)
    ∧ ∃ k, s.data.A 0 = newValue^[s.data.C 0 + k] (initArrays (fun _ => 0) 0) ∧ k ≤ 1
      ∧ (s.owner .cs = none → k = 0) := by
  obtain ⟨s, hr, hp⟩ := arrays_run
  exact ⟨s, hr, hp, arrays_iterated hr 0⟩

theorem arrays_bounded_run : ∃ s, (machine fun _ => 0).Reachable s
    ∧ s.place (.worker 0) = some (.readC 0) ∧ s.data.A 0 ≤ peak := by
  obtain ⟨s, hr, hp⟩ := arrays_run
  exact ⟨s, hr, hp, ((arrays_bounded hr).1 0).2⟩

end OSLab.Samples.Workers
