import Mathlib.Logic.Function.Iterate

set_option autoImplicit false

/-! # Machines: labelled steps, guarded runs, invariants

A machine has initial states and a partial step for each label; a label names the party that
moves and whatever choice it makes, so an interleaving is a list of labels. Every safety
statement of the development is about the states a run reaches, in one of two forms: over all
runs (`Machine.Reachable`), or over the runs whose every step meets a condition on the state
the step starts from (`Machine.ReachableWhen`).

The induction over a run is done once, in `ReachableWhen.invariant`; a concrete run is
replayed by `Machine.exec`, which is what the counterexamples evaluate.
-/

namespace OSLab

/-- Initial states, and the state a label leads to where that label can move. -/
structure Machine (σ ι : Type*) where
  init : σ → Prop
  next : σ → ι → Option σ

namespace Machine

variable {σ ι : Type*} {M : Machine σ ι}

/-- The states reached by the runs of `M` whose steps all meet `ok`. -/
inductive ReachableWhen (M : Machine σ ι) (ok : σ → ι → Prop) : σ → Prop
  | init {s : σ} : M.init s → ReachableWhen M ok s
  | step {s s' : σ} {a : ι} :
      ReachableWhen M ok s → ok s a → M.next s a = some s' → ReachableWhen M ok s'

/-- The states reached by all runs of `M`. -/
abbrev Reachable (M : Machine σ ι) : σ → Prop := M.ReachableWhen (fun _ _ => True)

/-- No label can move. -/
def Stuck (M : Machine σ ι) (s : σ) : Prop := ∀ a, M.next s a = none

/-! ## Invariants -/

/-- **The invariant rule.** What holds initially and is preserved by every step that meets
`ok` holds in every state a run of such steps reaches. -/
theorem ReachableWhen.invariant {ok : σ → ι → Prop} {I : σ → Prop}
    (hinit : ∀ s, M.init s → I s)
    (hstep : ∀ s a s', I s → ok s a → M.next s a = some s' → I s')
    {s : σ} (h : M.ReachableWhen ok s) : I s := by
  induction h with
  | init h => exact hinit _ h
  | step _ hok hs ih => exact hstep _ _ _ ih hok hs

/-- The rule for an invariant that leans on an earlier one. -/
theorem ReachableWhen.invariant_of {ok : σ → ι → Prop} {J I : σ → Prop}
    (hJ : ∀ s, M.ReachableWhen ok s → J s)
    (hinit : ∀ s, M.init s → I s)
    (hstep : ∀ s a s', J s → I s → ok s a → M.next s a = some s' → I s')
    {s : σ} (h : M.ReachableWhen ok s) : I s := by
  induction h with
  | init h => exact hinit _ h
  | step hr hok hs ih => exact hstep _ _ _ (hJ _ hr) ih hok hs

/-- Runs under a condition are runs under a weaker one. -/
theorem ReachableWhen.mono {ok ok' : σ → ι → Prop} (hok : ∀ s a, ok s a → ok' s a) {s : σ}
    (h : M.ReachableWhen ok s) : M.ReachableWhen ok' s := by
  induction h with
  | init h => exact .init h
  | step _ ha hs ih => exact .step ih (hok _ _ ha) hs

/-- Runs under a condition are runs. -/
theorem ReachableWhen.reachable {ok : σ → ι → Prop} {s : σ} (h : M.ReachableWhen ok s) :
    M.Reachable s := h.mono fun _ _ _ => trivial

/-! ## What comes later in a run -/

/-- `M` started in the state `s`: what it reaches is what a run through `s` reaches later. -/
def startedIn (M : Machine σ ι) (s : σ) : Machine σ ι := { M with init := fun s' => s' = s }

/-- Where a run went through `s`, what is reached from `s` is reached. -/
theorem ReachableWhen.of_startedIn {ok : σ → ι → Prop} {s s' : σ} (h : M.ReachableWhen ok s)
    (h' : (M.startedIn s).ReachableWhen ok s') : M.ReachableWhen ok s' := by
  induction h' with
  | init hs => exact hs ▸ h
  | step _ hok hs ih => exact .step ih hok hs

/-- What holds in `s`, and is preserved by the steps of the runs through `s`, holds in every state
that such a run reaches later. -/
theorem ReachableWhen.later {ok : σ → ι → Prop} {I : σ → Prop} {s s' : σ}
    (h : M.ReachableWhen ok s) (hs : I s)
    (hstep : ∀ s a s', M.ReachableWhen ok s → I s → ok s a → M.next s a = some s' → I s')
    (h' : (M.startedIn s).ReachableWhen ok s') : I s' :=
  h'.invariant_of (fun _ => h.of_startedIn) (fun _ hi => hi ▸ hs) hstep

/-- **A machine that follows a plan.** When each step leaves the state related to the same point of the
plan or to the next one, every state of a run is related to a point of the plan. -/
theorem ReachableWhen.follows {ok : σ → ι → Prop} {π : Type*} {R : σ → π → Prop} (turn : π → π)
    {start : π} (hinit : ∀ s, M.init s → R s start)
    (hstep : ∀ s a s' y, R s y → ok s a → M.next s a = some s' → R s' y ∨ R s' (turn y))
    {s : σ} (h : M.ReachableWhen ok s) : ∃ m, R s (turn^[m] start) := by
  refine h.invariant (I := fun s => ∃ m, R s (turn^[m] start)) (fun s hs => ⟨0, hinit s hs⟩) ?_
  rintro s a s' ⟨m, hR⟩ hok hs
  rcases hstep s a s' _ hR hok hs with hsame | hnext
  · exact ⟨m, hsame⟩
  · exact ⟨m + 1, by rwa [Function.iterate_succ_apply']⟩

/-! ## Histories -/

section History

variable {η : Type*} {start : η} {record : σ → ι → η → η} {t t' : σ × η} {a : ι}

/-- `M` with a record of its steps beside it, which no step reads. -/
def withHistory (M : Machine σ ι) (start : η) (record : σ → ι → η → η) : Machine (σ × η) ι where
  init t := M.init t.1 ∧ t.2 = start
  next t a := (M.next t.1 a).map fun s' => (s', record t.1 a t.2)

theorem withHistory_next (h : (M.withHistory start record).next t a = some t') :
    M.next t.1 a = some t'.1 ∧ t'.2 = record t.1 a t.2 := by
  obtain ⟨s', hs, rfl⟩ := Option.map_eq_some_iff.mp h
  exact ⟨hs, rfl⟩

/-- Without the record, a run is a run of `M`. -/
theorem ReachableWhen.of_withHistory {ok : σ → ι → Prop}
    (h : (M.withHistory start record).ReachableWhen (fun t a => ok t.1 a) t) :
    M.ReachableWhen ok t.1 := by
  induction h with
  | init h => exact .init h.1
  | step _ hok hs ih => exact .step ih hok (withHistory_next hs).1

end History

/-! ## Runs that end -/

section Rank

/-- A run that goes on for ever. -/
def InfiniteRun (M : Machine σ ι) (run : Nat → σ) : Prop :=
  M.init (run 0) ∧ ∀ i, ∃ a, M.next (run i) a = some (run (i + 1))

variable {rank : σ → Nat} (hrank : ∀ s a s', M.next s a = some s' → rank s' < rank s)
include hrank

theorem not_infiniteRun (run : Nat → σ) : ¬ M.InfiniteRun run := by
  rintro ⟨-, hrun⟩
  have hle : ∀ i, rank (run i) + i ≤ rank (run 0) := by
    intro i
    induction i with
    | zero => exact Nat.le_refl _
    | succ i ih =>
        obtain ⟨a, ha⟩ := hrun i
        have := hrank _ a _ ha
        omega
  have := hle (rank (run 0) + 1)
  omega

/-- Every run can be followed up to where no label can move. -/
theorem exists_stuck {s : σ} (h : M.Reachable s) : ∃ s', M.Reachable s' ∧ M.Stuck s' := by
  induction hr : rank s using Nat.strongRecOn generalizing s with
  | _ r ih =>
      by_cases hstuck : M.Stuck s
      · exact ⟨s, h, hstuck⟩
      · obtain ⟨a, ha⟩ := not_forall.mp hstuck
        obtain ⟨s', hs⟩ := Option.ne_none_iff_exists'.mp ha
        exact ih (rank s') (hr ▸ hrank s a s' hs) (.step h trivial hs) rfl

end Rank

/-- From a state with `I` no run of steps that meet `ok` goes on for ever, if these steps keep `I` and
lower the rank. -/
theorem not_infinite_from {I : σ → Prop} (ok : σ → ι → Prop) (rank : σ → Nat)
    (hstep : ∀ s a s', I s → ok s a → M.next s a = some s' → I s' ∧ rank s' < rank s)
    {run : Nat → σ} (h : I (run 0)) :
    ¬ ∀ i, ∃ a, ok (run i) a ∧ M.next (run i) a = some (run (i + 1)) := by
  intro hrun
  have hle : ∀ i, I (run i) ∧ rank (run i) + i ≤ rank (run 0) := by
    intro i
    induction i with
    | zero => exact ⟨h, Nat.le_refl _⟩
    | succ i ih =>
        obtain ⟨a, hok, ha⟩ := hrun i
        obtain ⟨hi, hlt⟩ := hstep _ a _ ih.1 hok ha
        exact ⟨hi, by omega⟩
  have := (hle (rank (run 0) + 1)).2
  omega

/-- The state after the labels of a list, if each of them can move in turn. -/
def exec (M : Machine σ ι) : σ → List ι → Option σ
  | s, [] => some s
  | s, a :: as => (M.next s a).bind fun s' => exec M s' as

theorem reachable_of_exec {s s' : σ} {l : List ι} (hs : M.Reachable s)
    (h : M.exec s l = some s') : M.Reachable s' := by
  induction l generalizing s with
  | nil =>
      simp only [exec, Option.some.injEq] at h
      exact h ▸ hs
  | cons a l ih =>
      simp only [exec, Option.bind_eq_some_iff] at h
      obtain ⟨s₁, h₁, h₂⟩ := h
      exact ih (.step hs trivial h₁) h₂

/-- A replayed run that ends in a state with `p` gives a reachable state with `p`. -/
theorem exists_reachable_of_exec {s : σ} {l : List ι} {p : σ → Bool} (hs : M.init s)
    (h : (M.exec s l).any p = true) : ∃ s', M.Reachable s' ∧ p s' = true := by
  cases he : M.exec s l with
  | none => simp [he] at h
  | some s' =>
      rw [he, Option.any_some] at h
      exact ⟨s', reachable_of_exec (.init hs) he, h⟩

/-- The replay of a run whose steps all meet `ok`, which is tested before each step. -/
def execWhen (M : Machine σ ι) (ok : σ → ι → Prop) [∀ s a, Decidable (ok s a)] :
    σ → List ι → Option σ
  | s, [] => some s
  | s, a :: as => if ok s a then (M.next s a).bind fun s' => execWhen M ok s' as else none

variable {ok : σ → ι → Prop} [∀ s a, Decidable (ok s a)]

theorem reachableWhen_of_execWhen {s s' : σ} {l : List ι} (hs : M.ReachableWhen ok s)
    (h : M.execWhen ok s l = some s') : M.ReachableWhen ok s' := by
  induction l generalizing s with
  | nil =>
      simp only [execWhen, Option.some.injEq] at h
      exact h ▸ hs
  | cons a l ih =>
      simp only [execWhen] at h
      split at h
      · rename_i hok
        obtain ⟨s₁, h₁, h₂⟩ := Option.bind_eq_some_iff.mp h
        exact ih (.step hs hok h₁) h₂
      · cases h

theorem exists_reachableWhen_of_execWhen {s : σ} {l : List ι} {p : σ → Bool} (hs : M.init s)
    (h : (M.execWhen ok s l).any p = true) : ∃ s', M.ReachableWhen ok s' ∧ p s' = true := by
  cases he : M.execWhen ok s l with
  | none => simp [he] at h
  | some s' =>
      rw [he, Option.any_some] at h
      exact ⟨s', reachableWhen_of_execWhen (.init hs) he, h⟩

end Machine

end OSLab
