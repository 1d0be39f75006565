import OSLab.Topsort.Order
import Mathlib.Data.Fintype.Card
import Mathlib.Logic.Relation

set_option autoImplicit false

/-! # On an acyclic graph the workers make progress

A worker that cannot move waits for a predecessor, waits for `sem_mtx` or has exited. Nobody waits
for `sem_mtx` when nothing moves, since whoever holds it can move. Of the workers still in their
waiting loop one has no predecessor in it, the graph being acyclic (`exists_source`): all its
predecessors have exited, so by `Counts` all its tokens are there.
-/

namespace OSLab.Topsort

variable {n : Nat} {A : Nat → Int} {s : State} {id : Nat}

/-! ## Acyclic graphs -/

section Acyclic

variable {α : Type*} {r : α → α → Prop}

/-- No path from a vertex back to it. -/
def Acyclic (r : α → α → Prop) : Prop := ∀ a, ¬ Relation.TransGen r a a

theorem Acyclic.wellFounded [Finite α] (h : Acyclic r) : WellFounded r := by
  have hpaths : WellFounded (Relation.TransGen r) :=
    have : Std.Irrefl (Relation.TransGen r) := ⟨h⟩
    Finite.wellFounded_of_trans_of_irrefl _
  exact hpaths.mono fun _ _ hab => .single hab

/-- A numbering that grows along the edges. -/
theorem acyclic_of_rank (f : α → Nat) (h : ∀ a b, r a b → f a < f b) : Acyclic r := by
  have hpath : ∀ a b, Relation.TransGen r a b → f a < f b := by
    intro a b hab
    induction hab with
    | single hab => exact h _ _ hab
    | tail _ hbc ih => exact ih.trans (h _ _ hbc)
  exact fun a ha => lt_irrefl _ (hpath a a ha)

/-- Of some vertices, one has no predecessor among them. -/
theorem exists_source [Finite α] (h : Acyclic r) {S : Set α} (hne : S.Nonempty) :
    ∃ a ∈ S, ∀ b, r b a → b ∉ S := by
  obtain ⟨a, ha, hmin⟩ := h.wellFounded.has_min S hne
  exact ⟨a, ha, fun b hb hbS => hmin b hbS hb⟩

end Acyclic

/-- The edges between distinct vertices, as the workers test them. -/
def Edge (n : Nat) (A : Nat → Int) (u v : Fin n) : Prop := edge n A u v = true

/-! ## Who cannot move -/

/-- The ways in which a worker cannot move. -/
inductive Blocked (n : Nat) (A : Nat → Int) (s : State) (id : Nat) : Prop
  | awaits {i : Nat} (hpc : s.worker id = .await i) (hi : i < n) (he : edge n A i id = true)
      (hs : s.semSync id = 0)
  | locks (hpc : s.worker id = .lock) (hm : s.semMtx = 0)
  | exited (hpc : s.worker id = .exited)

theorem blocked_of_none (h : workerStep n A s id = none) : Blocked n A s id := by
  unfold workerStep at h
  cases hpc : s.worker id with
  | await i =>
      simp only [hpc] at h
      split_ifs at h with hi he hs
      exact .awaits hpc hi he (by omega)
  | lock =>
      simp only [hpc] at h
      split_ifs at h with hm
      exact .locks hpc (by omega)
  | exited => exact .exited hpc
  | signal i =>
      simp only [hpc] at h
      split_ifs at h
  | _ => simp [hpc] at h

theorem Blocked.not_critical (h : Blocked n A s id) : (s.worker id).critical = false := by
  cases h with
  | awaits hpc => simp [hpc]
  | locks hpc => simp [hpc]
  | exited hpc => simp [hpc]

/-- When nobody moves, nobody waits for `sem_mtx`. -/
theorem Counts.mtx_free (hc : Counts n A s) (hb : ∀ id, id < n → Blocked n A s id) :
    s.semMtx = 1 := by
  have hzero : Nat.count (fun u => (s.worker u).critical = true) n = 0 := by
    by_contra hne
    obtain ⟨u, hu, hcrit⟩ := Nat.count_ne_iff_exists.mp hne
    rw [(hb u hu).not_critical] at hcrit
    cases hcrit
  have := hc.mtx
  omega

/-- **A worker all of whose predecessors have exited has its tokens.** -/
theorem Counts.not_awaits (hc : Counts n A s) {v i : Nat} (hv : v < n) (hpc : s.worker v = .await i)
    (hi : i < n) (he : edge n A i v = true)
    (hexited : ∀ u, u < n → edge n A u v = true → s.worker u = .exited) : 0 < s.semSync v := by
  have hsent : Nat.count (fun u => edge n A u v = true ∧ (s.worker u).sent v = true) n
      = Nat.count (fun u => edge n A u v = true) n := by
    apply count_congr
    intro u hu
    constructor
    · exact And.left
    · intro hedge
      exact ⟨hedge, by simp [hexited u hu hedge]⟩
  -- the token of the edge from `i` has not been taken
  have htaken : (s.worker v).taken n A v < Nat.count (fun u => edge n A u v = true) n := by
    rw [hpc, WorkerPc.taken_await]
    exact Nat.count_strict_mono he hi
  have hsync := hc.sync v hv
  omega

/-- When nobody moves, all workers have exited. -/
theorem Counts.exited_of_blocked (hc : Counts n A s) (hacyclic : Acyclic (Edge n A))
    (hb : ∀ id, id < n → Blocked n A s id) : ∀ id, id < n → s.worker id = .exited := by
  by_contra hsome
  push Not at hsome
  obtain ⟨w, hw, hne⟩ := hsome
  obtain ⟨⟨v, hv⟩, hwaits, hsource⟩ :=
    exists_source hacyclic (S := {u | s.worker u ≠ .exited}) ⟨⟨w, hw⟩, hne⟩
  have hexited : ∀ u, u < n → edge n A u v = true → s.worker u = .exited := by
    intro u hu he
    by_contra hnot
    exact hsource ⟨u, hu⟩ he hnot
  cases hb v hv with
  | awaits hpc hi he hs =>
      have hpos := hc.not_awaits hv hpc hi he hexited
      omega
  | locks _ hm =>
      have := hc.mtx_free hb
      omega
  | exited hpc => exact hwaits hpc

/-- **Progress.** On every matrix whose edges between distinct vertices form an acyclic graph, in
every state any interleaving reaches in which the boss has not completed its `n` operations
`P(sem_ntfy)`, some process can move. -/
theorem workers_progress (hacyclic : Acyclic (Edge n A)) (h : (machine n A).Reachable s)
    (hboss : s.boss ≠ n) : ¬ (machine n A).Stuck s := by
  intro hstuck
  have hc := counts_reachable h
  have hb : ∀ id, id < n → Blocked n A s id := by
    intro id hid
    have hnone : (if id < n then workerStep n A s id else none) = none := hstuck (.worker id)
    rw [if_pos hid] at hnone
    exact blocked_of_none hnone
  have hexited := hc.exited_of_blocked hacyclic hb
  -- as many notifications have come as there are workers
  have hntfy : s.semNtfy + s.boss = n := by
    rw [hc.ntfy]
    exact Nat.count_iff_forall.mpr hexited
  have hnone : bossStep n s = none := hstuck .boss
  unfold bossStep at hnone
  split_ifs at hnone with hmoves
  exact hmoves ⟨by omega, by omega⟩

/-- Two workers with the edge `0 → 1` and a self-loop: worker `1` waits. -/
theorem workers_progress_edge :
    ∃ s, (machine 2 fun i => if i = 1 ∨ i = 3 then 1 else 0).Reachable s
      ∧ s.worker 1 = .await 0 ∧ s.semSync 1 = 0
      ∧ ¬ (machine 2 fun i => if i = 1 ∨ i = 3 then 1 else 0).Stuck s := by
  have hacyclic : Acyclic (Edge 2 fun i => if i = 1 ∨ i = 3 then 1 else 0) := by
    apply acyclic_of_rank Fin.val
    unfold Edge
    decide
  obtain ⟨s, hs, hp⟩ : ∃ s, (machine 2 fun i => if i = 1 ∨ i = 3 then 1 else 0).Reachable s
      ∧ decide ((s.worker 1 = .await 0 ∧ s.semSync 1 = 0) ∧ s.boss ≠ 2) = true :=
    Machine.exists_reachable_of_exec (s := setup fun _ => 0) (l := List.replicate 9 (.worker 0))
      ⟨_, rfl⟩ (by decide)
  obtain ⟨⟨hpc, hsync⟩, hboss⟩ := of_decide_eq_true hp
  exact ⟨s, hs, hpc, hsync, workers_progress hacyclic hs hboss⟩

end OSLab.Topsort
