import OSLab.Topsort.Order
import OSLab.Lib.Loop

set_option autoImplicit false

/-! # The boss checks the order

`isTopologicalSortValid` counts the edges into each vertex and then goes through `T`: when the turn
of a vertex comes, no edge into it may be left, and the edges out of it are taken away. The array
`inDegree` has `MAX_NODES` cells and is indexed with a check here, so that there is a result only if
no index is out of range.

What is left of the in-degree of `v` after `i` vertices is the number of predecessors of `v` that
are not among `T[0..i-1]` (`pending`), as long as `T` names no vertex twice. So a result of `1` says
that every predecessor has come before, and a self-loop or a cycle never gets one.
-/

namespace OSLab.Topsort

def MAX_NODES : Nat := 100

/-- `inDegree[j] += z`. -/
def addAt (inDegree : Nat → Int) (j : Nat) (z : Int) : Option (Nat → Int) :=
  if j < MAX_NODES then some (Function.update inDegree j (inDegree j + z)) else none

/-- The inner loop over row `u`: `inDegree[j]++` for `z = 1`, and `inDegree[j]--` for `z = -1`. -/
def addRow (n : Nat) (A : Nat → Int) (z : Int) (u : Nat) (inDegree : Nat → Int) :
    Option (Nat → Int) :=
  (List.range n).foldlM
    (fun inDegree j => if A (u * n + j) = 1 then addAt inDegree j z else some inDegree) inDegree

/-- The in-degree of each vertex. -/
def countInDegree (n : Nat) (A : Nat → Int) : Option (Nat → Int) :=
  (List.range n).foldlM (fun inDegree i => addRow n A 1 i inDegree) fun _ => 0

/-- The second loop from index `i` on, with so many iterations to go. -/
def checkFrom (n : Nat) (A : Nat → Int) (T : Nat → Nat) : Nat → Nat → (Nat → Int) → Option Int
  | 0, _, _ => some 1
  | togo + 1, i, inDegree =>
      if MAX_NODES ≤ T i then none
      else if inDegree (T i) ≠ 0 then some 0
      else (addRow n A (-1) (T i) inDegree).bind (checkFrom n A T togo (i + 1))

def isTopologicalSortValid (A : Nat → Int) (T : Nat → Nat) (n : Nat) : Option Int :=
  (countInDegree n A).bind (checkFrom n A T n 0)

/-- `T[0..n-1]` has each vertex once. -/
structure Arrangement (n : Nat) (T : Nat → Nat) : Prop where
  lt : ∀ i < n, T i < n
  inj : ∀ i < n, ∀ j < n, T i = T j → i = j
  surj : ∀ v < n, ∃ i < n, T i = v

/-- The predecessors of `v` that are not among the first `i` of `T`. -/
def pending (n : Nat) (A : Nat → Int) (T : Nat → Nat) (i v : Nat) : Nat :=
  Nat.count (fun u => A (u * n + v) = 1 ∧ ∀ j < i, T j ≠ u) n

variable {n i v : Nat} {A : Nat → Int} {T : Nat → Nat} {s : State}

theorem arrangement_of_perm (hT : ((List.range n).map T).Perm (List.range n)) :
    Arrangement n T where
  lt := by
    intro i hi
    exact List.mem_range.mp (hT.mem_iff.mp (List.mem_map_of_mem (List.mem_range.mpr hi)))
  inj := by
    intro i hi j hj hij
    have hnodup : ((List.range n).map T).Nodup := hT.nodup_iff.mpr List.nodup_range
    exact List.inj_on_of_nodup_map hnodup (List.mem_range.mpr hi) (List.mem_range.mpr hj) hij
  surj := by
    intro v hv
    obtain ⟨i, hi, hiv⟩ := List.mem_map.mp (hT.mem_iff.mpr (List.mem_range.mpr hv))
    exact ⟨i, List.mem_range.mp hi, hiv⟩

/-! ## The loops over a row -/

/-- One row. -/
theorem addRow_spec (hn : n ≤ MAX_NODES) (A : Nat → Int) (z : Int) (u : Nat) (d : Nat → Int) :
    ∃ d', addRow n A z u d = some d'
      ∧ ∀ v < n, d' v = d v + if A (u * n + v) = 1 then z else 0 := by
  -- before index `j` the cells below `j` are done, and the others are as they were
  obtain ⟨d', hrun, hdone, -⟩ := foldlM_range (n := n) (s := d)
    (f := fun d j => if A (u * n + j) = 1 then addAt d j z else some d)
    (P := fun j d' => (∀ v < j, d' v = d v + if A (u * n + v) = 1 then z else 0)
      ∧ ∀ v, j ≤ v → d' v = d v)
    ⟨fun v hv => absurd hv (Nat.not_lt_zero v), fun _ _ => rfl⟩ (by
      rintro j d₁ hj ⟨hdone, hrest⟩
      by_cases hA : A (u * n + j) = 1
      · refine ⟨Function.update d₁ j (d₁ j + z), ?_, fun v hv => ?_, fun v hv => ?_⟩
        · rw [if_pos hA]
          exact if_pos (by omega)
        · rcases Nat.lt_succ_iff_lt_or_eq.mp hv with hlt | rfl
          · rw [Function.update_of_ne hlt.ne]
            exact hdone v hlt
          · rw [Function.update_self, hrest v le_rfl, if_pos hA]
        · rw [Function.update_of_ne (by omega)]
          exact hrest v (by omega)
      · refine ⟨d₁, if_neg hA, fun v hv => ?_, fun v hv => hrest v (by omega)⟩
        rcases Nat.lt_succ_iff_lt_or_eq.mp hv with hlt | rfl
        · exact hdone v hlt
        · rw [hrest v le_rfl, if_neg hA, add_zero])
  exact ⟨d', hrun, hdone⟩

/-- **The in-degrees.** -/
theorem countInDegree_spec (hn : n ≤ MAX_NODES) (A : Nat → Int) :
    ∃ d, countInDegree n A = some d
      ∧ ∀ v < n, d v = Nat.count (fun u => A (u * n + v) = 1) n := by
  apply foldlM_range
    (P := fun i (d : Nat → Int) => ∀ v < n, d v = Nat.count (fun u => A (u * n + v) = 1) i)
  · intro v _
    simp
  · intro i d _ hd
    obtain ⟨d', hrow, hd'⟩ := addRow_spec hn A 1 i d
    refine ⟨d', hrow, fun v hv => ?_⟩
    rw [hd' v hv, hd v hv, Nat.count_succ]
    split <;> simp

/-! ## The loop over the order -/

theorem pending_start (n : Nat) (A : Nat → Int) (T : Nat → Nat) (v : Nat) :
    pending n A T 0 v = Nat.count (fun u => A (u * n + v) = 1) n :=
  count_congr fun u _ => by simp

/-- The turn of `T i`: it is pending no more. -/
theorem pending_succ (h : Arrangement n T) (hi : i < n) (A : Nat → Int) (v : Nat) :
    pending n A T (i + 1) v + (if A (T i * n + v) = 1 then 1 else 0) = pending n A T i v := by
  have hchange := count_change
    (p := fun u => A (u * n + v) = 1 ∧ ∀ j < i + 1, T j ≠ u)
    (q := fun u => A (u * n + v) = 1 ∧ ∀ j < i, T j ≠ u) (h.lt i hi) (by
      intro u _ hu
      refine and_congr_right fun _ => ⟨fun hj j hji => hj j (by omega), fun hj j hji => ?_⟩
      rcases Nat.lt_succ_iff_lt_or_eq.mp hji with hlt | rfl
      · exact hj j hlt
      · exact hu.symm)
  have hfresh : ∀ j < i, T j ≠ T i := by
    intro j hj hji
    have := h.inj j (by omega) i hi hji
    omega
  have hgone : ¬ (A (T i * n + v) = 1 ∧ ∀ j < i + 1, T j ≠ T i) :=
    fun hc => hc.2 i (Nat.lt_succ_self i) rfl
  rw [if_neg hgone, add_zero] at hchange
  rw [pending, pending, hchange]
  congr 1
  exact if_congr (and_iff_left hfresh).symm rfl rfl

theorem pending_eq_zero :
    pending n A T i v = 0 ↔ ∀ u < n, A (u * n + v) = 1 → ∃ j < i, T j = u := by
  constructor
  · intro h u hu hA
    by_contra hj
    push Not at hj
    exact absurd (count_pos (p := fun u => A (u * n + v) = 1 ∧ ∀ j < i, T j ≠ u) hu ⟨hA, hj⟩)
      (by rw [pending] at h; omega)
  · intro h
    by_contra hne
    obtain ⟨u, hu, hA, hj⟩ := Nat.count_ne_iff_exists.mp hne
    obtain ⟨j, hji, hju⟩ := h u hu hA
    exact hj j hji hju

/-- **The loop.** -/
theorem checkFrom_spec (hn : n ≤ MAX_NODES) (h : Arrangement n T) (A : Nat → Int) {togo : Nat} :
    ∀ {i : Nat} {d : Nat → Int}, i + togo = n → (∀ v < n, d v = pending n A T i v) →
      ∃ r, checkFrom n A T togo i d = some r ∧ (r = 0 ∨ r = 1)
        ∧ (r = 1 ↔ ∀ j, i ≤ j → j < n → pending n A T j (T j) = 0) := by
  induction togo with
  | zero =>
      intro i d hi _
      refine ⟨1, rfl, .inr rfl, ?_⟩
      simp only [true_iff]
      intro j hij hj
      omega
  | succ togo ih =>
      intro i d hi hd
      have hin : i < n := by omega
      have hlt := h.lt i hin
      have hcell := hd (T i) hlt
      rw [checkFrom, if_neg (by omega)]
      by_cases hzero : pending n A T i (T i) = 0
      · rw [if_neg (by rw [hcell, hzero]; simp)]
        obtain ⟨d', hrow, hd'⟩ := addRow_spec hn A (-1) (T i) d
        obtain ⟨r, hrun, hr, hiff⟩ := ih (i := i + 1) (d := d') (by omega) (by
          intro v hv
          have hsucc := pending_succ h hin A v
          rw [hd' v hv, hd v hv]
          split_ifs at hsucc ⊢ <;> omega)
        refine ⟨r, by rw [hrow]; exact hrun, hr, hiff.trans ⟨fun hrest j hij hj => ?_, ?_⟩⟩
        · rcases hij.eq_or_lt with rfl | hlt
          · exact hzero
          · exact hrest j hlt hj
        · exact fun hall j hij hj => hall j (by omega) hj
      · -- the early return
        rw [if_pos (by rw [hcell]; exact_mod_cast hzero)]
        refine ⟨0, rfl, .inl rfl, ?_⟩
        simp only [zero_ne_one, false_iff]
        exact fun hall => hzero (hall i le_rfl hin)

/-- Nothing is pending when its turn comes: there is no self-loop, and the edges go forward. -/
theorem pending_none_iff (h : Arrangement n T) :
    (∀ j < n, pending n A T j (T j) = 0)
      ↔ (∀ u < n, A (u * n + u) ≠ 1) ∧ ∀ u < n, ∀ v < n, A (u * n + v) = 1 →
        ∃ i j, i < j ∧ j < n ∧ T i = u ∧ T j = v := by
  constructor
  · intro hnone
    have hforward : ∀ u < n, ∀ v < n, A (u * n + v) = 1 →
        ∃ i j, i < j ∧ j < n ∧ T i = u ∧ T j = v := by
      intro u hu v hv hA
      obtain ⟨j, hj, rfl⟩ := h.surj v hv
      obtain ⟨i, hij, hi⟩ := pending_eq_zero.mp (hnone j hj) u hu hA
      exact ⟨i, j, hij, hj, hi, rfl⟩
    refine ⟨fun u hu hA => ?_, hforward⟩
    obtain ⟨i, j, hij, hj, rfl, hloop⟩ := hforward u hu u hu hA
    have := h.inj j hj i (by omega) hloop
    omega
  · rintro ⟨-, hforward⟩ j hj
    apply pending_eq_zero.mpr
    intro u hu hA
    obtain ⟨i, j', hij, hj', hi, hjj⟩ := hforward u hu (T j) (h.lt j hj) hA
    obtain rfl := h.inj j' hj' j hj hjj
    exact ⟨i, hij, hi⟩

/-- The result tells whether a vertex had an edge pending. -/
theorem isTopologicalSortValid_spec (hn : n ≤ MAX_NODES) (h : Arrangement n T) (A : Nat → Int) :
    ∃ r, isTopologicalSortValid A T n = some r ∧ (r = 0 ∨ r = 1)
      ∧ (r = 1 ↔ ∀ j < n, pending n A T j (T j) = 0) := by
  obtain ⟨d, hcount, hd⟩ := countInDegree_spec hn A
  have hstart : ∀ v < n, d v = pending n A T 0 v := by
    intro v hv
    rw [hd v hv, pending_start]
  obtain ⟨r, hrun, hr, hiff⟩ := checkFrom_spec hn h A (Nat.zero_add n) hstart
  refine ⟨r, ?_, hr, hiff.trans ?_⟩
  · rw [isTopologicalSortValid, hcount]
    exact hrun
  · exact ⟨fun hall j hj => hall j (Nat.zero_le j) hj, fun hall j _ hj => hall j hj⟩

/-- **The checker is exact**: on a permutation of the vertices it returns `1` if and only if there
is no self-loop and every edge goes from an earlier to a later cell, and `0` otherwise. -/
theorem isTopologicalSortValid_iff {n : Nat} {A : Nat → Int} {T : Nat → Nat} (hn : n ≤ MAX_NODES)
    (hT : ((List.range n).map T).Perm (List.range n)) :
    ∃ r, isTopologicalSortValid A T n = some r ∧ (r = 0 ∨ r = 1)
      ∧ (r = 1 ↔ (∀ u < n, A (u * n + u) ≠ 1) ∧ ∀ u < n, ∀ v < n, A (u * n + v) = 1 →
        ∃ i j, i < j ∧ j < n ∧ T i = u ∧ T j = v) := by
  have h := arrangement_of_perm hT
  obtain ⟨r, hrun, hr, hiff⟩ := isTopologicalSortValid_spec hn h A
  exact ⟨r, hrun, hr, hiff.trans (pending_none_iff h)⟩

/-- Two vertices with the edge `1 → 0`, in the order `1`, `0`. -/
theorem isTopologicalSortValid_iff_edge :
    isTopologicalSortValid (fun x => if x = 2 then 1 else 0) (fun i => 1 - i) 2 = some 1
      ∧ ∃ r, isTopologicalSortValid (fun x => if x = 2 then 1 else 0) (fun i => 1 - i) 2 = some r
        ∧ (r = 0 ∨ r = 1)
        ∧ (r = 1 ↔ (∀ u < 2, (if u * 2 + u = 2 then (1 : Int) else 0) ≠ 1)
          ∧ ∀ u < 2, ∀ v < 2, (if u * 2 + v = 2 then (1 : Int) else 0) = 1 →
            ∃ i j, i < j ∧ j < 2 ∧ 1 - i = u ∧ 1 - j = v) := by
  refine ⟨by decide, ?_⟩
  apply isTopologicalSortValid_iff (A := fun x => if x = 2 then 1 else 0) (T := fun i => 1 - i)
  · decide
  · decide

/-- **What the boss reports** about the workers' order: it is invalid only for a self-loop, which
the workers pass over. -/
theorem checked_when_done (hn : n ≤ MAX_NODES) (h : (machine n A).Reachable s) (hb : s.boss = n) :
    isTopologicalSortValid A s.T n = some 1 ↔ ∀ u < n, A (u * n + u) ≠ 1 := by
  have hl := (appending_reachable h).listing
  have hall := appended_when_done h hb
  obtain ⟨hidx, hperm⟩ := hl.perm hall
  have harr := arrangement_of_perm hperm
  obtain ⟨r, hrun, -, hiff⟩ := isTopologicalSortValid_spec hn harr A
  rw [hrun, Option.some.injEq, hiff, pending_none_iff harr]
  refine ⟨And.left, fun hloop => ⟨hloop, fun u hu v hv hA => ?_⟩⟩
  rw [← hidx]
  apply hl.forward hall hu hv
  have huv : u ≠ v := fun hc => hloop u hu (hc ▸ hA)
  simp [edge, hA, huv]

end OSLab.Topsort
