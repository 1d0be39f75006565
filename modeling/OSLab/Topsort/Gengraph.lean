import OSLab.Topsort.Progress
import OSLab.Topsort.Checker
import OSLab.Foothread.Gentree

set_option autoImplicit false

/-! # The random graph of `gengraph.c`

The generator shuffles the vertices into `PERM`, with the same loops as `gentree.c`, and then fills
the matrix: the diagonal with `0`, and for each pair of indices `i < j` one of the two cells of
`PERM[i]` and `PERM[j]` at random and the other with `0`. The cells come from `malloc` and hold
nothing at first; they are written with a check of both indices. `rand` gives the results of
`rand()` in the order of the calls, and `test` says for which of them the quotient by `RAND_MAX` is
at most `p`.

An edge only goes forward in `PERM` (`Forward`), so the graph has no cycle. That no cell is left
over is another matter: the pairs of distinct vertices are the pairs of distinct indices, as `PERM`
is a permutation (`filled_cells`).
-/

namespace OSLab.Topsort

open Foothread (shuffle shuffle_perm perm_lt perm_get perm_index)

/-- `A[u][v] = x`. -/
def setEdge (n : Nat) (A : Nat → Nat → Option Int) (u v : Nat) (x : Int) :
    Option (Nat → Nat → Option Int) :=
  if u < n ∧ v < n then some (Function.update A u (Function.update (A u) v (some x))) else none

/-- The matrix, and how often `rand()` has been called. -/
structure Fill where
  A : Nat → Nat → Option Int
  calls : Nat

/-- One iteration of the inner loop. -/
def fillPair (rand : Nat → Nat) (test : Nat → Bool) (n : Nat) (perm : List Nat) (i : Nat) (s : Fill)
    (j : Nat) : Option Fill := do
  let u ← perm[i]?
  let v ← perm[j]?
  let A ← setEdge n s.A u v (if test (rand s.calls) then 1 else 0)
  let A ← setEdge n A v u 0
  pure ⟨A, s.calls + 1⟩

/-- One iteration of the outer loop. -/
def fillRow (rand : Nat → Nat) (test : Nat → Bool) (n : Nat) (perm : List Nat) (s : Fill)
    (i : Nat) : Option Fill := do
  let A ← setEdge n s.A i i 0
  (List.range' (i + 1) (n - (i + 1))).foldlM (fillPair rand test n perm i) { s with A := A }

/-- `PERM` and the matrix that is printed. The shuffle makes the first `n` calls of `rand()`. -/
def gengraph (rand : Nat → Nat) (test : Nat → Bool) (n : Nat) :
    Option (List Nat × (Nat → Nat → Option Int)) := do
  let perm ← shuffle rand n
  let s ← (List.range n).foldlM (fillRow rand test n perm) ⟨fun _ _ => none, n⟩
  pure (perm, s.A)

/-- The cells written hold `0` or `1`, and `1` for edges that go forward in `perm`. -/
structure Forward (perm : List Nat) (A : Nat → Nat → Option Int) : Prop where
  values : ∀ u v x, A u v = some x → x = 0 ∨ x = 1
  edges : ∀ u v, A u v = some 1 → ∃ i j : Nat, i < j ∧ perm[i]? = some u ∧ perm[j]? = some v

/-- No cell is lost. -/
def Keeps (A A' : Nat → Nat → Option Int) : Prop := ∀ u v, A u v ≠ none → A' u v ≠ none

/-- Both cells of the vertices at `i` and `j` have been written. -/
def PairFilled (perm : List Nat) (i j : Nat) (A : Nat → Nat → Option Int) : Prop :=
  ∀ u v, perm[i]? = some u → perm[j]? = some v → A u v ≠ none ∧ A v u ≠ none

/-- The cells of iteration `i` have been written. -/
def RowFilled (n : Nat) (perm : List Nat) (i : Nat) (A : Nat → Nat → Option Int) : Prop :=
  A i i ≠ none ∧ ∀ j, i < j → j < n → PairFilled perm i j A

variable {rand : Nat → Nat} {test : Nat → Bool} {n i j u v : Nat} {x : Int} {perm : List Nat}
  {A A' A'' : Nat → Nat → Option Int} {s : Fill}

theorem Keeps.refl (A : Nat → Nat → Option Int) : Keeps A A := fun _ _ h => h

theorem Keeps.trans (h : Keeps A A') (h' : Keeps A' A'') : Keeps A A'' :=
  fun u v hA => h' u v (h u v hA)

theorem PairFilled.keep (h : PairFilled perm i j A) (hk : Keeps A A') : PairFilled perm i j A' := by
  intro u v hu hv
  obtain ⟨huv, hvu⟩ := h u v hu hv
  exact ⟨hk u v huv, hk v u hvu⟩

theorem RowFilled.keep (h : RowFilled n perm i A) (hk : Keeps A A') : RowFilled n perm i A' :=
  ⟨hk i i h.1, fun j hij hj => (h.2 j hij hj).keep hk⟩

/-! ## The loops -/

/-- One cell. -/
theorem setEdge_spec (hu : u < n) (hv : v < n) (h : Forward perm A) (hx : x = 0 ∨ x = 1)
    (hedge : x = 1 → ∃ i j : Nat, i < j ∧ perm[i]? = some u ∧ perm[j]? = some v) :
    ∃ A', setEdge n A u v x = some A' ∧ Forward perm A' ∧ Keeps A A' ∧ A' u v ≠ none := by
  have hcell : ∀ a b, Function.update A u (Function.update (A u) v (some x)) a b
      = if a = u ∧ b = v then some x else A a b := by
    intro a b
    by_cases ha : a = u
    · subst ha
      rw [Function.update_self]
      by_cases hb : b = v
      · rw [hb, Function.update_self, if_pos ⟨rfl, rfl⟩]
      · rw [Function.update_of_ne hb, if_neg fun hc => hb hc.2]
    · rw [Function.update_of_ne ha, if_neg fun hc => ha hc.1]
  refine ⟨_, if_pos ⟨hu, hv⟩, ⟨fun a b y hy => ?_, fun a b hab => ?_⟩, fun a b hab => ?_, ?_⟩
  · rw [hcell] at hy
    split at hy
    · exact Option.some.inj hy ▸ hx
    · exact h.values a b y hy
  · rw [hcell] at hab
    split at hab
    case isTrue hc =>
      rw [hc.1, hc.2]
      exact hedge (Option.some.inj hab)
    case isFalse => exact h.edges a b hab
  · rw [hcell]
    split
    · exact Option.some_ne_none x
    · exact hab
  · rw [hcell, if_pos ⟨rfl, rfl⟩]
    exact Option.some_ne_none x

/-- One pair. -/
theorem fillPair_spec (rand : Nat → Nat) (test : Nat → Bool) (hperm : perm.Perm (List.range n))
    (hij : i < j) (hj : j < n) (h : Forward perm s.A) :
    ∃ s', fillPair rand test n perm i s j = some s'
      ∧ Forward perm s'.A ∧ Keeps s.A s'.A ∧ PairFilled perm i j s'.A := by
  obtain ⟨u, hu⟩ := perm_get hperm (hij.trans hj)
  obtain ⟨v, hv⟩ := perm_get hperm hj
  have hun := perm_lt hperm hu
  have hvn := perm_lt hperm hv
  obtain ⟨A₁, hrun₁, h₁, hkeep₁, huv⟩ := setEdge_spec (x := if test (rand s.calls) then 1 else 0)
    hun hvn h (by split <;> simp) (fun _ => ⟨i, j, hij, hu, hv⟩)
  obtain ⟨A₂, hrun₂, h₂, hkeep₂, hvu⟩ := setEdge_spec (x := 0) hvn hun h₁ (.inl rfl)
    (fun hc => absurd hc (by decide))
  refine ⟨⟨A₂, s.calls + 1⟩, ?_, h₂, hkeep₁.trans hkeep₂, fun a b ha hb => ?_⟩
  · simp only [fillPair, hu, hv, hrun₁, hrun₂, Option.bind_eq_bind, Option.bind_some]
    rfl
  · obtain rfl : u = a := Option.some.inj (hu.symm.trans ha)
    obtain rfl : v = b := Option.some.inj (hv.symm.trans hb)
    exact ⟨hkeep₂ u v huv, hvu⟩

/-- One row. -/
theorem fillRow_spec (rand : Nat → Nat) (test : Nat → Bool) (hperm : perm.Perm (List.range n))
    (hi : i < n) (h : Forward perm s.A) :
    ∃ s', fillRow rand test n perm s i = some s'
      ∧ Forward perm s'.A ∧ Keeps s.A s'.A ∧ RowFilled n perm i s'.A := by
  obtain ⟨A, hdiag, hA, hkeep, hii⟩ := setEdge_spec (x := 0) hi hi h (.inl rfl)
    (fun hc => absurd hc (by decide))
  -- before index `j` the pairs of `i` with the indices below `j` are filled
  obtain ⟨s', hrun, h', hkeep', hpairs⟩ := foldlM_range' (n := n)
    (f := fillPair rand test n perm i) (s := { s with A := A })
    (P := fun j s' => Forward perm s'.A ∧ Keeps A s'.A
      ∧ ∀ l, i < l → l < j → PairFilled perm i l s'.A)
    hi ⟨hA, Keeps.refl A, fun l hil hli => by omega⟩ (by
      rintro j s₁ hij hj ⟨h₁, hkeep₁, hpairs⟩
      obtain ⟨s₂, hrun, h₂, hkeep₂, hpair⟩ := fillPair_spec rand test hperm hij hj h₁
      refine ⟨s₂, hrun, h₂, hkeep₁.trans hkeep₂, fun l hil hl => ?_⟩
      rcases Nat.lt_succ_iff_lt_or_eq.mp hl with hlj | rfl
      · exact (hpairs l hil hlj).keep hkeep₂
      · exact hpair)
  refine ⟨s', ?_, h', hkeep.trans hkeep', hkeep' i i hii, hpairs⟩
  rw [fillRow, hdiag]
  exact hrun

/-- **Both loops.** -/
theorem fill_spec (rand : Nat → Nat) (test : Nat → Bool) (hperm : perm.Perm (List.range n)) :
    ∃ s, (List.range n).foldlM (fillRow rand test n perm) ⟨fun _ _ => none, n⟩ = some s
      ∧ Forward perm s.A ∧ ∀ i < n, RowFilled n perm i s.A := by
  apply foldlM_range
    (P := fun j (s : Fill) => Forward perm s.A ∧ ∀ i < j, RowFilled n perm i s.A)
  · refine ⟨⟨fun _ _ _ hx => ?_, fun _ _ hx => ?_⟩, fun i hi => absurd hi (Nat.not_lt_zero i)⟩
    · cases hx
    · cases hx
  · rintro j s hj ⟨h, hrows⟩
    obtain ⟨s', hrun, h', hkeep, hrow⟩ := fillRow_spec rand test hperm hj h
    refine ⟨s', hrun, h', fun i hi => ?_⟩
    rcases Nat.lt_succ_iff_lt_or_eq.mp hi with hij | rfl
    · exact (hrows i hij).keep hkeep
    · exact hrow

/-! ## The result -/

/-- **No cell is left over**: the diagonal and the pairs make up the matrix. -/
theorem filled_cells (hperm : perm.Perm (List.range n)) (h : ∀ i < n, RowFilled n perm i A)
    (hu : u < n) (hv : v < n) : A u v ≠ none := by
  have hindex : ∀ u < n, ∃ i < n, perm[i]? = some u := by
    intro u hu
    obtain ⟨i, hi⟩ := List.mem_iff_getElem?.mp (hperm.mem_iff.mpr (List.mem_range.mpr hu))
    have hlt := (List.getElem?_eq_some_iff.mp hi).1
    rw [hperm.length_eq, List.length_range] at hlt
    exact ⟨i, hlt, hi⟩
  obtain ⟨i, hin, hi⟩ := hindex u hu
  obtain ⟨j, hjn, hj⟩ := hindex v hv
  rcases lt_trichotomy i j with hij | rfl | hji
  · exact ((h i hin).2 j hij hjn u v hi hj).1
  · obtain rfl : u = v := Option.some.inj (hi.symm.trans hj)
    exact (h u hu).1
  · exact ((h j hjn).2 i hji hin v u hj hi).2

/-- A graph whose edges go forward in a permutation has no cycle. -/
theorem Forward.acyclic (hperm : perm.Perm (List.range n)) (h : Forward perm A) :
    Acyclic fun u v => A u v = some 1 := by
  have hnodup : perm.Nodup := hperm.nodup_iff.mpr List.nodup_range
  have hrank : ∀ i u, perm[i]? = some u → perm.idxOf u = i := by
    intro i u hi
    obtain ⟨hlt, rfl⟩ := List.getElem?_eq_some_iff.mp hi
    exact List.Nodup.idxOf_getElem hnodup i hlt
  apply acyclic_of_rank perm.idxOf
  intro u v huv
  obtain ⟨i, j, hij, hi, hj⟩ := h.edges u v huv
  rw [hrank i u hi, hrank j v hj]
  exact hij

theorem gengraph_spec (rand : Nat → Nat) (test : Nat → Bool) (n : Nat) :
    ∃ perm A, gengraph rand test n = some (perm, A) ∧ perm.Perm (List.range n)
      ∧ Forward perm A ∧ ∀ u < n, ∀ v < n, A u v ≠ none := by
  obtain ⟨perm, hshuffle, hperm⟩ := shuffle_perm rand n
  obtain ⟨s, hfill, hforward, hrows⟩ := fill_spec rand test hperm
  refine ⟨perm, s.A, ?_, hperm, hforward, fun u hu v hv => filled_cells hperm hrows hu hv⟩
  rw [gengraph, hshuffle, Option.bind_eq_bind, Option.bind_some, hfill]
  rfl

/-- **The generator makes acyclic graphs**, whatever `rand` gives and for any `p`: `PERM` is a
permutation, every cell of the matrix is `0` or `1`, every edge goes forward in `PERM`, and there is
no cycle and no self-loop. -/
theorem gengraph_acyclic (rand : Nat → Nat) (test : Nat → Bool) (n : Nat) :
    ∃ perm A, gengraph rand test n = some (perm, A) ∧ perm.Perm (List.range n)
      ∧ (∀ u < n, ∀ v < n, A u v = some 0 ∨ A u v = some 1)
      ∧ (∀ u v, A u v = some 1 → ∃ i j : Nat, i < j ∧ perm[i]? = some u ∧ perm[j]? = some v)
      ∧ Acyclic (fun u v => A u v = some 1) ∧ ∀ u, A u u ≠ some 1 := by
  obtain ⟨perm, A, hrun, hperm, hforward, hcells⟩ := gengraph_spec rand test n
  have hacyclic := hforward.acyclic hperm
  refine ⟨perm, A, hrun, hperm, fun u hu v hv => ?_, hforward.edges, hacyclic, fun u hu => ?_⟩
  · obtain ⟨x, hx⟩ := Option.ne_none_iff_exists'.mp (hcells u hu v hv)
    rcases hforward.values u v x hx with rfl | rfl
    · exact .inl hx
    · exact .inr hx
  · exact hacyclic u (.single hu)

end OSLab.Topsort
