import OSLab.Topsort.Gengraph
import OSLab.Lib.Text

set_option autoImplicit false

/-! # The graph file

`gengraph.c` prints the number of vertices and then the matrix, a line for each row with a blank after
each number; the boss reads the numbers with `fscanf` and puts the cells into shared memory one after
the other. Between two numbers there is only white space, which `%d` skips, so what is printed is read,
wherever the lines end (`readRow_rowText`, `foldl_rows`). With this the assignment runs from the
generator to the boss's verdict.
-/

namespace OSLab.Topsort

open OSLab.Text

/-! ## Writing -/

/-- The line of one row, from its cells. -/
def rowText (row : List Int) : List Char := row.flatMap (fun z => decimal z ++ [' ']) ++ ['\n']

/-- A row as it is printed, if all its cells hold something. -/
def printRow (n : Nat) (A : Nat → Nat → Option Int) (i : Nat) : Option (List Char) :=
  ((List.range n).mapM fun j => A i j).map rowText

/-- What `gengraph.c` prints. -/
def printGraph (n : Nat) (A : Nat → Nat → Option Int) : Option (List Char) :=
  ((List.range n).mapM (printRow n A)).map fun rows => decimal n ++ '\n' :: rows.flatten

/-! ## Reading -/

/-- `fscanf(file, "%d", &A[x])`, on the cells and what is left of the file. -/
def readCell (s : (Nat → Int) × List Char) (x : Nat) : (Nat → Int) × List Char :=
  (((scanInt s.2).1.map fun z => Function.update s.1 x (asInt z)).getD s.1, (scanInt s.2).2)

/-- The cells in the order of the boss's loops. -/
def cells (n : Nat) : List Nat :=
  (List.range n).flatMap fun i => (List.range n).map fun j => i * n + j

/-- What the boss reads: `n`, and the cells in shared memory, which holds `B` before. -/
def readGraph (B : Nat → Int) (text : List Char) : Int × (Nat → Int) :=
  let n := ((scanInt text).1.map asInt).getD 0
  (n, ((cells n.toNat).foldl readCell (B, (scanInt text).2)).1)

variable {n i j u v : Nat} {A : Nat → Nat → Option Int} {M : Nat → Int} {B : Nat → Int}
  {lead : List Char} {l : List Nat} {rand : Nat → Nat} {test : Nat → Bool} {perm : List Nat}

/-! ## What is printed is read -/

/-- Nothing but white space. -/
def Blank (l : List Char) : Prop := ∀ c ∈ l, isSpace c = true

theorem scanInt_blank (h : Blank lead) (l : List Char) : scanInt (lead ++ l) = scanInt l := by
  induction lead with
  | nil => rfl
  | cons c lead ih =>
      rw [List.cons_append, scanInt_space (h c List.mem_cons_self)]
      exact ih fun d hd => h d (List.mem_cons_of_mem c hd)

/-- The cells of `l` get the values of `M`. -/
def fill (M : Nat → Int) (B : Nat → Int) (l : List Nat) : Nat → Int :=
  l.foldl (fun A x => Function.update A x (M x)) B

theorem fill_apply (x : Nat) : fill M B l x = if x ∈ l then M x else B x := by
  induction l using List.reverseRecOn with
  | nil => rfl
  | append_singleton l y ih =>
      rw [fill, List.foldl_append, List.foldl_cons, List.foldl_nil]
      by_cases hx : x = y
      · subst hx
        rw [Function.update_self, if_pos (List.mem_append_right l List.mem_cons_self)]
      · rw [Function.update_of_ne hx]
        change fill M B l x = _
        rw [ih]
        simp [hx]

/-- **A row is read back**, and white space is left before what follows it. -/
theorem readRow_rowText (rest : List Char) (hM : ∀ x ∈ l, Text.IsInt (M x)) (hlead : Blank lead) :
    ∃ lead', Blank lead' ∧ l.foldl readCell (B, lead ++ (rowText (l.map M) ++ rest))
      = (fill M B l, lead' ++ rest) := by
  induction l generalizing lead B with
  | nil =>
      refine ⟨lead ++ ['\n'], fun c hc => ?_, by simp [rowText, fill]⟩
      rcases List.mem_append.mp hc with hc | hc
      · exact hlead c hc
      · rw [List.mem_singleton.mp hc]
        rfl
  | cons x l ih =>
      have hx := hM x List.mem_cons_self
      have htext : rowText ((x :: l).map M) ++ rest
          = decimal (M x) ++ ([' '] ++ (rowText (l.map M) ++ rest)) := by
        simp [rowText]
      have hscan : scanInt (lead ++ (rowText ((x :: l).map M) ++ rest))
          = (some (M x), [' '] ++ (rowText (l.map M) ++ rest)) := by
        rw [scanInt_blank hlead, htext]
        exact scanInt_decimal (M x) (noDigit_cons rfl)
      have hblank : Blank [' '] := fun c hc => by rw [List.mem_singleton.mp hc]; rfl
      obtain ⟨lead', hlead', hrest⟩ := ih (B := Function.update B x (M x))
        (fun y hy => hM y (List.mem_cons_of_mem x hy)) hblank
      refine ⟨lead', hlead', ?_⟩
      rw [List.foldl_cons, readCell, hscan, Option.map_some, Option.getD_some, asInt_eq hx, hrest]
      rfl

/-- The same for rows one below the other. -/
theorem foldl_rows (rows : List (List Nat)) (hM : ∀ x ∈ rows.flatten, Text.IsInt (M x))
    (hlead : Blank lead) :
    (rows.flatten.foldl readCell (B, lead ++ rows.flatMap fun l => rowText (l.map M))).1
      = fill M B rows.flatten := by
  induction rows generalizing lead B with
  | nil => rfl
  | cons l rows ih =>
      rw [List.flatten_cons, List.flatMap_cons, List.foldl_append]
      obtain ⟨lead', hlead', hrow⟩ := readRow_rowText (B := B)
        (rows.flatMap fun l => rowText (l.map M)) (fun x hx => hM x (List.mem_append_left _ hx)) hlead
      rw [hrow, ih (fun x hx => hM x (List.mem_append_right _ hx)) hlead', fill, fill, fill,
        List.foldl_append]

theorem mem_cells (hi : i < n) (hj : j < n) : i * n + j ∈ cells n :=
  List.mem_flatMap.mpr ⟨i, List.mem_range.mpr hi, List.mem_map.mpr ⟨j, List.mem_range.mpr hj, rfl⟩⟩

/-- The cell of the matrix that has index `x`. -/
def entry (n : Nat) (A : Nat → Nat → Option Int) (x : Nat) : Int := (A (x / n) (x % n)).getD 0

theorem entry_eq (hv : v < n) (A : Nat → Nat → Option Int) (u : Nat) :
    entry n A (u * n + v) = (A u v).getD 0 := by
  have hn : 0 < n := by omega
  have hdiv : (u * n + v) / n = u := by
    rw [Nat.add_comm, Nat.add_mul_div_right _ _ hn, Nat.div_eq_of_lt hv, Nat.zero_add]
  have hmod : (u * n + v) % n = v := by
    rw [Nat.mul_comm, Nat.mul_add_mod, Nat.mod_eq_of_lt hv]
  rw [entry, hdiv, hmod]

theorem mapM_some {α β : Type} {f : α → Option β} {g : α → β} {l : List α}
    (h : ∀ a ∈ l, f a = some (g a)) : l.mapM f = some (l.map g) := by
  induction l with
  | nil => rfl
  | cons a l ih =>
      rw [List.mapM_cons, h a List.mem_cons_self, ih fun b hb => h b (List.mem_cons_of_mem a hb)]
      rfl

/-- The text of a matrix without a gap. -/
theorem printGraph_eq (hA : ∀ u < n, ∀ v < n, A u v ≠ none) :
    printGraph n A = some (decimal n ++ '\n' ::
      ((List.range n).map fun i => (List.range n).map fun j => i * n + j).flatMap
        fun l => rowText (l.map (entry n A))) := by
  have hcell : ∀ i < n, ∀ j < n, A i j = some (entry n A (i * n + j)) := by
    intro i hi j hj
    obtain ⟨x, hx⟩ := Option.ne_none_iff_exists'.mp (hA i hi j hj)
    rw [entry_eq hj, hx, Option.getD_some]
  have hrow : ∀ i ∈ List.range n, printRow n A i
      = some (rowText (((List.range n).map fun j => i * n + j).map (entry n A))) := by
    intro i hi
    have hcells := mapM_some (f := fun j => A i j) (g := fun j => entry n A (i * n + j))
      fun j hj => hcell i (List.mem_range.mp hi) j (List.mem_range.mp hj)
    rw [printRow, hcells, List.map_map]
    rfl
  rw [printGraph, mapM_some hrow, Option.map_some, List.flatMap_map, List.flatMap_def]

/-- **The graph file is read back**: the number of vertices and every cell, whatever the memory held. -/
theorem readGraph_printGraph (hn : n ≤ MAX_NODES) (hA : ∀ u < n, ∀ v < n, A u v ≠ none)
    (hvalues : ∀ u v x, A u v = some x → x = 0 ∨ x = 1) :
    ∃ text, printGraph n A = some text ∧ (readGraph B text).1 = n
      ∧ ∀ u < n, ∀ v < n, A u v = some ((readGraph B text).2 (u * n + v)) := by
  have hint : Text.IsInt n := by
    have : n ≤ 100 := hn
    exact ⟨by omega, by omega⟩
  have hentry : ∀ x, Text.IsInt (entry n A x) := by
    intro x
    rw [entry]
    cases hx : A (x / n) (x % n) with
    | none => decide
    | some y =>
        rcases hvalues _ _ y hx with rfl | rfl <;> decide
  refine ⟨_, printGraph_eq hA, ?_⟩
  set rows := (List.range n).map fun i => (List.range n).map fun j => i * n + j with hrows
  have hcells : cells n = rows.flatten := List.flatMap_def ..
  have hscan : scanInt (decimal n ++ '\n' :: rows.flatMap fun l => rowText (l.map (entry n A)))
      = (some (n : Int), '\n' :: rows.flatMap fun l => rowText (l.map (entry n A))) :=
    scanInt_decimal (n : Int) (noDigit_cons rfl)
  have hblank : Blank ['\n'] := fun c hc => by rw [List.mem_singleton.mp hc]; rfl
  simp only [readGraph, hscan, Option.map_some, Option.getD_some, asInt_eq hint, Int.toNat_natCast]
  refine ⟨trivial, fun u hu v hv => ?_⟩
  have hfill := foldl_rows (B := B) rows (fun x _ => hentry x) hblank
  rw [List.singleton_append, ← hcells] at hfill
  rw [hfill, fill_apply, if_pos (mem_cells hu hv), entry_eq hv]
  obtain ⟨x, hx⟩ := Option.ne_none_iff_exists'.mp (hA u hu v hv)
  rw [hx, Option.getD_some]

/-- **The whole assignment**: the boss reads what the generator prints, and however the workers are
interleaved, finds their order valid when all are done. -/
theorem assignment_valid (rand : Nat → Nat) (test : Nat → Bool) (hn : n ≤ MAX_NODES)
    (B : Nat → Int) :
    ∃ perm A text, gengraph rand test n = some (perm, A) ∧ printGraph n A = some text
      ∧ (readGraph B text).1 = n
      ∧ (∀ u < n, ∀ v < n, A u v = some ((readGraph B text).2 (u * n + v)))
      ∧ ∀ t, (machine n (readGraph B text).2).Reachable t → t.boss = n →
        isTopologicalSortValid (readGraph B text).2 t.T n = some 1 := by
  obtain ⟨perm, A, hrun, hperm, hforward, hcells⟩ := gengraph_spec rand test n
  obtain ⟨text, htext, hnum, hread⟩ := readGraph_printGraph (B := B) hn hcells hforward.values
  refine ⟨perm, A, text, hrun, htext, hnum, hread, fun t ht hb => ?_⟩
  apply (checked_when_done hn ht hb).mpr
  intro u hu hloop
  have hself := hread u hu u hu
  rw [hloop] at hself
  exact hforward.acyclic hperm u (.single hself)

/-- Two vertices with an edge. -/
theorem assignment_valid_two :
    ∃ perm A text, gengraph (fun _ => 0) (fun _ => true) 2 = some (perm, A)
      ∧ printGraph 2 A = some text ∧ (readGraph (fun _ => 0) text).1 = 2
      ∧ (∀ u < 2, ∀ v < 2, A u v = some ((readGraph (fun _ => 0) text).2 (u * 2 + v)))
      ∧ ∀ t, (machine 2 (readGraph (fun _ => 0) text).2).Reachable t → t.boss = 2 →
        isTopologicalSortValid (readGraph (fun _ => 0) text).2 t.T 2 = some 1 :=
  assignment_valid (fun _ => 0) (fun _ => true) (by decide) fun _ => 0

end OSLab.Topsort
