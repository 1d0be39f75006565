import Mathlib.Data.Multiset.Range
import Mathlib.Data.Multiset.MapFold
import Mathlib.Logic.Equiv.Basic
import Mathlib.Tactic

set_option autoImplicit false

/-! # Binary heaps over a comparator that need not be antisymmetric

A heap is the cells `a 0, …, a (n - 1)` of an array. Its loops only ask one question,
`lt x y`, and act on the answer: on `true` they stop, on `false` they swap. All that is needed
of `lt` is that either answer is sound for a transitive order `le` (`Comparator`): `true` gives
`le x y`, `false` gives `le y x`. On ties `lt` may answer either way, and may answer `true` both
ways round.

The loops are structural in a fuel argument. `siftDown` moves strictly down and `siftUp`
strictly up, so the fuels `n - i` and `i` are never used up; the order lemmas below take these
bounds as hypotheses.
-/

namespace OSLab.Heap

variable {α : Type*}

/-! ## The loops -/

/-- `t = a[i]; a[i] = a[j]; a[j] = t`. -/
def swap (a : Nat → α) (i j : Nat) : Nat → α :=
  Function.update (Function.update a i (a j)) j (a i)

/-- The child the loop compares with: the left one if it is the last cell or `lt` the right. -/
def child (lt : α → α → Bool) (n : Nat) (a : Nat → α) (i : Nat) : Nat :=
  if 2 * i + 2 == n || lt (a (2 * i + 1)) (a (2 * i + 2)) then 2 * i + 1 else 2 * i + 2

/-- Sift the cell `i` down among the first `n` cells. -/
def siftDown (lt : α → α → Bool) (n : Nat) : Nat → (Nat → α) → Nat → (Nat → α)
  | 0, a, _ => a
  | fuel + 1, a, i =>
      if n ≤ 2 * i + 1 then a
      else if lt (a i) (a (child lt n a i)) then a
      else siftDown lt n fuel (swap a i (child lt n a i)) (child lt n a i)

/-- Sift the cell `i` up. -/
def siftUp (lt : α → α → Bool) : Nat → (Nat → α) → Nat → (Nat → α)
  | 0, a, _ => a
  | fuel + 1, a, i =>
      if i = 0 then a
      else if lt (a ((i - 1) / 2)) (a i) then a
      else siftUp lt fuel (swap a i ((i - 1) / 2)) ((i - 1) / 2)

/-- Sift down the cells `j - 1, …, 0` in turn. -/
def heapify (lt : α → α → Bool) (n : Nat) : Nat → (Nat → α) → (Nat → α)
  | 0, a => a
  | j + 1, a => heapify lt n j (siftDown lt n n a j)

/-! ## Swaps permute the cells -/

@[simp] theorem swap_left (a : Nat → α) {i j : Nat} (h : i ≠ j) : swap a i j i = a j := by
  simp [swap, h]

@[simp] theorem swap_right (a : Nat → α) (i j : Nat) : swap a i j j = a i := by simp [swap]

theorem swap_other (a : Nat → α) {i j k : Nat} (hi : k ≠ i) (hj : k ≠ j) :
    swap a i j k = a k := by simp [swap, hi, hj]

theorem swap_eq_comp (a : Nat → α) (i j : Nat) : swap a i j = a ∘ Equiv.swap i j := by
  funext k
  by_cases hj : k = j
  · subst hj; simp
  · by_cases hi : k = i
    · subst hi; simp [hj]
    · rw [swap_other a hi hj, Function.comp_apply, Equiv.swap_apply_of_ne_of_ne hi hj]

/-- The first `n` cells as a multiset. -/
def contents (n : Nat) (a : Nat → α) : Multiset α := (Multiset.range n).map a

theorem contents_swap (a : Nat → α) {n i j : Nat} (hi : i < n) (hj : j < n) :
    contents n (swap a i j) = contents n a := by
  have hrange : (Multiset.range n).map (Equiv.swap i j) = Multiset.range n := by
    refine (Multiset.Nodup.ext ((Multiset.nodup_map_iff_of_injective
      (Equiv.swap i j).injective).mpr (Multiset.nodup_range n)) (Multiset.nodup_range n)).mpr ?_
    intro k
    simp only [Multiset.mem_map, Multiset.mem_range]
    constructor
    · rintro ⟨m, hm, rfl⟩
      by_cases hmi : m = i
      · subst hmi; simpa using hj
      · by_cases hmj : m = j
        · subst hmj; simpa using hi
        · rwa [Equiv.swap_apply_of_ne_of_ne hmi hmj]
    · intro hk
      refine ⟨Equiv.swap i j k, ?_, Equiv.swap_apply_self i j k⟩
      by_cases hki : k = i
      · subst hki; simpa using hj
      · by_cases hkj : k = j
        · subst hkj; simpa using hi
        · rwa [Equiv.swap_apply_of_ne_of_ne hki hkj]
  rw [contents, swap_eq_comp, ← Multiset.map_map, hrange, contents]

theorem mem_contents {n : Nat} {a : Nat → α} {x : α} :
    x ∈ contents n a ↔ ∃ i, i < n ∧ a i = x := by
  simp [contents]

theorem contents_succ (n : Nat) (a : Nat → α) : contents (n + 1) a = a n ::ₘ contents n a := by
  simp [contents, Multiset.range_succ]

theorem contents_congr {n : Nat} {a b : Nat → α} (h : ∀ i, i < n → a i = b i) :
    contents n a = contents n b :=
  Multiset.map_congr rfl fun i hi => h i (Multiset.mem_range.mp hi)

theorem child_lt (lt : α → α → Bool) {n : Nat} (a : Nat → α) {i : Nat} (h : 2 * i + 1 < n) :
    child lt n a i < n := by
  unfold child
  split_ifs with hc
  · exact h
  · have : 2 * i + 2 ≠ n := by intro he; simp [he] at hc
    omega

theorem lt_child (lt : α → α → Bool) (n : Nat) (a : Nat → α) (i : Nat) :
    i < child lt n a i := by
  unfold child
  split_ifs <;> omega

theorem contents_siftDown (lt : α → α → Bool) (n fuel : Nat) (a : Nat → α) (i : Nat) :
    contents n (siftDown lt n fuel a i) = contents n a := by
  induction fuel generalizing a i with
  | zero => rfl
  | succ fuel ih =>
      rw [siftDown]
      split_ifs with hn hlt
      · rfl
      · rfl
      · rw [ih, contents_swap a (by omega) (child_lt lt a (by omega))]

theorem contents_siftUp (lt : α → α → Bool) (fuel : Nat) (a : Nat → α) {n i : Nat} (hi : i < n) :
    contents n (siftUp lt fuel a i) = contents n a := by
  induction fuel generalizing a i with
  | zero => rfl
  | succ fuel ih =>
      rw [siftUp]
      split_ifs with h0 hlt
      · rfl
      · rfl
      · rw [ih _ (by omega), contents_swap a hi (by omega)]

theorem contents_heapify (lt : α → α → Bool) (n j : Nat) (a : Nat → α) :
    contents n (heapify lt n j a) = contents n a := by
  induction j generalizing a with
  | zero => rfl
  | succ j ih => rw [heapify, ih, contents_siftDown]

/-! ## Cells outside the heap stay -/

theorem siftDown_frame (lt : α → α → Bool) (n fuel : Nat) (a : Nat → α) (i : Nat) {k : Nat}
    (hk : n ≤ k) : siftDown lt n fuel a i k = a k := by
  induction fuel generalizing a i with
  | zero => rfl
  | succ fuel ih =>
      rw [siftDown]
      split_ifs with hn hlt
      · rfl
      · rfl
      · have := child_lt lt (n := n) a (i := i) (by omega)
        rw [ih, swap_other a (by omega) (by omega)]

theorem siftUp_frame (lt : α → α → Bool) (fuel : Nat) (a : Nat → α) {i k : Nat} (hk : i < k) :
    siftUp lt fuel a i k = a k := by
  induction fuel generalizing a i with
  | zero => rfl
  | succ fuel ih =>
      rw [siftUp]
      split_ifs with h0 hlt
      · rfl
      · rfl
      · rw [ih _ (by omega), swap_other a (by omega) (by omega)]

/-! ## The order -/

/-- Either answer of `lt` is sound for the transitive order `le`. -/
structure Comparator (lt : α → α → Bool) (le : α → α → Prop) : Prop where
  of_lt : ∀ {x y : α}, lt x y = true → le x y
  of_not_lt : ∀ {x y : α}, lt x y = false → le y x
  trans : ∀ {x y z : α}, le x y → le y z → le x z

/-- Every pair of a parent from `j` on and its child is in order. -/
def OrderedFrom (le : α → α → Prop) (n : Nat) (a : Nat → α) (j : Nat) : Prop :=
  ∀ c, 0 < c → c < n → j ≤ (c - 1) / 2 → le (a ((c - 1) / 2)) (a c)

/-- The pairs from `j` on are in order but those below `i`, and the parent of `i` is in order
with the children of `i`: what the loop of `siftDown` keeps. -/
structure DownReady (le : α → α → Prop) (n : Nat) (a : Nat → α) (j i : Nat) : Prop where
  off : ∀ c, 0 < c → c < n → j ≤ (c - 1) / 2 → (c - 1) / 2 ≠ i → le (a ((c - 1) / 2)) (a c)
  grand : ∀ c, 0 < c → c < n → (c - 1) / 2 = i → 0 < i → j ≤ (i - 1) / 2 →
    le (a ((i - 1) / 2)) (a c)

/-- The pairs are in order but the one above `i`, and the parent of `i` is in order with the
children of `i`: what the loop of `siftUp` keeps. -/
structure UpReady (le : α → α → Prop) (n : Nat) (a : Nat → α) (i : Nat) : Prop where
  off : ∀ c, 0 < c → c < n → c ≠ i → le (a ((c - 1) / 2)) (a c)
  grand : ∀ c, 0 < c → c < n → (c - 1) / 2 = i → 0 < i → le (a ((i - 1) / 2)) (a c)

variable {lt : α → α → Bool} {le : α → α → Prop} {n : Nat} {a : Nat → α}

/-- The root of an ordered heap is least. -/
theorem root_le (hc : Comparator lt le) (h : OrderedFrom le n a 0) {i : Nat} (hi : i < n) :
    le (a 0) (a i) := by
  induction i using Nat.strong_induction_on with
  | _ i ih =>
      by_cases h0 : i = 0
      · subst h0
        cases hlt : lt (a 0) (a 0) with
        | true => exact hc.of_lt hlt
        | false => exact hc.of_not_lt hlt
      · exact hc.trans (ih ((i - 1) / 2) (by omega) (by omega)) (h i (by omega) hi (by omega))

/-- The chosen child is in order with both children. -/
theorem child_le (hc : Comparator lt le) {i c : Nat} (h0 : 0 < c)
    (hcn : c < n) (hp : (c - 1) / 2 = i) : le (a (child lt n a i)) (a c) := by
  have hrefl : ∀ x, le x x := by
    intro x
    cases h : lt x x with
    | true => exact hc.of_lt h
    | false => exact hc.of_not_lt h
  have hcases : c = 2 * i + 1 ∨ c = 2 * i + 2 := by omega
  unfold child
  split_ifs with h
  · rcases hcases with rfl | rfl
    · exact hrefl _
    · simp only [Bool.or_eq_true, beq_iff_eq] at h
      rcases h with h | h
      · omega
      · exact hc.of_lt h
  · simp only [Bool.or_eq_true, beq_iff_eq, not_or, Bool.not_eq_true] at h
    rcases hcases with rfl | rfl
    · exact hc.of_not_lt h.2
    · exact hrefl _

theorem child_parent (lt : α → α → Bool) (n : Nat) (a : Nat → α) (i : Nat) :
    (child lt n a i - 1) / 2 = i := by
  unfold child
  split_ifs <;> omega

/-- One swap of `siftDown` moves the gap one level down. -/
theorem DownReady.swap (hc : Comparator lt le) {j i : Nat} (h : DownReady le n a j i)
    (hn : 2 * i + 1 < n) (hge : lt (a i) (a (child lt n a i)) = false) :
    DownReady le n (swap a i (child lt n a i)) j (child lt n a i) := by
  have hpm := child_parent lt n a i
  have him := lt_child lt n a i
  have hmn := child_lt lt a hn
  have hmin : ∀ c, 0 < c → c < n → (c - 1) / 2 = i → le (a (child lt n a i)) (a c) :=
    fun c h0 hcn hp => child_le hc h0 hcn hp
  generalize child lt n a i = m at hge hpm him hmn hmin
  constructor
  · intro c h0 hcn hj hpc
    by_cases hci : c = i
    · -- the pair above `i`: its child cell now holds the old cell `m`
      subst hci
      rw [swap_left a (by omega), swap_other a (by omega) hpc]
      exact h.grand m (by omega) hmn hpm h0 hj
    by_cases hpi : (c - 1) / 2 = i
    · rw [hpi, swap_left a (by omega)]
      by_cases hcm : c = m
      · subst hcm; rw [swap_right]; exact hc.of_not_lt hge
      · rw [swap_other a hci hcm]; exact hmin c h0 hcn hpi
    · have hcm : c ≠ m := by rintro rfl; exact hpi hpm
      rw [swap_other a hpi hpc, swap_other a hci hcm]
      exact h.off c h0 hcn hj hpi
  · intro c h0 hcn hpc _ hj
    rw [hpm, swap_left a (by omega), swap_other a (by omega) (by omega)]
    have := h.off c h0 hcn (by omega) (by omega)
    rwa [hpc] at this

theorem DownReady.finish {j i : Nat} (h : DownReady le n a j i)
    (hi : ∀ c, 0 < c → c < n → (c - 1) / 2 = i → le (a i) (a c)) : OrderedFrom le n a j := by
  intro c h0 hcn hj
  by_cases hp : (c - 1) / 2 = i
  · rw [hp]; exact hi c h0 hcn hp
  · exact h.off c h0 hcn hj hp

/-- `siftDown` ends with the pairs from `j` on in order. -/
theorem orderedFrom_siftDown (hc : Comparator lt le) {fuel j i : Nat}
    (h : DownReady le n a j i) (hfuel : n ≤ i + fuel) :
    OrderedFrom le n (siftDown lt n fuel a i) j := by
  induction fuel generalizing a i with
  | zero => exact h.finish fun c _ hcn hp => by omega
  | succ fuel ih =>
      rw [siftDown]
      split_ifs with hn hlt
      · exact h.finish fun c _ hcn hp => by omega
      · refine h.finish fun c h0 hcn hp => ?_
        exact hc.trans (hc.of_lt hlt) (child_le hc h0 hcn hp)
      · have him := lt_child lt n a i
        exact ih (h.swap hc (by omega) (by simpa using hlt)) (by omega)

/-- One swap of `siftUp` moves the gap one level up. -/
theorem UpReady.swap (hc : Comparator lt le) {i : Nat} (h : UpReady le n a i) (hi : 0 < i)
    (hin : i < n) (hge : lt (a ((i - 1) / 2)) (a i) = false) :
    UpReady le n (swap a i ((i - 1) / 2)) ((i - 1) / 2) := by
  have hpi : (i - 1) / 2 < i := by omega
  generalize hp : (i - 1) / 2 = p at hge hpi
  constructor
  · intro c h0 hcn hcp
    -- below the new place: the old parent, the children and the sibling
    by_cases hci : c = i
    · subst hci
      rw [hp, swap_right, swap_left a (by omega)]
      exact hc.of_not_lt hge
    rw [swap_other a hci hcp]
    by_cases hpc : (c - 1) / 2 = i
    · rw [hpc, swap_left a (by omega), ← hp]
      exact h.grand c h0 hcn hpc hi
    by_cases hpp : (c - 1) / 2 = p
    · rw [hpp, swap_right]
      have hcp' := h.off c h0 hcn hci
      rw [hpp] at hcp'
      exact hc.trans (hc.of_not_lt hge) hcp'
    · rw [swap_other a hpc hpp]
      exact h.off c h0 hcn hci
  · intro c h0 hcn hpc hp0
    have hpp := h.off p hp0 (by omega) (by omega)
    rw [swap_other a (show (p - 1) / 2 ≠ i by omega) (by omega)]
    by_cases hci : c = i
    · subst hci; rw [swap_left a (by omega)]; exact hpp
    · rw [swap_other a hci (by omega)]
      have hcp := h.off c h0 hcn hci
      rw [hpc] at hcp
      exact hc.trans hpp hcp

theorem UpReady.finish {i : Nat} (h : UpReady le n a i)
    (hi : 0 < i → i < n → le (a ((i - 1) / 2)) (a i)) : OrderedFrom le n a 0 := by
  intro c h0 hcn _
  by_cases hci : c = i
  · subst hci; exact hi h0 hcn
  · exact h.off c h0 hcn hci

/-- `siftUp` ends with every pair in order. -/
theorem orderedFrom_siftUp (hc : Comparator lt le) {fuel i : Nat} (h : UpReady le n a i)
    (hin : i < n) (hfuel : i ≤ fuel) : OrderedFrom le n (siftUp lt fuel a i) 0 := by
  induction fuel generalizing a i with
  | zero => exact h.finish fun h0 _ => by omega
  | succ fuel ih =>
      rw [siftUp]
      split_ifs with h0 hlt
      · exact h.finish fun hpos _ => by omega
      · exact h.finish fun _ _ => hc.of_lt hlt
      · exact ih (h.swap hc (by omega) hin (by simpa using hlt)) (by omega) (by omega)

/-- `heapify` from the last parent on orders the whole heap. -/
theorem orderedFrom_heapify (hc : Comparator lt le) {j : Nat} (h : OrderedFrom le n a j) :
    OrderedFrom le n (heapify lt n j a) 0 := by
  induction j generalizing a with
  | zero => exact h
  | succ j ih =>
      refine ih (orderedFrom_siftDown hc ⟨?_, ?_⟩ (by omega))
      · intro c h0 hcn hj hp
        exact h c h0 hcn (by omega)
      · intro c _ _ _ h0 hj
        omega

/-- No cell from the middle on has a child, so `heapify` may start there. -/
theorem orderedFrom_half (le : α → α → Prop) (n : Nat) (a : Nat → α) :
    OrderedFrom le n a (n / 2) := by
  intro c _ hcn hj
  omega

end OSLab.Heap
