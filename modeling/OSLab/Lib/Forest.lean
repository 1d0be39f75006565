import Mathlib.Algebra.BigOperators.Group.Finset.Basic
import Mathlib.Tactic

set_option autoImplicit false

/-! # Forests given by parents

A finite set of nodes with a partial parent function that leads to ever smaller depths. The
leaf sum of a node is the sum of the values of the leaves below it; for a node with children it
is the sum of theirs (`leafSum_inner`), which is how a parallel program that adds up a tree goes
about it.
-/

namespace OSLab.Forest

open scoped Classical

variable {α M : Type*} [AddCommMonoid M]

/-- `u` is in the subtree of `v`. -/
inductive Under (parent : α → Option α) (v : α) : α → Prop
  | self : Under parent v v
  | step {u w : α} : parent u = some w → Under parent v w → Under parent v u

/-- The children of `v` among `nodes`. -/
noncomputable def children (nodes : Finset α) (parent : α → Option α) (v : α) : Finset α :=
  {c ∈ nodes | parent c = some v}

def Leaf (nodes : Finset α) (parent : α → Option α) (v : α) : Prop :=
  ∀ c ∈ nodes, parent c ≠ some v

/-- The leaves in the subtree of `v`. -/
noncomputable def leavesUnder (nodes : Finset α) (parent : α → Option α) (v : α) : Finset α :=
  {u ∈ nodes | Leaf nodes parent u ∧ Under parent v u}

noncomputable def leafSum (nodes : Finset α) (parent : α → Option α) (value : α → M) (v : α) : M :=
  ∑ u ∈ leavesUnder nodes parent v, value u

/-- Parents are nodes, and lie less deep than their children. -/
structure Descending (nodes : Finset α) (parent : α → Option α) (depth : α → Nat) : Prop where
  mem : ∀ c ∈ nodes, ∀ v, parent c = some v → v ∈ nodes
  lt : ∀ c ∈ nodes, ∀ v, parent c = some v → depth v < depth c

variable {nodes : Finset α} {parent : α → Option α} {value : α → M} {depth : α → Nat} {u v c d : α}

/-- Whoever is under `v` and is not `v` is under a child of `v`. -/
theorem Under.child (h : Under parent v u) (hne : u ≠ v) :
    ∃ c, parent c = some v ∧ Under parent c u := by
  induction h with
  | self => exact absurd rfl hne
  | @step u w hp _ ih =>
      by_cases hw : w = v
      · subst hw
        exact ⟨u, hp, .self⟩
      · obtain ⟨c, hc, hcu⟩ := ih hw
        exact ⟨c, hc, .step hp hcu⟩

theorem Under.trans (h : Under parent v c) (h' : Under parent c u) : Under parent v u := by
  induction h' with
  | self => exact h
  | step hp _ ih => exact .step hp ih

/-- Two nodes above `u` lie on one path. -/
theorem Under.linear (h : Under parent c u) (h' : Under parent d u) :
    Under parent c d ∨ Under parent d c := by
  induction h with
  | self => exact .inr h'
  | step hp h ih =>
      cases h' with
      | self => exact .inl (.step hp h)
      | step hp' h' =>
          obtain rfl := Option.some.inj (hp.symm.trans hp')
          exact ih h'

/-- The way up from a node stays within the nodes. -/
theorem Descending.mem_of_under (h : Descending nodes parent depth) (hu : u ∈ nodes)
    (huv : Under parent v u) : v ∈ nodes := by
  induction huv with
  | self => exact hu
  | step hp _ ih => exact ih (h.mem _ hu _ hp)

theorem Descending.depth_le (h : Descending nodes parent depth) (hu : u ∈ nodes)
    (huv : Under parent v u) : depth v ≤ depth u := by
  induction huv with
  | self => exact le_rfl
  | step hp _ ih =>
      have hlt := h.lt _ hu _ hp
      exact (ih (h.mem _ hu _ hp)).trans hlt.le

/-- The subtrees of two children of one node are disjoint. -/
theorem Descending.child_unique (h : Descending nodes parent depth) (hu : u ∈ nodes)
    (hc : parent c = some v) (hd : parent d = some v) (hcu : Under parent c u)
    (hdu : Under parent d u) : c = d := by
  have key : ∀ {a b : α}, b ∈ nodes → parent a = some v → parent b = some v → a ∈ nodes →
      Under parent a b → a = b := by
    intro a b hb ha' hb' ha hab
    cases hab with
    | self => rfl
    | step hp hav =>
        -- `a` would lie above its own parent
        obtain rfl := Option.some.inj (hp.symm.trans hb')
        have hle := h.depth_le (h.mem _ hb _ hb') hav
        have hlt := h.lt _ ha _ ha'
        omega
  have hcn := h.mem_of_under hu hcu
  have hdn := h.mem_of_under hu hdu
  rcases hcu.linear hdu with hcd | hdc
  · exact key hdn hc hd hcn hcd
  · exact (key hcn hd hc hdn hdc).symm

/-! ## Leaf sums -/

theorem leafSum_leaf (hv : v ∈ nodes) (hl : Leaf nodes parent v)
    (h : Descending nodes parent depth) : leafSum nodes parent value v = value v := by
  have hset : leavesUnder nodes parent v = {v} := by
    ext u
    simp only [leavesUnder, Finset.mem_filter, Finset.mem_singleton]
    constructor
    · rintro ⟨hu, -, huv⟩
      by_contra hne
      obtain ⟨c, hc, hcu⟩ := huv.child hne
      exact hl c (h.mem_of_under hu hcu) hc
    · rintro rfl
      exact ⟨hv, hl, .self⟩
  rw [leafSum, hset, Finset.sum_singleton]

/-- **The leaf sum of a node with children is the sum of its children's.** -/
theorem leafSum_inner (h : Descending nodes parent depth) (hv : ¬ Leaf nodes parent v) :
    leafSum nodes parent value v
      = ∑ c ∈ children nodes parent v, leafSum nodes parent value c := by
  have hset : leavesUnder nodes parent v
      = (children nodes parent v).biUnion (leavesUnder nodes parent) := by
    ext u
    simp only [leavesUnder, children, Finset.mem_filter, Finset.mem_biUnion]
    constructor
    · rintro ⟨hu, hl, huv⟩
      have hne : u ≠ v := fun hc => hv (hc ▸ hl)
      obtain ⟨c, hc, hcu⟩ := huv.child hne
      exact ⟨c, ⟨h.mem_of_under hu hcu, hc⟩, hu, hl, hcu⟩
    · rintro ⟨c, ⟨-, hc⟩, hu, hl, hcu⟩
      exact ⟨hu, hl, Under.trans (.step hc .self) hcu⟩
  rw [leafSum, hset, Finset.sum_biUnion]
  · rfl
  · intro c hc d hd hcd
    rw [Function.onFun, Finset.disjoint_left]
    intro u huc hud
    simp only [leavesUnder, children, Finset.coe_filter, Set.mem_ofPred_eq, Finset.mem_filter]
      at hc hd huc hud
    exact hcd (h.child_unique huc.1 hc.2 hd.2 huc.2.2 hud.2.2)

/-- Below a node that everything is under are all the leaves. -/
theorem leafSum_root (hall : ∀ u ∈ nodes, Under parent v u) :
    leafSum nodes parent value v = ∑ u ∈ nodes with Leaf nodes parent u, value u := by
  refine Finset.sum_congr ?_ fun _ _ => rfl
  ext u
  simp only [leavesUnder, Finset.mem_filter]
  exact ⟨fun hu => ⟨hu.1, hu.2.1⟩, fun hu => ⟨hu.1, hu.2, hall u hu.1⟩⟩

/-- With one node alone without a parent, everything is under it. -/
theorem Descending.under_root (h : Descending nodes parent depth)
    (hroot : ∀ u ∈ nodes, parent u = none → u = v) : ∀ u ∈ nodes, Under parent v u := by
  have key : ∀ k, ∀ u ∈ nodes, depth u = k → Under parent v u := by
    intro k
    induction k using Nat.strong_induction_on with
    | _ k ih =>
        intro u hu hk
        cases hp : parent u with
        | none => exact hroot u hu hp ▸ .self
        | some w =>
            have hlt := h.lt u hu w hp
            exact .step hp (ih (depth w) (hk ▸ hlt) w (h.mem u hu w hp) rfl)
  exact fun u hu => key (depth u) u hu rfl

section Order

variable [PartialOrder M] [IsOrderedAddMonoid M]

theorem leafSum_nonneg (hpos : ∀ u ∈ nodes, 0 ≤ value u) : 0 ≤ leafSum nodes parent value v :=
  Finset.sum_nonneg fun u hu => hpos u (Finset.mem_filter.mp hu).1

/-- If no value is negative, no subtree has more than everything together. -/
theorem leafSum_le_root (hpos : ∀ u ∈ nodes, 0 ≤ value u) (hall : ∀ u ∈ nodes, Under parent v u) :
    leafSum nodes parent value c ≤ leafSum nodes parent value v := by
  refine Finset.sum_le_sum_of_subset_of_nonneg (fun u hu => ?_) fun u hu _ =>
    hpos u (Finset.mem_filter.mp hu).1
  simp only [leavesUnder, Finset.mem_filter] at hu ⊢
  exact ⟨hu.1, hu.2.1, hall u hu.1⟩

end Order

end OSLab.Forest
