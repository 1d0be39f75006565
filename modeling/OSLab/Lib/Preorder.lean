import Mathlib.Data.Fintype.Card
import Mathlib.Data.Set.Finite.Basic
import Mathlib.Order.WellFoundedSet
import Mathlib.Tactic

set_option autoImplicit false

/-! # The nodes below a node, in preorder

A node has a list of children. `Bounded n a` says that the tree below `a` has fewer than `n`
levels; where nothing is its own descendant, every node of a finite set closed under children is
bounded (`exists_bounded`). `preorder n d a` lists the first `n` levels from `a` down with their
depths, starting at `d`: a node before its children, and those in their order. Of a bounded node it
lists the whole tree.
-/

namespace OSLab.Subtree

variable {α : Type*} (children : α → List α)

/-- The tree below the node has fewer than `n` levels. -/
def Bounded : Nat → α → Prop
  | 0, _ => False
  | n + 1, a => ∀ c ∈ children a, Bounded n c

/-- The first levels, with their depths. -/
def preorder : Nat → Nat → α → List (Nat × α)
  | 0, _, _ => []
  | n + 1, d, a => (d, a) :: (children a).flatMap (preorder n (d + 1))

variable {children} {n m : Nat} {a : α} {s : Set α}

theorem Bounded.mono (h : Bounded children n a) (hnm : n ≤ m) : Bounded children m a := by
  induction n generalizing m a with
  | zero => exact h.elim
  | succ n ih =>
      obtain ⟨m, rfl⟩ : ∃ k, m = k + 1 := ⟨m - 1, by omega⟩
      exact fun c hc => ih (h c hc) (Nat.le_of_succ_le_succ hnm)

/-- All the nodes of a list are bounded alike. -/
theorem exists_bounded_list {l : List α} (h : ∀ c ∈ l, ∃ n, Bounded children n c) :
    ∃ n, ∀ c ∈ l, Bounded children n c := by
  induction l with
  | nil => exact ⟨0, fun c hc => absurd hc List.not_mem_nil⟩
  | cons a l ih =>
      obtain ⟨n, hn⟩ := h a List.mem_cons_self
      obtain ⟨m, hm⟩ := ih fun c hc => h c (List.mem_cons_of_mem a hc)
      refine ⟨max n m, fun c hc => ?_⟩
      rcases List.mem_cons.mp hc with rfl | hc
      · exact hn.mono (le_max_left n m)
      · exact (hm c hc).mono (le_max_right n m)

/-- **Where no node is its own descendant**, the nodes of a finite set are bounded. -/
theorem exists_bounded (hs : s.Finite) (hclosed : ∀ a ∈ s, ∀ c ∈ children a, c ∈ s)
    (hacyclic : ∀ a, ¬ Relation.TransGen (fun c a => c ∈ children a) a a) (ha : a ∈ s) :
    ∃ n, Bounded children n a := by
  have hwf : s.WellFoundedOn (Relation.TransGen fun c a => c ∈ children a) :=
    have : Std.Irrefl (Relation.TransGen fun c a => c ∈ children a) := ⟨hacyclic⟩
    have : IsStrictOrder α (Relation.TransGen fun c a => c ∈ children a) := {}
    hs.wellFoundedOn
  apply hwf.induction (P := fun a => ∃ n, Bounded children n a) ha
  intro a ha ih
  obtain ⟨n, hn⟩ := exists_bounded_list fun c hc => ih c (hclosed a ha c hc) (.single hc)
  exact ⟨n + 1, hn⟩

end OSLab.Subtree
