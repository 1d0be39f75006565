import OSLab.Lib.Loop
import Mathlib.Data.List.GetD
import Mathlib.Logic.Function.Iterate
import Mathlib.Tactic

set_option autoImplicit false

/-! # The random tree of `gentree.c`

The generator shuffles the numbers `0 … n - 1` into `PERM` and then takes them in that order: the
first is the root, and the next few become the children of the node `nextparent` points at, which
moves on by one each time. `rand` gives the results of `rand()` in the order of the calls: one for
each swap of the shuffle, then one for each iteration of the loop, which is the `nextparent`-th.

The arrays are read and written with a check of the index, and `P` is not initialised, so that
`gentree` has a result only if no index is out of range. `nextparent` never overtakes `nextchild`
(`Grown.behind`), which makes the loop end, and a parent always comes before its child in `PERM`
(`Grown.linked`), which makes `P` a tree (`gentree_tree`).
-/

namespace OSLab.Foothread

/-- `l[i] = a`. -/
def setCell {α : Type} (l : List α) (i : Nat) (a : α) : Option (List α) :=
  if i < l.length then some (l.set i a) else none

/-- `t = PERM[i]; PERM[i] = PERM[j]; PERM[j] = t`. -/
def swap (perm : List Nat) (i j : Nat) : Option (List Nat) := do
  let t ← perm[i]?
  let u ← perm[j]?
  let perm ← setCell perm i u
  setCell perm j t

/-- The first two loops. -/
def shuffle (rand : Nat → Nat) (n : Nat) : Option (List Nat) :=
  (List.range n).foldlM (fun perm i => swap perm i (i + rand i % (n - i))) (List.range n)

/-- The arrays and the variables of the loop that grows the tree. -/
structure Gen where
  perm : List Nat
  P : List (Option Nat)
  nextchild : Nat
  nextparent : Nat
  remaining : Int

/-- `t`, on the result `r` of `rand()`. -/
def childCount (s : Gen) (r : Nat) : Int :=
  if s.remaining > 5 then if s.nextchild = s.nextparent then 1 + r % 5 else r % 5
  else if s.nextchild = s.nextparent then 1 + r % s.remaining else r % s.remaining

/-- `++nextchild; P[PERM[nextchild]] = PERM[nextparent]`. -/
def addChild (s : Gen) : Option Gen := do
  let c ← s.perm[s.nextchild + 1]?
  let q ← s.perm[s.nextparent]?
  let P ← setCell s.P c (some q)
  pure { s with P := P, nextchild := s.nextchild + 1 }

def addChildren : Nat → Gen → Option Gen
  | 0, s => some s
  | t + 1, s => (addChild s).bind (addChildren t)

/-- One iteration of the loop. -/
def growNext (rand : Nat → Nat) (n : Nat) (s : Gen) : Option Gen :=
  let t := childCount s (rand (n + s.nextparent))
  (addChildren t.toNat { s with remaining := s.remaining - t }).map fun s =>
    { s with nextparent := s.nextparent + 1 }

/-- `while (remaining > 0)`. -/
def grow (rand : Nat → Nat) (n : Nat) : Nat → Gen → Option Gen
  | 0, s => if 0 < s.remaining then none else some s
  | fuel + 1, s =>
      if 0 < s.remaining then (growNext rand n s).bind (grow rand n fuel) else some s

/-- The array `P` that is written to the file. The loop is given `n` iterations. -/
def gentree (rand : Nat → Nat) (n : Nat) : Option (List (Option Nat)) := do
  let perm ← shuffle rand n
  let root ← perm[0]?
  let P ← setCell (List.replicate n none) root (some root)
  let s ← grow rand n n ⟨perm, P, 0, 0, n - 1⟩
  pure s.P

/-- The parents make up a tree with this root, which is its own parent. -/
structure ParentTree (P : List Nat) (root : Nat) : Prop where
  root_lt : root < P.length
  parents : ∀ p ∈ P, p < P.length
  root_self : P.getD root 0 = root
  root_only : ∀ i < P.length, P.getD i 0 = i → i = root
  reaches : ∀ i < P.length, ∃ k, (fun x => P.getD x 0)^[k] i = root

variable {rand : Nat → Nat} {n i j t : Nat} {perm : List Nat} {s s' : Gen}

/-! ## The shuffle -/

theorem setCell_eq {α : Type} {l : List α} {a : α} (hi : i < l.length) :
    setCell l i a = some (l.set i a) := if_pos hi

/-- A swap within the array rearranges it. -/
theorem swap_perm (hi : i < perm.length) (hj : j < perm.length) :
    ∃ perm', swap perm i j = some perm' ∧ perm'.Perm perm := by
  refine ⟨(perm.set i perm[j]).set j perm[i], ?_, List.set_set_perm hi hj⟩
  simp only [swap, List.getElem?_eq_getElem hi, List.getElem?_eq_getElem hj, setCell_eq hi,
    Option.bind_eq_bind, Option.bind_some]
  exact setCell_eq (by rwa [List.length_set])

/-- **The shuffle** rearranges the numbers, whatever `rand` gives. -/
theorem shuffle_perm (rand : Nat → Nat) (n : Nat) :
    ∃ perm, shuffle rand n = some perm ∧ perm.Perm (List.range n) := by
  apply foldlM_range (P := fun _ (perm : List Nat) => perm.Perm (List.range n))
  · exact List.Perm.refl _
  · intro i perm hi hperm
    have hlen : perm.length = n := by rw [hperm.length_eq, List.length_range]
    have hj : i + rand i % (n - i) < perm.length := by
      have hmod := Nat.mod_lt (rand i) (y := n - i) (by omega)
      omega
    obtain ⟨perm', hswap, hperm'⟩ := swap_perm (i := i) (by omega) hj
    exact ⟨perm', hswap, hperm'.trans hperm⟩

/-! ## The loop -/

/-- The nodes up to `nextchild` have their parents, which come before them in `perm`. -/
structure Linked (n : Nat) (perm : List Nat) (s : Gen) : Prop where
  perm_eq : s.perm = perm
  length : s.P.length = n
  inside : s.nextchild < n
  root : ∀ x, perm[0]? = some x → s.P[x]? = some (some x)
  linked : ∀ c x, 0 < c → c ≤ s.nextchild → perm[c]? = some x →
    ∃ p < c, ∃ y, perm[p]? = some y ∧ s.P[x]? = some (some y)

/-- What holds at the head of the loop. -/
structure Grown (n : Nat) (perm : List Nat) (s : Gen) : Prop extends Linked n perm s where
  behind : s.nextparent ≤ s.nextchild
  left : s.remaining = n - 1 - s.nextchild

/-- A permutation of the nodes names each node at one place. -/
theorem perm_index (hperm : perm.Perm (List.range n)) {c d x : Nat} (hc : perm[c]? = some x)
    (hd : perm[d]? = some x) : c = d := by
  have hnodup : perm.Nodup := hperm.nodup_iff.mpr List.nodup_range
  obtain ⟨hclt, -⟩ := List.getElem?_eq_some_iff.mp hc
  exact (List.getElem?_inj hclt hnodup).mp (hc.trans hd.symm)

theorem perm_lt (hperm : perm.Perm (List.range n)) {c x : Nat} (hc : perm[c]? = some x) : x < n :=
  List.mem_range.mp (hperm.mem_iff.mp (List.mem_of_getElem? hc))

theorem perm_get (hperm : perm.Perm (List.range n)) {c : Nat} (hc : c < n) :
    ∃ x, perm[c]? = some x := by
  have hlt : c < perm.length := by rwa [hperm.length_eq, List.length_range]
  exact ⟨perm[c], List.getElem?_eq_getElem hlt⟩

/-- One child more, of a node that has its parent. -/
theorem addChild_linked (hperm : perm.Perm (List.range n)) (h : Linked n perm s)
    (hbehind : s.nextparent ≤ s.nextchild) (hroom : s.nextchild + 1 < n) :
    ∃ s', addChild s = some s' ∧ Linked n perm s' ∧ s'.nextchild = s.nextchild + 1
      ∧ s'.nextparent = s.nextparent ∧ s'.remaining = s.remaining := by
  obtain ⟨c, hc⟩ := perm_get hperm hroom
  obtain ⟨q, hq⟩ := perm_get hperm (c := s.nextparent) (by omega)
  have hclt : c < s.P.length := by
    rw [h.length]
    exact perm_lt hperm hc
  -- a node met before is not the new child
  have hold : ∀ d x, d ≤ s.nextchild → perm[d]? = some x →
      (s.P.set c (some q))[x]? = s.P[x]? := by
    intro d x hd hx
    apply List.getElem?_set_ne
    rintro rfl
    have := perm_index hperm hc hx
    omega
  refine ⟨{ s with P := s.P.set c (some q), nextchild := s.nextchild + 1 }, ?_, ?_, rfl, rfl, rfl⟩
  · rw [← h.perm_eq] at hc hq
    simp only [addChild, hc, hq, Option.bind_eq_bind, Option.bind_some, setCell_eq hclt]
    rfl
  · refine ⟨h.perm_eq, ?_, hroom, fun x hx => ?_, fun d x hd hle hx => ?_⟩
    · rw [List.length_set]
      exact h.length
    · exact (hold 0 x (Nat.zero_le _) hx).trans (h.root x hx)
    · rcases Nat.lt_or_ge s.nextchild d with hnew | hmet
      · obtain rfl : d = s.nextchild + 1 := Nat.le_antisymm hle hnew
        obtain rfl : c = x := Option.some.inj (hc.symm.trans hx)
        exact ⟨s.nextparent, by omega, q, hq, List.getElem?_set_self hclt⟩
      · obtain ⟨p, hp, y, hy, hx'⟩ := h.linked d x hd hmet hx
        exact ⟨p, hp, y, hy, (hold d x hmet hx).trans hx'⟩

theorem addChildren_linked (hperm : perm.Perm (List.range n)) (t : Nat) :
    ∀ {s : Gen}, Linked n perm s → s.nextparent ≤ s.nextchild → s.nextchild + t < n →
      ∃ s', addChildren t s = some s' ∧ Linked n perm s' ∧ s'.nextchild = s.nextchild + t
        ∧ s'.nextparent = s.nextparent ∧ s'.remaining = s.remaining := by
  induction t with
  | zero => exact fun h _ _ => ⟨_, rfl, h, rfl, rfl, rfl⟩
  | succ t ih =>
      intro s h hbehind hroom
      obtain ⟨s₁, hs₁, h₁, hchild₁, hparent₁, hleft₁⟩ :=
        addChild_linked hperm h hbehind (by omega)
      obtain ⟨s₂, hs₂, h₂, hchild₂, hparent₂, hleft₂⟩ := ih h₁ (by omega) (by omega)
      refine ⟨s₂, ?_, h₂, by omega, hparent₂.trans hparent₁, hleft₂.trans hleft₁⟩
      rw [addChildren, hs₁]
      exact hs₂

/-- The number of children is never more than what remains, and not zero when there would be no
next parent. -/
theorem childCount_bounds (s : Gen) (r : Nat) (hleft : 0 < s.remaining) :
    0 ≤ childCount s r ∧ childCount s r ≤ s.remaining
      ∧ (s.nextchild = s.nextparent → 1 ≤ childCount s r) := by
  have hmod0 := Int.emod_nonneg (r : Int) (b := s.remaining) (by omega)
  have hmod := Int.emod_lt_of_pos (r : Int) hleft
  unfold childCount
  split_ifs <;> omega

theorem growNext_grown (rand : Nat → Nat) (hperm : perm.Perm (List.range n)) (h : Grown n perm s)
    (hleft : 0 < s.remaining) :
    ∃ s', growNext rand n s = some s' ∧ Grown n perm s' ∧ s'.nextparent = s.nextparent + 1 := by
  obtain ⟨ht0, htle, hpos⟩ := childCount_bounds s (rand (n + s.nextparent)) hleft
  have hleft' := h.left
  have hbehind := h.behind
  generalize ht : childCount s (rand (n + s.nextparent)) = t at ht0 htle hpos
  obtain ⟨t, rfl⟩ := Int.eq_ofNat_of_zero_le ht0
  obtain ⟨s', hs', hlinked, hchild, hparent, hrem⟩ :=
    addChildren_linked hperm t (s := { s with remaining := s.remaining - t })
      ⟨h.perm_eq, h.length, h.inside, h.root, h.linked⟩ hbehind (by simp only; omega)
  simp only at hchild hparent hrem
  refine ⟨{ s' with nextparent := s'.nextparent + 1 }, ?_, ⟨⟨hlinked.perm_eq, hlinked.length,
    hlinked.inside, hlinked.root, hlinked.linked⟩, ?_, ?_⟩, ?_⟩
  · simp only [growNext, ht, Int.toNat_natCast, hs']
    rfl
  · show s'.nextparent + 1 ≤ s'.nextchild
    by_cases hmeet : s.nextchild = s.nextparent
    · have := hpos hmeet
      omega
    · omega
  · show s'.remaining = n - 1 - s'.nextchild
    omega
  · simp only [hparent]

/-- **The loop ends**: an iteration may add no child, but it moves `nextparent`, which stays
behind `nextchild`. -/
theorem grow_grown (rand : Nat → Nat) (hperm : perm.Perm (List.range n)) (fuel : Nat) :
    ∀ {s : Gen}, Grown n perm s → n ≤ fuel + s.nextparent + 1 →
      ∃ s', grow rand n fuel s = some s' ∧ Grown n perm s' ∧ s'.remaining ≤ 0 := by
  induction fuel with
  | zero =>
      intro s h hfuel
      have hdone : ¬ 0 < s.remaining := by
        have := h.left
        have := h.behind
        omega
      exact ⟨s, if_neg hdone, h, not_lt.mp hdone⟩
  | succ fuel ih =>
      intro s h hfuel
      by_cases hleft : 0 < s.remaining
      · obtain ⟨s₁, hs₁, h₁, hparent⟩ := growNext_grown rand hperm h hleft
        obtain ⟨s₂, hs₂, h₂, hdone⟩ := ih h₁ (by omega)
        refine ⟨s₂, ?_, h₂, hdone⟩
        rw [grow, if_pos hleft, hs₁]
        exact hs₂
      · exact ⟨s, if_neg hleft, h, not_lt.mp hleft⟩

/-! ## The tree -/

/-- When nothing remains, every node has its parent. -/
theorem Grown.parent_of (h : Grown n perm s) (hdone : s.remaining ≤ 0)
    (hperm : perm.Perm (List.range n)) {x : Nat} (hx : x < n) :
    ∃ c, perm[c]? = some x ∧ (c = 0 ∧ s.P[x]? = some (some x)
      ∨ ∃ p < c, ∃ y, perm[p]? = some y ∧ s.P[x]? = some (some y)) := by
  obtain ⟨c, hc⟩ := List.getElem?_of_mem (hperm.mem_iff.mpr (List.mem_range.mpr hx))
  refine ⟨c, hc, ?_⟩
  rcases Nat.eq_zero_or_pos c with rfl | hpos
  · exact .inl ⟨rfl, h.root x hc⟩
  · obtain ⟨hclt, -⟩ := List.getElem?_eq_some_iff.mp hc
    have hlen : perm.length = n := by rw [hperm.length_eq, List.length_range]
    have hleft := h.left
    exact .inr (h.linked c x hpos (by omega) hc)

/-- Parents that come before their children in some order make up a tree. -/
theorem parentTree_of_order {P : List Nat} {root : Nat} (hlen : P.length = n)
    (hperm : perm.Perm (List.range n)) (hroot : perm[0]? = some root)
    (hP : ∀ x < n, ∃ c, perm[c]? = some x ∧ (c = 0 ∧ P.getD x 0 = x
      ∨ ∃ p < c, perm[p]? = some (P.getD x 0))) : ParentTree P root := by
  have hrootlt : root < n := perm_lt hperm hroot
  have hself : P.getD root 0 = root := by
    obtain ⟨c, hc, h⟩ := hP root hrootlt
    obtain rfl := perm_index hperm hc hroot
    rcases h with ⟨-, h⟩ | ⟨p, hp, -⟩
    · exact h
    · exact absurd hp (Nat.not_lt_zero p)
  have hreach : ∀ c x : Nat, perm[c]? = some x → ∃ k, (fun x => P.getD x 0)^[k] x = root := by
    intro c
    induction c using Nat.strong_induction_on with
    | _ c ih =>
        intro x hx
        obtain ⟨d, hd, h⟩ := hP x (perm_lt hperm hx)
        obtain rfl := perm_index hperm hx hd
        rcases h with ⟨rfl, -⟩ | ⟨p, hp, hy⟩
        · exact ⟨0, Option.some.inj (hx.symm.trans hroot)⟩
        · obtain ⟨k, hk⟩ := ih p hp _ hy
          exact ⟨k + 1, by rwa [Function.iterate_succ_apply]⟩
  refine ⟨by omega, ?_, hself, ?_, ?_⟩
  · intro p hp
    obtain ⟨x, hx, rfl⟩ := List.getElem_of_mem hp
    obtain ⟨c, hc, h⟩ := hP x (by omega)
    rw [List.getD_eq_getElem _ _ hx] at h
    rcases h with ⟨-, h⟩ | ⟨q, -, hq⟩
    · rw [h]
      exact hx
    · rw [hlen]
      exact perm_lt hperm hq
  · intro x hx hfix
    obtain ⟨c, hc, ⟨rfl, -⟩ | ⟨p, hp, hy⟩⟩ := hP x (by omega)
    · exact Option.some.inj (hc.symm.trans hroot)
    · -- the parent would have to be at the place of the node itself
      rw [hfix] at hy
      have := perm_index hperm hc hy
      omega
  · intro x hx
    obtain ⟨c, hc, -⟩ := hP x (by omega)
    exact hreach c x hc

/-- An array whose cells are all written. -/
theorem exists_eq_map_some {l : List (Option Nat)}
    (h : ∀ x < l.length, ∃ a, l[x]? = some (some a)) : ∃ P : List Nat, l = P.map some := by
  refine ⟨l.map (·.getD 0), List.ext_getElem? fun x => ?_⟩
  rw [List.getElem?_map, List.getElem?_map]
  rcases Nat.lt_or_ge x l.length with hx | hx
  · obtain ⟨a, ha⟩ := h x hx
    rw [ha]
    rfl
  · rw [List.getElem?_eq_none hx]
    rfl

theorem getD_of_map_some {P : List Nat} {x y : Nat} (h : (P.map some)[x]? = some (some y)) :
    P.getD x 0 = y := by
  rw [List.getElem?_map] at h
  obtain ⟨z, hz, hzy⟩ := Option.map_eq_some_iff.mp h
  rw [List.getD_eq_getElem?_getD, hz]
  exact Option.some.inj hzy

/-- **Generated trees are trees**: the loop ends, no index is out of range, every node is given a
parent, and the parents lead to one root. -/
theorem gentree_tree (rand : Nat → Nat) (hn : 1 ≤ n) :
    ∃ P root, gentree rand n = some (P.map some) ∧ P.length = n ∧ ParentTree P root := by
  obtain ⟨perm, hshuffle, hperm⟩ := shuffle_perm rand n
  obtain ⟨root, hroot⟩ := perm_get hperm hn
  have hcell : root < (List.replicate n (none : Option Nat)).length := by
    rw [List.length_replicate]
    exact perm_lt hperm hroot
  have hstart : Grown n perm ⟨perm, (List.replicate n none).set root (some root), 0, 0, n - 1⟩ :=
    { perm_eq := rfl
      length := by rw [List.length_set, List.length_replicate]
      inside := hn
      root := fun x hx => by
        obtain rfl := Option.some.inj (hroot.symm.trans hx)
        exact List.getElem?_set_self hcell
      linked := fun c x hpos hle _ => absurd hpos (not_lt.mpr hle)
      behind := le_rfl
      left := by simp }
  obtain ⟨s, hs, hgrown, hdone⟩ := grow_grown rand hperm n hstart (by simp only; omega)
  obtain ⟨P, hP⟩ := exists_eq_map_some (l := s.P) fun x hx => by
    rw [hgrown.length] at hx
    obtain ⟨c, -, ⟨-, h⟩ | ⟨p, -, y, -, h⟩⟩ := hgrown.parent_of hdone hperm hx
    · exact ⟨x, h⟩
    · exact ⟨y, h⟩
  have hlen : P.length = n := by rw [← hgrown.length, hP, List.length_map]
  refine ⟨P, root, ?_, hlen, parentTree_of_order hlen hperm hroot fun x hx => ?_⟩
  · rw [← hP]
    simp only [gentree, hshuffle, Option.bind_eq_bind, Option.bind_some, hroot, setCell_eq hcell,
      hs]
    rfl
  · obtain ⟨c, hc, h⟩ := hgrown.parent_of hdone hperm hx
    rw [hP] at h
    refine ⟨c, hc, h.imp (fun h => ⟨h.1, getD_of_map_some h.2⟩) ?_⟩
    rintro ⟨p, hp, y, hy, hx'⟩
    exact ⟨p, hp, by rwa [getD_of_map_some hx']⟩

end OSLab.Foothread
