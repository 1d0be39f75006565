import OSLab.Foothread.Steps

set_option autoImplicit false

/-! # The sums of the nodes

When the thread of a node comes to the barrier of its parent, its sum is the sum of the leaves
below it, whatever the interleaving (`sums_complete`). That a thread gets through its own barrier
only when all its children have written to it is the invariant of the barriers (`Gate`); what is
added here is that a child writes there only after it has stored its final sum, which nobody
changes again.

The induction over the tree is hidden in that: a node that adds up the final sums of its children
gets its own leaf sum, and no node is its own parent. All sums are taken as an `int` takes them,
so they are the leaf sums themselves only where these fit (`subtree_overflows`).
-/

namespace OSLab.Foothread

variable {n : Nat} {lines : List (Nat × Nat)} {values : Nat → Int} {g : Globals} {root : Nat}
variable {lo v i : Nat} {s s' : Prog}

/-! ## Adding up the children -/

/-- An `int` can hold the number. -/
def FitsInt (x : Int) : Prop := -2147483648 ≤ x ∧ x ≤ 2147483647

instance (x : Int) : Decidable (FitsInt x) := inferInstanceAs (Decidable (_ ∧ _))

theorem toInt_of_fits {x : Int} (h : FitsInt x) : toInt x = x := by
  obtain ⟨hlo, hhi⟩ := h
  exact Int.bmod_eq_of_le (by omega) (by omega)

/-- The values of the leaves are of type `int`. -/
def LeavesFit (n : Nat) (lines : List (Nat × Nat)) (values : Nat → Int) : Prop :=
  ∀ v < n, Forest.Leaf (Finset.range n) (fileParent lines) v → FitsInt (values v)

/-- `int` addition does not care how its operands were taken. -/
theorem toInt_add (x y : Int) : toInt (toInt x + toInt y) = toInt (x + y) :=
  (Int.add_bmod x y _).symm

/-- What the first `i` nodes contribute to the sum of node `v`. -/
noncomputable def partialSum (n : Nat) (lines : List (Nat × Nat)) (values : Nat → Int)
    (v i : Nat) : Int :=
  ∑ c ∈ Finset.range i, if fileParent lines c = some v then subtreeSum n lines values c else 0

theorem partialSum_zero : partialSum n lines values v 0 = 0 := rfl

theorem partialSum_child (h : fileParent lines i = some v) :
    partialSum n lines values v (i + 1)
      = partialSum n lines values v i + subtreeSum n lines values i := by
  rw [partialSum, Finset.sum_range_succ, if_pos h]
  rfl

theorem partialSum_other (h : fileParent lines i ≠ some v) :
    partialSum n lines values v (i + 1) = partialSum n lines values v i := by
  rw [partialSum, Finset.sum_range_succ, if_neg h, add_zero]
  rfl

theorem TreeOk.leaf_iff (h : TreeOk n lines values g) (hv : v < n) :
    (g.tree v).children = 0 ↔ Forest.Leaf (Finset.range n) (fileParent lines) v := by
  rw [h.children v hv]
  have hzero : Nat.count (fun c => fileParent lines c = some v) n = 0
      ↔ ∀ c < n, fileParent lines c ≠ some v := by
    constructor
    · intro hc c hcn hp
      have := count_pos (p := fun c => fileParent lines c = some v) hcn hp
      omega
    · intro hc
      by_contra hne
      obtain ⟨c, hcn, hp⟩ := Nat.count_ne_iff_exists.mp hne
      exact hc c hcn hp
  simpa [Forest.Leaf] using hzero

/-- A leaf is alone in its subtree. -/
theorem TreeOk.subtreeSum_leaf (h : TreeOk n lines values g) (hv : v < n)
    (hc : (g.tree v).children = 0) : subtreeSum n lines values v = (g.tree v).value := by
  obtain ⟨depth, hd⟩ := h.forest
  rw [h.leafValue v hv hc]
  exact Forest.leafSum_leaf (Finset.mem_range.mpr hv) ((h.leaf_iff hv).mp hc) hd

/-- **An inner node that adds up its children gets its leaf sum.** -/
theorem TreeOk.subtreeSum_inner (h : TreeOk n lines values g) (hin : Inner g v) :
    subtreeSum n lines values v = partialSum n lines values v n := by
  obtain ⟨depth, hd⟩ := h.forest
  have hv : v < n := h.numNodes ▸ hin.1
  have hleaf : ¬ Forest.Leaf (Finset.range n) (fileParent lines) v := by
    rw [← h.leaf_iff hv]
    exact hin.2.ne'
  rw [subtreeSum, Forest.leafSum_inner hd hleaf, partialSum, Forest.children, Finset.sum_filter]
  refine Finset.sum_congr rfl fun c _ => ?_
  congr 1

/-! ## The sums during a run -/

/-- The thread has stored the final sum of its node. -/
def stored : NodePc → Bool
  | .unlock _ | .up | .waitParent _ | .check | .lockReport _ | .report | .unlockReport _
  | .exit _ | .finished => true
  | _ => false

/-- What the place of a node's thread says about the sum of the node. -/
def SumOk (n : Nat) (lines : List (Nat × Nat)) (values : Nat → Int) (v : Nat) (sum : Int) :
    NodePc → Prop
  | .start | .wait _ | .lock _ | .setSum | .leaf => True
  | .scan i => i ≤ n ∧ sum = toInt (partialSum n lines values v i)
  | .addChild i => sum = toInt (partialSum n lines values v i)
  | .addOwn i x =>
      sum = toInt (partialSum n lines values v i) ∧ x = toInt (subtreeSum n lines values i)
  | .store i y => y = toInt (partialSum n lines values v (i + 1))
  | .unlock _ | .up | .waitParent _ | .check | .lockReport _ | .report | .unlockReport _
  | .exit _ | .finished => sum = toInt (subtreeSum n lines values v)

/-- What every node's place says about it. -/
def SumsOk (n : Nat) (lines : List (Nat × Nat)) (values : Nat → Int) (s : Prog) : Prop :=
  ∀ v pc, s.node v = some pc → SumOk n lines values v (s.sum v) pc

theorem SumOk.final {pc : NodePc} {sum : Int} (h : SumOk n lines values v sum pc)
    (hst : stored pc = true) : sum = toInt (subtreeSum n lines values v) := by
  cases pc <;> first | exact h | cases hst

/-- A thread that has written to its parent's barrier has stored its sum. -/
theorem stored_of_wrote {o : Option NodePc} (h : (stage o).wrote .parent = true) :
    ∃ pc, o = some pc ∧ stored pc = true := by
  cases o with
  | none => cases h
  | some pc => cases pc <;> first | exact ⟨_, rfl, rfl⟩ | cases h

/-- **The children of a node that is through its own barrier have stored their sums.** -/
theorem Gate.child_stored (ht : TreeOk n lines values g) (h : Gate g s.mem (stages s))
    (hin : Inner g v) (hp : (stages s v).past = true) (hi : i < n)
    (hchild : (g.tree i).parent = v) : ∃ pc, s.node i = some pc ∧ stored pc = true := by
  have hfull := h.past v hin hp
  rcases hfull i (ht.numNodes ▸ hi) (.inr hchild) with ⟨hown, -⟩ | ⟨-, hw⟩
  · have hiv : i = v := Int.ofNat.inj hown
    exact absurd (hiv ▸ hchild) (ht.parent_ne hi)
  · exact stored_of_wrote hw

/-- Node `v` moves, and writes at most its own sum. -/
theorem SumsOk.put {mem : Mem} {pc : NodePc} {x : Int} (h : SumsOk n lines values s)
    (hx : SumOk n lines values v x pc) : SumsOk n lines values ((s.setSum v x).put v mem pc) := by
  intro w wpc hw
  by_cases hwv : w = v
  · subst hwv
    have hpc : some pc = some wpc := by simpa [Prog.put, Prog.setSum] using hw
    cases hpc
    simpa [Prog.put, Prog.setSum] using hx
  · have hw' : s.node w = some wpc := by
      simpa [Prog.put, Prog.setSum, Function.update_of_ne hwv] using hw
    simpa [Prog.put, Prog.setSum, Function.update_of_ne hwv] using h w wpc hw'

/-- Node `v` moves and leaves its sum alone. -/
theorem SumsOk.walk {mem : Mem} {pc : NodePc} (h : SumsOk n lines values s)
    (hx : SumOk n lines values v (s.sum v) pc) : SumsOk n lines values (s.put v mem pc) := by
  have hsame : s.setSum v (s.sum v) = s := by
    unfold Prog.setSum
    rw [Function.update_eq_self]
  have hput : SumsOk n lines values ((s.setSum v (s.sum v)).put v mem pc) := h.put hx
  rwa [hsame] at hput

theorem sumsOk_call {P : Type} {place : P → NodePc} {after : NodePc} {r : Option (Mem × Ctl P)}
    (hs : s.call v place after r = some s') (h : SumsOk n lines values s)
    (hplace : ∀ pc, SumOk n lines values v (s.sum v) (place pc))
    (hafter : SumOk n lines values v (s.sum v) after) : SumsOk n lines values s' := by
  rcases call_cases hs with ⟨mem, pc', -, rfl⟩ | ⟨mem, -, rfl⟩ | ⟨mem, -, rfl⟩
  · exact h.walk (hplace pc')
  · exact h.walk hafter
  · exact h

theorem sums_node (ht : TreeOk n lines values g) (hleaves : LeavesFit n lines values)
    (hb : Base lo g s) (hg : Gate g s.mem (stages s)) (h : SumsOk n lines values s) {pc : NodePc}
    (hpc : s.node v = some pc) (hs : nodeNext g v s pc = some s') : SumsOk n lines values s' := by
  obtain ⟨hv, hok⟩ := hb.node v pc hpc
  have hvn : v < n := ht.numNodes ▸ hv
  have hsum := h v pc hpc
  cases pc with
  | start =>
      cases hs
      refine h.walk ?_
      split <;> trivial
  | wait bpc => exact sumsOk_call hs h (fun _ => trivial) trivial
  | lock lpc => exact sumsOk_call hs h (fun _ => trivial) trivial
  | setSum =>
      cases hs
      refine h.put ⟨Nat.zero_le n, ?_⟩
      rw [ht.innerValue v hvn hok.2, partialSum_zero]
      rfl
  | scan i =>
      -- `i` children are summed; the scan passes over what is no child
      obtain ⟨hin, hsv⟩ := hsum
      simp only [nodeNext] at hs
      split at hs
      · rename_i hi
        have hi' : i < n := ht.numNodes ▸ hi
        cases hs
        refine h.walk ?_
        split
        · exact hsv
        · rename_i hother
          rw [ht.parent_eq hi'] at hother
          exact ⟨hi', by rw [partialSum_other hother]; exact hsv⟩
      · rename_i hi
        have hi' : i = n := by
          rw [ht.numNodes] at hi
          omega
        cases hs
        refine h.walk ?_
        show s.sum v = _
        rw [ht.subtreeSum_inner hok, hsv, hi']
  | addChild i =>
      cases hs
      -- past the barrier, every child has stored its sum
      obtain ⟨hin, hi, hchild⟩ := hok
      have hpast : (stages s v).past = true := by rw [stages, hpc]; rfl
      obtain ⟨cpc, hcpc, hst⟩ := hg.child_stored ht hin hpast (ht.numNodes ▸ hi) hchild
      exact h.walk ⟨hsum, (h i cpc hcpc).final hst⟩
  | addOwn i x =>
      cases hs
      obtain ⟨hsv, hx⟩ := hsum
      have hchild := (ht.parent_eq (ht.numNodes ▸ hok.2.1)).mp hok.2.2
      refine h.walk ?_
      show toInt (s.sum v + x) = _
      rw [hsv, hx, toInt_add, partialSum_child hchild]
  | store i y =>
      cases hs
      refine h.put ⟨?_, hsum⟩
      exact Nat.succ_le_of_lt (ht.numNodes ▸ hok.2.1)
  | unlock upc => exact sumsOk_call hs h (fun _ => hsum) hsum
  | leaf =>
      cases hs
      refine h.put ?_
      show (g.tree v).value = _
      -- a leaf's value is what was read, for it fits
      have hfits := hleaves v hvn ((ht.leaf_iff hvn).mp hok)
      rw [ht.subtreeSum_leaf hvn hok, ht.leafValue v hvn hok, toInt_of_fits hfits]
  | up =>
      cases hs
      refine h.walk ?_
      split <;> exact hsum
  | waitParent bpc => exact sumsOk_call hs h (fun _ => hsum) hsum
  | check =>
      cases hs
      refine h.walk ?_
      split <;> exact hsum
  | lockReport lpc => exact sumsOk_call hs h (fun _ => hsum) hsum
  | report =>
      cases hs
      exact h.walk hsum
  | unlockReport upc => exact sumsOk_call hs h (fun _ => hsum) hsum
  | exit epc => exact sumsOk_call hs h (fun _ => hsum) hsum
  | finished => cases hs

theorem sums_main (hb : Base lo g s) (h : SumsOk n lines values s)
    (hs : mainNext g s s.main = some s') : SumsOk n lines values s' := by
  obtain ⟨-, hsum, hnode⟩ := main_frame hb hs
  intro v pc hv
  rw [hsum]
  rcases hnode with heq | ⟨i, -, heq⟩
  · exact h v pc (heq ▸ hv)
  · rw [heq] at hv
    by_cases hvi : v = i
    · subst hvi
      have hpc : some NodePc.start = some pc := by simpa using hv
      cases hpc
      trivial
    · exact h v pc (by simpa [Function.update_of_ne hvi] using hv)

/-- In every run the sums are the leaf sums, as an `int` takes them. -/
theorem sums_reachable (h : RootedTree n lines root) (hleaves : LeavesFit n lines values)
    (hs : (computeSum n lines values).Reachable s) : SumsOk n lines values s := by
  have hok := setup_ok h values
  refine Machine.ReachableWhen.invariant_of (I := SumsOk n lines values)
    (fun s hs => And.intro (base_reachable h hs) (gate_reachable h hs)) (fun s hs => ?_)
    (fun s t s' hJ hI _ hstep => ?_) hs
  · obtain rfl := hs
    intro v pc hv
    cases hv
  · rcases computeSum_cases hstep with ⟨-, hmain⟩ | ⟨v, pc, -, hpc, hnode⟩
    · exact sums_main hJ.1 hI hmain
    · exact sums_node hok.tree hleaves hJ.1 hJ.2 hI hpc hnode

/-! ## Complete sums -/

/-- The thread has come to the barrier of its parent, or to its exit if it has no parent. -/
def arrived : NodePc → Bool
  | .waitParent _ | .check | .lockReport _ | .report | .unlockReport _ | .exit _ | .finished => true
  | _ => false

/-- Nodes that have arrived have the sums of their subtrees as an `int` holds them, so the sums
themselves where they fit; and whatever a node adds to its own sum is the final sum of a child. -/
structure SumsComplete (n : Nat) (lines : List (Nat × Nat)) (values : Nat → Int) (s : Prog) :
    Prop where
  arrived : ∀ v pc, s.node v = some pc → arrived pc = true →
    s.sum v = toInt (subtreeSum n lines values v)
  fits : ∀ v pc, s.node v = some pc → OSLab.Foothread.arrived pc = true →
    FitsInt (subtreeSum n lines values v) → s.sum v = subtreeSum n lines values v
  added : ∀ v i, s.node v = some (.addChild i) → fileParent lines i = some v
    ∧ (∃ pc, s.node i = some pc ∧ stored pc = true)
    ∧ s.sum i = toInt (subtreeSum n lines values i)

theorem stored_of_arrived {pc : NodePc} (h : arrived pc = true) : stored pc = true := by
  cases pc <;> first | rfl | cases h

/-- **Node sums are complete**, in every interleaving. -/
theorem sums_complete (h : RootedTree n lines root) (hleaves : LeavesFit n lines values)
    (hs : (computeSum n lines values).Reachable s) : SumsComplete n lines values s := by
  have ht := (setup_ok h values).tree
  have hb := base_reachable h hs
  have hg := gate_reachable h hs
  have hsums := sums_reachable h hleaves hs
  have key : ∀ v pc, s.node v = some pc → arrived pc = true →
      s.sum v = toInt (subtreeSum n lines values v) :=
    fun v pc hpc ha => (hsums v pc hpc).final (stored_of_arrived ha)
  refine ⟨key, fun v pc hpc ha hfit => (key v pc hpc ha).trans (toInt_of_fits hfit),
    fun v i hpc => ?_⟩
  obtain ⟨-, hin, hi, hchild⟩ := hb.node v _ hpc
  have hi' : i < n := ht.numNodes ▸ hi
  have hpast : (stages s v).past = true := by rw [stages, hpc]; rfl
  obtain ⟨cpc, hcpc, hst⟩ := hg.child_stored ht hin hpast hi' hchild
  exact ⟨(ht.parent_eq hi').mp hchild, ⟨cpc, hcpc, hst⟩, (hsums i cpc hcpc).final hst⟩

/-- For values that are not negative the total alone decides whether all sums fit. -/
theorem subtreeSum_fits_of_total (h : RootedTree n lines root) (hpos : ∀ v < n, 0 ≤ values v)
    (htotal : FitsInt (subtreeSum n lines values root)) (v : Nat) :
    FitsInt (subtreeSum n lines values v) := by
  obtain ⟨depth, hd⟩ := h.descending
  have hpos' : ∀ u ∈ Finset.range n, 0 ≤ values u := fun u hu => hpos u (Finset.mem_range.mp hu)
  have hall := hd.under_root fun u hu => h.root_of_none (Finset.mem_range.mp hu)
  have hlo : 0 ≤ subtreeSum n lines values v := Forest.leafSum_nonneg hpos'
  have hhi : subtreeSum n lines values v ≤ subtreeSum n lines values root :=
    Forest.leafSum_le_root hpos' hall
  exact ⟨by omega, hhi.trans htotal.2⟩

/-- Two nodes; the leaf with value `5` has come to the barrier of the root. -/
theorem sums_complete_pair : ∃ s, (computeSum 2 [(0, 0), (1, 0)] fun _ => 5).Reachable s
    ∧ s.node 1 = some (.waitParent .setPop) ∧ SumsComplete 2 [(0, 0), (1, 0)] (fun _ => 5) s := by
  have htree : RootedTree 2 [(0, 0), (1, 0)] 0 :=
    ⟨by decide, by decide, by decide, by decide, ⟨id, by decide⟩, by decide⟩
  obtain ⟨s, hs, hpc⟩ : ∃ s, (computeSum 2 [(0, 0), (1, 0)] fun _ => 5).Reachable s
      ∧ (s.node 1 = some (.waitParent .setPop) : Bool) = true :=
    Machine.exists_reachable_of_exec (l := List.replicate 33 0 ++ List.replicate 3 2) rfl
      (by decide +kernel)
  exact ⟨s, hs, of_decide_eq_true hpc, sums_complete htree (fun _ _ _ => by decide) hs⟩

/-- A node `2` with two leaves, and a third leaf beside it. -/
def besideLines : List (Nat × Nat) := [(0, 2), (1, 2), (2, 4), (3, 4), (4, 4)]

def besideValues : Nat → Int := fun v => if v = 0 then 2147483647 else if v = 1 then 1 else -1

/-- **A total that fits is not enough.** The sum of node `2` wraps around, although the leaf
beside it keeps the total in an `int`. -/
theorem subtree_overflows : RootedTree 5 besideLines 4 ∧ (∀ v < 5, FitsInt (besideValues v))
    ∧ FitsInt (subtreeSum 5 besideLines besideValues 4)
    ∧ ∃ s, (computeSum 5 besideLines besideValues).Reachable s
      ∧ s.node 2 = some (.waitParent .setPop)
      ∧ s.sum 2 ≠ subtreeSum 5 besideLines besideValues 2 := by
  have htree : RootedTree 5 besideLines 4 :=
    ⟨by decide, by decide, by decide, by decide,
      ⟨fun v => if v = 4 then 0 else if v = 2 then 1 else 2, by decide⟩, by decide⟩
  obtain ⟨s, hs, hrun⟩ : ∃ s, (computeSum 5 besideLines besideValues).Reachable s
      ∧ (s.node 2 = some (.waitParent .setPop) ∧ s.sum 2 = -2147483648 : Bool) = true :=
    Machine.exists_reachable_of_exec (l := List.replicate 51 0 ++ List.replicate 13 1
      ++ List.replicate 13 2 ++ List.replicate 44 3) rfl (by decide +kernel)
  obtain ⟨hpc, hsum⟩ := of_decide_eq_true hrun
  have ht := (setup_ok htree besideValues).tree
  have hleaves : ∀ v < 5, v ≠ 2 → v ≠ 4 →
      ((setup 5 besideLines besideValues).1.tree v).children = 0 := by decide
  have hleaf : ∀ v < 5, v ≠ 2 → v ≠ 4 →
      subtreeSum 5 besideLines besideValues v = besideValues v := by
    intro v hv h2 h4
    have hc := hleaves v hv h2 h4
    rw [ht.subtreeSum_leaf hv hc, ht.leafValue v hv hc]
  have h0 : fileParent besideLines 0 = some 2 := by decide
  have h1 : fileParent besideLines 1 = some 2 := by decide
  have h2 : fileParent besideLines 2 = some 4 := by decide
  have h3 : fileParent besideLines 3 = some 4 := by decide
  have h4 : fileParent besideLines 4 = none := by decide
  have htwo : subtreeSum 5 besideLines besideValues 2 = 2147483648 := by
    rw [ht.subtreeSum_inner ⟨by decide, by decide⟩]
    simp [partialSum, Finset.sum_range_succ, h0, h1, h2, h3, h4, hleaf, besideValues]
  have htotal : subtreeSum 5 besideLines besideValues 4 = 2147483647 := by
    rw [ht.subtreeSum_inner ⟨by decide, by decide⟩]
    simp [partialSum, Finset.sum_range_succ, h0, h1, h2, h3, h4, hleaf, htwo, besideValues]
  refine ⟨htree, by decide, by rw [htotal]; decide, s, hs, hpc, ?_⟩
  rw [hsum, htwo]
  decide

end OSLab.Foothread
