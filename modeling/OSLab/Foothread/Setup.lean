import OSLab.Foothread.Gate
import OSLab.Lib.Forest

set_option autoImplicit false

/-! # What `main` sets up

The lines of the file are taken one at a time, in any order; each names a child, and no child
twice, so the parent of a node is the one its line gives it (`addLines_parent`) and the number of
children of a node is the number of lines that name it as the parent (`addLines_children`). The
loop over the nodes then gives each inner node a barrier with one participant more than that.
-/

namespace OSLab.Foothread

/-! ## The tree in the file -/

/-- The parent the file gives a node, if it gives it another node. -/
def fileParent (lines : List (Nat × Nat)) (c : Nat) : Option Nat :=
  (lines.find? fun l => l.1 = c).bind fun l => if l.2 = c then none else some l.2

/-- The lines describe a tree of `n` nodes with this root: one line for each node, in any order,
and every line but that of the root leads closer to it. -/
structure RootedTree (n : Nat) (lines : List (Nat × Nat)) (root : Nat) : Prop where
  nodes : (lines.map Prod.fst).Perm (List.range n)
  parents : ∀ l ∈ lines, l.2 < n
  rootLine : (root, root) ∈ lines
  rootOnly : ∀ l ∈ lines, l.1 = l.2 → l.1 = root
  depth : ∃ depth : Nat → Nat, ∀ l ∈ lines, l.1 ≠ l.2 → depth l.2 < depth l.1
  small : n ≤ 49

/-- The sum of the leaf values in the subtree of a node. -/
noncomputable def subtreeSum (n : Nat) (lines : List (Nat × Nat)) (values : Nat → Int) (v : Nat) :
    Int :=
  Forest.leafSum (Finset.range n) (fileParent lines) values v

/-- `parent` as the source stores it. -/
def parentField : Option Nat → Int
  | none => -1
  | some p => p

/-- What `initialize_tree` and the reading of the values have to leave. -/
structure TreeOk (n : Nat) (lines : List (Nat × Nat)) (values : Nat → Int) (g : Globals) :
    Prop where
  numNodes : g.numNodes = n
  forest : ∃ depth, Forest.Descending (Finset.range n) (fileParent lines) depth
  parent : ∀ c < n, (g.tree c).parent = parentField (fileParent lines c)
  children : ∀ p < n, (g.tree p).children = Nat.count (fun c => fileParent lines c = some p) n
  leafValue : ∀ v < n, (g.tree v).children = 0 → (g.tree v).value = values v
  innerValue : ∀ v < n, 0 < (g.tree v).children → (g.tree v).value = 0

variable {n : Nat} {lines : List (Nat × Nat)} {values : Nat → Int} {g : Globals} {root : Nat}
variable {v : Nat}

theorem parentField_eq {o : Option Nat} {p : Nat} : parentField o = p ↔ o = some p := by
  cases o with
  | none =>
      simp only [parentField]
      exact ⟨fun h => by omega, fun h => by cases h⟩
  | some q => simp [parentField]

theorem TreeOk.parent_eq (h : TreeOk n lines values g) {c p : Nat} (hc : c < n) :
    (g.tree c).parent = p ↔ fileParent lines c = some p := by
  rw [h.parent c hc]
  exact parentField_eq

/-- A node with a child in the file is an inner node. -/
theorem TreeOk.inner (h : TreeOk n lines values g) {c p : Nat} (hc : c < n)
    (hp : (g.tree c).parent = p) : Inner g p := by
  obtain ⟨depth, hd⟩ := h.forest
  have hfp := (h.parent_eq hc).mp hp
  have hpn : p < n := Finset.mem_range.mp (hd.mem c (Finset.mem_range.mpr hc) p hfp)
  refine ⟨h.numNodes ▸ hpn, ?_⟩
  rw [h.children p hpn]
  have hpos := count_pos (p := fun c => fileParent lines c = some p) hc hfp
  exact_mod_cast hpos

/-- No node is its own parent. -/
theorem TreeOk.parent_ne (h : TreeOk n lines values g) (hv : v < n) : (g.tree v).parent ≠ v := by
  intro hp
  obtain ⟨depth, hd⟩ := h.forest
  have hlt := hd.lt v (Finset.mem_range.mpr hv) v ((h.parent_eq hv).mp hp)
  omega

/-- One of the two barriers of a node is not the other. -/
theorem TreeOk.spot_unique (h : TreeOk n lines values g) (hv : v < n) {b : Nat} {k k' : Spot}
    (hk : spot g v k = b) (hk' : spot g v k' = b) : k' = k := by
  have hne := h.parent_ne hv
  cases k <;> cases k'
  · rfl
  · exact absurd (hk'.trans hk.symm) hne
  · exact absurd (hk.trans hk'.symm) hne
  · rfl

/-! ## The lines -/

theorem addLine_parent (g : Globals) (l : Nat × Nat) (c : Nat) :
    ((addLine g l).tree c).parent
      = if c = l.1 then if l.1 = l.2 then -1 else (l.2 : Int) else (g.tree c).parent := by
  unfold addLine
  split
  · rename_i hne
    by_cases hc : c = l.1
    · subst hc
      simp [Globals.setNode, hne]
    · by_cases hp : c = l.2
      · subst hp
        simp [Globals.setNode, hc]
      · simp [Globals.setNode, Function.update_of_ne hp, hc]
  · rename_i heq
    by_cases hc : c = l.1
    · subst hc
      simp [Globals.setNode, not_not.mp heq]
    · simp [Globals.setNode, hc]

theorem addLine_children (g : Globals) (l : Nat × Nat) (p : Nat) :
    ((addLine g l).tree p).children
      = (g.tree p).children + if l.2 = p ∧ l.1 ≠ l.2 then 1 else 0 := by
  unfold addLine
  split
  · rename_i hne
    by_cases hp : p = l.2
    · subst hp
      simp [Globals.setNode, Function.update_of_ne (Ne.symm hne), hne]
    · by_cases hc : p = l.1
      · subst hc
        simp [Globals.setNode, Function.update_of_ne hp, Ne.symm hp]
      · simp [Globals.setNode, Function.update_of_ne hp, Function.update_of_ne hc, Ne.symm hp]
  · rename_i heq
    by_cases hc : p = l.1
    · subst hc
      simp [Globals.setNode, heq]
    · simp [Globals.setNode, Function.update_of_ne hc, heq]

theorem addLine_value (g : Globals) (l : Nat × Nat) (c : Nat) :
    ((addLine g l).tree c).value = (g.tree c).value := by
  unfold addLine
  split
  · simp only [Globals.setNode, Function.update_apply]
    split_ifs <;> simp_all
  · simp only [Globals.setNode, Function.update_apply]
    split_ifs <;> simp_all

theorem addLine_numNodes (g : Globals) (l : Nat × Nat) : (addLine g l).numNodes = g.numNodes := by
  unfold addLine
  split <;> rfl

/-- Each child has one line, which gives its parent. -/
theorem addLines_parent (hnd : (lines.map Prod.fst).Nodup) (g : Globals) (c : Nat) :
    ((lines.foldl addLine g).tree c).parent
      = if c ∈ lines.map Prod.fst then parentField (fileParent lines c)
        else (g.tree c).parent := by
  induction lines generalizing g with
  | nil => simp
  | cons l lines ih =>
      rw [List.map_cons, List.nodup_cons] at hnd
      rw [List.foldl_cons, ih hnd.2, addLine_parent]
      by_cases hc : c = l.1
      · subst hc
        have hfile : fileParent (l :: lines) l.1 = if l.2 = l.1 then none else some l.2 := by
          simp [fileParent]
        have hmem : l.1 ∈ List.map Prod.fst (l :: lines) := by simp
        rw [if_neg hnd.1, if_pos (rfl : l.1 = l.1), if_pos hmem, hfile]
        by_cases heq : l.2 = l.1
        · rw [if_pos heq, if_pos heq.symm]
          rfl
        · rw [if_neg heq, if_neg (Ne.symm heq)]
          rfl
      · have hfile : fileParent (l :: lines) c = fileParent lines c := by
          simp [fileParent, Ne.symm hc]
        rw [hfile, if_neg hc]
        simp only [List.map_cons, List.mem_cons, hc, false_or]

theorem addLines_children (lines : List (Nat × Nat)) (g : Globals) (p : Nat) :
    ((lines.foldl addLine g).tree p).children
      = (g.tree p).children + lines.countP fun l => l.2 = p ∧ l.1 ≠ l.2 := by
  induction lines generalizing g with
  | nil => simp
  | cons l lines ih =>
      rw [List.foldl_cons, ih, addLine_children, List.countP_cons]
      by_cases hl : l.2 = p ∧ l.1 ≠ l.2
      · rw [if_pos hl, if_pos (decide_eq_true hl)]
        push_cast
        ring
      · rw [if_neg hl, if_neg (by simpa using hl)]
        push_cast
        ring

theorem addLines_value (lines : List (Nat × Nat)) (g : Globals) (c : Nat) :
    ((lines.foldl addLine g).tree c).value = (g.tree c).value := by
  induction lines generalizing g with
  | nil => rfl
  | cons l lines ih => rw [List.foldl_cons, ih, addLine_value]

theorem addLines_numNodes (lines : List (Nat × Nat)) (g : Globals) :
    (lines.foldl addLine g).numNodes = g.numNodes := by
  induction lines generalizing g with
  | nil => rfl
  | cons l lines ih => rw [List.foldl_cons, ih, addLine_numNodes]

/-- The line of a child is found. -/
theorem fileParent_of_mem (hnd : (lines.map Prod.fst).Nodup) {l : Nat × Nat} (hl : l ∈ lines) :
    fileParent lines l.1 = if l.2 = l.1 then none else some l.2 := by
  induction lines with
  | nil => cases hl
  | cons a lines ih =>
      rw [List.map_cons, List.nodup_cons] at hnd
      by_cases ha : a.1 = l.1
      · have hal : l = a := by
          rcases List.mem_cons.mp hl with h | h
          · exact h
          · exact absurd (ha ▸ List.mem_map.mpr ⟨l, h, rfl⟩) hnd.1
        subst hal
        simp [fileParent]
      · have hl' : l ∈ lines := (List.mem_cons.mp hl).resolve_left fun h => ha (by rw [h])
        rw [← ih hnd.2 hl']
        simp [fileParent, ha]

theorem RootedTree.nodup (h : RootedTree n lines root) : (lines.map Prod.fst).Nodup :=
  h.nodes.nodup_iff.mpr List.nodup_range

/-- Every node has a line. -/
theorem RootedTree.line (h : RootedTree n lines root) {c : Nat} (hc : c < n) :
    ∃ l ∈ lines, l.1 = c := by
  have hmem : c ∈ lines.map Prod.fst := h.nodes.mem_iff.mpr (List.mem_range.mpr hc)
  exact List.mem_map.mp hmem

/-- The lines that name a parent are as many as the nodes with that parent. -/
theorem RootedTree.count_children (h : RootedTree n lines root) (p : Nat) :
    (lines.countP fun l => l.2 = p ∧ l.1 ≠ l.2)
      = Nat.count (fun c => fileParent lines c = some p) n := by
  have hline : (lines.countP fun l => l.2 = p ∧ l.1 ≠ l.2)
      = (lines.map Prod.fst).countP fun c => fileParent lines c = some p := by
    rw [List.countP_map]
    refine List.countP_congr fun l hl => ?_
    simp only [Function.comp_apply, decide_eq_true_eq, fileParent_of_mem h.nodup hl]
    by_cases heq : l.2 = l.1
    · simp [heq]
    · simp [heq, Ne.symm heq]
  rw [hline, h.nodes.countP_eq]
  rfl

theorem RootedTree.descending (h : RootedTree n lines root) :
    ∃ depth, Forest.Descending (Finset.range n) (fileParent lines) depth := by
  obtain ⟨depth, hd⟩ := h.depth
  have key : ∀ c < n, ∀ p, fileParent lines c = some p → p < n ∧ depth p < depth c := by
    intro c hc p hp
    obtain ⟨l, hl, rfl⟩ := h.line hc
    rw [fileParent_of_mem h.nodup hl] at hp
    split at hp
    · cases hp
    · obtain rfl := Option.some.inj hp
      exact ⟨h.parents l hl, hd l hl (Ne.symm ‹_›)⟩
  exact ⟨depth, fun c hc p hp => Finset.mem_range.mpr (key c (Finset.mem_range.mp hc) p hp).1,
    fun c hc p hp => (key c (Finset.mem_range.mp hc) p hp).2⟩

/-- Only the root has no parent. -/
theorem RootedTree.root_of_none (h : RootedTree n lines root) {c : Nat} (hc : c < n)
    (hp : fileParent lines c = none) : c = root := by
  obtain ⟨l, hl, rfl⟩ := h.line hc
  rw [fileParent_of_mem h.nodup hl] at hp
  split at hp
  · exact h.rootOnly l hl (Eq.symm ‹_›)
  · cases hp

/-! ## The loop over the nodes -/

/-- A barrier just initialised, on a private semaphore in use. -/
structure Ready (mem : Mem) (b : Nat) (count : Int) : Prop where
  count : (mem.barriers b).count = count
  reached : (mem.barriers b).reached = 0
  mutex : (mem.barriers b).mutexSemaphore = BAR_SEM_KEY
  semaphore : 3 ≤ (mem.barriers b).semaphore ∧ (mem.barriers b).semaphore < mem.nextSem
  empty : mem.semval (mem.barriers b).semaphore = 0

/-- After the first `k` nodes: the leaves have their values and the inner nodes their barriers. -/
structure SetupAt (g : Globals) (values : Nat → Int) (k : Nat) (x : Globals × Mem) : Prop where
  numNodes : x.1.numNodes = g.numNodes
  parent : ∀ i, (x.1.tree i).parent = (g.tree i).parent
  children : ∀ i, (x.1.tree i).children = (g.tree i).children
  value : ∀ i, (x.1.tree i).value
    = if i < k ∧ (g.tree i).children = 0 then values i else (g.tree i).value
  ready : ∀ b < k, (g.tree b).children ≠ 0 → Ready x.2 b (1 + (g.tree b).children)
  distinct : ∀ b < k, ∀ b' < k, (g.tree b).children ≠ 0 → (g.tree b').children ≠ 0 →
    (x.2.barriers b).semaphore = (x.2.barriers b').semaphore → b = b'
  table : x.2.threadTable = zeroMem.threadTable
  mutexSemaphore : x.2.mutexSemaphore = SEM_KEY
  next : 3 ≤ x.2.nextSem
  unused : ∀ id, x.2.nextSem ≤ id → x.2.semval id = 0

theorem ready_init (mem : Mem) (b : Nat) (count : Int) (h : 3 ≤ mem.nextSem) :
    Ready (foothreadBarrierInit mem b count) b count := by
  have hne : mem.nextSem ≠ BAR_SEM_KEY := by
    rw [BAR_SEM_KEY]
    omega
  refine ⟨by simp [foothreadBarrierInit], by simp [foothreadBarrierInit],
    by simp [foothreadBarrierInit], ?_, by simp [foothreadBarrierInit, hne]⟩
  simp [foothreadBarrierInit, h]

theorem barrierInit_unused {mem : Mem} (hnext : 3 ≤ mem.nextSem)
    (h : ∀ id, mem.nextSem ≤ id → mem.semval id = 0) (b : Nat) (count : Int) (id : Nat)
    (hid : (foothreadBarrierInit mem b count).nextSem ≤ id) :
    (foothreadBarrierInit mem b count).semval id = 0 := by
  have hlt : mem.nextSem < id := hid
  have hkey : id ≠ BAR_SEM_KEY := by
    rw [BAR_SEM_KEY]
    omega
  simp only [foothreadBarrierInit, Function.update_of_ne hkey, Function.update_of_ne hlt.ne']
  exact h id hlt.le

/-- Another barrier's initialisation takes a new semaphore. -/
theorem Ready.init {mem : Mem} {b b' : Nat} {count count' : Int} (h : Ready mem b count)
    (hb : b ≠ b') : Ready (foothreadBarrierInit mem b' count') b count := by
  have hsame : (foothreadBarrierInit mem b' count').barriers b = mem.barriers b :=
    Function.update_of_ne hb _ _
  have hkey : (mem.barriers b).semaphore ≠ BAR_SEM_KEY := by
    rw [BAR_SEM_KEY]
    have := h.semaphore.1
    omega
  have hnew : (mem.barriers b).semaphore ≠ mem.nextSem := h.semaphore.2.ne
  refine ⟨hsame ▸ h.count, hsame ▸ h.reached, hsame ▸ h.mutex, ?_, ?_⟩
  · rw [hsame]
    exact ⟨h.semaphore.1, h.semaphore.2.trans (Nat.lt_succ_self _)⟩
  · rw [hsame]
    simp only [foothreadBarrierInit, Function.update_of_ne hkey, Function.update_of_ne hnew]
    exact h.empty

theorem setupAt_zero (g : Globals) (values : Nat → Int) : SetupAt g values 0 (g, zeroMem) where
  numNodes := rfl
  parent := fun _ => rfl
  children := fun _ => rfl
  value := fun i => by rw [if_neg (by omega)]
  ready := fun b hb => absurd hb (Nat.not_lt_zero b)
  distinct := fun b hb => absurd hb (Nat.not_lt_zero b)
  table := rfl
  mutexSemaphore := rfl
  next := le_rfl
  unused := fun _ _ => rfl

theorem setupAt_leaf {k : Nat} {x : Globals × Mem} (h : SetupAt g values k x)
    (hk : (g.tree k).children = 0) :
    SetupAt g values (k + 1) (x.1.setNode k { x.1.tree k with value := values k }, x.2) where
  numNodes := h.numNodes
  parent := by
    intro i
    rw [← h.parent i]
    by_cases hi : i = k
    · subst hi
      simp [Globals.setNode]
    · simp [Globals.setNode, hi]
  children := by
    intro i
    rw [← h.children i]
    by_cases hi : i = k
    · subst hi
      simp [Globals.setNode]
    · simp [Globals.setNode, hi]
  value := by
    intro i
    by_cases hi : i = k
    · subst hi
      rw [if_pos ⟨Nat.lt_succ_self i, hk⟩]
      simp [Globals.setNode]
    · -- the values of the other nodes stay
      have hlt : i < k + 1 ↔ i < k := by omega
      simp only [Globals.setNode, Function.update_of_ne hi, hlt]
      exact h.value i
  ready := by
    intro b hb hc
    have hne : b ≠ k := fun he => hc (he ▸ hk)
    exact h.ready b (by omega) hc
  distinct := by
    intro b hb b' hb' hc hc' heq
    have hne : b ≠ k := fun he => hc (he ▸ hk)
    have hne' : b' ≠ k := fun he => hc' (he ▸ hk)
    exact h.distinct b (by omega) b' (by omega) hc hc' heq
  table := h.table
  mutexSemaphore := h.mutexSemaphore
  next := h.next
  unused := h.unused

theorem setupAt_inner {k : Nat} {x : Globals × Mem} (h : SetupAt g values k x)
    (hk : (g.tree k).children ≠ 0) :
    SetupAt g values (k + 1) (x.1, foothreadBarrierInit x.2 k (1 + (g.tree k).children)) where
  numNodes := h.numNodes
  parent := h.parent
  children := h.children
  value := by
    intro i
    rw [h.value i]
    by_cases hi : i = k
    · subst hi
      rw [if_neg (by simp), if_neg (by simp [hk])]
    · have hlt : i < k + 1 ↔ i < k := by omega
      simp only [hlt]
  ready := by
    intro b hb hc
    by_cases hbk : b = k
    · subst hbk
      exact ready_init x.2 b _ h.next
    · exact (h.ready b (by omega) hc).init hbk
  distinct := by
    -- the new barrier's semaphore is above all there are
    have hold : ∀ b, b ≠ k → (foothreadBarrierInit x.2 k (1 + (g.tree k).children)).barriers b
        = x.2.barriers b := fun b hb => Function.update_of_ne hb _ _
    have hnew : ((foothreadBarrierInit x.2 k (1 + (g.tree k).children)).barriers k).semaphore
        = x.2.nextSem := by simp [foothreadBarrierInit]
    intro b hb b' hb' hc hc' heq
    by_cases hbk : b = k
    · by_cases hbk' : b' = k
      · rw [hbk, hbk']
      · rw [hbk, hnew, hold b' hbk'] at heq
        have := (h.ready b' (by omega) hc').semaphore.2
        omega
    · by_cases hbk' : b' = k
      · rw [hbk', hnew, hold b hbk] at heq
        have := (h.ready b (by omega) hc).semaphore.2
        omega
      · rw [hold b hbk, hold b' hbk'] at heq
        exact h.distinct b (by omega) b' (by omega) hc hc' heq
  table := h.table
  mutexSemaphore := h.mutexSemaphore
  next := h.next.trans (Nat.le_succ _)
  unused := barrierInit_unused h.next h.unused k _

theorem setupAt_range (g : Globals) (values : Nat → Int) (k : Nat) :
    SetupAt g values k ((List.range k).foldl (setupNode values) (g, zeroMem)) := by
  induction k with
  | zero => exact setupAt_zero g values
  | succ k ih =>
      rw [List.range_succ, List.foldl_append, List.foldl_cons, List.foldl_nil, setupNode]
      split
      · rename_i hk
        exact setupAt_leaf ih (ih.children k ▸ hk)
      · rename_i hk
        rw [ih.children k]
        exact setupAt_inner ih (ih.children k ▸ hk)

/-! ## The state before the first thread -/

/-- **What `main` leaves to its threads**: the tree of the file, a fresh barrier for each inner
node, and semaphores the library does not use otherwise. -/
structure SetupOk (n : Nat) (lines : List (Nat × Nat)) (values : Nat → Int) (g : Globals)
    (mem : Mem) : Prop where
  tree : TreeOk n lines values g
  memory : MemOk mem.nextSem mem
  barriers : BarriersOk mem.nextSem g mem
  reached : ∀ b, Inner g b → (mem.barriers b).reached = 0
  empty : ∀ b, Inner g b → mem.semval (mem.barriers b).semaphore = 0
  table : ∀ i, mem.threadTable i = ⟨0, 0, 0, false, 0⟩
  unused : mem.semval mem.nextSem = 0

theorem initializeTree_value (n : Nat) (lines : List (Nat × Nat)) (v : Nat) :
    ((initializeTree n lines).tree v).value = 0 := by
  rw [initializeTree, addLines_value]
  simp only
  split <;> rfl

theorem initializeTree_children (h : RootedTree n lines root) (p : Nat) :
    ((initializeTree n lines).tree p).children
      = Nat.count (fun c => fileParent lines c = some p) n := by
  rw [initializeTree, addLines_children, h.count_children]
  simp only
  split <;> simp

theorem initializeTree_parent (h : RootedTree n lines root) {c : Nat} (hc : c < n) :
    ((initializeTree n lines).tree c).parent = parentField (fileParent lines c) := by
  have hmem : c ∈ lines.map Prod.fst := h.nodes.mem_iff.mpr (List.mem_range.mpr hc)
  rw [initializeTree, addLines_parent h.nodup, if_pos hmem]

/-- A barrier has one participant more than its node has children. -/
theorem TreeOk.count_participants (h : TreeOk n lines values g) {b : Nat} (hb : b < n) :
    (Nat.count (Participant g b) g.numNodes : Int) = 1 + (g.tree b).children := by
  have hgain : Nat.count (Participant g b) n
      = Nat.count (fun c => fileParent lines c = some b) n + 1 := by
    refine count_gain hb (fun c hc hcb => ?_) ?_ (.inl rfl)
    · unfold Participant spot
      rw [h.parent_eq hc]
      simp [hcb]
    · rw [← h.parent_eq hb]
      exact h.parent_ne hb
  rw [h.numNodes, hgain, h.children b hb]
  push_cast
  ring

theorem setup_ok (h : RootedTree n lines root) (values : Nat → Int) :
    SetupOk n lines values (setup n lines values).1 (setup n lines values).2 := by
  have hx := setupAt_range (initializeTree n lines) values n
  rw [setup]
  generalize (List.range n).foldl (setupNode values) (initializeTree n lines, zeroMem) = x at hx ⊢
  have hnum : x.1.numNodes = n := by
    rw [hx.numNodes, initializeTree, addLines_numNodes]
  have htree : TreeOk n lines values x.1 := by
    refine ⟨hnum, h.descending, fun c hc => ?_, fun p _ => ?_, fun v hv hc => ?_, fun v hv hc => ?_⟩
    · rw [hx.parent, initializeTree_parent h hc]
    · rw [hx.children, initializeTree_children h]
    · rw [hx.value, if_pos ⟨hv, hx.children v ▸ hc⟩]
    · rw [hx.value, if_neg (fun hcv => by rw [hx.children, hcv.2] at hc; omega),
        initializeTree_value]
  have hsmall := h.small
  -- the mutex and the common barrier are initialised after the barriers of the nodes
  have hready : ∀ b, Inner x.1 b → Ready (foothreadBarrierInit (foothreadMutexInit x.2 0)
      commonBarrierStart (n + 1)) b (1 + (x.1.tree b).children) := by
    intro b hb
    have hbn : b < n := hnum ▸ hb.1
    have hr := hx.ready b hbn (by rw [← hx.children]; exact hb.2.ne')
    rw [← hx.children] at hr
    have hkey : (x.2.barriers b).semaphore ≠ MUTEX_KEY := by
      rw [MUTEX_KEY]
      have := hr.semaphore.1
      omega
    have hr' : Ready (foothreadMutexInit x.2 0) b (1 + (x.1.tree b).children) := by
      refine ⟨hr.count, hr.reached, hr.mutex, hr.semaphore, ?_⟩
      simp only [foothreadMutexInit, Function.update_of_ne hkey]
      exact hr.empty
    exact hr'.init (by rw [commonBarrierStart]; omega)
  have hsame : ∀ b, Inner x.1 b → (foothreadBarrierInit (foothreadMutexInit x.2 0)
      commonBarrierStart (n + 1)).barriers b = x.2.barriers b := by
    intro b hb
    have hbn : b < n := hnum ▸ hb.1
    exact Function.update_of_ne (by rw [commonBarrierStart]; omega) _ _
  refine ⟨htree, ⟨hx.mutexSemaphore, ?_, fun i => ?_, ?_⟩, ⟨fun b hb => ?_, fun b hb => ?_,
    fun b hb => ?_, fun b b' hb hb' heq => ?_⟩, fun b hb => (hready b hb).reached,
    fun b hb => (hready b hb).empty, fun i => congrFun hx.table i, ?_⟩
  · simp [foothreadBarrierInit, foothreadMutexInit]
  · show Outside _ (x.2.threadTable i).semaphore
    rw [hx.table]
    exact .inl (by simp [zeroMem])
  · exact ⟨hx.next.trans (Nat.le_succ _), le_rfl⟩
  · rw [(hready b hb).count, htree.count_participants (hnum ▸ hb.1)]
  · exact (hready b hb).mutex
  · exact (hready b hb).semaphore
  · rw [hsame b hb, hsame b' hb'] at heq
    exact hx.distinct b (hnum ▸ hb.1) b' (hnum ▸ hb'.1) (by rw [← hx.children]; exact hb.2.ne')
      (by rw [← hx.children]; exact hb'.2.ne') heq
  · have hnext : 3 ≤ (foothreadMutexInit x.2 0).nextSem := hx.next
    refine barrierInit_unused hnext (fun id hid => ?_) commonBarrierStart _ _ le_rfl
    have hkey : id ≠ MUTEX_KEY := by
      have hlt : 3 ≤ id := hx.next.trans hid
      rw [MUTEX_KEY]
      omega
    simp only [foothreadMutexInit, Function.update_of_ne hkey]
    exact hx.unused id hid

/-! ## The root -/

theorem addLines_root {lines : List (Nat × Nat)} (hline : (root, root) ∈ lines)
    (honly : ∀ l ∈ lines, l.1 = l.2 → l.1 = root) (g : Globals) :
    (lines.foldl addLine g).root = root := by
  obtain ⟨l₁, l₂, rfl⟩ := List.append_of_mem hline
  rw [List.foldl_append, List.foldl_cons]
  -- the line of the root sets the variable, and no later line sets it to another node
  refine List.foldlRecOn (motive := fun g => g.root = root) l₂ addLine ?_ ?_
  · simp [addLine]
  · intro g hg l hl
    unfold addLine
    split
    · exact hg
    · exact honly l (by simp [hl]) (not_not.mp ‹_›)

theorem setup_root (h : RootedTree n lines root) (values : Nat → Int) :
    (setup n lines values).1.root = root := by
  simp only [setup]
  refine List.foldlRecOn (motive := fun x => x.1.root = root) _ (setupNode values) ?_ ?_
  · exact addLines_root h.rootLine h.rootOnly _
  · intro x hx i _
    rw [setupNode]
    split
    · exact hx
    · exact hx

theorem RootedTree.root_lt (h : RootedTree n lines root) : root < n := by
  have hmem : root ∈ lines.map Prod.fst := List.mem_map.mpr ⟨_, h.rootLine, rfl⟩
  exact List.mem_range.mp (h.nodes.mem_iff.mp hmem)

end OSLab.Foothread
