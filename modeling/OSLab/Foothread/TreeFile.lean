import OSLab.Foothread.Gentree
import OSLab.Foothread.Setup
import OSLab.Lib.Text

set_option autoImplicit false

/-! # The file between `gentree.c` and `computesum.c`

The generator writes the number of nodes and a line for each node, and `initialize_tree` reads them
through a buffer of `MAX_LINE_LENGTH` bytes with `fgets` and `sscanf`. For up to `MAX_NODES` nodes
a line fits the buffer, and each comes back as the numbers that went into it
(`initializeTreeFile_treeText`). So what the reader makes of a generated tree is that tree
(`generated_tree_read`).
-/

namespace OSLab.Foothread

open Text (decimal scanInt asInt fgets)

def MAX_LINE_LENGTH : Nat := 10
def MAX_NODES : Nat := 400

/-- `fprintf(fp, "%d %d\n", ..)`. -/
def treeLine (l : Nat × Nat) : List Char := decimal l.1 ++ ' ' :: (decimal l.2 ++ ['\n'])

/-- The number of nodes, and the lines. -/
def treeText (n : Nat) (lines : List (Nat × Nat)) : List Char :=
  decimal n ++ '\n' :: lines.flatMap treeLine

/-- A line for each node, as `gentree.c` prints them. -/
def parentLines (n : Nat) (P : List Nat) : List (Nat × Nat) :=
  (List.range n).map fun i => (i, P.getD i 0)

/-- `sscanf(line, "%d %d", &child, &parent)`: what is not scanned keeps its value. -/
def scanLine (line : List Char) (old : Int × Int) : Int × Int :=
  match scanInt line with
  | (none, _) => old
  | (some child, rest) => (asInt child, ((scanInt rest).1.map asInt).getD old.2)

/-- An index of `tree`. -/
def treeIndex (z : Int) : Option Nat := if 0 ≤ z ∧ z < MAX_NODES then some z.toNat else none

/-- The loop of `initialize_tree`, with the variables `child` and `parent`. -/
def readLines : Nat → List Char → Int × Int → Globals → Option Globals
  | 0, _, _, _ => none
  | fuel + 1, text, vars, g =>
      match fgets MAX_LINE_LENGTH text with
      | none => some g
      | some (line, rest) => do
          let vars := scanLine line vars
          let child ← treeIndex vars.1
          let parent ← treeIndex vars.2
          readLines fuel rest vars (addLine g (child, parent))

/-- `initialize_tree` on the text of its file; `vars` is what `child` and `parent` hold before they
are read. A number of nodes the table has no room for has no value. -/
def initializeTreeFile (vars : Int × Int) (text : List Char) : Option Globals := do
  let (line, rest) ← fgets MAX_LINE_LENGTH text
  let numNodes : Int := ((scanInt line).1.map asInt).getD 0
  if 0 ≤ numNodes ∧ numNodes ≤ MAX_NODES then
    readLines (rest.length + 1) rest vars (initializeTree numNodes.toNat [])
  else none

variable {n c p : Nat} {lines : List (Nat × Nat)} {vars : Int × Int} {g : Globals}

/-! ## A line -/

/-- A node has three digits at most. -/
theorem length_decimal_le (h : c ≤ MAX_NODES) : (decimal c).length ≤ 3 := by
  rw [MAX_NODES] at h
  exact (Text.length_decimal_le_iff (by decide)).mpr (by omega)

theorem newline_not_mem_decimal (c : Nat) : '\n' ∉ decimal c :=
  Text.not_mem_decimal c rfl (by decide)

theorem asInt_node (h : c ≤ MAX_NODES) : asInt c = c := by
  rw [MAX_NODES] at h
  exact Text.asInt_eq ⟨by omega, by omega⟩

/-- A line is scanned back. -/
theorem scanLine_treeLine (hc : c < MAX_NODES) (hp : p < MAX_NODES) (old : Int × Int) :
    scanLine (treeLine (c, p)) old = ((c : Int), (p : Int)) := by
  have hchild : scanInt (treeLine (c, p)) = (some (c : Int), ' ' :: (decimal p ++ ['\n'])) :=
    Text.scanInt_decimal c (Text.noDigit_cons rfl)
  have hparent : scanInt (' ' :: (decimal p ++ ['\n'])) = (some (p : Int), ['\n']) := by
    rw [Text.scanInt_space rfl]
    exact Text.scanInt_decimal p (Text.noDigit_cons rfl)
  simp only [scanLine, hchild, hparent, Option.map_some, Option.getD_some, asInt_node hc.le,
    asInt_node hp.le]

theorem treeIndex_natCast (h : c < MAX_NODES) : treeIndex c = some c := by
  rw [treeIndex, if_pos ⟨Int.natCast_nonneg c, by exact_mod_cast h⟩, Int.toNat_natCast]

/-- A line fits the buffer. -/
theorem fgets_treeLine (hc : c < MAX_NODES) (hp : p < MAX_NODES) (rest : List Char) :
    fgets MAX_LINE_LENGTH (treeLine (c, p) ++ rest) = some (treeLine (c, p), rest) := by
  have hmem : '\n' ∉ decimal c ++ ' ' :: decimal p := by
    simp only [List.mem_append, List.mem_cons, not_or]
    exact ⟨newline_not_mem_decimal c, by decide, newline_not_mem_decimal p⟩
  have hlen : (decimal c ++ ' ' :: decimal p).length + 1 < MAX_LINE_LENGTH := by
    have := length_decimal_le hc.le
    have := length_decimal_le hp.le
    rw [List.length_append, List.length_cons, MAX_LINE_LENGTH]
    omega
  calc fgets MAX_LINE_LENGTH (treeLine (c, p) ++ rest)
      = fgets MAX_LINE_LENGTH ((decimal c ++ ' ' :: decimal p) ++ '\n' :: rest) := by
        simp [treeLine]
    _ = some ((decimal c ++ ' ' :: decimal p) ++ ['\n'], rest) := Text.fgets_line hmem hlen rest
    _ = some (treeLine (c, p), rest) := by simp [treeLine]

/-! ## The file -/

/-- By induction on the lines: each is read, scanned and entered. -/
theorem readLines_treeLines (lines : List (Nat × Nat)) : ∀ {fuel : Nat} {vars : Int × Int}
    {g : Globals}, (∀ l ∈ lines, l.1 < MAX_NODES ∧ l.2 < MAX_NODES) → lines.length < fuel →
    readLines fuel (lines.flatMap treeLine) vars g = some (lines.foldl addLine g) := by
  induction lines with
  | nil =>
      intro fuel vars g _ hfuel
      obtain ⟨fuel, rfl⟩ : ∃ k, fuel = k + 1 := ⟨fuel - 1, by rw [List.length_nil] at hfuel; omega⟩
      rfl
  | cons l lines ih =>
      intro fuel vars g hl hfuel
      rw [List.length_cons] at hfuel
      obtain ⟨fuel, rfl⟩ : ∃ k, fuel = k + 1 := ⟨fuel - 1, by omega⟩
      obtain ⟨hc, hp⟩ := hl l List.mem_cons_self
      have hrest : readLines fuel (lines.flatMap treeLine) ((l.1 : Int), (l.2 : Int)) (addLine g l)
          = some (lines.foldl addLine (addLine g l)) :=
        ih (fun x hx => hl x (List.mem_cons_of_mem _ hx)) (by omega)
      rw [List.flatMap_cons, List.foldl_cons, ← hrest]
      simp only [readLines, fgets_treeLine hc hp, scanLine_treeLine hc hp, treeIndex_natCast hc,
        treeIndex_natCast hp, Option.bind_eq_bind, Option.bind_some]

/-- **What is written is read**, for nodes the table has room for. -/
theorem initializeTreeFile_treeText (vars : Int × Int) (hn : n ≤ MAX_NODES)
    (hl : ∀ l ∈ lines, l.1 < MAX_NODES ∧ l.2 < MAX_NODES) :
    initializeTreeFile vars (treeText n lines) = some (initializeTree n lines) := by
  have hlen : (decimal n).length + 1 < MAX_LINE_LENGTH := by
    have := length_decimal_le hn
    rw [MAX_LINE_LENGTH]
    omega
  have hline := Text.fgets_line (newline_not_mem_decimal n) hlen (lines.flatMap treeLine)
  have hnum : scanInt (decimal n ++ ['\n']) = (some (n : Int), ['\n']) :=
    Text.scanInt_decimal n (Text.noDigit_cons rfl)
  have hrange : 0 ≤ (n : Int) ∧ (n : Int) ≤ MAX_NODES := ⟨Int.natCast_nonneg n, by exact_mod_cast hn⟩
  have hfuel : lines.length < (lines.flatMap treeLine).length + 1 :=
    Nat.lt_succ_of_le (Text.length_le_flatMap fun l _ => by simp [treeLine])
  rw [initializeTreeFile, treeText, hline]
  simp only [Option.bind_eq_bind, Option.bind_some, hnum, Option.map_some, Option.getD_some,
    asInt_node hn, if_pos hrange, Int.toNat_natCast]
  exact readLines_treeLines lines hl hfuel

/-! ## A generated tree -/

variable {P : List Nat} {root : Nat}

theorem parentLines_fst (n : Nat) (P : List Nat) :
    (parentLines n P).map Prod.fst = List.range n := by
  rw [parentLines, List.map_map]
  exact List.map_id _

theorem parentLines_nodup (n : Nat) (P : List Nat) : ((parentLines n P).map Prod.fst).Nodup := by
  rw [parentLines_fst]
  exact List.nodup_range

theorem fileParent_parentLines (hc : c < n) :
    fileParent (parentLines n P) c = if P.getD c 0 = c then none else some (P.getD c 0) :=
  fileParent_of_mem (parentLines_nodup n P) (l := (c, P.getD c 0))
    (List.mem_map.mpr ⟨c, List.mem_range.mpr hc, rfl⟩)

/-- The parent that is stored. -/
theorem parentLines_parent (hc : c < n) :
    ((initializeTree n (parentLines n P)).tree c).parent
      = if P.getD c 0 = c then -1 else (P.getD c 0 : Int) := by
  have hmem : c ∈ (parentLines n P).map Prod.fst := by
    rw [parentLines_fst]
    exact List.mem_range.mpr hc
  rw [initializeTree, addLines_parent (parentLines_nodup n P), if_pos hmem,
    fileParent_parentLines hc]
  split <;> rfl

/-- The number of children that is stored is that of the nodes whose parent is the node. -/
theorem parentLines_children (n : Nat) (P : List Nat) (i : Nat) :
    ((initializeTree n (parentLines n P)).tree i).children
      = Nat.count (fun j => ((initializeTree n (parentLines n P)).tree j).parent = i) n := by
  have hlines : (parentLines n P).countP (fun l => l.2 = i ∧ l.1 ≠ l.2)
      = Nat.count (fun j => P.getD j 0 = i ∧ j ≠ P.getD j 0) n := by
    rw [parentLines, List.countP_map]
    rfl
  have hcount : Nat.count (fun j => P.getD j 0 = i ∧ j ≠ P.getD j 0) n
      = Nat.count (fun j => ((initializeTree n (parentLines n P)).tree j).parent = i) n := by
    refine count_congr fun j hj => ?_
    rw [parentLines_parent hj]
    split
    case isTrue hself =>
        refine iff_of_false (fun h => h.2 hself.symm) ?_
        omega
    case isFalse hne =>
        rw [Int.natCast_inj]
        exact and_iff_left (Ne.symm hne)
  rw [← hcount, ← hlines]
  have hstart : (if i < n then (⟨0, 0, -1, 0⟩ : TreeNode) else ⟨0, 0, 0, 0⟩).children = 0 := by
    split <;> rfl
  rw [initializeTree, addLines_children, hstart, Int.zero_add]

theorem parentLines_root (h : ParentTree P root) (hlen : P.length = n) :
    (initializeTree n (parentLines n P)).root = root := by
  apply addLines_root
  · refine List.mem_map.mpr ⟨root, List.mem_range.mpr (hlen ▸ h.root_lt), ?_⟩
    rw [h.root_self]
  · intro l hl heq
    obtain ⟨i, hi, rfl⟩ := List.mem_map.mp hl
    exact h.root_only i (hlen ▸ List.mem_range.mp hi) (Eq.symm heq)

/-- **Generated trees are trees and are read back as such.** -/
theorem generated_tree_read (rand : Nat → Nat) (n : Nat) (hn : 1 ≤ n) (hmax : n ≤ 400)
    (vars : Int × Int) :
    ∃ P root, gentree rand n = some (P.map some) ∧ P.length = n ∧ ParentTree P root
      ∧ ∃ g, initializeTreeFile vars (treeText n (parentLines n P)) = some g
        ∧ g.numNodes = n ∧ g.root = root ∧ (g.tree root).parent = -1
        ∧ (∀ i < n, i ≠ root → (g.tree i).parent = P.getD i 0)
        ∧ ∀ i < n, (g.tree i).children = Nat.count (fun j => (g.tree j).parent = i) n := by
  obtain ⟨P, root, hgen, hlen, htree⟩ := gentree_tree rand hn
  have hnodes : ∀ l ∈ parentLines n P, l.1 < MAX_NODES ∧ l.2 < MAX_NODES := by
    intro l hl
    obtain ⟨i, hi, rfl⟩ := List.mem_map.mp hl
    have hi : i < n := List.mem_range.mp hi
    have hp : P.getD i 0 ∈ P := by
      rw [List.getD_eq_getElem _ _ (by omega)]
      exact List.getElem_mem _
    have hlt := htree.parents _ hp
    rw [MAX_NODES]
    exact ⟨by omega, by omega⟩
  refine ⟨P, root, hgen, hlen, htree, initializeTree n (parentLines n P),
    initializeTreeFile_treeText vars hmax hnodes, ?_, parentLines_root htree hlen, ?_, ?_,
    fun i _ => parentLines_children n P i⟩
  · rw [initializeTree, addLines_numNodes]
  · rw [parentLines_parent (hlen ▸ htree.root_lt), if_pos htree.root_self]
  · intro i hi hne
    rw [parentLines_parent hi, if_neg fun hself => hne (htree.root_only i (hlen ▸ hi) hself)]

/-- A root with two children, one of which has two of its own. -/
theorem generated_tree_read_five :
    gentree (fun k => k) 5 = some ([0, 4, 0, 4, 0].map some)
      ∧ ∃ P root, gentree (fun k => k) 5 = some (P.map some) ∧ P.length = 5 ∧ ParentTree P root
        ∧ ∃ g, initializeTreeFile (0, 0) (treeText 5 (parentLines 5 P)) = some g
          ∧ g.numNodes = 5 ∧ g.root = root ∧ (g.tree root).parent = -1
          ∧ (∀ i < 5, i ≠ root → (g.tree i).parent = P.getD i 0)
          ∧ ∀ i < 5, (g.tree i).children = Nat.count (fun j => (g.tree j).parent = i) 5 :=
  ⟨by decide, generated_tree_read (fun k => k) 5 (by decide) (by decide) (0, 0)⟩

end OSLab.Foothread
