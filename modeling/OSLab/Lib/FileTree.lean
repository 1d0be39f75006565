import Mathlib.Data.List.AList
import Mathlib.Data.List.Infix
import Mathlib.Tactic.Common

set_option autoImplicit false

/-! # File trees

A finite tree of files and directories, as a finite map from paths. A path is the list of the
names on the way to the root, the last one first, so `n :: p` is the entry `n` of the directory
`p`, and an ancestor is a suffix. That every entry lies in a directory is a field of the tree
(`FileTree.closed`), which the three operations that change a tree keep.

The contents of a file and the attributes of a directory are parameters.
-/

namespace OSLab

variable {Name F G : Type*} [DecidableEq Name]

/-- What is at a path: a file or a directory. -/
inductive Node (F G : Type*)
  | file (a : F)
  | dir (b : G)
  deriving DecidableEq, Repr

def Node.map {F' G' : Type*} (f : F → F') (g : G → G') : Node F G → Node F' G'
  | .file a => .file (f a)
  | .dir b => .dir (g b)

structure FileTree (Name F G : Type*) [DecidableEq Name] where
  nodes : AList fun _ : List Name => Node F G
  closed : ∀ n p, (n :: p) ∈ nodes → ∃ b, nodes.lookup p = some (.dir b)

namespace FileTree

/-- What is at path `p`, if anything. -/
def get (t : FileTree Name F G) (p : List Name) : Option (Node F G) := t.nodes.lookup p

def isDir (t : FileTree Name F G) (p : List Name) : Bool :=
  match t.get p with
  | some (.dir _) => true
  | _ => false

def isFile (t : FileTree Name F G) (p : List Name) : Bool :=
  match t.get p with
  | some (.file _) => true
  | _ => false

/-- The names of the entries of directory `p`. -/
def names (t : FileTree Name F G) (p : List Name) : List Name :=
  t.nodes.keys.filterMap fun
    | n :: q => if q = p then some n else none
    | [] => none

/-- A bound on the length of the paths. -/
def height (t : FileTree Name F G) : Nat := (t.nodes.keys.map List.length).foldr max 0

/-- There is a directory for `p` to lie in, or `p` is the root. -/
def HasPlace (t : FileTree Name F G) : List Name → Prop
  | [] => True
  | _ :: p => t.isDir p = true

instance (t : FileTree Name F G) : (p : List Name) → Decidable (t.HasPlace p)
  | [] => inferInstanceAs (Decidable True)
  | _ :: _ => inferInstanceAs (Decidable (_ = true))

variable {t : FileTree Name F G} {p q : List Name} {n : Name} {a : F} {b : G}

/-! ## Paths -/

omit [DecidableEq Name] in
/-- What lies at or below `p` is `p` itself or lies at or below an entry of `p`. -/
theorem isSuffix_iff_eq_or_cons : p <:+ q ↔ q = p ∨ ∃ n, (n :: p) <:+ q := by
  constructor
  · rintro ⟨l, rfl⟩
    rcases List.eq_nil_or_concat l with rfl | ⟨l, n, rfl⟩
    · exact Or.inl rfl
    · exact Or.inr ⟨n, l, by simp⟩
  · rintro (rfl | ⟨n, h⟩)
    · exact List.suffix_refl _
    · exact (List.suffix_cons n p).trans h

omit [DecidableEq Name] in
theorem ne_of_cons_isSuffix (h : (n :: p) <:+ q) : q ≠ p := by
  rintro rfl
  have := h.length_le
  rw [List.length_cons] at this
  omega

omit [DecidableEq Name] in
theorem not_cons_isSuffix_self : ¬ (n :: p) <:+ p := fun h => ne_of_cons_isSuffix h rfl

omit [DecidableEq Name] in
theorem isSuffix_of_cons_isSuffix (h : (n :: p) <:+ q) : p <:+ q :=
  (List.suffix_cons n p).trans h

omit [DecidableEq Name] in
/-- A path lies below one entry of a directory only. -/
theorem eq_of_cons_isSuffix {m : Name} (hn : (n :: p) <:+ q) (hm : (m :: p) <:+ q) : n = m := by
  rcases List.suffix_or_suffix_of_suffix hn hm with h | h
  · exact (List.cons.inj (h.eq_of_length (by simp))).1
  · exact (List.cons.inj (h.eq_of_length (by simp))).1.symm

/-! ## Reading a tree -/

theorem isDir_iff : t.isDir p = true ↔ ∃ b, t.get p = some (.dir b) := by
  unfold isDir
  split
  · rename_i b h
    exact iff_of_true rfl ⟨b, h⟩
  · rename_i h
    simp only [Bool.false_eq_true, false_iff, not_exists]
    exact h

theorem isFile_iff : t.isFile p = true ↔ ∃ a, t.get p = some (.file a) := by
  unfold isFile
  split
  · rename_i a h
    exact iff_of_true rfl ⟨a, h⟩
  · rename_i h
    simp only [Bool.false_eq_true, false_iff, not_exists]
    exact h

theorem isFile_eq_false_of_isDir (h : t.isDir p = true) : t.isFile p = false := by
  obtain ⟨b, hb⟩ := isDir_iff.mp h
  simp [isFile, hb]

theorem isDir_eq_false_of_isFile (h : t.isFile p = true) : t.isDir p = false := by
  obtain ⟨a, ha⟩ := isFile_iff.mp h
  simp [isDir, ha]

theorem isFile_of_isDir_eq_false (h : t.get p ≠ none) (hd : t.isDir p = false) :
    t.isFile p = true := by
  cases hg : t.get p with
  | none => exact absurd hg h
  | some x =>
      cases x with
      | file a => exact isFile_iff.mpr ⟨a, hg⟩
      | dir b =>
          rw [isDir_iff.mpr ⟨b, hg⟩] at hd
          cases hd

theorem isDir_eq_false_of_get (h : t.get p = none) : t.isDir p = false := by
  simp [isDir, h]

theorem isFile_eq_false_of_get (h : t.get p = none) : t.isFile p = false := by
  simp [isFile, h]

theorem get_ne_none_of_isDir (h : t.isDir p = true) : t.get p ≠ none := by
  obtain ⟨b, hb⟩ := isDir_iff.mp h
  simp [hb]

theorem get_ne_none_of_isFile (h : t.isFile p = true) : t.get p ≠ none := by
  obtain ⟨a, ha⟩ := isFile_iff.mp h
  simp [ha]

theorem mem_nodes : p ∈ t.nodes ↔ t.get p ≠ none := by
  rw [← AList.lookup_isSome, get, Option.isSome_iff_ne_none]

theorem isDir_parent (h : t.get (n :: p) ≠ none) : t.isDir p = true :=
  isDir_iff.mpr (t.closed n p (mem_nodes.mpr h))

theorem hasPlace_of_get (h : t.get p ≠ none) : t.HasPlace p := by
  cases p with
  | nil => trivial
  | cons n p => exact isDir_parent h

/-- What is above an entry is a directory. -/
theorem isDir_of_isSuffix (hq : t.get q ≠ none) (hs : p <:+ q) (hne : p ≠ q) :
    t.isDir p = true := by
  induction q with
  | nil => exact absurd (List.suffix_nil.mp hs) hne
  | cons n q ih =>
      have hd := isDir_parent hq
      rcases List.suffix_cons_iff.mp hs with rfl | hs
      · exact absurd rfl hne
      · by_cases he : p = q
        · exact he ▸ hd
        · obtain ⟨b, hb⟩ := isDir_iff.mp hd
          exact ih (by simp [hb]) hs he

/-- Nothing lies below what is not a directory. -/
theorem get_eq_none_of_isSuffix (hp : t.isDir p = false) (hs : p <:+ q) (hne : p ≠ q) :
    t.get q = none := by
  by_contra hq
  rw [isDir_of_isSuffix hq hs hne] at hp
  cases hp

theorem mem_names : n ∈ t.names p ↔ t.get (n :: p) ≠ none := by
  rw [← mem_nodes, AList.mem_keys, names, List.mem_filterMap]
  constructor
  · rintro ⟨q, hq, he⟩
    cases q with
    | nil => cases he
    | cons m q =>
        simp only [Option.ite_none_right_eq_some, Option.some.injEq] at he
        obtain ⟨rfl, rfl⟩ := he
        exact hq
  · intro h
    exact ⟨n :: p, h, by simp⟩

theorem nodup_names (t : FileTree Name F G) (p : List Name) : (t.names p).Nodup := by
  refine t.nodes.keys_nodup.filterMap ?_
  intro q q' m hm hm'
  cases q with
  | nil => cases hm
  | cons k q =>
      cases q' with
      | nil => cases hm'
      | cons k' q' =>
          simp only [Option.mem_def, Option.ite_none_right_eq_some, Option.some.injEq] at hm hm'
          obtain ⟨rfl, rfl⟩ := hm
          obtain ⟨rfl, rfl⟩ := hm'
          rfl

theorem length_le_height (h : t.get p ≠ none) : p.length ≤ t.height := by
  have hmem : p.length ∈ t.nodes.keys.map List.length :=
    List.mem_map_of_mem (AList.mem_keys.mp (mem_nodes.mpr h))
  have hmax : ∀ (l : List Nat) (k : Nat), k ∈ l → k ≤ l.foldr max 0 := by
    intro l k hk
    induction l with
    | nil => cases hk
    | cons m l ih =>
        rw [List.foldr_cons]
        rcases List.mem_cons.mp hk with rfl | hk
        · exact Nat.le_max_left _ _
        · exact (ih hk).trans (Nat.le_max_right _ _)
  exact hmax _ _ hmem

/-! ## Changing a tree -/

/-- A directory at `p`, new or in place of what is there. -/
def putDir (t : FileTree Name F G) (p : List Name) (b : G) (h : t.HasPlace p) :
    FileTree Name F G where
  nodes := t.nodes.insert p (.dir b)
  closed n q hq := by
    have hdir : ∃ b, t.nodes.lookup q = some (.dir b) := by
      rcases (AList.mem_insert _).mp hq with rfl | hq
      · exact isDir_iff.mp h
      · exact t.closed n q hq
    by_cases he : q = p
    · exact ⟨b, by rw [he, AList.lookup_insert]⟩
    · rw [AList.lookup_insert_ne he]
      exact hdir

/-- A file at `p`, where no directory is. -/
def putFile (t : FileTree Name F G) (p : List Name) (a : F) (h : t.HasPlace p)
    (hd : t.isDir p = false) : FileTree Name F G where
  nodes := t.nodes.insert p (.file a)
  closed n q hq := by
    have hdir : ∃ b, t.nodes.lookup q = some (.dir b) := by
      rcases (AList.mem_insert _).mp hq with rfl | hq
      · exact isDir_iff.mp h
      · exact t.closed n q hq
    have he : q ≠ p := by
      rintro rfl
      rw [isDir_iff.mpr hdir] at hd
      cases hd
    rw [AList.lookup_insert_ne he]
    exact hdir

/-- The tree without what is at `p`, which has no entries. -/
def erase (t : FileTree Name F G) (p : List Name) (h : t.names p = []) : FileTree Name F G where
  nodes := t.nodes.erase p
  closed n q hq := by
    have hmem : (n :: q) ∈ t.nodes := (AList.mem_erase.mp hq).2
    have he : q ≠ p := by
      rintro rfl
      have := mem_names.mpr (mem_nodes.mp hmem)
      rw [h] at this
      cases this
    rw [AList.lookup_erase_ne he]
    exact t.closed n q hmem

theorem get_putDir (h : t.HasPlace p) (q : List Name) :
    (t.putDir p b h).get q = if q = p then some (.dir b) else t.get q := by
  by_cases he : q = p
  · rw [if_pos he, he]
    exact AList.lookup_insert _
  · rw [if_neg he]
    exact AList.lookup_insert_ne he

theorem get_putFile (h : t.HasPlace p) (hd : t.isDir p = false) (q : List Name) :
    (t.putFile p a h hd).get q = if q = p then some (.file a) else t.get q := by
  by_cases he : q = p
  · rw [if_pos he, he]
    exact AList.lookup_insert _
  · rw [if_neg he]
    exact AList.lookup_insert_ne he

theorem get_erase (h : t.names p = []) (q : List Name) :
    (t.erase p h).get q = if q = p then none else t.get q := by
  by_cases he : q = p
  · rw [if_pos he, he]
    exact AList.lookup_erase _ _
  · rw [if_neg he]
    exact AList.lookup_erase_ne he

/-- A file has no entries. -/
theorem names_eq_nil_of_isDir_eq_false (h : t.isDir p = false) : t.names p = [] := by
  rw [List.eq_nil_iff_forall_not_mem]
  intro n hn
  rw [isDir_parent (mem_names.mp hn)] at h
  cases h

/-- The tree with the contents or the attributes at `p` changed, if there is anything. -/
def modify (t : FileTree Name F G) (p : List Name) (f : F → F) (g : G → G) : FileTree Name F G :=
  match h : t.get p with
  | some (.file a) =>
      t.putFile p (f a) (hasPlace_of_get (by simp [h]))
        (isDir_eq_false_of_isFile (isFile_iff.mpr ⟨a, h⟩))
  | some (.dir b) => t.putDir p (g b) (hasPlace_of_get (by simp [h]))
  | none => t

theorem get_modify (f : F → F) (g : G → G) (q : List Name) :
    (t.modify p f g).get q = if q = p then (t.get p).map (Node.map f g) else t.get q := by
  unfold modify
  split <;> rename_i h
  · rw [get_putFile, h]
    rfl
  · rw [get_putDir, h]
    rfl
  · split
    · rename_i he
      rw [he, h]
      rfl
    · rfl

theorem get_modify_of_ne {f : F → F} {g : G → G} (h : q ≠ p) :
    (t.modify p f g).get q = t.get q := by
  rw [get_modify, if_neg h]

/-- The tree with a single directory, the root. -/
def root (b : G) : FileTree Name F G where
  nodes := AList.singleton [] (.dir b)
  closed n p h := by
    rw [AList.mem_keys, AList.keys_singleton, List.mem_singleton] at h
    cases h

end FileTree

end OSLab
