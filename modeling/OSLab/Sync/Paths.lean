import OSLab.Sync.Visit

set_option autoImplicit false

/-! # The paths of the items

The program puts the paths of an item together for each entry, in either tree, of a directory of the
source. Where all of them fit the buffers (`PathsFit`) an item has the same path on both sides, and it
stays so while the destination changes, as nothing comes to it that the source does not have.

Each path is longer than the one it is made from, so the recursion comes to an end on any two trees
(`sync_ne_outOfFuel`).
-/

namespace OSLab.Sync

open FileTree

variable {E : Env} {args : Args} {S D D' : Tree} {s : State} {p q : List Name} {n : Name} {root : Nat}

/-- Both paths of the item fit. -/
def Args.Fit (args : Args) (p : List Name) : Prop :=
  strlen args.src p < MAX_PATH_LENGTH ∧ strlen args.dst p < MAX_PATH_LENGTH

instance (args : Args) (p : List Name) : Decidable (args.Fit p) :=
  inferInstanceAs (Decidable (_ ∧ _))

/-- All paths that are put together for the trees `S` and `D` fit. -/
def PathsFit (args : Args) (S D : Tree) : Prop :=
  ∀ q n, S.isDir q = true → S.get (n :: q) ≠ none ∨ D.get (n :: q) ≠ none → args.Fit (n :: q)

/-- Those of the items below `p` do. -/
def FitBelow (args : Args) (S D : Tree) (p : List Name) : Prop :=
  ∀ q n, p <:+ q → S.isDir q = true → S.get (n :: q) ≠ none ∨ D.get (n :: q) ≠ none →
    args.Fit (n :: q)

/-! ## Paths that fit -/

theorem strlen_cons : strlen root (n :: p) = strlen root p + (n.length + 1) := rfl

theorem length_le_strlen : p.length ≤ strlen root p := by
  induction p with
  | nil => exact Nat.zero_le _
  | cons n p ih =>
      rw [strlen_cons, List.length_cons]
      omega

theorem itemPath_of_fit (h : strlen root (n :: p) < MAX_PATH_LENGTH) :
    itemPath root p n = some (n :: p) := if_pos h

theorem visitEntry_of_fit {sync : List Name → List Name → State → Run} (h : args.Fit (n :: p)) :
    visitEntry E args S sync p p s n = syncItems E S sync (n :: p) (n :: p) s := by
  simp only [visitEntry, itemPath_of_fit h.1, itemPath_of_fit h.2]

theorem fitBelow_nil : FitBelow args S D [] ↔ PathsFit args S D :=
  ⟨fun h q n => h q n List.nil_suffix, fun h q n _ => h q n⟩

theorem FitBelow.cons (h : FitBelow args S D p) : FitBelow args S D (n :: p) :=
  fun q m hq => h q m (isSuffix_of_cons_isSuffix hq)

/-- The paths still fit when nothing has come that the source does not have. -/
theorem FitBelow.of_only (h : FitBelow args S D p)
    (honly : ∀ n q, (n :: p) <:+ q → D'.get q ≠ none → S.get q ≠ none ∨ D.get q ≠ none) :
    FitBelow args S D' p := by
  intro q n hq hS hex
  obtain ⟨m, hm⟩ : ∃ m, (m :: p) <:+ n :: q := by
    rcases isSuffix_iff_eq_or_cons.mp (hq.trans (List.suffix_cons n q)) with he | hm
    · exact absurd (he ▸ hq) not_cons_isSuffix_self
    · exact hm
  exact h q n hq hS (hex.elim .inl (honly m _ hm))

theorem FitBelow.congr (h : FitBelow args S D p)
    (hD : ∀ n q, (n :: p) <:+ q → D'.get q = D.get q) : FitBelow args S D' p :=
  h.of_only fun n q hq hne => .inr (hD n q hq ▸ hne)

/-- What a synchronisation has left or made is in one of the trees. -/
theorem Final.get_ne_none (h : Final S D D' q) (hne : D'.get q ≠ none) :
    S.get q ≠ none ∨ D.get q ≠ none := by
  by_contra hnone
  obtain ⟨hS, hD⟩ := not_or.mp hnone
  have hS : S.get q = none := not_not.mp hS
  simp only [Final, hS] at h
  by_cases hsh : Shadowed S D q
  · exact hD (h.1 hsh ▸ hne)
  · exact hne (h.2 hsh)

/-- The source is not as deep as the paths are long. -/
theorem PathsFit.length_lt (h : PathsFit args S D) (hq : S.get q ≠ none) :
    q.length < MAX_PATH_LENGTH := by
  cases q with
  | nil => decide
  | cons n q => exact length_le_strlen.trans_lt (h q n (isDir_parent hq) (.inl hq)).1

/-! ## Paths that do not -/

/-- The path of an item fits the buffer, cut short or not, and is longer than the path of the
directory. -/
theorem strlen_itemPath (h : itemPath root p n = some q) :
    strlen root p < strlen root q ∧ strlen root q < MAX_PATH_LENGTH := by
  have hmax : MAX_PATH_LENGTH = 1024 := rfl
  simp only [itemPath] at h
  by_cases hfit : strlen root (n :: p) < MAX_PATH_LENGTH
  · rw [if_pos hfit] at h
    cases h
    rw [strlen_cons] at hfit ⊢
    omega
  · rw [if_neg hfit] at h
    split_ifs at h with hleft
    cases h
    have hpos : 0 < MAX_PATH_LENGTH - 1 - (strlen root p + 1) := by
      refine Nat.pos_of_ne_zero fun hz => hleft (.inl ?_)
      rw [hz, List.take_zero]
    rw [strlen_cons, List.length_take]
    omega

theorem bind_ne_outOfFuel {r : Run} {f : State → Run} (h : r ≠ .error .outOfFuel)
    (hf : ∀ s, f s ≠ .error .outOfFuel) : r >>= f ≠ .error .outOfFuel := by
  cases r with
  | ok s => exact hf s
  | error e =>
      intro he
      cases he
      exact h rfl

theorem foldlM_ne_outOfFuel {visit : State → Name → Run} (h : ∀ s n, visit s n ≠ .error .outOfFuel)
    (l : List Name) (s : State) : l.foldlM visit s ≠ .error .outOfFuel := by
  induction l generalizing s with
  | nil => exact fun he => by cases he
  | cons n l ih =>
      rw [List.foldlM_cons]
      exact bind_ne_outOfFuel (h s n) ih

theorem copyItem_ne_outOfFuel (type : ChangeType) (srcStat dstStat : Stat) (s : State) :
    copyItem E S type srcStat dstStat p q s ≠ .error .outOfFuel := by
  refine bind_ne_outOfFuel ?_ fun s he => by cases he
  unfold copyFile
  split
  · split <;> exact fun he => by cases he
  · exact fun he => by cases he

theorem syncItems_ne_outOfFuel {sync : List Name → List Name → State → Run}
    (h : ∀ s, sync p q s ≠ .error .outOfFuel) (s : State) :
    syncItems E S sync p q s ≠ .error .outOfFuel := by
  simp only [syncItems]
  cases stat S p with
  | none =>
      simp only
      split <;> exact fun he => by cases he
  | some srcStat =>
      simp only
      split
      · exact h _
      · split
        · split
          · exact h _
          · exact copyItem_ne_outOfFuel _ _ _ _
        · split
          · exact copyItem_ne_outOfFuel _ _ _ _
          · exact fun he => by cases he

/-- **The recursion ends**, on any two trees. -/
theorem syncDirectories_ne_outOfFuel {fuel : Nat} (hpos : 0 < fuel)
    (hfuel : MAX_PATH_LENGTH ≤ strlen args.src p + fuel) (s : State) :
    syncDirectories E args S fuel p q s ≠ .error .outOfFuel := by
  induction fuel generalizing p q s with
  | zero => exact absurd hpos (Nat.lt_irrefl 0)
  | succ fuel ih =>
      have hvisit : ∀ s n, visitEntry E args S (syncDirectories E args S fuel) p q s n
          ≠ .error .outOfFuel := by
        intro s n
        unfold visitEntry
        cases hp : itemPath args.src p n with
        | none => exact fun he => by cases he
        | some p' =>
            cases hq : itemPath args.dst q n with
            | none => exact fun he => by cases he
            | some q' =>
                obtain ⟨hlt, hfit⟩ := strlen_itemPath hp
                exact syncItems_ne_outOfFuel (fun s => ih (by omega) (by omega) s) s
      simp only [syncDirectories]
      cases stat S p with
      | none => exact fun he => by cases he
      | some srcStat =>
          simp only
          by_cases hopen : (S.isDir p && ((if (stat s.dst q).isNone = true
              then makeDirectory E srcStat q s else s).dst.isDir q)) = true
          · rw [if_pos hopen]
            exact bind_ne_outOfFuel (foldlM_ne_outOfFuel hvisit _ _)
              fun s => foldlM_ne_outOfFuel hvisit _ _
          · rw [if_neg hopen]
            exact fun he => by cases he

theorem sync_ne_outOfFuel : sync E args S D ≠ .error .outOfFuel :=
  syncDirectories_ne_outOfFuel (by decide) (Nat.le_add_left _ _) _

end OSLab.Sync
